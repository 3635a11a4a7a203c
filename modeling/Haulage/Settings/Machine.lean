import Haulage.Item.Attempt
import Haulage.Settings.Basic

/-!
# Workers and buffers

What the settings leave open is decided by the machine. The number of workers
follows the number of processors, within limits.

Each worker has one transfer buffer. All buffers together stay under a hundredth
of the available memory, but none is smaller than a fixed least size.
-/

namespace Haulage

/-- What a machine offers. -/
structure Machine where
  processors : Nat
  /-- The memory that is available, in bytes. -/
  memory : Nat
  deriving Repr, DecidableEq

/-- The number of workers on a machine. A pool has at least one. -/
def Settings.workerCount (m : Machine) (s : Settings) : Nat :=
  max 1 (s.workers.getD (min m.processors 16))

namespace BufferSize

/-- The least size of a worker's buffer. -/
def least : Nat := 8 * 1024

/-- The size of a buffer where nothing is said. -/
def usual : Nat := 1024 * 1024

/-- The share of one worker in a hundredth of the memory. -/
def share (memory workers : Nat) : Nat := memory / 100 / max workers 1

/-- The size of each worker's buffer, given the memory that is available. -/
def perWorker (memory : Nat) (configured : Option Nat) (workers : Nat) : BufferSize :=
  ⟨max (min (configured.getD usual) (share memory workers)) least,
    Nat.lt_of_lt_of_le (by decide) (Nat.le_max_right _ _)⟩

end BufferSize

end Haulage
