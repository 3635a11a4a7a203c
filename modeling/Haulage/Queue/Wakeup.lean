/-!
# Wakeups

A pipe wakes the loop that handles finished items. Only the first notice since
the last acknowledgement writes a byte, so that a burst of notices is one
wakeup. Both `notify` and `acknowledge` are made of two steps each, between
which other parties may act.
-/

namespace Haulage

/-- The state of the pipe: whether a byte is underway or written, and the bytes in it. -/
structure Wakeup where
  armed : Bool
  pipe : Nat
  deriving Repr, DecidableEq

namespace Wakeup

/-- The number of bytes that the pipe holds at most. -/
def capacity : Nat := 65536

/-- A pipe that nobody has used. -/
def idle : Wakeup := ⟨false, 0⟩

/-- Claim the next wakeup. The answer says whether it had been claimed before. -/
def arm (w : Wakeup) : Bool × Wakeup := (w.armed, { w with armed := true })

/-- Write a byte; a full pipe takes none. -/
def write (w : Wakeup) : Wakeup := { w with pipe := min (w.pipe + 1) capacity }

/-- Announce that there is something to handle. -/
def notify (w : Wakeup) : Wakeup :=
  match w.arm with
  | (true, w') => w'
  | (false, w') => w'.write

/-- Empty the pipe. -/
def drain (w : Wakeup) : Wakeup := { w with pipe := 0 }

/-- Let the next notice write again. -/
def disarm (w : Wakeup) : Wakeup := { w with armed := false }

/-- Take notice of a wakeup, before looking at what there is to handle. -/
def acknowledge (w : Wakeup) : Wakeup := w.drain.disarm

/-- Is a wakeup pending? -/
def readable (w : Wakeup) : Bool := 0 < w.pipe

end Wakeup

end Haulage
