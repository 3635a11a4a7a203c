import Haulage.Media

/-!
# Control signals

The signals that a worker meets between two chunks of a transfer. Each has a
packed form of 32 bits: its kind in the top byte, a media family in the next
one, and a rank or a cancelled tag in the low byte.
-/

namespace Haulage

/-- A signal to the workers of a pool. -/
inductive Signal where
  /-- Nothing is waiting. -/
  | none
  /-- Another item is queued behind the running one. -/
  | newItem
  /-- The worker is to end. -/
  | stop
  /-- The medium of this priority went away. -/
  | vanish (p : Priority)
  /-- The storage manager now prefers the medium of this priority. -/
  | destinationChange (p : Priority)
  /-- Transfers are to be abandoned. -/
  | clean
  /-- The item that carries this tag is to be abandoned. -/
  | cancel (tag : UInt8)
  deriving Repr, DecidableEq

namespace Signal

/-- The signal that workers receive for an announcement of the storage manager. -/
def ofEvent : MediaEvent → Signal
  | .changed p => .destinationChange p
  | .inactive p => .vanish p

/-- The kind byte of a signal. -/
def kind : Signal → UInt8
  | .none => 0
  | .newItem => 1
  | .stop => 2
  | .vanish _ => 3
  | .destinationChange _ => 4
  | .clean => 5
  | .cancel _ => 6

/-- The two payload bytes of a signal, a media family and a rank or tag. -/
def payload : Signal → UInt8 × UInt8
  | .vanish p => (p.family, p.rank)
  | .destinationChange p => (p.family, p.rank)
  | .cancel tag => (0, tag)
  | .none | .newItem | .stop | .clean => (0, 0)

/-- The packed form of a signal. -/
def encode (s : Signal) : UInt32 :=
  UInt32.ofNat (s.kind.toNat * 0x1000000 + s.payload.1.toNat * 0x10000 + s.payload.2.toNat)

/-- The signal that a packed form stands for. A word of unknown kind is no signal. -/
def decode (w : UInt32) : Signal :=
  let family := UInt8.ofNat (w.toNat / 0x10000)
  let low := UInt8.ofNat w.toNat
  match w.toNat / 0x1000000 with
  | 1 => .newItem
  | 2 => .stop
  | 3 => .vanish ⟨family, low⟩
  | 4 => .destinationChange ⟨family, low⟩
  | 5 => .clean
  | 6 => .cancel low
  | _ => .none

end Signal

end Haulage
