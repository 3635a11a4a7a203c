import Haulage.Copy.Session
import Haulage.Media

/-!
# Items

An item is one payload on its way to a destination, together with the state of
that journey. The destination is either named by whoever made the item or
allocated by the storage manager, once per attempt.
-/

namespace Haulage

open Disk (Path Tree)

/-- How far an item has come. -/
inductive ItemState where
  /-- Not yet run in this attempt. -/
  | waiting
  | ongoing
  /-- Stopped before it did anything of use, because the pool ends. -/
  | noWorkload
  | sourceVanished
  /-- A destination that was named with the item vanished. -/
  | destinationVanished
  /-- An allocated destination vanished. -/
  | commonDestinationVanished
  /-- The storage manager now prefers another medium. -/
  | commonDestinationChanged
  | cleaned
  | cancelled
  | failed
  | done
  deriving Repr, DecidableEq

namespace ItemState

/-- Has the attempt come to an end? -/
def isTerminal : ItemState → Bool
  | .waiting | .ongoing => false
  | _ => true

/-- May another attempt be made with a new destination? -/
def isResubmittable : ItemState → Bool
  | .commonDestinationVanished | .commonDestinationChanged => true
  | _ => false

/-- The word for a state. -/
def text : ItemState → String
  | .waiting => "wait"
  | .ongoing => "ongoing"
  | .noWorkload => "no-workload"
  | .sourceVanished => "src-vanish"
  | .destinationVanished => "dest-vanish"
  | .commonDestinationVanished => "common-dest-vanish"
  | .commonDestinationChanged => "common-dest-change"
  | .cleaned => "clean"
  | .cancelled => "cancelled"
  | .failed => "failed"
  | .done => "done"

end ItemState

/-- What an item without a destination of its own asks of the storage manager. -/
structure Wish where
  /-- The family of the medium; the unset one leaves the choice open. -/
  family : MediaFamily
  /-- The storage class that the output is filed under. -/
  label : String
  /-- The name of the output inside the allocated directory. -/
  name : Path
  deriving Repr, DecidableEq

/-- The tag by which an item is cancelled. -/
abbrev Tag := UInt8

/-- A payload on its way. -/
structure Item where
  payload : Payload
  state : ItemState
  destination : Option Path
  /-- Set if the destination is allocated by the storage manager. -/
  wish : Option Wish
  sourcePriority : Priority
  destinationPriority : Priority
  tag : Option Tag
  /-- Is the source removed once the item is done? -/
  removesSource : Bool
  /-- The number of bytes moved. -/
  bytes : Nat
  /-- How often the item was put back for another attempt, counted up to 255. -/
  resubmits : Nat
  /-- The copy under way. -/
  session : Option Session
  deriving Repr, DecidableEq

namespace Item

/-- A new item for a payload, with its destination or the wish for one. -/
def fresh (payload : Payload) (destination : Path ⊕ Wish) : Item where
  payload := payload
  state := .waiting
  destination := destination.getLeft?
  wish := destination.getRight?
  sourcePriority := .unset
  destinationPriority := .unset
  tag := none
  removesSource := false
  bytes := 0
  resubmits := 0
  session := none

/-- Is the destination allocated by the storage manager? -/
def isAuto (i : Item) : Bool := i.wish.isSome

/-- Give up the copy under way, and with it the staged output. -/
def dropSession (t : Tree) (i : Item) : Item × Tree :=
  match i.session with
  | none => (i, t)
  | some s => ({ i with session := none }, s.abandon t)

/-- Put the item back to the start for another attempt. An allocated destination is given up. -/
def reset (t : Tree) (i : Item) : Item × Tree :=
  let (i, t) := i.dropSession t
  ({ i with
      state := .waiting
      bytes := 0
      resubmits := min (i.resubmits + 1) 255
      destination := if i.isAuto then none else i.destination
      destinationPriority := if i.isAuto then .unset else i.destinationPriority }, t)

/-- Close the copy of an item. The output of an item that is done is moved to its destination,
and if that fails the item has failed after all. -/
def finish (t : Tree) (i : Item) : Item × Tree :=
  match i.session with
  | none => (i, t)
  | some s =>
    if i.state = .done then
      match s.commit t with
      | (.ok (), t') => ({ i with session := none }, t')
      | (.error _, t') => ({ i with session := none, state := .failed, bytes := 0 }, t')
    else ({ i with session := none }, s.abandon t)

end Item

end Haulage
