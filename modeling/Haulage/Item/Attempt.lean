import Haulage.Control.Signal
import Haulage.Copy.Progress
import Haulage.Item.Basic

/-!
# Attempts

An attempt at an item alternates between listening and moving. It listens until
it hears that nothing is waiting, or a signal that stops the item; it moves one
chunk at a time and listens again after each.

An attempt is driven from outside, one signal or one move at a time, so that
whatever else goes on may happen in between. `Attempt.move_progress` says that
moving comes to an end.
-/

namespace Haulage

open Disk (Path Tree)

namespace Item

/-- The destination vanished. An allocated one is given up and may be replaced. -/
def loseDestination (i : Item) : Item :=
  if i.isAuto then { i with state := .commonDestinationVanished, destination := none }
  else { i with state := .destinationVanished }

/-- Take notice of a signal. The answer says whether the item goes on; if it does not, its state
tells why. -/
def inspect (s : Signal) (i : Item) : Bool × Item :=
  match s with
  | .none | .newItem => (true, i)
  | .stop => (false, { i with state := .noWorkload })
  | .clean => (false, { i with state := .cleaned })
  | .cancel tag =>
    if i.tag = some tag then (false, { i with state := .cancelled }) else (true, i)
  | .vanish p =>
    if p.isUnset then (true, i)
    else if p = i.sourcePriority then (false, { i with state := .sourceVanished })
    else if p = i.destinationPriority then (false, i.loseDestination)
    else (true, i)
  | .destinationChange p =>
    if !i.isAuto || p = i.destinationPriority then (true, i)
    else (false, { i with state := .commonDestinationChanged })

/-- The item after a failed step of its copy. -/
def failWith (i : Item) (f : CopyFailure) : Item :=
  if f.mediumGone then
    match f.side with
    | .source => { i with state := .sourceVanished }
    | .destination => i.loseDestination
  else { i with state := .failed }

end Item

/-- The size of a transfer buffer. -/
abbrev BufferSize := { n : Nat // 0 < n }

/-- What an attempt does next. -/
inductive Stage where
  /-- It takes the next signal. -/
  | listening
  /-- It opens the copy, or moves a chunk. -/
  | moving
  /-- It has come to an end. -/
  | ended
  deriving Repr, DecidableEq

/-- An attempt at an item, with the size of the buffer it moves data through. -/
structure Attempt where
  item : Item
  stage : Stage
  buffer : BufferSize
  deriving Repr

namespace Attempt

/-- A new attempt. An open copy of an earlier one is taken up where it stood. -/
def start (i : Item) (buffer : BufferSize) : Attempt :=
  ⟨{ i with state := .ongoing }, .listening, buffer⟩

/-- Take the next signal. -/
def hear (a : Attempt) (s : Signal) : Attempt :=
  if s = .none then { a with stage := .moving }
  else match a.item.inspect s with
    | (true, i) => { a with item := i }
    | (false, i) => { a with item := i, stage := .ended }

/-- The attempt after a failed step. -/
def fail (a : Attempt) (i : Item) (f : CopyFailure) : Attempt :=
  { a with item := i.failWith f, stage := .ended }

/-- Open the copy of the item. -/
def openSession (t : Tree) (a : Attempt) : Attempt × Tree :=
  match a.item.destination with
  | none => ({ a with item := { a.item with state := .failed }, stage := .ended }, t)
  | some destination => match Session.start t a.item.payload destination with
    | (.error f, t') => (a.fail a.item f, t')
    | (.ok s, t') => ({ a with item := { a.item with session := some s } }, t')

/-- Move a chunk through an open copy. -/
def moveChunk (t : Tree) (a : Attempt) (s : Session) : Attempt × Tree :=
  match s.copyChunk a.buffer t with
  | (.error f, s', t') => (a.fail { a.item with session := some s' } f, t')
  | (.ok .complete, s', t') =>
    ({ a with item := { a.item with session := some s', state := .done }, stage := .ended }, t')
  | (.ok (.copied n), s', t') =>
    ({ a with
        item := { a.item with session := some s', bytes := a.item.bytes + n }
        stage := .listening }, t')

/-- Open the copy, or move a chunk through it. -/
def move (t : Tree) (a : Attempt) : Attempt × Tree :=
  match a.item.session with
  | none => a.openSession t
  | some s => a.moveChunk t s

/-! ## Progress -/

/-- What is left to do: whether the copy is still to be opened, and what is left of it. -/
def work (t : Tree) (a : Attempt) : Nat × Nat × Nat × Nat :=
  match a.item.session with
  | none => (1, 0, 0, 0)
  | some s => (0, s.work t)

/-- The rank of a stage; within a stretch without progress of the copy it goes down. -/
def rank : Stage → Nat
  | .listening => 2
  | .moving => 1
  | .ended => 0

/-- The order in which the progress of attempts is measured. -/
abbrev Less : Nat × Nat × Nat × Nat → Nat × Nat × Nat × Nat → Prop :=
  Prod.Lex (· < ·) Session.Less

/-- A move lowers what is left, or ends the attempt. -/
theorem move_progress (t : Tree) (a : Attempt) :
    Less ((a.move t).1.work (a.move t).2) (a.work t) ∨ (a.move t).1.stage = .ended := by
  unfold move
  split
  · rename_i hs
    unfold openSession
    split
    · exact Or.inr rfl
    · split
      · exact Or.inr rfl
      · left
        simp only [work, hs]
        exact Prod.Lex.left _ _ Nat.zero_lt_one
  · rename_i s hs
    unfold moveChunk
    split
    · exact Or.inr rfl
    · exact Or.inr rfl
    · rename_i hcopy
      left
      simp only [work, hs]
      exact Prod.Lex.right _ (Session.copyChunk_progress a.buffer.2 hcopy)

end Attempt

end Haulage
