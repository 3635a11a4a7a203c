import Haulage.Item.Attempt
import Mathlib.Tactic.SplitIfs

/-!
# Notices

An item takes notice of signals and of failures of its copy. Either of them leaves it as it is, or
closes it in a state that depends on the tag and the media of the item and on nothing else, and
never in the one that says that it is done.

`Item.inspect_eq` and `Item.failWith_eq` say so once. What else is to be known of an item that took
notice of something is read off `Item.close`.
-/

namespace Haulage

namespace Item

/-- The state of an item whose destination vanished. -/
def lossState (i : Item) : ItemState :=
  if i.isAuto then .commonDestinationVanished else .destinationVanished

/-- The state that a signal stops the item in, if it does. -/
def stopState? (i : Item) : Signal → Option ItemState
  | .none | .newItem => none
  | .stop => some .noWorkload
  | .clean => some .cleaned
  | .cancel tag => if i.tag = some tag then some .cancelled else none
  | .vanish p =>
    if p.isUnset then none
    else if p = i.sourcePriority then some .sourceVanished
    else if p = i.destinationPriority then some i.lossState
    else none
  | .destinationChange p =>
    if i.isAuto ∧ p ≠ i.destinationPriority then some .commonDestinationChanged else none

/-- The state that the item ends in when its copy has failed, or is complete. -/
def endState (i : Item) : Option CopyFailure → ItemState
  | none => .done
  | some f =>
    if f.mediumGone then
      match f.side with
      | .source => .sourceVanished
      | .destination => i.lossState
    else .failed

/-- The item at its end. An allocated destination that vanished is given up. -/
def close (i : Item) (state : ItemState) : Item :=
  { i with
    state := state
    destination := if state = .commonDestinationVanished then none else i.destination }

variable {i : Item} {s : Signal}

/-- Losing the destination is ending in the state that says so. -/
theorem close_lossState (i : Item) : i.close i.lossState = i.loseDestination := by
  unfold lossState loseDestination
  split
  · rfl
  · rfl

/-- Taking notice of a signal is looking up whether it stops the item. -/
theorem inspect_eq (s : Signal) (i : Item) : i.inspect s =
    match i.stopState? s with
    | some state => (false, i.close state)
    | none => (true, i) := by
  have hclose {state : ItemState} (hstate : state ≠ .commonDestinationVanished) :
      i.close state = { i with state := state } := by
    simp only [close, if_neg hstate]
  cases s with
  | none => rfl
  | newItem => rfl
  | stop => rfl
  | clean => rfl
  | cancel tag =>
    simp only [inspect, stopState?]
    split
    · rfl
    · rfl
  | vanish p =>
    simp only [inspect, stopState?]
    split_ifs
    · rfl
    · rfl
    · exact congrArg (Prod.mk false) i.close_lossState.symm
    · rfl
  | destinationChange p =>
    simp only [inspect, stopState?]
    by_cases hauto : i.isAuto
    · by_cases hp : p = i.destinationPriority
      · simp [hauto, hp]
      · simp [hauto, hp, hclose]
    · simp [hauto]

/-- A signal that has a state to stop the item in closes it. -/
theorem inspect_of_stops {state : ItemState} (h : i.stopState? s = some state) :
    i.inspect s = (false, i.close state) := by
  rw [inspect_eq, h]

/-- An item goes on just if the signal has no state to stop it in. -/
theorem inspect_fst_iff : (i.inspect s).1 = true ↔ i.stopState? s = none := by
  rw [inspect_eq]
  cases i.stopState? s with
  | none => simp
  | some state => simp

/-- Failing is ending in the state that goes with the failure. -/
theorem failWith_eq (i : Item) (f : CopyFailure) :
    i.failWith f = i.close (i.endState (some f)) := by
  cases hgone : f.mediumGone with
  | false =>
    simp only [failWith, endState, hgone, Bool.false_eq_true, if_false]
    rfl
  | true =>
    cases hside : f.side with
    | source =>
      simp only [failWith, endState, hgone, hside, if_true]
      rfl
    | destination =>
      simp only [failWith, endState, hgone, hside, if_true]
      exact i.close_lossState.symm

/-! ## The states -/

/-- Losing the destination is terminal, and not being done. -/
theorem lossState_spec (i : Item) : i.lossState.isTerminal ∧ i.lossState ≠ .done := by
  unfold lossState
  split
  · simp [ItemState.isTerminal]
  · simp [ItemState.isTerminal]

/-- So is every state that a signal stops an item in. -/
theorem stopState_spec {state : ItemState} (h : i.stopState? s = some state) :
    state.isTerminal ∧ state ≠ .done := by
  cases s with
  | none => cases h
  | newItem => cases h
  | stop =>
    cases h
    simp [ItemState.isTerminal]
  | clean =>
    cases h
    simp [ItemState.isTerminal]
  | cancel tag =>
    simp only [stopState?] at h
    split_ifs at h
    cases h
    simp [ItemState.isTerminal]
  | vanish p =>
    simp only [stopState?] at h
    split_ifs at h
    · cases h
      simp [ItemState.isTerminal]
    · cases h
      exact i.lossState_spec
  | destinationChange p =>
    simp only [stopState?] at h
    split_ifs at h
    cases h
    simp [ItemState.isTerminal]

/-- The end of a copy is terminal, and the item is done then if the copy did not fail. -/
theorem endState_spec (failure : Option CopyFailure) (i : Item) :
    (i.endState failure).isTerminal ∧ (i.endState failure = .done ↔ failure = none) := by
  unfold endState
  split
  · simp [ItemState.isTerminal]
  · split
    · split
      · simp [ItemState.isTerminal]
      · simp [i.lossState_spec]
    · simp [ItemState.isTerminal]

/-- A failure does not cancel. -/
theorem endState_ne_cancelled (failure : Option CopyFailure) (i : Item) :
    i.endState failure ≠ .cancelled := by
  unfold endState lossState
  (repeat' split) <;> exact ItemState.noConfusion

/-- The signal to cancel its tag cancels an item. -/
theorem stopState?_cancel {tag : Tag} (h : i.tag = some tag) :
    i.stopState? (.cancel tag) = some .cancelled :=
  if_pos h

/-- No other signal does. -/
theorem eq_cancel_of_stopState (h : i.stopState? s = some .cancelled) :
    ∃ tag, s = .cancel tag ∧ i.tag = some tag := by
  cases s with
  | none | newItem | stop | clean => cases h
  | cancel tag =>
    simp only [stopState?] at h
    split_ifs at h with htag
    exact ⟨tag, rfl, htag⟩
  | vanish p =>
    simp only [stopState?, lossState] at h
    split_ifs at h <;> cases h
  | destinationChange p =>
    simp only [stopState?] at h
    split_ifs at h
    cases h

end Item

namespace Attempt

variable {a : Attempt} {s : Signal}

/-- In silence an attempt moves on. -/
@[simp] theorem hear_none (a : Attempt) : a.hear .none = { a with stage := .moving } := if_pos rfl

/-- A signal that stops the item ends the attempt. -/
theorem hear_of_stops {state : ItemState} (h : a.item.stopState? s = some state) :
    a.hear s = { a with item := a.item.close state, stage := .ended } := by
  have hs : s ≠ .none := by
    rintro rfl
    cases h
  simp only [hear, if_neg hs, Item.inspect_eq, h]

/-- Any other is heard, and the attempt is what it was. -/
theorem hear_of_ignored (h : a.item.stopState? s = none) (hs : s ≠ .none) : a.hear s = a := by
  simp only [hear, if_neg hs, Item.inspect_eq, h]

/-- An attempt that listens moves on, or its item is stopped, or it is what it was. -/
theorem hear_cases (s : Signal) (a : Attempt) :
    a.hear s = { a with stage := .moving } ∨ a.hear s = a ∨
      ∃ state, a.item.stopState? s = some state ∧
        a.hear s = { a with item := a.item.close state, stage := .ended } := by
  by_cases hs : s = .none
  · rw [hs]
    exact .inl a.hear_none
  · cases hstop : a.item.stopState? s with
    | none => exact .inr (.inl (hear_of_ignored hstop hs))
    | some state => exact .inr (.inr ⟨state, rfl, hear_of_stops hstop⟩)

end Attempt

end Haulage
