import Haulage.Disk.Edit
import Haulage.Item.Attempt

/-!
# Running an item

An item is run by one caller with a script of cues. Each time the attempt
listens it takes the next cue; once the script is used up nothing is waiting any
more. The caller may change the file tree between two chunks.
-/

namespace Haulage

open Disk (Edit Tree)

/-- What happens at one moment of listening: changes to the tree, and then a signal. -/
structure Cue where
  edits : List Edit
  signal : Signal
  deriving Repr

/-- The outcome of a run, and the number of times the attempt listened. -/
structure RunResult where
  item : Item
  tree : Tree
  polls : Nat
  deriving Repr

namespace Attempt

/-- Carry an attempt through, `polls` being the number of times it listened so far. -/
def runFrom (cues : List Cue) (t : Tree) (polls : Nat) (a : Attempt) : RunResult :=
  match _h : a.stage with
  | .ended => ⟨a.item, t, polls⟩
  | .listening =>
    match cues with
    | [] => runFrom [] t (polls + 1) { a with stage := .moving }
    | cue :: cues => runFrom cues (t.edits cue.edits) (polls + 1) (a.hear cue.signal)
  | .moving => runFrom cues (a.move t).2 polls (a.move t).1
termination_by (cues.length, (if a.stage = .ended then 0 else 1), a.work t, rank a.stage)
decreasing_by
  · simp only [work, _h, List.length_nil, rank]
    exact Prod.Lex.right _ (Prod.Lex.right _ (Prod.Lex.right _ (by decide)))
  · exact Prod.Lex.left _ _ (by simp)
  · refine Prod.Lex.right _ ?_
    rcases a.move_progress t with hless | hover
    · by_cases ho : (a.move t).1.stage = .ended
      · rw [if_pos ho, _h]
        exact Prod.Lex.left _ _ (by decide)
      · rw [if_neg ho, _h]
        exact Prod.Lex.right _ (Prod.Lex.left _ _ hless)
    · rw [if_pos hover, _h]
      exact Prod.Lex.left _ _ (by decide)

end Attempt

namespace Item

/-- Run the item with a buffer of so many bytes. An empty buffer moves nothing and fails the
item without listening. -/
def run (cues : List Cue) (buffer : Nat) (t : Tree) (i : Item) : RunResult :=
  if h : 0 < buffer then (Attempt.start i ⟨buffer, h⟩).runFrom cues t 0
  else ⟨{ i with state := .failed }, t, 0⟩

end Item

end Haulage
