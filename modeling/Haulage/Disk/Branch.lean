/-!
# Branching entries

A value for each list of names, kept along the names: what stands at a list of
names and at all its continuations forms one branch, which is looked at, changed
and replaced as a whole. Any list of names may hold a value, whether or not the
shorter ones do.

`Branch.sub` is the view through which a branch is read. `Branch.value_alter`
says that changing a branch changes what stands in it and nothing else.
-/

namespace Haulage.Disk

/-- The names that lead from the root to an entry. -/
abbrev Location := List String

/-- Named branches side by side, each with the value at its foot and the branches below. -/
inductive Branches (α : Type) where
  | none
  | cons (name : String) (value : Option α) (below rest : Branches α)
  deriving Repr, DecidableEq, Inhabited

/-- A branch: the value at its foot, and the branches below. -/
structure Branch (α : Type) where
  value : Option α
  below : Branches α
  deriving Repr, DecidableEq, Inhabited

namespace Branches

variable {α : Type}

/-- The branch of a name. -/
def child : Branches α → String → Branch α
  | .none, _ => ⟨Option.none, .none⟩
  | .cons name value below rest, n => if n = name then ⟨value, below⟩ else rest.child n

/-- The branches with `b` as the branch of a name. -/
def put : Branches α → String → Branch α → Branches α
  | .none, n, b => .cons n b.value b.below .none
  | .cons name value below rest, n, b =>
    if n = name then .cons name b.value b.below rest else .cons name value below (rest.put n b)

/-- Does no name lead to a value? -/
def isBare : Branches α → Bool
  | .none => true
  | .cons _ value below rest => value.isNone && below.isBare && rest.isBare

/-- All values, each with the names that lead to it. -/
def toList : Branches α → List (Location × α)
  | .none => []
  | .cons name value below rest =>
    (value.toList.map fun a => ([name], a)) ++ (below.toList.map fun x => (name :: x.1, x.2)) ++
      rest.toList

theorem child_put (bs : Branches α) (n : String) (b : Branch α) (m : String) :
    (bs.put n b).child m = if m = n then b else bs.child m := by
  induction bs with
  | none => rfl
  | cons name value below rest _ ih =>
    unfold put
    by_cases hn : n = name
    · rw [if_pos hn, child, child, hn]
      by_cases hm : m = name <;> simp [hm]
    · rw [if_neg hn, child, child, ih]
      by_cases hm : m = name
      · rw [if_pos hm, if_pos hm, if_neg (fun h => hn (h.symm.trans hm))]
      · rw [if_neg hm, if_neg hm]

end Branches

namespace Branch

variable {α : Type}

/-- The branch that holds nothing. -/
def bare : Branch α := ⟨none, .none⟩

/-- The branch to which the names lead. -/
def sub : Branch α → Location → Branch α
  | b, [] => b
  | b, n :: l => (b.below.child n).sub l

/-- The branch in which the branch at `l` is changed by `f`. -/
def alter (b : Branch α) (l : Location) (f : Branch α → Branch α) : Branch α :=
  match l with
  | [] => f b
  | n :: l => ⟨b.value, b.below.put n ((b.below.child n).alter l f)⟩

@[simp] theorem value_bare : (bare : Branch α).value = none := rfl

@[simp] theorem child_below_bare (n : String) : (bare : Branch α).below.child n = bare := rfl

@[simp] theorem sub_bare (l : Location) : (bare : Branch α).sub l = bare := by
  induction l with
  | nil => rfl
  | cons n l ih => exact ih

theorem sub_append (b : Branch α) (l m : Location) : b.sub (l ++ m) = (b.sub l).sub m := by
  induction l generalizing b with
  | nil => rfl
  | cons n l ih => exact ih _

/-- The branch that was changed is what the change made of it. -/
theorem sub_alter (b : Branch α) (l : Location) (f : Branch α → Branch α) :
    (b.alter l f).sub l = f (b.sub l) := by
  induction l generalizing b with
  | nil => rfl
  | cons n l ih =>
    simp only [alter, sub]
    rw [Branches.child_put, if_pos rfl]
    exact ih _

/-- A change of the branch at `l` shows at `l` and its continuations only. -/
theorem value_alter (b : Branch α) (l : Location) (f : Branch α → Branch α) (m : Location) :
    ((b.alter l f).sub m).value =
      if l.isPrefixOf m then ((f (b.sub l)).sub (m.drop l.length)).value else (b.sub m).value := by
  induction l generalizing b m with
  | nil => simp [alter, sub]
  | cons n l ih =>
    cases m with
    | nil => rfl
    | cons k m =>
      simp only [alter, sub]
      rw [Branches.child_put]
      by_cases hk : k = n
      · subst hk
        simp [ih]
      · have hb : (n == k) = false := by simpa using Ne.symm hk
        simp [List.isPrefixOf, hk, hb]

end Branch

end Haulage.Disk
