import Haulage.Proofs.Traffic
import Mathlib.Algebra.BigOperators.Group.Finset.Basic
import Mathlib.Algebra.BigOperators.Fin
import Mathlib.Algebra.Order.Group.Multiset
import Mathlib.Data.List.Induction

/-!
# The ledger of a queue

What the deeds of some parties would do to a plain list, each at once: values are put in at the end
and taken out at the front, and a drain takes them all. `Ledger` has the list together with what
became of the values that are no longer in it, and `Ledger.Allows` says which answers a plain list
gives.

Deeds are `Lawful` if each of them is allowed at its moment. Then every value that was put in is
found again exactly once: `pushes_eq` and `Lawful.accounted`.
-/

namespace Haulage.Queue

variable {n : ℕ} {α : Type}

namespace Deed

/-- The value that was put in by the deed, and by whom. -/
def entry : Deed n α → Option (Fin n × α)
  | .pushed k v => some (k, v)
  | .popped _ _ | .missed _ | .saw _ _ | .swapped _ | .drained _ _ => none

/-- The values that were answered by the deed. -/
def values : Deed n α → List α
  | .popped _ v => [v]
  | .drained _ vs => vs
  | .pushed _ _ | .missed _ | .saw _ _ | .swapped _ => []

end Deed

/-- The values that were put in, in this order, and by whom. -/
def pushes (deeds : List (Deed n α)) : List (Fin n × α) := deeds.filterMap Deed.entry

/-- The values that were answered. -/
def answers (deeds : List (Deed n α)) : List α := deeds.flatMap Deed.values

/-- A list of values, each with the party that put it in. -/
structure Ledger (n : ℕ) (α : Type) where
  inside : List (Fin n × α)
  /-- The values that a party took when it drained the list, until it answers them. -/
  onHand : Fin n → Option (List α)
  /-- The values that were taken out, in this order. -/
  left : List (Fin n × α)

namespace Ledger

/-- A list without values. -/
def empty : Ledger n α := ⟨[], fun _ => none, []⟩

/-- The list after a deed. -/
def enter (l : Ledger n α) : Deed n α → Ledger n α
  | .pushed k v => { l with inside := l.inside ++ [(k, v)] }
  | .popped _ _ => { l with inside := l.inside.tail, left := l.left ++ l.inside.take 1 }
  | .missed _ | .saw _ _ => l
  | .swapped k =>
    { inside := []
      onHand := Function.update l.onHand k (some (l.inside.map Prod.snd))
      left := l.left ++ l.inside }
  | .drained k _ => { l with onHand := Function.update l.onHand k none }

/-- Is this what happens at the list? -/
def Allows (l : Ledger n α) : Deed n α → Prop
  | .pushed _ _ => True
  | .popped _ v => ∃ k rest, l.inside = (k, v) :: rest
  | .missed _ => l.inside = []
  | .saw _ answer => answer = l.inside.isEmpty
  | .swapped k => l.onHand k = none
  | .drained k vs => l.onHand k = some vs

end Ledger

/-- The list after some deeds. -/
def ledger (deeds : List (Deed n α)) : Ledger n α := deeds.foldl Ledger.enter .empty

/-- One more deed comes last. -/
theorem ledger_concat (deeds : List (Deed n α)) (d : Deed n α) :
    ledger (deeds ++ [d]) = (ledger deeds).enter d := by
  unfold ledger
  rw [List.foldl_append]
  rfl

/-- Each deed is what happens at the list after those before it. -/
inductive Lawful : List (Deed n α) → Prop
  | nil : Lawful []
  | concat {deeds : List (Deed n α)} {d : Deed n α} (before : Lawful deeds)
      (allowed : (ledger deeds).Allows d) : Lawful (deeds ++ [d])

/-! ## Where the values are -/

/-- The values that were put in are those that were taken out, followed by those in the list. -/
theorem pushes_eq (deeds : List (Deed n α)) :
    pushes deeds = (ledger deeds).left ++ (ledger deeds).inside := by
  induction deeds using List.reverseRecOn with
  | nil => rfl
  | append_singleton deeds d ih =>
    rw [ledger_concat, pushes, List.filterMap_append, ← pushes, ih]
    cases d with
    | pushed k v => simp [Deed.entry, Ledger.enter]
    | popped k v =>
      cases hinside : (ledger deeds).inside with
      | nil => simp [Deed.entry, Ledger.enter, hinside]
      | cons e rest => simp [Deed.entry, Ledger.enter, hinside]
    | missed k => simp [Deed.entry, Ledger.enter]
    | saw k answer => simp [Deed.entry, Ledger.enter]
    | swapped k => simp [Deed.entry, Ledger.enter]
    | drained k vs => simp [Deed.entry, Ledger.enter]

/-- The values of one party are taken out in the order in which it put them in. -/
theorem left_isPrefix (deeds : List (Deed n α)) (k : Fin n) :
    (ledger deeds).left.filter (fun e => e.1 = k) <+: (pushes deeds).filter fun e => e.1 = k := by
  rw [pushes_eq, List.filter_append]
  exact List.prefix_append _ _

/-- A sum over the parties, when one of them is counted anew. -/
theorem sum_update_add {β M : Type} [AddCommMonoid M] (parties : Fin n → β) (k : Fin n) (s : β)
    (f : β → M) :
    ∑ i, f (Function.update parties k s i) + f (parties k) = ∑ i, f (parties i) + f s := by
  have hothers : ∑ i ∈ Finset.univ.erase k, f (Function.update parties k s i) =
      ∑ i ∈ Finset.univ.erase k, f (parties i) := by
    refine Finset.sum_congr rfl fun i hi => ?_
    rw [Function.update_of_ne (Finset.ne_of_mem_erase hi)]
  rw [← Finset.add_sum_erase _ (fun i => f (Function.update parties k s i)) (Finset.mem_univ k),
    ← Finset.add_sum_erase _ (fun i => f (parties i)) (Finset.mem_univ k), hothers]
  rw [Function.update_self]
  ac_rfl

/-- The values that some parties took when they drained the list, and have not answered yet. -/
def held (onHand : Fin n → Option (List α)) : Multiset α :=
  ∑ k, (((onHand k).getD [] : List α) : Multiset α)

/-- Each value that was taken out was answered once, or is still to be. -/
theorem Lawful.accounted {deeds : List (Deed n α)} (h : Lawful deeds) :
    (((ledger deeds).left.map Prod.snd : List α) : Multiset α) =
      (answers deeds : Multiset α) + held (ledger deeds).onHand := by
  induction h with
  | nil => simp [ledger, Ledger.empty, answers, held]
  | @concat deeds d before allowed ih =>
    rw [ledger_concat]
    cases d with
    | pushed k v | missed k | saw k answer =>
      simpa [answers, Deed.values, Ledger.enter] using ih
    | popped k v =>
      obtain ⟨k', rest, hinside⟩ := allowed
      have hanswers : answers (deeds ++ [.popped k v]) = answers deeds ++ [v] := by
        simp [answers, Deed.values]
      simp only [hanswers, Ledger.enter, hinside, List.take_succ_cons, List.take_zero,
        List.map_append, List.map_cons, List.map_nil, ← Multiset.coe_add, ih]
      ac_rfl
    | swapped k =>
      have hnone : (ledger deeds).onHand k = none := allowed
      have hanswers : answers (deeds ++ [.swapped k]) = answers deeds := by
        simp [answers, Deed.values]
      have hheld := sum_update_add (ledger deeds).onHand k
        (some ((ledger deeds).inside.map Prod.snd)) fun o => ((o.getD [] : List α) : Multiset α)
      rw [hnone, Option.getD_none, Multiset.coe_nil, add_zero, ← held, ← held] at hheld
      simp only [hanswers, Ledger.enter, List.map_append, ← Multiset.coe_add, ih]
      rw [hheld, add_assoc]
      rfl
    | drained k vs =>
      have hvs : (ledger deeds).onHand k = some vs := allowed
      have hanswers : answers (deeds ++ [.drained k vs]) = answers deeds ++ vs := by
        simp [answers, Deed.values]
      have hheld := sum_update_add (ledger deeds).onHand k none
        fun o => ((o.getD [] : List α) : Multiset α)
      rw [hvs, Option.getD_none, Multiset.coe_nil, add_zero, ← held, ← held] at hheld
      simp only [hanswers, Ledger.enter, ← Multiset.coe_add, ih]
      rw [← hheld, Option.getD_some]
      ac_rfl

end Haulage.Queue
