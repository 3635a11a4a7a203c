import Haulage.Queue.Linked
import Mathlib.Data.List.Nodup
import Mathlib.Data.List.Perm.Subperm
import Mathlib.Logic.Equiv.Basic

/-!
# Chains of cells

What a heap with several chains in it looks like. `Chain h b a cells vs` says that in the heap `h`
the cells from `a` to `b` hang together, that each but the last holds one of the values `vs`, and
that the last is an empty sentinel. The operations that follow a chain by its addresses are
determined by that: `Chain.values_eq`, `Chain.release_eq` and `Chain.dispose_eq`. So the operations
of a queue are those of a plain list, `Chain.listed`.

`Regions` says that every cell of the heap belongs to exactly one owner. It is all that is needed to
see that what one owner does to its cells is no concern of the others.
-/

namespace Haulage.Queue

variable {α : Type}

namespace Heap

/-- The cell just written. -/
@[simp] theorem write_self (h : Heap α) (a : ℕ) (c : Cell α) : h.write a c a = some c := if_pos rfl

/-- The other cells are as before. -/
theorem write_of_ne {h : Heap α} {a b : ℕ} (hne : b ≠ a) (c : Cell α) : h.write a c b = h b :=
  if_neg hne

/-- The cell just freed. -/
@[simp] theorem free_self (h : Heap α) (a : ℕ) : h.free a a = none := if_pos rfl

/-- The other cells are as before. -/
theorem free_of_ne {h : Heap α} {a b : ℕ} (hne : b ≠ a) : h.free a b = h b := if_neg hne

/-- The heap without some cells. -/
def without (h : Heap α) (cells : List ℕ) : Heap α := fun b => if b ∈ cells then none else h b

/-- One more cell is freed first. -/
theorem without_cons (h : Heap α) (a : ℕ) (cells : List ℕ) :
    (h.free a).without cells = h.without (a :: cells) := by
  funext b
  by_cases hb : b = a
  · subst hb
    simp [without]
  · simp [without, free_of_ne hb, hb]

end Heap

/-! ## Chains -/

/-- The cells from `a` to `b` hang together and hold these values; the last one is a sentinel. -/
inductive Chain (h : Heap α) (b : ℕ) : ℕ → List ℕ → List α → Prop
  | sentinel (last : h b = some Linked.sentinel) : Chain h b b [b] []
  | link {a c : ℕ} {cells : List ℕ} {v : α} {vs : List α} (cell : h a = some ⟨some v, some c⟩)
      (rest : Chain h b c cells vs) : Chain h b a (a :: cells) (v :: vs)

namespace Chain

variable {h h' : Heap α} {a b c : ℕ} {cells : List ℕ} {vs : List α}

/-- A chain begins with its first cell. -/
theorem first_mem (hchain : Chain h b a cells vs) : a ∈ cells := by
  cases hchain with
  | sentinel last => exact List.mem_cons_self
  | link cell rest => exact List.mem_cons_self

/-- A chain ends with its last cell. -/
theorem last_mem (hchain : Chain h b a cells vs) : b ∈ cells := by
  induction hchain with
  | sentinel last => exact List.mem_cons_self
  | link cell rest ih => exact List.mem_cons_of_mem _ ih

/-- A chain without values is a sentinel. -/
theorem of_nil (hchain : Chain h b a cells []) : cells = [b] ∧ h b = some Linked.sentinel := by
  cases hchain with
  | sentinel last => exact ⟨rfl, last⟩

/-- A chain with a first value has that in its first cell. -/
theorem of_cons {v : α} (hchain : Chain h b a cells (v :: vs)) :
    ∃ c rest, cells = a :: rest ∧ h a = some ⟨some v, some c⟩ ∧ Chain h b c rest vs := by
  cases hchain with
  | @link _ c rest _ _ cell chain => exact ⟨c, rest, rfl, cell, chain⟩

/-- Only the cells of a chain matter to it. -/
theorem congr (hchain : Chain h b a cells vs) (hsame : ∀ x ∈ cells, h' x = h x) :
    Chain h' b a cells vs := by
  induction hchain with
  | sentinel last => exact Chain.sentinel ((hsame b List.mem_cons_self).trans last)
  | link cell rest ih =>
    refine Chain.link ((hsame _ List.mem_cons_self).trans cell) (ih fun x hx => ?_)
    exact hsame x (List.mem_cons_of_mem _ hx)

/-- A cell that is not in a chain is not its last one. -/
theorem ne_last (hchain : Chain h b a cells vs) (hc : c ∉ cells) : c ≠ b := by
  rintro rfl
  exact hc hchain.last_mem

/-- Writing a cell that is not in a chain does nothing to it. -/
theorem write (hchain : Chain h b a cells vs) (hc : c ∉ cells) (x : Cell α) :
    Chain (h.write c x) b a cells vs := by
  refine hchain.congr fun y hy => Heap.write_of_ne ?_ x
  rintro rfl
  exact hc hy

/-- Freeing a cell that is not in a chain does nothing to it. -/
theorem free (hchain : Chain h b a cells vs) (hc : c ∉ cells) : Chain (h.free c) b a cells vs := by
  refine hchain.congr fun y hy => Heap.free_of_ne ?_
  rintro rfl
  exact hc hy

/-- A value put into the sentinel of a chain, with another sentinel behind it, comes last. -/
theorem snoc (hchain : Chain h b a cells vs) (hnodup : cells.Nodup)
    (hc : h c = some Linked.sentinel) (hnew : c ∉ cells) (v : α) :
    Chain (h.write b ⟨some v, some c⟩) c a (cells ++ [c]) (vs ++ [v]) := by
  have hlast : Chain (h.write b ⟨some v, some c⟩) c c [c] [] := by
    refine Chain.sentinel ?_
    rw [Heap.write_of_ne (hchain.ne_last hnew), hc]
  clear hc
  induction hchain with
  | sentinel last => exact Chain.link (Heap.write_self _ _ _) hlast
  | @link a' c' cells' v' vs' cell rest ih =>
    obtain ⟨hfirst, hrest⟩ := List.nodup_cons.mp hnodup
    refine Chain.link ?_ (ih hrest fun hmem => hnew (List.mem_cons_of_mem _ hmem))
    rw [Heap.write_of_ne (rest.ne_last hfirst), cell]

/-- The two ends meet just if there are no values. -/
theorem first_eq_last_iff (hchain : Chain h b a cells vs) (hnodup : cells.Nodup) :
    a = b ↔ vs = [] := by
  cases hchain with
  | sentinel last => exact ⟨fun _ => rfl, fun _ => rfl⟩
  | link cell rest =>
    constructor
    · rintro rfl
      exact absurd rest.last_mem (List.nodup_cons.mp hnodup).1
    · intro hnil
      cases hnil

/-- Following a chain finds its values. -/
theorem values_eq (hchain : Chain h b a cells vs) (hnodup : cells.Nodup) {n : ℕ}
    (hn : cells.length ≤ n) : h.values b n a = vs := by
  induction hchain generalizing n with
  | sentinel last =>
    cases n with
    | zero => rfl
    | succ n => exact if_pos rfl
  | @link a' c' cells' v' vs' cell rest ih =>
    obtain ⟨n, rfl⟩ := Nat.exists_eq_add_of_le' hn
    obtain ⟨hfirst, hrest⟩ := List.nodup_cons.mp hnodup
    have hvalues : h.values b (n + cells'.length) c' = vs' := ih hrest (Nat.le_add_left _ _)
    rw [List.length_cons, ← Nat.add_assoc, Heap.values, if_neg (rest.ne_last hfirst), cell]
    dsimp only
    rw [hvalues]
    rfl

/-- Releasing a chain frees its cells. -/
theorem release_eq (hchain : Chain h b a cells vs) (hnodup : cells.Nodup) {n : ℕ}
    (hn : cells.length ≤ n) : h.release b n a = h.without cells := by
  induction cells generalizing h a vs n with
  | nil => cases hchain
  | cons x cells ih =>
    obtain ⟨n, rfl⟩ := Nat.exists_eq_add_of_le' hn
    obtain ⟨hfirst, hrest⟩ := List.nodup_cons.mp hnodup
    rw [← Heap.without_cons, List.length_cons, ← Nat.add_assoc]
    cases hchain with
    | sentinel last =>
      rw [Heap.release, if_pos rfl]
      funext y
      simp [Heap.without]
    | @link _ c' _ v' vs' cell rest =>
      rw [Heap.release, if_neg (rest.ne_last hfirst), cell]
      exact ih (rest.free hfirst) hrest (Nat.le_add_left _ _)

/-- Disposing of a chain frees its cells and finds its values. -/
theorem dispose_eq (hchain : Chain h b a cells vs) (hnodup : cells.Nodup) {n : ℕ}
    (hn : cells.length ≤ n) : h.dispose n a = (vs, h.without cells) := by
  induction cells generalizing h a vs n with
  | nil => cases hchain
  | cons x cells ih =>
    obtain ⟨n, rfl⟩ := Nat.exists_eq_add_of_le' hn
    obtain ⟨hfirst, hrest⟩ := List.nodup_cons.mp hnodup
    rw [← Heap.without_cons, List.length_cons, ← Nat.add_assoc]
    cases hchain with
    | sentinel last =>
      rw [Heap.dispose, last]
      refine Prod.ext rfl ?_
      funext y
      simp [Heap.without, Linked.sentinel]
    | @link _ c' _ v' vs' cell rest =>
      rw [Heap.dispose, cell]
      dsimp only
      rw [ih (rest.free hfirst) hrest (Nat.le_add_left _ _)]
      rfl

end Chain

/-! ## Regions -/

/-- There are no more cells than there are addresses below the next free one. -/
theorem length_le_of_below {cells : List ℕ} {fresh : ℕ} (hnodup : cells.Nodup)
    (hbelow : ∀ a ∈ cells, a < fresh) : cells.length ≤ fresh := by
  have hsub : cells ⊆ List.range fresh := fun a ha => List.mem_range.mpr (hbelow a ha)
  have hle := (hnodup.subperm hsub).length_le
  rwa [List.length_range] at hle

/-- Every cell of the heap belongs to one owner, and none has the next free address. -/
structure Regions {ι : Type} (h : Heap α) (fresh : ℕ) (region : ι → List ℕ) : Prop where
  nodup : ∀ o, (region o).Nodup
  owner_eq : ∀ o o' a, a ∈ region o → a ∈ region o' → o = o'
  owned_iff : ∀ a, (h a).isSome ↔ ∃ o, a ∈ region o
  below : ∀ o, ∀ a ∈ region o, a < fresh

namespace Regions

variable {ι : Type} [DecidableEq ι] {h : Heap α} {fresh : ℕ} {region : ι → List ℕ}

omit [DecidableEq ι] in
/-- No owner has more cells than there are addresses. -/
theorem length_le (hr : Regions h fresh region) (o : ι) : (region o).length ≤ fresh :=
  length_le_of_below (hr.nodup o) (hr.below o)

omit [DecidableEq ι] in
/-- There is no cell at the next free address. -/
theorem fresh_notMem (hr : Regions h fresh region) (o : ι) : fresh ∉ region o :=
  fun hmem => Nat.lt_irrefl fresh (hr.below o fresh hmem)

/-- An owner without cells may allocate one. -/
theorem allocate (hr : Regions h fresh region) {o : ι} (ho : region o = []) (c : Cell α) :
    Regions (h.write fresh c) (fresh + 1) (Function.update region o [fresh]) := by
  have hcases {o' : ι} {a : ℕ} (ha : a ∈ Function.update region o [fresh] o') :
      o' = o ∧ a = fresh ∨ o' ≠ o ∧ a ∈ region o' := by
    by_cases ho' : o' = o
    · subst ho'
      rw [Function.update_self] at ha
      exact Or.inl ⟨rfl, List.mem_singleton.mp ha⟩
    · rw [Function.update_of_ne ho'] at ha
      exact Or.inr ⟨ho', ha⟩
  constructor
  · intro o'
    by_cases ho' : o' = o
    · subst ho'
      rw [Function.update_self]
      exact List.nodup_singleton _
    · rw [Function.update_of_ne ho']
      exact hr.nodup o'
  · intro o₁ o₂ a h₁ h₂
    rcases hcases h₁ with ⟨rfl, rfl⟩ | ⟨-, hold₁⟩
    · rcases hcases h₂ with ⟨rfl, -⟩ | ⟨-, hold₂⟩
      · rfl
      · exact absurd hold₂ (hr.fresh_notMem o₂)
    · rcases hcases h₂ with ⟨-, rfl⟩ | ⟨-, hold₂⟩
      · exact absurd hold₁ (hr.fresh_notMem o₁)
      · exact hr.owner_eq o₁ o₂ a hold₁ hold₂
  · intro a
    by_cases ha : a = fresh
    · subst ha
      rw [Heap.write_self]
      refine ⟨fun _ => ⟨o, ?_⟩, fun _ => rfl⟩
      rw [Function.update_self]
      exact List.mem_singleton.mpr rfl
    · rw [Heap.write_of_ne ha, hr.owned_iff]
      constructor
      · rintro ⟨o', ho'⟩
        refine ⟨o', ?_⟩
        have hne : o' ≠ o := by
          rintro rfl
          rw [ho] at ho'
          cases ho'
        rwa [Function.update_of_ne hne]
      · rintro ⟨o', ho'⟩
        rcases hcases ho' with ⟨-, hfresh⟩ | ⟨-, hmem⟩
        · exact absurd hfresh ha
        · exact ⟨o', hmem⟩
  · intro o' a ha
    rcases hcases ha with ⟨-, rfl⟩ | ⟨-, hmem⟩
    · exact Nat.lt_succ_self _
    · exact Nat.lt_succ_of_lt (hr.below o' a hmem)

omit [DecidableEq ι] in
/-- An owner may write its cells. -/
theorem write (hr : Regions h fresh region) {o : ι} {a : ℕ} (ha : a ∈ region o) (c : Cell α) :
    Regions (h.write a c) fresh region := by
  refine ⟨hr.nodup, hr.owner_eq, fun b => ?_, hr.below⟩
  by_cases hb : b = a
  · subst hb
    rw [Heap.write_self]
    exact ⟨fun _ => ⟨o, ha⟩, fun _ => rfl⟩
  · rw [Heap.write_of_ne hb]
    exact hr.owned_iff b

/-- An owner may free its first cell. -/
theorem free (hr : Regions h fresh region) {o : ι} {a : ℕ} {cells : List ℕ}
    (ho : region o = a :: cells) : Regions (h.free a) fresh (Function.update region o cells) := by
  have hnodup := hr.nodup o
  rw [ho, List.nodup_cons] at hnodup
  have hmem {o' : ι} {b : ℕ} (hb : b ∈ Function.update region o cells o') :
      b ∈ region o' ∧ b ≠ a := by
    by_cases ho' : o' = o
    · subst ho'
      rw [Function.update_self] at hb
      refine ⟨ho ▸ List.mem_cons_of_mem _ hb, ?_⟩
      rintro rfl
      exact hnodup.1 hb
    · rw [Function.update_of_ne ho'] at hb
      refine ⟨hb, ?_⟩
      rintro rfl
      exact ho' (hr.owner_eq o' o b hb (ho ▸ List.mem_cons_self))
  constructor
  · intro o'
    by_cases ho' : o' = o
    · subst ho'
      rw [Function.update_self]
      exact hnodup.2
    · rw [Function.update_of_ne ho']
      exact hr.nodup o'
  · intro o₁ o₂ b h₁ h₂
    exact hr.owner_eq o₁ o₂ b (hmem h₁).1 (hmem h₂).1
  · intro b
    by_cases hb : b = a
    · subst hb
      rw [Heap.free_self]
      refine ⟨fun hnone => absurd hnone Bool.false_ne_true, ?_⟩
      rintro ⟨o', ho'⟩
      exact absurd rfl (hmem ho').2
    · rw [Heap.free_of_ne hb, hr.owned_iff]
      constructor
      · rintro ⟨o', ho'⟩
        refine ⟨o', ?_⟩
        by_cases hsame : o' = o
        · subst hsame
          rw [Function.update_self]
          rw [ho] at ho'
          exact (List.mem_cons.mp ho').resolve_left hb
        · rwa [Function.update_of_ne hsame]
      · rintro ⟨o', ho'⟩
        exact ⟨o', (hmem ho').1⟩
  · intro o' b hb
    exact hr.below o' b (hmem hb).1

/-- An owner may give its only cell to another one. -/
theorem give (hr : Regions h fresh region) {o o' : ι} (hne : o' ≠ o) {a : ℕ} (ho : region o = [a]) :
    Regions h fresh
      (Function.update (Function.update region o' (region o' ++ [a])) o []) := by
  set given := Function.update (Function.update region o' (region o' ++ [a])) o [] with hgiven
  have hown : a ∈ region o := ho ▸ List.mem_singleton_self a
  have hself : given o = [] := Function.update_self _ _ _
  have htaker : given o' = region o' ++ [a] := by
    rw [hgiven, Function.update_of_ne hne, Function.update_self]
  have hother {x : ι} (hx : x ≠ o) (hx' : x ≠ o') : given x = region x := by
    rw [hgiven, Function.update_of_ne hx, Function.update_of_ne hx']
  have hapart {x : ι} (hx : x ≠ o) : a ∉ region x := fun ha => hx (hr.owner_eq x o a ha hown)
  have hmem {x : ι} {b : ℕ} (hb : b ∈ given x) : b ∈ region x ∧ b ≠ a ∨ x = o' ∧ b = a := by
    have hx : x ≠ o := by
      rintro rfl
      rw [hself] at hb
      cases hb
    have hold (hb : b ∈ region x) : b ∈ region x ∧ b ≠ a :=
      ⟨hb, fun hba => hapart hx (hba ▸ hb)⟩
    by_cases hx' : x = o'
    · subst hx'
      rw [htaker, List.mem_append, List.mem_singleton] at hb
      rcases hb with hb | hb
      · exact Or.inl (hold hb)
      · exact Or.inr ⟨rfl, hb⟩
    · rw [hother hx hx'] at hb
      exact Or.inl (hold hb)
  constructor
  · intro x
    by_cases hx : x = o
    · rw [hx, hself]
      exact List.nodup_nil
    · by_cases hx' : x = o'
      · rw [hx', htaker]
        refine List.nodup_append.mpr ⟨hr.nodup o', List.nodup_singleton a, ?_⟩
        rintro b hb c hc rfl
        exact hapart hne (List.mem_singleton.mp hc ▸ hb)
      · rw [hother hx hx']
        exact hr.nodup x
  · intro x y b hx hy
    rcases hmem hx with ⟨hbx, hba⟩ | ⟨rfl, rfl⟩
    · rcases hmem hy with ⟨hby, -⟩ | ⟨-, hba'⟩
      · exact hr.owner_eq x y b hbx hby
      · exact absurd hba' hba
    · rcases hmem hy with ⟨-, hba⟩ | ⟨hy', -⟩
      · exact absurd rfl hba
      · exact hy'.symm
  · intro b
    rw [hr.owned_iff]
    constructor
    · rintro ⟨x, hx⟩
      by_cases hba : b = a
      · exact ⟨o', htaker ▸ List.mem_append_right _ (List.mem_singleton.mpr hba)⟩
      · have hxo : x ≠ o := by
          rintro rfl
          rw [ho] at hx
          exact hba (List.mem_singleton.mp hx)
        by_cases hxo' : x = o'
        · exact ⟨o', htaker ▸ List.mem_append_left _ (hxo' ▸ hx)⟩
        · exact ⟨x, (hother hxo hxo').symm ▸ hx⟩
    · rintro ⟨x, hx⟩
      rcases hmem hx with ⟨hb, -⟩ | ⟨-, rfl⟩
      · exact ⟨x, hb⟩
      · exact ⟨o, hown⟩
  · intro x b hx
    rcases hmem hx with ⟨hb, -⟩ | ⟨-, rfl⟩
    · exact hr.below x b hb
    · exact hr.below o b hown

/-- Two owners may exchange their cells. -/
theorem exchange (hr : Regions h fresh region) (o o' : ι) :
    Regions h fresh (region ∘ Equiv.swap o o') := by
  refine ⟨fun x => hr.nodup _, fun x y a hx hy => ?_, fun a => ?_, fun x => hr.below _⟩
  · exact (Equiv.swap o o').injective (hr.owner_eq _ _ a hx hy)
  · rw [hr.owned_iff]
    constructor
    · rintro ⟨x, hx⟩
      refine ⟨Equiv.swap o o' x, ?_⟩
      rwa [Function.comp_apply, Equiv.swap_apply_self]
    · rintro ⟨x, hx⟩
      exact ⟨_, hx⟩

end Regions

/-! ## The queue as a list -/

/-- The operations of a queue do to its values what is done to a plain list. -/
structure Linked.Listed (q : Linked α) : Prop where
  append : ∀ v, (q.append v).toList = q.toList ++ [v]
  isEmpty : q.isEmpty = q.toList.isEmpty
  pop : q.pop.1 = q.toList.head? ∧ q.pop.2.toList = q.toList.tail
  drain : q.drain.1 = q.toList ∧ q.drain.2.toList = []

namespace Chain

variable {q : Linked α} {cells : List ℕ} {vs : List α}

/-- The values in a queue are those of its chain. -/
theorem toList_eq (hchain : Chain q.heap q.tail q.head cells vs) (hnodup : cells.Nodup)
    (hbelow : ∀ a ∈ cells, a < q.fresh) : q.toList = vs :=
  hchain.values_eq hnodup (length_le_of_below hnodup hbelow)

/-- A value that is appended comes last. -/
theorem toList_append (hchain : Chain q.heap q.tail q.head cells vs) (hnodup : cells.Nodup)
    (hbelow : ∀ a ∈ cells, a < q.fresh) (v : α) : (q.append v).toList = vs ++ [v] := by
  have hnew : q.fresh ∉ cells := fun hmem => Nat.lt_irrefl _ (hbelow _ hmem)
  have hsnoc := (hchain.write hnew Linked.sentinel).snoc hnodup (Heap.write_self _ _ _) hnew v
  refine toList_eq (q := q.append v) hsnoc ?_ ?_
  · exact List.nodup_append.mpr ⟨hnodup, List.nodup_singleton _, fun a ha b hb =>
      List.mem_singleton.mp hb ▸ fun heq => hnew (heq ▸ ha)⟩
  · intro a ha
    rcases List.mem_append.mp ha with hold | hlast
    · exact Nat.lt_succ_of_lt (hbelow a hold)
    · rw [List.mem_singleton.mp hlast]
      exact Nat.lt_succ_self _

/-- The value that is popped is the first, and the others stay. -/
theorem pop_eq (hchain : Chain q.heap q.tail q.head cells vs) (hnodup : cells.Nodup)
    (hbelow : ∀ a ∈ cells, a < q.fresh) : q.pop.1 = vs.head? ∧ q.pop.2.toList = vs.tail := by
  have hends := hchain.first_eq_last_iff hnodup
  unfold Linked.pop Linked.isEmpty
  cases vs with
  | nil =>
    rw [if_pos (decide_eq_true (hends.mpr rfl))]
    exact ⟨rfl, hchain.toList_eq hnodup hbelow⟩
  | cons v vs =>
    have hne : ¬ decide (q.head = q.tail) = true := by simp [hends]
    obtain ⟨c, rest, rfl, hcell, hrest⟩ := hchain.of_cons
    obtain ⟨hfirst, hnodup'⟩ := List.nodup_cons.mp hnodup
    have htake : q.take = (some v, { q with heap := q.heap.free q.head, head := c }) := by
      rw [Linked.take, hcell]
    rw [if_neg hne, htake]
    refine ⟨rfl, toList_eq (q := { q with heap := q.heap.free q.head, head := c })
      (hrest.free hfirst) hnodup' ?_⟩
    exact fun a ha => hbelow a (List.mem_cons_of_mem _ ha)

/-- All values are drained, and the new chain has none. -/
theorem drain_eq (hchain : Chain q.heap q.tail q.head cells vs) (hnodup : cells.Nodup)
    (hbelow : ∀ a ∈ cells, a < q.fresh) : q.drain.1 = vs ∧ q.drain.2.toList = [] := by
  have hnew : q.fresh ∉ cells := fun hmem => Nat.lt_irrefl _ (hbelow _ hmem)
  have hlength := Nat.le_succ_of_le (length_le_of_below hnodup hbelow)
  have hvalues := (hchain.write hnew Linked.sentinel).values_eq hnodup hlength
  refine ⟨hvalues, ?_⟩
  unfold Linked.drain Linked.detach Linked.toList
  rw [Heap.values, if_pos rfl]

/-- So a queue whose cells hang together is a plain list. -/
theorem listed (hchain : Chain q.heap q.tail q.head cells vs) (hnodup : cells.Nodup)
    (hbelow : ∀ a ∈ cells, a < q.fresh) : q.Listed := by
  have htoList := hchain.toList_eq hnodup hbelow
  constructor
  · intro v
    rw [htoList, hchain.toList_append hnodup hbelow v]
  · rw [htoList, Linked.isEmpty, Bool.eq_iff_iff, decide_eq_true_iff,
      hchain.first_eq_last_iff hnodup, List.isEmpty_iff]
  · rw [htoList]
    exact hchain.pop_eq hnodup hbelow
  · rw [htoList]
    exact hchain.drain_eq hnodup hbelow

end Chain

end Haulage.Queue
