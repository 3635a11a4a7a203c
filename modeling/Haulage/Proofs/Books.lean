import Haulage.Site.Transactions
import Mathlib.Data.Nat.Notation

/-!
# What happens to a transaction

What the calls of a site do to one transaction and to the reports about it. Each call either leaves
the transaction alone or replaces it by a change of its books, with at most one report; besides that
only the pool and the file tree change.
-/

namespace Haulage

/-- The report of this transaction that an entry of the journal is. -/
def Notice.reportOf (key : Nat) : Notice → Option Report
  | .reported k r => if k = key then some r else none
  | .delivered _ _ _ => none

namespace Site

variable {σ : Type}

/-- What a transaction has reported, oldest first. -/
def reports (s : Site σ) (key : Nat) : List Report := s.journal.filterMap (Notice.reportOf key)

/-! ## Replacing a transaction -/

/-- A transaction that was replaced is found. -/
theorem getElem?_setTransaction {s : Site σ} {key : ℕ} {t : Transaction}
    (h : s.transactions[key]? = some t) (t' : Transaction) :
    (s.setTransaction key t').transactions[key]? = some t' := by
  obtain ⟨hlt, -⟩ := List.getElem?_eq_some_iff.mp h
  exact List.getElem?_set_self hlt

/-- A transaction whose books were changed is found. -/
theorem getElem?_book {s : Site σ} {key : ℕ} {t : Transaction}
    (h : s.transactions[key]? = some t) (x : Transaction × Option Report) :
    (s.book key x).transactions[key]? = some x.1 := by
  have hset := getElem?_setTransaction h x.1
  unfold book
  split
  · exact hset
  · exact hset

/-- Changing the books of a transaction adds its report, if there is one. -/
theorem reports_book (s : Site σ) (key : ℕ) (x : Transaction × Option Report) :
    (s.book key x).reports key = s.reports key ++ x.2.toList := by
  unfold book
  split
  · rename_i hnone
    rw [hnone, Option.toList_none, List.append_nil]
    rfl
  · rename_i r hsome
    rw [hsome, Option.toList_some]
    change (s.journal ++ [Notice.reported key r]).filterMap (Notice.reportOf key) = _
    rw [List.filterMap_append]
    simp [Notice.reportOf, reports]

/-- Changing the books of a transaction leaves the pool alone. -/
@[simp] theorem pool_book (s : Site σ) (key : ℕ) (x : Transaction × Option Report) :
    (s.book key x).pool = s.pool := by
  unfold book
  split <;> rfl

/-! ## Items that join and return -/

/-- Checking an item only touches the ground. -/
theorem enlist_eq (m : StorageManager σ) (s : Site σ) (i : Item) :
    ∃ g, (s.enlist m i).2.2 = { s with ground := g } := ⟨_, rfl⟩

/-- Checking items only touches the ground. -/
theorem enlistAll_eq (m : StorageManager σ) (s : Site σ) (items : List Item) :
    ∃ g, (enlistAll m s items).2 = { s with ground := g } := by
  induction items generalizing s with
  | nil => exact ⟨s.ground, rfl⟩
  | cons i rest ih =>
    obtain ⟨g, hg⟩ := s.enlist_eq m i
    unfold enlistAll
    split
    · rename_i i' s' heq
      rw [heq] at hg
      obtain ⟨g', hg'⟩ := ih s'
      refine ⟨g', hg'.trans ?_⟩
      rw [show s' = { s with ground := g } from hg]
    · rename_i e i' s' heq
      rw [heq] at hg
      obtain ⟨g', hg'⟩ := ih s'
      refine ⟨g', hg'.trans ?_⟩
      rw [show s' = { s with ground := g } from hg]

/-- Putting an item back only touches the pool and the ground. -/
theorem resubmit_eq (m : StorageManager σ) (s : Site σ) (c : ClientId) (i : Item) :
    ∃ p g, (s.resubmit m c i).2 = { s with pool := p, ground := g } := by
  unfold resubmit
  split
  · exact ⟨s.pool, s.ground, rfl⟩
  · split
    rename_i i' tree hreset
    obtain ⟨g, hg⟩ := ({ s with ground := { s.ground with tree := tree } } : Site σ).enlist_eq m i'
    split
    · rename_i e i'' s' heq
      rw [heq] at hg
      exact ⟨s.pool, g, hg⟩
    · rename_i i'' s' heq
      rw [heq] at hg
      change s' = _ at hg
      subst hg
      split
      · exact ⟨s.pool, g, rfl⟩
      · rename_i p hadd
        exact ⟨p, g, rfl⟩

/-- Receiving an item only touches the pool and the ground. -/
theorem receive_eq (m : StorageManager σ) (s : Site σ) (c : ClientId) (i : Item) :
    ∃ p g, (s.receive m c i).2 = { s with pool := p, ground := g } := by
  obtain ⟨p, g, hg⟩ := s.resubmit_eq m c i
  unfold receive
  split
  · exact ⟨s.pool, _, rfl⟩
  · exact ⟨s.pool, s.ground, rfl⟩
  · split
    · split
      · rename_i s' heq
        rw [heq] at hg
        exact ⟨p, g, hg⟩
      · rename_i s' heq
        rw [heq] at hg
        exact ⟨p, g, hg⟩
    · exact ⟨s.pool, s.ground, rfl⟩

/-- The item as it is handed back: reset, and with a new destination if it could be given one. -/
def renewed (m : StorageManager σ) (s : Site σ) (i : Item) : Item :=
  let (i', tree) := i.reset s.ground.tree
  (i'.enlist m s.ground.storage tree).2.1

/-- An item that is put back is renewed and added to the pool. Otherwise the pool stays as it is. -/
theorem pool_resubmit (m : StorageManager σ) (s : Site σ) (c : ClientId) (i : Item) :
    ((s.resubmit m c i).1 = true ∧
      s.pool.addItem c (renewed m s i) = .ok (s.resubmit m c i).2.pool) ∨
    ((s.resubmit m c i).1 = false ∧ (s.resubmit m c i).2.pool = s.pool) := by
  unfold resubmit
  split
  · exact Or.inr ⟨rfl, rfl⟩
  · split
    rename_i i' tree hreset
    have hrenewed (r : Except ItemError Unit) (i'' : Item) (s' : Site σ)
        (heq : ({ s with ground := { s.ground with tree := tree } } : Site σ).enlist m i' =
          (r, i'', s')) : i'' = renewed m s i ∧ s'.pool = s.pool := by
      unfold renewed
      rw [hreset]
      exact ⟨(congrArg (·.2.1) heq).symm, (congrArg (·.2.2.pool) heq).symm⟩
    split
    · rename_i heq
      exact Or.inr ⟨rfl, (hrenewed _ _ _ heq).2⟩
    · rename_i heq
      obtain ⟨rfl, hpool⟩ := hrenewed _ _ _ heq
      rw [hpool]
      split
      · exact Or.inr ⟨rfl, hpool⟩
      · rename_i hadd
        exact Or.inl ⟨rfl, hadd⟩

/-- Receiving an item adds it to the pool again if it is put back, and otherwise leaves the pool
alone. -/
theorem pool_receive (m : StorageManager σ) (s : Site σ) (c : ClientId) (i : Item) :
    ((s.receive m c i).1 = .putBack ∧
      s.pool.addItem c (renewed m s i) = .ok (s.receive m c i).2.pool) ∨
    ((s.receive m c i).1 ≠ .putBack ∧ (s.receive m c i).2.pool = s.pool) := by
  unfold receive
  split
  · exact Or.inr ⟨Arrival.noConfusion, rfl⟩
  · exact Or.inr ⟨Arrival.noConfusion, rfl⟩
  · split
    · obtain ⟨hback, hadd⟩ | ⟨hback, hpool⟩ := pool_resubmit m s c i
      · split <;> rename_i heq <;> rw [heq] at hback hadd
        · exact Or.inl ⟨rfl, hadd⟩
        · cases hback
      · split <;> rename_i heq <;> rw [heq] at hback hpool
        · cases hback
        · exact Or.inr ⟨Arrival.noConfusion, hpool⟩
    · exact Or.inr ⟨Arrival.noConfusion, rfl⟩

/-- How an item that comes back is counted. -/
inductive Counted (i : Item) : Arrival → Prop
  | done (state : i.state = .done) : Counted i (.done i.bytes)
  | failed (state : i.state = .failed) : Counted i (.failed i.bytes)
  /-- It ended in another way, and is not put back. -/
  | lost (not_done : i.state ≠ .done) (not_failed : i.state ≠ .failed) : Counted i (.failed 0)
  | putBack (state : i.state.isResubmittable) : Counted i .putBack

/-- Every item that comes back is counted in one of these ways. -/
theorem counted_receive (m : StorageManager σ) (s : Site σ) (c : ClientId) (i : Item) :
    Counted i (s.receive m c i).1 := by
  unfold receive
  split
  · rename_i hstate
    exact Counted.done hstate
  · rename_i hstate
    exact Counted.failed hstate
  · rename_i hdone hfailed
    split
    · rename_i hback
      split
      · exact Counted.putBack hback
      · exact Counted.lost hdone hfailed
    · exact Counted.lost hdone hfailed

/-! ## Calls -/

variable {m : StorageManager σ} {s : Site σ} {key : ℕ} {t : Transaction}

/-- Items are added to a transaction that there is. -/
theorem addToTransaction_of_none (h : s.transactions[key]? = none) (items : List Item) :
    s.addToTransaction m key items = (0, s) := by
  unfold addToTransaction
  rw [h]

/-- Items are only added to a transaction that has not started. -/
theorem addToTransaction_of_ne (h : s.transactions[key]? = some t) (hphase : t.phase ≠ .building)
    (items : List Item) : s.addToTransaction m key items = (0, s) := by
  unfold addToTransaction
  rw [h]
  exact if_pos hphase

/-- Adding items to a transaction that has not started adds those that pass their checks. -/
theorem addToTransaction_eq (h : s.transactions[key]? = some t) (hphase : t.phase = .building)
    (items : List Item) :
    (s.addToTransaction m key items).2 = (s.enlistAll m items).2.setTransaction key
      { t with items := t.items ++ (s.enlistAll m items).1 } := by
  unfold addToTransaction
  rw [h]
  simp only [hphase, ne_eq, not_true_eq_false, if_false]

/-- Adding items changes what a transaction will execute, and the ground. -/
theorem addToTransaction_of_building (h : s.transactions[key]? = some t)
    (hphase : t.phase = .building) (items : List Item) :
    ∃ g kept, (s.addToTransaction m key items).2 =
      ({ s with ground := g } : Site σ).setTransaction key { t with items := t.items ++ kept } := by
  obtain ⟨g, hg⟩ := s.enlistAll_eq m items
  refine ⟨g, (s.enlistAll m items).1, ?_⟩
  rw [addToTransaction_eq h hphase, hg]

/-- What is not there is not executed. -/
theorem execute_of_none (h : s.transactions[key]? = none) : s.execute key = (.ok (), s) := by
  unfold execute
  rw [h]

/-- A transaction that has started is not executed again. -/
theorem execute_of_ne (h : s.transactions[key]? = some t) (hphase : t.phase ≠ .building) :
    s.execute key = (.error (.alreadyStarted t.client), s) := by
  unfold execute
  rw [h]
  exact if_pos hphase

/-- Executing a transaction begins it if it has items and the pool takes them, and ends it as a
failure if not. -/
theorem execute_of_building (h : s.transactions[key]? = some t) (hphase : t.phase = .building) :
    (t.items ≠ [] ∧ (s.execute key).1 = .ok () ∧
      ∃ p, (s.execute key).2 = ({ s with pool := p } : Site σ).setTransaction key t.begin.2) ∨
    ((t.items = [] ∨ ∃ e, (s.execute key).1 = .error e) ∧
      ∃ t', (t' = t ∨ t' = t.begin.2) ∧ (s.execute key).2 = s.book key (t'.conclude .failure)) := by
  unfold execute
  rw [h]
  simp only [hphase, ne_eq, not_true_eq_false, if_false]
  split
  · rename_i hitems
    exact Or.inr ⟨Or.inl (by simpa using hitems), t, Or.inl rfl, rfl⟩
  · rename_i hitems
    have hne : t.items ≠ [] := by simpa using hitems
    cases hsubmit : s.pool.submit t.client (.transaction key) t.begin.1 with
    | ok p => exact Or.inl ⟨hne, rfl, p, rfl⟩
    | error e => exact Or.inr ⟨Or.inr ⟨_, rfl⟩, t.begin.2, Or.inr rfl, rfl⟩

/-- What executing a transaction does, by what the pool answers. -/
theorem execute_eq (h : s.transactions[key]? = some t) (hphase : t.phase = .building) :
    (t.items = [] ∧ s.execute key = (.ok (), s.book key (t.conclude .failure))) ∨
    (t.items ≠ [] ∧ ∃ p, s.pool.submit t.client (.transaction key) t.items = .ok p ∧
      s.execute key = (.ok (), ({ s with pool := p } : Site σ).setTransaction key t.begin.2)) ∨
    (t.items ≠ [] ∧ ∃ e, s.pool.submit t.client (.transaction key) t.items = .error e ∧
      s.execute key = (.error (.refused e), s.book key (t.begin.2.conclude .failure))) := by
  unfold execute
  rw [h]
  simp only [hphase, ne_eq, not_true_eq_false, if_false]
  by_cases hitems : t.items = []
  · exact Or.inl ⟨hitems, if_pos (List.isEmpty_iff.mpr hitems)⟩
  · rw [if_neg fun hempty => hitems (List.isEmpty_iff.mp hempty)]
    right
    cases hsubmit : s.pool.submit t.client (.transaction key) t.items with
    | ok p =>
      refine Or.inl ⟨hitems, p, rfl, ?_⟩
      rw [show t.begin.1 = t.items from rfl, hsubmit]
    | error e =>
      refine Or.inr ⟨hitems, e, rfl, ?_⟩
      rw [show t.begin.1 = t.items from rfl, hsubmit]

/-- Only an executing transaction is cancelled. -/
theorem cancelTransaction_of_ne (h : s.transactions[key]? = some t)
    (hphase : t.phase ≠ .executing) : s.cancelTransaction key = (false, s) := by
  unfold cancelTransaction
  rw [h]
  exact if_pos hphase

/-- Cancelling an executing transaction ends it. -/
theorem cancelTransaction_of_executing (h : s.transactions[key]? = some t)
    (hphase : t.phase = .executing) :
    ∃ p, s.cancelTransaction key =
      (true, ({ s with pool := p } : Site σ).book key (t.conclude .cancelled)) := by
  unfold cancelTransaction
  rw [h]
  simp only [hphase, ne_eq, not_true_eq_false, if_false]
  cases hcancel : s.pool.cancel t.client with
  | ok p => exact ⟨p, rfl⟩
  | error e => exact ⟨s.pool, rfl⟩

/-- An item that comes back late is only taken off what is outstanding. -/
theorem returnToTransaction_of_ne (h : s.transactions[key]? = some t)
    (hphase : t.phase ≠ .executing) (c : ClientId) (i : Item) :
    s.returnToTransaction m key c i =
      s.setTransaction key { t with outstanding := t.outstanding - 1 } := by
  unfold returnToTransaction
  rw [h]
  exact if_pos hphase

/-- An item that comes back in time is received and counted. -/
theorem returnToTransaction_of_executing (h : s.transactions[key]? = some t)
    (hphase : t.phase = .executing) (c : ClientId) (i : Item) :
    s.returnToTransaction m key c i =
      (s.receive m c i).2.book key (t.arrive (s.receive m c i).1) := by
  unfold returnToTransaction
  rw [h]
  simp only [hphase, ne_eq, not_true_eq_false, if_false]

end Site

end Haulage
