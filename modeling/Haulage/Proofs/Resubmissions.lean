import Haulage.Proofs.Calls
import Haulage.Proofs.HandBack
import Haulage.Proofs.Settlement
import Mathlib.Algebra.Order.BigOperators.Group.Finset

/-!
# Resubmissions

A transaction puts an item back for another attempt when the destination that was allocated for it
is lost. `Resubmissions.limited_after` says that this comes to an end: no item is put back more
often than the settings allow, and a transaction of `n` items has reported after `n + n * limit`
items came back, whatever they came back as, whatever the storage manager gives out, and whatever
else goes on.

The limit is kept by a counter that travels with each item. Workers leave it alone, so that an item
comes back with the counter that it was given, and the heart of the proof is that the counter of an
item is the number of times it was put back (`Resubmissions.Kept.counted`). The counter stops at
255; a limit of 255 is kept all the same, as the counter is compared before it is raised.
-/

namespace Haulage

open Disk (Path Tree)

/-! ## Items for another attempt -/

/-- What a pool leaves alone of an item that it has: what no attempt changes, but for the tag, which
the pool chooses. -/
def Item.outline (i : Item) : Item := { i.manifest with tag := none }

/-- An item with the same outline was put back as often. -/
theorem Item.resubmits_of_outline {i j : Item} (h : i.outline = j.outline) :
    i.resubmits = j.resubmits := by
  change i.outline.resubmits = j.outline.resubmits
  rw [h]

/-- An item whose destination is allocated goes back to its manifest, and its counter is raised. -/
theorem Item.reset_of_isAuto {i : Item} (h : i.isAuto) (t : Tree) :
    (i.reset t).1 = { i.manifest with resubmits := min (i.resubmits + 1) 255 } := by
  obtain ⟨payload, state, destination, wish, source, priority, tag, removes, bytes, resubmits,
    session⟩ := i
  have hwish : wish.isSome := h
  cases session <;> simp only [reset, dropSession, isAuto, manifest, hwish, if_true]

/-- An item that needs a destination passes its checks with the one that it is allocated, which is
not on the medium of its source. -/
theorem Item.enlist_of_isAuto {σ : Type} {m : StorageManager σ} {s : σ} {t : Tree} {i : Item}
    (hauto : i.isAuto) (hnone : i.destination = none) (h : (i.enlist m s t).1 = .ok ()) :
    ∃ wish a, i.wish = some wish ∧
      (m.allocate s t wish.family wish.label i.sourcePriority).1 = .ok a ∧
      (i.enlist m s t).2.1 = { i with
        destination := some (a.directory.join wish.name), destinationPriority := a.priority } ∧
      (a.priority.isUnset ∨ a.priority ≠ i.sourcePriority) := by
  obtain ⟨wish, hwish⟩ := Option.isSome_iff_exists.mp hauto
  have hprepare : i.prepareIfNeeded m s t = i.prepare m s t := by
    unfold prepareIfNeeded
    rw [if_pos (by rw [hauto, hnone]; rfl)]
  unfold enlist at h ⊢
  rw [hprepare] at h ⊢
  unfold prepare at h ⊢
  simp only [hwish] at h ⊢
  split at h
  · cases h
  · rename_i i' s' t' heq
    split at heq
    · cases heq
    · rename_i a s'' t'' halloc
      cases heq
      refine ⟨wish, a, rfl, congrArg Prod.fst halloc, ?_⟩
      split at h
      · cases h
      · split at h
        · cases h
        · -- What is left is the check of the media.
          refine ⟨rfl, ?_⟩
          simp only [checkMedia] at h
          split at h
          · rename_i hunset
            exact Or.inl hunset
          · split at h
            · cases h
            · rename_i hne
              exact Or.inr hne

/-- Checking an item for a transaction leaves its manifest alone. -/
theorem Item.manifest_enlist {σ : Type} (m : StorageManager σ) (s : σ) (t : Tree) (i : Item) :
    (i.enlist m s t).2.1.manifest = i.manifest := by
  have hprepare : (i.prepareIfNeeded m s t).2.1.manifest = i.manifest := by
    unfold prepareIfNeeded
    split
    · exact i.manifest_prepare m s t
    · rfl
  unfold enlist
  split
  · rename_i heq
    rwa [heq] at hprepare
  · rename_i heq
    rw [heq] at hprepare
    split
    · exact hprepare
    · split <;> exact hprepare

namespace Site

variable {σ : Type} {m : StorageManager σ} {s : Site σ}

/-- The items that pass their checks were among those that were checked. -/
theorem mem_enlistAll {items : List Item} {i : Item} (h : i ∈ (enlistAll m s items).1) :
    ∃ j ∈ items, i.manifest = j.manifest := by
  induction items generalizing s with
  | nil => cases h
  | cons j rest ih =>
    unfold enlistAll at h
    split at h
    · rename_i j' s' heq
      rcases List.mem_cons.mp h with rfl | hrest
      · have hmanifest := j.manifest_enlist m s.ground.storage s.ground.tree
        rw [show (j.enlist m s.ground.storage s.ground.tree).2.1 = i from
          congrArg (·.2.1) heq] at hmanifest
        exact ⟨j, List.mem_cons_self, hmanifest⟩
      · obtain ⟨k, hk, hmanifest⟩ := ih hrest
        exact ⟨k, List.mem_cons_of_mem _ hk, hmanifest⟩
    · obtain ⟨k, hk, hmanifest⟩ := ih h
      exact ⟨k, List.mem_cons_of_mem _ hk, hmanifest⟩

/-- Only a renewable item is put back. -/
theorem renewable_of_resubmit {c : ClientId} {i : Item} (hstate : i.state.isResubmittable)
    (h : (s.resubmit m c i).1 = true) : Renewable m s i := by
  unfold resubmit at h
  split at h
  · cases h
  · rename_i hgo
    have hgo' : i.isAuto ∧ i.resubmits < s.pool.settings.maxResubmits := by simpa using hgo
    refine ⟨hstate, hgo'.1, hgo'.2, ?_⟩
    simp only at h
    split at h
    · cases h
    · rename_i heq
      exact congrArg Prod.fst heq

/-- Only a renewable item comes back to be put back. -/
theorem renewable_of_receive {c : ClientId} {i : Item} (h : (s.receive m c i).1 = .putBack) :
    Renewable m s i := by
  have hcounted := s.counted_receive m c i
  rw [h] at hcounted
  cases hcounted with
  | putBack state =>
    refine renewable_of_resubmit (c := c) state ?_
    unfold receive at h
    split at h
    · cases h
    · cases h
    · rw [if_pos state] at h
      split at h
      · rename_i heq
        rw [heq]
      · cases h

end Site

/-! ## Settings of a pool -/

namespace Pool

variable {κ : Type} {p p' : Pool κ}

/-- Dispatching items leaves the settings alone. -/
@[simp] theorem settings_dispatchAll (p : Pool κ) (c : ClientId) (items : List (Item × Tag)) :
    (p.dispatchAll c items).settings = p.settings := by
  unfold dispatchAll
  induction items generalizing p with
  | nil => rfl
  | cons x rest ih => exact ih _

/-- Taking on items leaves the settings alone. -/
theorem settings_submit {c : ClientId} {receiver : κ} {items : List Item}
    (h : p.submit c receiver items = .ok p') (hitems : items ≠ []) :
    p'.settings = p.settings := by
  obtain ⟨-, -, tags, clients, -, rfl⟩ := of_submit h hitems
  exact settings_dispatchAll _ _ _

/-- Taking on one more item leaves the settings alone. -/
theorem settings_addItem {c : ClientId} {i : Item} (h : p.addItem c i = .ok p') :
    p'.settings = p.settings := by
  obtain ⟨-, -, tag, clients, -, rfl⟩ := of_addItem h
  rfl

/-- Having items cancelled leaves the settings alone. -/
theorem settings_cancel {c : ClientId} (h : p.cancel c = .ok p') : p'.settings = p.settings := by
  obtain ⟨-, a, -, rfl⟩ := of_cancel h
  have hall (tags : List Tag) (p : Pool κ) :
      (tags.foldl (fun p tag => p.postAll (.cancel tag)) p).settings = p.settings := by
    induction tags generalizing p with
    | nil => rfl
    | cons tag rest ih => exact ih _
  exact hall a.tags p

end Pool

namespace Site

variable {σ : Type}

/-- Adding items to a transaction leaves the pool alone. -/
theorem pool_addToTransaction (m : StorageManager σ) (s : Site σ) (key : ℕ) (items : List Item) :
    (s.addToTransaction m key items).2.pool = s.pool := by
  obtain ⟨g, hg⟩ := s.enlistAll_eq m items
  unfold addToTransaction
  split
  · rfl
  · split
    · rfl
    · simp only [hg]
      rfl

/-- Executing a transaction leaves the settings of the pool alone. -/
theorem settings_execute (s : Site σ) (key : ℕ) :
    (s.execute key).2.pool.settings = s.pool.settings := by
  unfold execute
  split
  · rfl
  · split
    · rfl
    · split
      · simp only [pool_book]
      · rename_i t _ _ hitems
        cases hsubmit : s.pool.submit t.client (.transaction key) t.begin.1 with
        | ok p =>
          have hsettings := Pool.settings_submit hsubmit (by simpa [Transaction.begin] using hitems)
          simp only [hsubmit]
          exact hsettings
        | error e => simp only [hsubmit, pool_book]

/-- Executing a transaction starts it, or ends it as it is. -/
theorem found_execute {s : Site σ} {key : ℕ} {t : Transaction}
    (h : s.transactions[key]? = some t) (hphase : t.phase = .building) :
    ∃ t', (s.execute key).2.transactions[key]? = some t' ∧ t'.phase ≠ .building ∧
      t'.summary.done = t.summary.done ∧ t'.summary.failed = t.summary.failed ∧
      t'.summary.resubmitted = t.summary.resubmitted := by
  rcases execute_of_building h hphase with ⟨-, -, p, hbegun⟩ | ⟨-, t', ht', hended⟩
  · refine ⟨t.begin.2, ?_, TransactionPhase.noConfusion, rfl, rfl, rfl⟩
    rw [hbegun]
    exact getElem?_setTransaction (s := { s with pool := p }) h _
  · refine ⟨(t'.conclude .failure).1, ?_, TransactionPhase.noConfusion, ?_⟩
    · rw [hended]
      exact getElem?_book h _
    · rcases ht' with rfl | rfl <;> exact ⟨rfl, rfl, rfl⟩

/-- Cancelling a transaction leaves the settings of the pool alone. -/
theorem settings_cancelTransaction (s : Site σ) (key : ℕ) :
    (s.cancelTransaction key).2.pool.settings = s.pool.settings := by
  unfold cancelTransaction
  split
  · rfl
  · rename_i t _
    split
    · rfl
    · cases hcancel : s.pool.cancel t.client with
      | ok p =>
        simp only [pool_book]
        exact Pool.settings_cancel hcancel
      | error e => simp only [pool_book]

/-- An item that comes back leaves the settings of the pool alone. -/
theorem settings_returnToTransaction (m : StorageManager σ) (s : Site σ) (key : ℕ) (c : ClientId)
    (i : Item) : (s.returnToTransaction m key c i).pool.settings = s.pool.settings := by
  unfold returnToTransaction
  split
  · rfl
  · split
    · rfl
    · simp only [pool_book]
      rcases pool_receive m s c i with ⟨-, hadd⟩ | ⟨-, hsame⟩
      · exact Pool.settings_addItem hadd
      · rw [hsame]

end Site

/-! ## Items that were put back -/

/-- A renewed item is its manifest with the counter raised and a new destination, which is not on
the medium of its source. -/
theorem Site.Renewable.renewed_eq {σ : Type} {m : StorageManager σ} {s : Site σ} {i : Item}
    (h : Site.Renewable m s i) :
    ∃ wish a, i.wish = some wish ∧
      (m.allocate s.ground.storage (i.reset s.ground.tree).2 wish.family wish.label
        i.sourcePriority).1 = .ok a ∧
      Site.renewed m s i = { i.manifest with
        resubmits := min (i.resubmits + 1) 255
        destination := some (a.directory.join wish.name)
        destinationPriority := a.priority } ∧
      (a.priority.isUnset ∨ a.priority ≠ i.sourcePriority) := by
  have hreset := Item.reset_of_isAuto h.auto s.ground.tree
  have henlisted := h.enlisted
  unfold Site.renewed
  simp only [hreset] at henlisted ⊢
  exact Item.enlist_of_isAuto (i := { i.manifest with resubmits := min (i.resubmits + 1) 255 })
    h.auto rfl henlisted

/-- An item that came back and was put back: its number among the items executed, the site and the
client as it came back, and the item as it came. -/
structure PutBack (σ : Type) where
  slot : ℕ
  site : Site σ
  client : ClientId
  came : Item

namespace PutBack

variable {σ : Type}

/-- The item as it was given to the pool again. -/
def given (m : StorageManager σ) (p : PutBack σ) : Item := Site.renewed m p.site p.came

/-- What is to hold of an item that was put back. -/
structure Relaunched (m : StorageManager σ) (p : PutBack σ) : Prop where
  /-- Its destination was allocated, and is lost. -/
  auto : p.came.isAuto
  lost : p.came.state = .commonDestinationVanished ∨ p.came.state = .commonDestinationChanged
  /-- It was put back less often than it may be. -/
  spare : p.came.resubmits < p.site.pool.settings.maxResubmits
  /-- The pool has taken it. -/
  taken : ∃ pool, p.site.pool.addItem p.client (p.given m) = .ok pool
  /-- It is the same item, put back once more. -/
  again : (p.given m).outline =
    { p.came.outline with resubmits := min (p.came.resubmits + 1) 255 }
  /-- It starts anew. -/
  waiting : (p.given m).state = .waiting
  unmoved : (p.given m).bytes = 0
  closed : (p.given m).session = none
  /-- Its destination is newly allocated. -/
  allocated : ∃ wish a, p.came.wish = some wish ∧
    (m.allocate p.site.ground.storage (p.came.reset p.site.ground.tree).2 wish.family wish.label
      p.came.sourcePriority).1 = .ok a ∧
    (p.given m).destination = some (a.directory.join wish.name) ∧
    (p.given m).destinationPriority = a.priority
  /-- It keeps off the medium of its source. -/
  apart : (p.given m).destinationPriority.isUnset ∨
    (p.given m).destinationPriority ≠ (p.given m).sourcePriority

/-- Every item that is put back is relaunched. -/
theorem relaunched_of_receive {m : StorageManager σ} {p : PutBack σ}
    (h : (p.site.receive m p.client p.came).1 = .putBack) : p.Relaunched m := by
  have hrenewable := Site.renewable_of_receive h
  obtain ⟨wish, a, hwish, halloc, hgiven, hapart⟩ := hrenewable.renewed_eq
  change p.given m = _ at hgiven
  refine ⟨hrenewable.auto, ?_, hrenewable.resubmits_lt, ?_, ?_, ?_, ?_, ?_, ?_, ?_⟩
  · have hstate := hrenewable.state
    cases heq : p.came.state <;> simp [heq, ItemState.isResubmittable] at hstate ⊢
  · rcases Site.pool_receive m p.site p.client p.came with ⟨-, hadd⟩ | ⟨hne, -⟩
    · exact ⟨_, hadd⟩
    · exact absurd h hne
  · rw [hgiven]
    rfl
  · rw [hgiven]
    rfl
  · rw [hgiven]
    rfl
  · rw [hgiven]
    rfl
  · refine ⟨wish, a, hwish, halloc, ?_, ?_⟩ <;> rw [hgiven]
  · rw [hgiven]
    exact hapart

end PutBack

namespace TransactionRun

variable {σ : Type}

/-- Executing does to the site what the call does. -/
theorem site_execute (x : TransactionRun σ) (key : ℕ) : (x.execute key).site =
    (x.site.execute key).2 := by
  unfold execute
  split
  · split <;> rfl
  · rfl

/-- If a transaction has become an executed one, all its items were executed. -/
theorem executed_execute {x : TransactionRun σ} {key n : ℕ} {t : Transaction}
    (h : x.site.transactions[key]? = some t) (hn : (x.execute key).executed = some n) :
    x.executed = some n ∨ t.items.length = n := by
  unfold execute at hn
  split at hn
  · rename_i t' hfound _
    cases hfound.symm.trans h
    split at hn
    · exact Or.inl hn
    · exact Or.inr (Option.some.inj hn)
  · exact Or.inl hn

/-- Nothing comes back by executing. -/
theorem returns_execute (x : TransactionRun σ) (key : ℕ) : (x.execute key).returns = x.returns := by
  unfold execute
  split
  · split <;> rfl
  · rfl

/-- An item that comes back in time is received, and is one more that came back. -/
theorem receive_of_executing (m : StorageManager σ) (key : ℕ) (x : TransactionRun σ) (k slot : ℕ)
    {t : Transaction} (hphase : t.phase = .executing) (i : Item) :
    (x.receive m key k slot t i).site = x.site.returnToTransaction m key t.client i ∧
      (x.receive m key k slot t i).executed = x.executed ∧
      (x.receive m key k slot t i).returns = ⟨slot, i⟩ :: x.returns := by
  unfold receive
  rw [if_pos hphase]
  exact ⟨rfl, rfl, rfl⟩

end TransactionRun

/-! ## Resubmissions of a transaction -/

/-- A run of a transaction with the record of what was put back. -/
structure Resubmissions (σ : Type) where
  run : TransactionRun σ
  /-- The items that were executed, each as the pool was given it for the last time. -/
  given : List Item
  /-- What was put back, the latest first. -/
  putBacks : List (PutBack σ)

namespace Resubmissions

variable {σ : Type}

/-- How often an item was put back. -/
def times (r : Resubmissions σ) (slot : ℕ) : ℕ := (r.putBacks.map (·.slot)).count slot

/-- The record of a new transaction. -/
def start (s : Site σ) : Resubmissions σ := ⟨.start s, [], []⟩

/-- The record after an item came back. -/
def receive (m : StorageManager σ) (key : ℕ) (r : Resubmissions σ) (k slot : ℕ) (t : Transaction)
    (i : Item) : Resubmissions σ :=
  let run := r.run.receive m key k slot t i
  if t.phase = .executing ∧ (r.run.site.receive m t.client i).1 = .putBack then
    let p : PutBack σ := ⟨slot, r.run.site, t.client, i⟩
    ⟨run, r.given.set slot (p.given m), p :: r.putBacks⟩
  else { r with run := run }

/-- The record after a move. An item comes back with the outline that it was given to the pool with:
no worker changes the manifest of an item (`Attempt.manifest_move` and its like), and its tag was
set by the pool. Nothing that happens elsewhere changes the settings of the pool. -/
def next (m : StorageManager σ) (key : ℕ) (r : Resubmissions σ) : Move σ → Resubmissions σ
  | .back k i => match r.run.out[k]?, r.run.site.transactions[key]? with
    | some slot, some t =>
      if (r.given[slot]?).map Item.outline = some i.outline then r.receive m key k slot t i else r
    | _, _ => r
  | .execute => match r.run.site.transactions[key]? with
    | some t =>
      { r with
        run := r.run.next m key .execute
        given := if t.phase = .building then t.items else r.given }
    | none => r
  | .elsewhere s =>
    if s.pool.settings = r.run.site.pool.settings then
      { r with run := r.run.next m key (.elsewhere s) }
    else r
  | move => { r with run := r.run.next m key move }

/-- The record after some moves, from the opening of the transaction. -/
def after (m : StorageManager σ) (s : Site σ) (moves : List (Move σ)) : Resubmissions σ :=
  moves.foldl (next m s.transactions.length) (start s)

/-- What is to hold of the record of a transaction whose `n` items were executed. -/
structure Limited (m : StorageManager σ) (before : List Report) (key n limit : ℕ)
    (r : Resubmissions σ) (t : Transaction) : Prop where
  /-- No item is put back more often than the limit allows. -/
  spent : ∀ slot, r.times slot ≤ limit
  /-- What is put back are the items that were executed. -/
  own : ∀ p ∈ r.putBacks, p.slot < n
  resubmitted_eq : t.summary.resubmitted = r.putBacks.length
  resubmitted_le : t.summary.resubmitted ≤ n * limit
  relaunched : ∀ p ∈ r.putBacks, p.Relaunched m
  /-- Once so many items came back, the transaction has reported. -/
  reported : n + n * limit ≤ r.run.returns.length →
    t.phase = .reported ∧ ∃ o, t.outcome = some o ∧
      r.run.site.reports key = before ++ [⟨o, t.summary⟩]

/-! ### What the record keeps -/

/-- The transaction was not executed, and its items were not put back yet. -/
structure Idle (r : Resubmissions σ) (t : Transaction) : Prop where
  out_eq : r.run.out = []
  executed_eq : r.run.executed = none
  putBacks_eq : r.putBacks = []
  fresh : ∀ i ∈ t.items, i.resubmits = 0

/-- What the record says of the transaction, at any time. -/
structure Kept (m : StorageManager σ) (key limit : ℕ) (r : Resubmissions σ) (t : Transaction) :
    Prop where
  found : r.run.site.transactions[key]? = some t
  limit_eq : r.run.site.pool.settings.maxResubmits = limit
  idle : t.phase = .building → r.Idle t
  given_length : ∀ n, r.run.executed = some n → r.given.length = n
  /-- The counter of an item is the number of times that it was put back. -/
  counted : ∀ (slot : ℕ) (i : Item), r.given[slot]? = some i → i.resubmits = r.times slot
  spent : ∀ slot, r.times slot ≤ limit
  own : ∀ p ∈ r.putBacks, p.slot < r.given.length
  resubmitted_eq : t.summary.resubmitted = r.putBacks.length
  returns_eq : t.summary.done + t.summary.failed + t.summary.resubmitted = r.run.returns.length
  relaunched : ∀ p ∈ r.putBacks, p.Relaunched m

variable {m : StorageManager σ} {key limit : ℕ} {r : Resubmissions σ} {t : Transaction}

/-- The record of a transaction that was just opened. -/
theorem kept_start (m : StorageManager σ) (s : Site σ) :
    Kept m s.transactions.length s.pool.settings.maxResubmits (start s)
      (.create s.newClient.1) where
  found := List.getElem?_concat_length
  limit_eq := rfl
  idle _ := ⟨rfl, rfl, rfl, fun i hi => absurd hi List.not_mem_nil⟩
  given_length n hn := by cases hn
  counted slot i hi := by cases hi
  spent slot := Nat.zero_le _
  own p hp := absurd hp List.not_mem_nil
  resubmitted_eq := rfl
  returns_eq := rfl
  relaunched p hp := absurd hp List.not_mem_nil

/-- A change of the run in which nothing is put back leaves the record alone. -/
theorem Kept.change (h : Kept m key limit r t) {x : TransactionRun σ} {t' : Transaction}
    (hfound : x.site.transactions[key]? = some t')
    (hsettings : x.site.pool.settings = r.run.site.pool.settings)
    (hidle : t'.phase = .building → Idle { r with run := x } t')
    (hexecuted : ∀ n, x.executed = some n → r.given.length = n)
    (hresubmitted : t'.summary.resubmitted = t.summary.resubmitted)
    (hreturns : t'.summary.done + t'.summary.failed + t'.summary.resubmitted = x.returns.length) :
    Kept m key limit { r with run := x } t' := by
  refine ⟨hfound, ?_, hidle, hexecuted, h.counted, h.spent, h.own, ?_, hreturns, h.relaunched⟩
  · rw [hsettings]
    exact h.limit_eq
  · rw [hresubmitted]
    exact h.resubmitted_eq

/-- The items of a transaction that was not executed are ready to be given away. -/
theorem Kept.ready (h : Kept m key limit r t) (hphase : t.phase = .building) :
    Kept m key limit { r with given := t.items } t := by
  have hidle := h.idle hphase
  refine ⟨h.found, h.limit_eq, fun _ => ⟨hidle.out_eq, hidle.executed_eq, hidle.putBacks_eq,
    hidle.fresh⟩, ?_, ?_, h.spent, ?_, h.resubmitted_eq, h.returns_eq, h.relaunched⟩
  · intro n hn
    cases hidle.executed_eq.symm.trans hn
  · intro slot i hi
    rw [hidle.fresh i (List.mem_of_getElem? hi)]
    simp only [times, hidle.putBacks_eq, List.map_nil, List.count_nil]
  · intro p hp
    rw [show ({ r with given := t.items } : Resubmissions σ).putBacks = [] from
      hidle.putBacks_eq] at hp
    cases hp

/-- Items that were never put back may be added. -/
theorem Kept.add (h : Kept m key limit r t) {items : List Item}
    (hfresh : ∀ i ∈ items, i.resubmits = 0) :
    ∃ t', Kept m key limit (r.next m key (.add items)) t' := by
  by_cases hphase : t.phase = .building
  · have hidle := h.idle hphase
    obtain ⟨g, hg⟩ := r.run.site.enlistAll_eq m items
    have hfound : (Site.enlistAll m r.run.site items).2.transactions[key]? = some t := by
      rw [hg]
      exact h.found
    let t' : Transaction :=
      { t with items := t.items ++ (Site.enlistAll m r.run.site items).1 }
    refine ⟨t', h.change ?_ ?_ ?_ h.given_length rfl h.returns_eq⟩
    · simp only [TransactionRun.next, Site.addToTransaction_eq h.found hphase]
      exact Site.getElem?_setTransaction hfound _
    · exact congrArg Pool.settings (Site.pool_addToTransaction m _ key items)
    · refine fun _ => ⟨hidle.out_eq, hidle.executed_eq, hidle.putBacks_eq, fun i hi => ?_⟩
      rcases List.mem_append.mp hi with hold | hnew
      · exact hidle.fresh i hold
      · obtain ⟨j, hj, hmanifest⟩ := Site.mem_enlistAll hnew
        exact (congrArg Item.resubmits hmanifest).trans (hfresh j hj)
  · refine ⟨t, ?_⟩
    simp only [next, TransactionRun.next_add_of_ne h.found hphase]
    exact h

/-- Executing the transaction gives its items away. -/
theorem Kept.execute (h : Kept m key limit r t) :
    ∃ t', Kept m key limit (r.next m key .execute) t' := by
  simp only [next, h.found]
  by_cases hphase : t.phase = .building
  · rw [if_pos hphase]
    have hidle := h.idle hphase
    have hsite := r.run.site_execute key
    obtain ⟨t', hfound, hstarted, hdone, hfailed, hresubmitted⟩ :=
      Site.found_execute h.found hphase
    refine ⟨t', (h.ready hphase).change ?_ ?_ ?_ ?_ hresubmitted ?_⟩
    · change (r.run.execute key).site.transactions[key]? = _
      rwa [hsite]
    · change (r.run.execute key).site.pool.settings = _
      rw [hsite]
      exact Site.settings_execute _ key
    · exact fun hbuilding => absurd hbuilding hstarted
    · intro n hn
      rcases TransactionRun.executed_execute h.found hn with hbefore | hlength
      · cases hidle.executed_eq.symm.trans hbefore
      · exact hlength
    · change _ = (r.run.execute key).returns.length
      rw [hdone, hfailed, hresubmitted, r.run.returns_execute key]
      exact h.returns_eq
  · rw [if_neg hphase, TransactionRun.next_execute_of_ne h.found hphase]
    exact ⟨t, h⟩

/-- Cancelling the transaction leaves the record alone. -/
theorem Kept.cancel (h : Kept m key limit r t) :
    ∃ t', Kept m key limit (r.next m key .cancel) t' := by
  by_cases hphase : t.phase = .executing
  · obtain ⟨p, hcancel⟩ := Site.cancelTransaction_of_executing h.found hphase
    refine ⟨(t.conclude .cancelled).1, h.change ?_ ?_ ?_ h.given_length rfl h.returns_eq⟩
    · simp only [TransactionRun.next, hcancel]
      exact Site.getElem?_book (s := { r.run.site with pool := p }) h.found _
    · exact Site.settings_cancelTransaction _ key
    · exact fun hbuilding => TransactionPhase.noConfusion hbuilding
  · refine ⟨t, ?_⟩
    simp only [next, TransactionRun.next_cancel_of_ne h.found hphase]
    exact h

/-- What happens elsewhere leaves the record alone. -/
theorem Kept.elsewhere (h : Kept m key limit r t) (s : Site σ) :
    Kept m key limit (r.next m key (.elsewhere s)) t := by
  simp only [next]
  split
  · rename_i hsettings
    simp only [TransactionRun.next]
    split
    · rename_i hsame
      refine h.change (hsame.1.trans h.found) hsettings ?_ h.given_length rfl h.returns_eq
      intro hphase
      have hidle := h.idle hphase
      exact ⟨hidle.out_eq, hidle.executed_eq, hidle.putBacks_eq, hidle.fresh⟩
    · exact h
  · exact h

/-! ### Items that come back -/

/-- Every item that comes back is counted once, as put back if it is. -/
theorem summary_count (t : Transaction) (a : Arrival) :
    (t.count a).summary.done + (t.count a).summary.failed + (t.count a).summary.resubmitted =
        t.summary.done + t.summary.failed + t.summary.resubmitted + 1 ∧
      (t.count a).summary.resubmitted = t.summary.resubmitted + if a = .putBack then 1 else 0 := by
  cases a with
  | done bytes =>
    refine ⟨?_, rfl⟩
    simp only [Transaction.count]
    omega
  | failed bytes =>
    refine ⟨?_, rfl⟩
    simp only [Transaction.count]
    omega
  | putBack => exact ⟨rfl, rfl⟩

/-- Counting an item and ending the transaction keeps the counters. -/
theorem arrive_eq (t : Transaction) (a : Arrival) (hphase : t.phase = .executing) :
    (t.arrive a).1.phase ≠ .building ∧ (t.arrive a).1.summary = (t.count a).summary := by
  unfold Transaction.arrive Transaction.concludeIfSettled
  split
  · rw [(TransactionRun.count_eq t a).1, hphase]
    exact ⟨TransactionPhase.noConfusion, rfl⟩
  · exact ⟨TransactionPhase.noConfusion, rfl⟩

/-- One more put-back counts for its item only. -/
theorem times_cons (x : TransactionRun σ) (given : List Item) (p : PutBack σ)
    (putBacks : List (PutBack σ)) (slot : ℕ) :
    times ⟨x, given, p :: putBacks⟩ slot =
      times ⟨x, given, putBacks⟩ slot + if p.slot = slot then 1 else 0 := by
  simp only [times, List.map_cons, List.count_cons, beq_iff_eq]

/-- The transaction after an item came back to it while it was executing. -/
theorem found_receive {x : TransactionRun σ} (h : x.site.transactions[key]? = some t)
    (hphase : t.phase = .executing) (k slot : ℕ) (i : Item) :
    (x.receive m key k slot t i).site.transactions[key]? =
      some (t.arrive (x.site.receive m t.client i).1).1 := by
  obtain ⟨p, g, hreceive⟩ := x.site.receive_eq m t.client i
  have hfound : (x.site.receive m t.client i).2.transactions[key]? = some t := by
    rw [hreceive]
    exact h
  rw [(x.receive_of_executing m key k slot hphase i).1,
    Site.returnToTransaction_of_executing h hphase]
  exact Site.getElem?_book hfound _

/-- An item that comes back and is not put back leaves the record alone. -/
theorem Kept.settle (h : Kept m key limit r t) (hphase : t.phase = .executing) (k slot : ℕ)
    {i : Item} (hgood : (r.run.site.receive m t.client i).1 ≠ .putBack) :
    Kept m key limit { r with run := r.run.receive m key k slot t i }
      (t.arrive (r.run.site.receive m t.client i).1).1 := by
  obtain ⟨hstarted, hsummary⟩ := arrive_eq t (r.run.site.receive m t.client i).1 hphase
  obtain ⟨hall, hresubmitted⟩ := summary_count t (r.run.site.receive m t.client i).1
  rw [if_neg hgood] at hresubmitted
  obtain ⟨hsite, hexecuted, hreturns⟩ := r.run.receive_of_executing m key k slot hphase i
  refine h.change (found_receive h.found hphase k slot i) ?_ ?_ ?_ ?_ ?_
  · rw [hsite]
    exact Site.settings_returnToTransaction m _ key _ i
  · exact fun hbuilding => absurd hbuilding hstarted
  · rw [hexecuted]
    exact h.given_length
  · rw [hsummary]
    exact hresubmitted
  · rw [hreturns, hsummary, hall, h.returns_eq, List.length_cons]

/-- An item that is put back goes out with its counter raised, and is put back once more. -/
theorem Kept.putBack (h : Kept m key limit r t) (hlimit : limit ≤ 255)
    (hphase : t.phase = .executing) (k : ℕ) {slot : ℕ} {i : Item}
    (hslot : slot < r.given.length) (hcount : i.resubmits = r.times slot)
    (hback : (r.run.site.receive m t.client i).1 = .putBack) :
    Kept m key limit (r.receive m key k slot t i) (t.arrive .putBack).1 := by
  let p : PutBack σ := ⟨slot, r.run.site, t.client, i⟩
  have hrelaunched : p.Relaunched m := PutBack.relaunched_of_receive hback
  have hspare : r.times slot < limit := by
    rw [← hcount, ← h.limit_eq]
    exact hrelaunched.spare
  -- The counter is below the limit, and so below the number at which it stops.
  have hraised : (p.given m).resubmits = r.times slot + 1 := by
    have hagain : (p.given m).resubmits = min (i.resubmits + 1) 255 :=
      congrArg Item.resubmits hrelaunched.again
    omega
  obtain ⟨hstarted, hsummary⟩ := arrive_eq t .putBack hphase
  obtain ⟨hall, hresubmitted⟩ := summary_count t .putBack
  obtain ⟨hsite, hexecuted, hreturns⟩ := r.run.receive_of_executing m key k slot hphase i
  have hnext : r.receive m key k slot t i =
      ⟨r.run.receive m key k slot t i, r.given.set slot (p.given m), p :: r.putBacks⟩ :=
    if_pos ⟨hphase, hback⟩
  rw [hnext]
  refine ⟨?_, ?_, ?_, ?_, ?_, ?_, ?_, ?_, ?_, ?_⟩
  · rw [← hback]
    exact found_receive h.found hphase k slot i
  · rw [hsite, Site.settings_returnToTransaction]
    exact h.limit_eq
  · exact fun hbuilding => absurd hbuilding hstarted
  · intro n hn
    rw [List.length_set]
    exact h.given_length n (hexecuted ▸ hn)
  · intro slot' j hj
    rw [times_cons]
    by_cases heq : slot = slot'
    · subst heq
      rw [List.getElem?_set_self hslot] at hj
      cases hj
      rw [if_pos rfl]
      exact hraised
    · rw [List.getElem?_set_ne heq] at hj
      rw [if_neg heq]
      exact h.counted slot' j hj
  · intro slot'
    rw [times_cons]
    by_cases heq : slot = slot'
    · subst heq
      rw [if_pos rfl]
      exact hspare
    · rw [if_neg heq]
      exact h.spent slot'
  · intro q hq
    rw [List.length_set]
    rcases List.mem_cons.mp hq with rfl | hq
    · exact hslot
    · exact h.own q hq
  · rw [hsummary, hresubmitted, if_pos rfl, h.resubmitted_eq, List.length_cons]
  · rw [hsummary, hall, h.returns_eq, hreturns, List.length_cons]
  · intro q hq
    rcases List.mem_cons.mp hq with rfl | hq
    · exact hrelaunched
    · exact h.relaunched q hq

/-- An item that comes back to a transaction that has ended leaves the record alone. -/
theorem Kept.late (h : Kept m key limit r t) (hphase : t.phase = .reported) (k slot : ℕ)
    (i : Item) : Kept m key limit { r with run := r.run.receive m key k slot t i }
      { t with outstanding := t.outstanding - 1 } := by
  have hne : t.phase ≠ .executing := by
    rw [hphase]
    exact TransactionPhase.noConfusion
  unfold TransactionRun.receive
  rw [if_neg hne, Site.returnToTransaction_of_ne h.found hne]
  refine h.change (Site.getElem?_setTransaction h.found _) rfl ?_ h.given_length rfl h.returns_eq
  intro hbuilding
  cases hphase.symm.trans hbuilding

/-- An item that comes back is counted, is put back, or is late. -/
theorem Kept.back (h : Kept m key limit r t) (hlimit : limit ≤ 255) (k : ℕ) (i : Item) :
    ∃ t', Kept m key limit (r.next m key (.back k i)) t' := by
  simp only [next, h.found]
  cases hout : r.run.out[k]? with
  | none => exact ⟨t, h⟩
  | some slot =>
    by_cases houtline : (r.given[slot]?).map Item.outline = some i.outline
    · simp only [houtline, if_true]
      obtain ⟨g, hg, hsame⟩ := Option.map_eq_some_iff.mp houtline
      obtain ⟨hslot, -⟩ := List.getElem?_eq_some_iff.mp hg
      have hcount : i.resubmits = r.times slot :=
        (Item.resubmits_of_outline hsame).symm.trans (h.counted slot g hg)
      cases hphase : t.phase with
      | building =>
        rw [(h.idle hphase).out_eq] at hout
        cases hout
      | executing =>
        by_cases hback : (r.run.site.receive m t.client i).1 = .putBack
        · exact ⟨_, h.putBack hlimit hphase k hslot hcount hback⟩
        · have hnext : r.receive m key k slot t i =
              { r with run := r.run.receive m key k slot t i } :=
            if_neg fun hboth => hback hboth.2
          rw [hnext]
          exact ⟨_, h.settle hphase k slot hback⟩
      | reported =>
        have hnext : r.receive m key k slot t i =
            { r with run := r.run.receive m key k slot t i } :=
          if_neg fun hboth => TransactionPhase.noConfusion (hphase.symm.trans hboth.1)
        rw [hnext]
        exact ⟨_, h.late hphase k slot i⟩
    · simp only [houtline, if_false]
      exact ⟨t, h⟩

/-! ### Whole runs -/

/-- Every move keeps the record right. -/
theorem Kept.next (h : Kept m key limit r t) (hlimit : limit ≤ 255) (move : Move σ)
    (hfresh : ∀ items, move = .add items → ∀ i ∈ items, i.resubmits = 0) :
    ∃ t', Kept m key limit (r.next m key move) t' := by
  cases move with
  | add items => exact h.add (hfresh items rfl)
  | execute => exact h.execute
  | cancel => exact h.cancel
  | back k i => exact h.back hlimit k i
  | elsewhere s => exact ⟨t, h.elsewhere s⟩

/-- A move takes the run one move further, or nothing happens. -/
theorem run_next (m : StorageManager σ) (key : ℕ) (r : Resubmissions σ) (move : Move σ) :
    (r.next m key move).run = r.run.next m key move ∨
      (r.next m key move).run = r.run := by
  cases move with
  | add items => exact Or.inl rfl
  | cancel => exact Or.inl rfl
  | execute =>
    simp only [Resubmissions.next]
    split
    · exact Or.inl rfl
    · exact Or.inr rfl
  | elsewhere s =>
    simp only [Resubmissions.next]
    split
    · exact Or.inl rfl
    · exact Or.inr rfl
  | back k i =>
    simp only [Resubmissions.next, TransactionRun.next]
    cases r.run.out[k]? with
    | none => exact Or.inr rfl
    | some slot =>
      cases r.run.site.transactions[key]? with
      | none => exact Or.inr rfl
      | some t =>
        by_cases houtline : (r.given[slot]?).map Item.outline = some i.outline
        · simp only [houtline, if_true]
          refine Or.inl ?_
          unfold receive
          split <;> rfl
        · exact Or.inr (congrArg Resubmissions.run (if_neg houtline))

/-- The record of a transaction is right after any moves, and its run is at one of its stages. -/
theorem kept_after (m : StorageManager σ) (s : Site σ) (moves : List (Move σ))
    (hlimit : s.pool.settings.maxResubmits ≤ 255)
    (hfresh : ∀ items, .add items ∈ moves → ∀ i ∈ items, i.resubmits = 0) :
    (∃ t, Kept m s.transactions.length s.pool.settings.maxResubmits (after m s moves) t) ∧
      TransactionRun.Stage (s.reports s.transactions.length) s.transactions.length
        (after m s moves).run := by
  induction moves using List.reverseRecOn with
  | nil => exact ⟨⟨_, kept_start m s⟩, TransactionRun.stage_start s⟩
  | append_singleton moves move ih =>
    obtain ⟨⟨t, hkept⟩, hstage⟩ :=
      ih fun items hitems => hfresh items (List.mem_append_left _ hitems)
    have hconcat : after m s (moves ++ [move]) =
        (after m s moves).next m s.transactions.length move := List.foldl_concat _ _ _ _
    rw [hconcat]
    refine ⟨hkept.next hlimit move ?_, ?_⟩
    · rintro items rfl
      exact hfresh items (List.mem_append_right _ List.mem_cons_self)
    · rcases run_next m s.transactions.length (after m s moves) move with hrun | hrun
      · rw [hrun]
        exact hstage.next move
      · rw [hrun]
        exact hstage

/-- All put-backs together are those of the single items. -/
theorem length_putBacks_le {n : ℕ} (hown : ∀ p ∈ r.putBacks, p.slot < n)
    (hspent : ∀ slot, r.times slot ≤ limit) : r.putBacks.length ≤ n * limit := by
  have hmem : ∀ slot ∈ (↑(r.putBacks.map (·.slot)) : Multiset ℕ), slot ∈ Finset.range n := by
    intro slot hslot
    obtain ⟨p, hp, rfl⟩ := List.mem_map.mp (Multiset.mem_coe.mp hslot)
    exact Finset.mem_range.mpr (hown p hp)
  calc r.putBacks.length
      = ∑ slot ∈ Finset.range n, r.times slot := by
        have hcard := Multiset.sum_count_eq_card hmem
        simp only [Multiset.coe_count, Multiset.coe_card, List.length_map] at hcard
        exact hcard.symm
    _ ≤ (Finset.range n).card • limit :=
        Finset.sum_le_card_nsmul _ _ _ fun slot _ => hspent slot
    _ = n * limit := by rw [Finset.card_range, nsmul_eq_mul, Nat.cast_id]

/-- A transaction of `n` fresh items puts none of them back more often than the settings allow, what
it puts back are items whose allocated destination is lost and that start anew with another one, and
it has reported once `n + n * limit` items came back. -/
theorem limited_after (m : StorageManager σ) (s : Site σ) (moves : List (Move σ)) {n : ℕ}
    (hexecuted : (after m s moves).run.executed = some n)
    (hlimit : s.pool.settings.maxResubmits ≤ 255)
    (hfresh : ∀ items, .add items ∈ moves → ∀ i ∈ items, i.resubmits = 0) :
    ∃ t, (after m s moves).run.site.transactions[s.transactions.length]? = some t ∧
      Limited m (s.reports s.transactions.length) s.transactions.length n
        s.pool.settings.maxResubmits (after m s moves) t := by
  obtain ⟨⟨t, hkept⟩, hstage⟩ := kept_after m s moves hlimit hfresh
  have hown : ∀ p ∈ (after m s moves).putBacks, p.slot < n := by
    rw [← hkept.given_length n hexecuted]
    exact hkept.own
  have hle := length_putBacks_le hown hkept.spent
  refine ⟨t, hkept.found, hkept.spent, hown, hkept.resubmitted_eq, ?_, hkept.relaunched, ?_⟩
  · rw [hkept.resubmitted_eq]
    exact hle
  · intro hreturns
    cases hstage with
    | building hbuilding => cases hbuilding.executed_eq.symm.trans hexecuted
    | void hvoid => cases hvoid.executed_eq.symm.trans hexecuted
    | underway hunderway =>
      -- While an item is out, not all were done or failed, and too few came back.
      cases hunderway.executed_eq.symm.trans hexecuted
      cases hunderway.found.symm.trans hkept.found
      have hout := List.length_pos_iff.mpr hunderway.out_ne_nil
      have hcount := hunderway.tally.count_eq
      have hall := hkept.returns_eq
      have hback := hkept.resubmitted_eq
      omega
    | ended hended =>
      cases hended.found.symm.trans hkept.found
      exact ⟨hended.phase_eq, _, hended.outcome_eq, hended.reports_eq⟩

/-- Two items are executed. The destination of one is lost as often as it is put back, and once
more, so that it counts as failed. -/
def losingMoves : List (Move Shelf) :=
  let named := Item.fresh (.buffer .empty) (.inl ⟨"/named"⟩)
  let auto := Item.fresh (.buffer .empty) (.inr ⟨.unset, "class", ⟨"auto"⟩⟩)
  let lost (times : ℕ) : Item :=
    { auto with state := .commonDestinationVanished, resubmits := times }
  [.add [named, auto], .execute, .back 1 (lost 0), .back 1 (lost 1),
    .back 0 { named with state := .done, bytes := 7 }, .back 0 (lost 2), .back 0 (lost 3)]

/-- The transaction that took these moves kept within the limit. -/
theorem limited_after_losingMoves :
    (after Shelf.manager TransactionRun.smallSite losingMoves).run.executed = some 2 ∧
      TransactionRun.smallSite.pool.settings.maxResubmits ≤ 255 ∧
      (∀ items, .add items ∈ losingMoves → ∀ i ∈ items, i.resubmits = 0) ∧
      ∃ t,
        (after Shelf.manager TransactionRun.smallSite losingMoves).run.site.transactions[0]? =
          some t ∧
        Limited Shelf.manager [] 0 2 3
          (after Shelf.manager TransactionRun.smallSite losingMoves) t := by
  have hexecuted :
      (after Shelf.manager TransactionRun.smallSite losingMoves).run.executed = some 2 := by
    decide +kernel
  have hlimit : TransactionRun.smallSite.pool.settings.maxResubmits ≤ 255 := by decide
  have hfresh : ∀ items, .add items ∈ losingMoves → ∀ i ∈ items, i.resubmits = 0 := by
    intro items hitems
    simp only [losingMoves, List.mem_cons, Move.add.injEq, reduceCtorEq, List.not_mem_nil,
      or_false] at hitems
    rw [hitems]
    simp [Item.fresh]
  exact ⟨hexecuted, hlimit, hfresh, limited_after _ _ _ hexecuted hlimit hfresh⟩

example : (after Shelf.manager TransactionRun.smallSite losingMoves).putBacks.length = 3 := by
  decide +kernel

end Resubmissions

end Haulage
