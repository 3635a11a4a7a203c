import Haulage.Proofs.Books
import Haulage.Storage.Shelf
import Mathlib.Algebra.GroupWithZero.Nat
import Mathlib.Data.List.Induction
import Mathlib.Data.List.Nodup

/-!
# Settlement of transactions

A transaction that is executed reports exactly once, when it stops executing, and what it reports is
what became of its items. `TransactionRun.settled_after` says so for every run that a transaction
can take: its items come back in any order, in any state, as often as they are put back, while
anything else goes on at the site, and calls to add, execute and cancel come at any time.

A run keeps a record of its own: which items are with the pool, each known by its number among
the items executed, and which came back while the transaction was executing. The heart of the proof
is `Tally`, which says that the books of an executing transaction agree with that record.
-/

namespace Haulage

/-! ## Runs of a transaction -/

/-- An item that came back to its transaction, with its number among the items executed. -/
structure Return where
  slot : Nat
  item : Item
  deriving Repr, DecidableEq

/-- The bytes that an item which came back moved, if it was done or failed. -/
def Return.bytes (r : Return) : Nat :=
  if r.item.state = .done ∨ r.item.state = .failed then r.item.bytes else 0

/-- The state in which an item came back for the last time, if it did. The latest return comes
first. -/
def lastState (returns : List Return) (slot : Nat) : Option ItemState :=
  (returns.find? (·.slot = slot)).map (·.item.state)

/-- A site with the record of one of its transactions. -/
structure TransactionRun (σ : Type) where
  site : Site σ
  /-- The numbers of the items that the pool has. -/
  out : List Nat
  /-- The items that came back while the transaction was executing, the latest first. -/
  returns : List Return
  /-- How many items were executed, once they were. -/
  executed : Option Nat
  /-- Was the transaction cancelled while it was executing? -/
  cancelled : Bool
  deriving Repr

/-- What may happen next in a run. -/
inductive Move (σ : Type) where
  | add (items : List Item)
  | execute
  | cancel
  /-- One of the items that the pool has comes back, in whatever shape. -/
  | back (k : Nat) (i : Item)
  /-- Anything else happens at the site. -/
  | elsewhere (s : Site σ)

namespace TransactionRun

variable {σ : Type}

/-- The run of a new transaction. -/
def start (s : Site σ) : TransactionRun σ := ⟨s.openTransaction.2.2, [], [], none, false⟩

/-- The run after an item came back. -/
def receive (m : StorageManager σ) (key : Nat) (x : TransactionRun σ) (k slot : Nat)
    (t : Transaction) (i : Item) : TransactionRun σ :=
  let site := x.site.returnToTransaction m key t.client i
  if t.phase = .executing then
    { x with
      site := site
      out := if (x.site.receive m t.client i).1 = .putBack then x.out else x.out.eraseIdx k
      returns := ⟨slot, i⟩ :: x.returns }
  else { x with site := site, out := x.out.eraseIdx k }

/-- The run after the transaction was to be executed. -/
def execute (key : Nat) (x : TransactionRun σ) : TransactionRun σ :=
  let site := (x.site.execute key).2
  match x.site.transactions[key]?, (x.site.execute key).1 with
  | some t, .ok () =>
    if t.items.isEmpty then { x with site := site }
    else { x with
      site := site
      out := List.range t.items.length
      executed := some t.items.length }
  | _, _ => { x with site := site }

/-- The run after a move. What happens elsewhere does not touch the transaction, nor what it
has reported. -/
def next (m : StorageManager σ) (key : Nat) (x : TransactionRun σ) : Move σ → TransactionRun σ
  | .add items => { x with site := (x.site.addToTransaction m key items).2 }
  | .execute => x.execute key
  | .cancel =>
    { x with
      site := (x.site.cancelTransaction key).2
      cancelled := x.cancelled || (x.site.cancelTransaction key).1 }
  | .back k i => match x.out[k]?, x.site.transactions[key]? with
    | some slot, some t => x.receive m key k slot t i
    | _, _ => x
  | .elsewhere s =>
    if s.transactions[key]? = x.site.transactions[key]? ∧ s.reports key = x.site.reports key then
      { x with site := s }
    else x

/-- The run after some moves, from the opening of the transaction. -/
def after (m : StorageManager σ) (s : Site σ) (moves : List (Move σ)) : TransactionRun σ :=
  moves.foldl (next m s.transactions.length) (start s)

end TransactionRun

/-! ## Tallies -/

/-- The books of an executing transaction agree with the items that are out and those that came
back. -/
structure Tally (n : ℕ) (summary : Summary) (out : List ℕ) (returns : List Return) : Prop where
  items_eq : summary.items = n
  nodup : out.Nodup
  lt : ∀ slot ∈ out, slot < n
  count_eq : summary.done + summary.failed + out.length = n
  not_done : ∀ slot ∈ out, lastState returns slot ≠ some .done
  failed_iff : summary.failed = 0 ↔
    ∀ slot < n, slot ∉ out → lastState returns slot = some .done
  bytes_eq : summary.bytes = (returns.map Return.bytes).sum

/-- The last state of an item after one more came back. -/
theorem lastState_cons (slot slot' : ℕ) (i : Item) (returns : List Return) :
    lastState (⟨slot, i⟩ :: returns) slot' =
      if slot = slot' then some i.state else lastState returns slot' := by
  unfold lastState
  by_cases h : slot = slot'
  · rw [List.find?_cons_of_pos (by simpa using h), if_pos h]
    rfl
  · rw [List.find?_cons_of_neg (by simpa using h), if_neg h]

/-- An item leaves those that are out. -/
theorem mem_eraseIdx_iff {out : List ℕ} (hnodup : out.Nodup) {k slot : ℕ}
    (hslot : out[k]? = some slot) (slot' : ℕ) :
    slot' ∈ out.eraseIdx k ↔ slot' ≠ slot ∧ slot' ∈ out := by
  obtain ⟨hlt, hget⟩ := List.getElem?_eq_some_iff.mp hslot
  rw [← hnodup.erase_getElem k hlt, hget, hnodup.mem_erase_iff]

namespace Tally

variable {n : ℕ} {summary summary' : Summary} {out : List ℕ} {returns : List Return}

/-- When items are executed, all are out. -/
theorem range (hitems : summary = ⟨n, 0, 0, 0, 0⟩) : Tally n summary (List.range n) [] where
  items_eq := by rw [hitems]
  nodup := List.nodup_range
  lt slot hslot := List.mem_range.mp hslot
  count_eq := by
    rw [hitems, List.length_range]
    exact Nat.zero_add n
  not_done slot _ := by
    intro h
    cases h
  failed_iff := by
    rw [hitems]
    refine iff_of_true rfl ?_
    intro slot hlt hout
    exact absurd (List.mem_range.mpr hlt) hout
  bytes_eq := by
    rw [hitems]
    rfl

/-- An item that comes back and is put back again stays out. -/
theorem putBack (h : Tally n summary out returns) {k slot : ℕ} (hslot : out[k]? = some slot)
    {i : Item} (hstate : i.state.isResubmittable)
    (hsummary : summary' = { summary with resubmitted := summary.resubmitted + 1 }) :
    Tally n summary' out (⟨slot, i⟩ :: returns) := by
  have hnot : i.state ≠ .done ∧ i.state ≠ .failed := by
    constructor <;> intro heq <;> rw [heq] at hstate <;> cases hstate
  subst hsummary
  refine ⟨h.items_eq, h.nodup, h.lt, h.count_eq, ?_, ?_, ?_⟩
  · intro slot' hout
    rw [lastState_cons]
    split
    · intro hdone
      exact hnot.1 (Option.some.inj hdone)
    · exact h.not_done slot' hout
  · refine h.failed_iff.trans ?_
    have hmem : slot ∈ out := List.mem_of_getElem? hslot
    constructor
    · intro hall slot' hlt hout
      rw [lastState_cons, if_neg fun heq : slot = slot' => hout (heq ▸ hmem)]
      exact hall slot' hlt hout
    · intro hall slot' hlt hout
      have hlast := hall slot' hlt hout
      rwa [lastState_cons, if_neg fun heq : slot = slot' => hout (heq ▸ hmem)] at hlast
  · rw [List.map_cons, List.sum_cons, Return.bytes, if_neg (by simpa using hnot), Nat.zero_add]
    exact h.bytes_eq

/-- An item that comes back for good is counted as done or as failed. -/
theorem settle (h : Tally n summary out returns) {k slot : ℕ} (hslot : out[k]? = some slot)
    {i : Item} (hitems : summary'.items = summary.items)
    (hcount : summary'.done + summary'.failed = summary.done + summary.failed + 1)
    (hfailed : summary'.failed = 0 ↔ summary.failed = 0 ∧ i.state = .done)
    (hbytes : summary'.bytes = summary.bytes + Return.bytes ⟨slot, i⟩) :
    Tally n summary' (out.eraseIdx k) (⟨slot, i⟩ :: returns) := by
  obtain ⟨hlt, -⟩ := List.getElem?_eq_some_iff.mp hslot
  have hmem : slot ∈ out := List.mem_of_getElem? hslot
  refine ⟨hitems.trans h.items_eq, h.nodup.sublist (List.eraseIdx_sublist _ _), ?_, ?_, ?_, ?_, ?_⟩
  · intro slot' hout
    exact h.lt slot' ((mem_eraseIdx_iff h.nodup hslot slot').mp hout).2
  · have hlength := List.length_eraseIdx_of_lt hlt
    have hbefore := h.count_eq
    omega
  · intro slot' hout
    obtain ⟨hne, hout'⟩ := (mem_eraseIdx_iff h.nodup hslot slot').mp hout
    rw [lastState_cons, if_neg hne.symm]
    exact h.not_done slot' hout'
  · rw [hfailed, h.failed_iff]
    constructor
    · rintro ⟨hall, hdone⟩ slot' hlt' hout
      rw [lastState_cons]
      split
      · rw [hdone]
      · rename_i hne
        refine hall slot' hlt' fun hout' => hout ?_
        exact (mem_eraseIdx_iff h.nodup hslot slot').mpr ⟨Ne.symm hne, hout'⟩
    · intro hall
      constructor
      · intro slot' hlt' hout
        have hne : slot ≠ slot' := fun heq => hout (heq ▸ hmem)
        have hlast := hall slot' hlt' fun hout' =>
          hout ((mem_eraseIdx_iff h.nodup hslot slot').mp hout').2
        rwa [lastState_cons, if_neg hne] at hlast
      · have hlast := hall slot (h.lt slot hmem) fun hout =>
          ((mem_eraseIdx_iff h.nodup hslot slot).mp hout).1 rfl
        rw [lastState_cons, if_pos rfl] at hlast
        exact Option.some.inj hlast
  · rw [List.map_cons, List.sum_cons, hbytes, h.bytes_eq, Nat.add_comm]

end Tally

/-! ## Stages of a run -/

namespace TransactionRun

variable {σ : Type} {m : StorageManager σ} {before : List Report} {key n : ℕ} {t : Transaction}
  {x : TransactionRun σ}

/-- The transaction was not executed yet. -/
structure Building (before : List Report) (key : ℕ) (x : TransactionRun σ) (t : Transaction) :
    Prop where
  found : x.site.transactions[key]? = some t
  phase_eq : t.phase = .building
  outcome_eq : t.outcome = none
  reporter : t.hasReporter
  summary_eq : t.summary = ⟨0, 0, 0, 0, 0⟩
  reports_eq : x.site.reports key = before
  out_eq : x.out = []
  returns_eq : x.returns = []
  executed_eq : x.executed = none
  not_cancelled : x.cancelled = false

/-- The transaction could not be executed. -/
structure Void (key : ℕ) (x : TransactionRun σ) (t : Transaction) : Prop where
  found : x.site.transactions[key]? = some t
  phase_eq : t.phase = .reported
  out_eq : x.out = []
  executed_eq : x.executed = none

/-- The transaction is executing. -/
structure Underway (before : List Report) (key n : ℕ) (x : TransactionRun σ) (t : Transaction) :
    Prop where
  found : x.site.transactions[key]? = some t
  phase_eq : t.phase = .executing
  outcome_eq : t.outcome = none
  reporter : t.hasReporter
  outstanding_eq : t.outstanding = x.out.length
  out_ne_nil : x.out ≠ []
  tally : Tally n t.summary x.out x.returns
  reports_eq : x.site.reports key = before
  executed_eq : x.executed = some n
  not_cancelled : x.cancelled = false

/-- Every item came back as done when it came back for the last time. -/
def AllDone (x : TransactionRun σ) (n : ℕ) : Prop :=
  ∀ slot < n, lastState x.returns slot = some .done

/-- The transaction was executed and has ended. -/
structure Ended (before : List Report) (key n : ℕ) (x : TransactionRun σ) (t : Transaction)
    (o : Outcome) : Prop where
  found : x.site.transactions[key]? = some t
  phase_eq : t.phase = .reported
  outcome_eq : t.outcome = some o
  reports_eq : x.site.reports key = before ++ [⟨o, t.summary⟩]
  pos : 0 < n
  items_eq : t.summary.items = n
  success_iff : o = .success ↔ AllDone x n
  failure_iff : o = .failure ↔ t.summary.done + t.summary.failed = n ∧ ¬ AllDone x n
  cancelled_iff : o = .cancelled ↔ x.cancelled
  bytes_eq : t.summary.bytes = (x.returns.map Return.bytes).sum
  outstanding_eq : t.outstanding = x.out.length
  executed_eq : x.executed = some n

/-- How far a run has come. -/
inductive Stage (before : List Report) (key : ℕ) (x : TransactionRun σ) : Prop
  | building {t : Transaction} (h : Building before key x t)
  | void {t : Transaction} (h : Void key x t)
  | underway {n : ℕ} {t : Transaction} (h : Underway before key n x t)
  | ended {n : ℕ} {t : Transaction} {o : Outcome} (h : Ended before key n x t o)

/-- At least one item was executed. -/
theorem Underway.pos (h : Underway before key n x t) : 0 < n := by
  obtain ⟨slot, hslot⟩ := List.exists_mem_of_ne_nil _ h.out_ne_nil
  exact Nat.zero_lt_of_lt (h.tally.lt slot hslot)

/-- While an item is out, not every item came back as done. -/
theorem Underway.not_allDone (h : Underway before key n x t) : ¬ AllDone x n := by
  obtain ⟨slot, hslot⟩ := List.exists_mem_of_ne_nil _ h.out_ne_nil
  intro hall
  exact h.tally.not_done slot hslot (hall slot (h.tally.lt slot hslot))

/-! ### One move -/

/-- Something elsewhere leaves the transaction and its reports as they are. -/
theorem next_elsewhere (m : StorageManager σ) (key : ℕ) (x : TransactionRun σ) (s : Site σ) :
    ∃ s', x.next m key (.elsewhere s) = { x with site := s' } ∧
      s'.transactions[key]? = x.site.transactions[key]? ∧ s'.reports key = x.site.reports key := by
  simp only [next]
  split
  · rename_i hsame
    exact ⟨s, rfl, hsame⟩
  · exact ⟨x.site, rfl, rfl, rfl⟩

/-- A transaction that has started is not executed again. -/
theorem next_execute_of_ne (h : x.site.transactions[key]? = some t)
    (hphase : t.phase ≠ .building) : x.next m key .execute = x := by
  simp only [next, execute, h, Site.execute_of_ne h hphase]

/-- Items are only added to a transaction that has not started. -/
theorem next_add_of_ne (h : x.site.transactions[key]? = some t) (hphase : t.phase ≠ .building)
    (items : List Item) : x.next m key (.add items) = x := by
  simp only [next, Site.addToTransaction_of_ne h hphase]

/-- Only an executing transaction is cancelled. -/
theorem next_cancel_of_ne (h : x.site.transactions[key]? = some t)
    (hphase : t.phase ≠ .executing) : x.next m key .cancel = x := by
  simp only [next, Site.cancelTransaction_of_ne h hphase, Bool.or_false]

/-- Nothing comes back if nothing is out. -/
theorem next_back_of_nil (hout : x.out = []) (k : ℕ) (i : Item) :
    x.next m key (.back k i) = x := by
  simp only [next, hout, List.getElem?_nil]

/-- A transaction that was not executed yet is added to, executed, or left alone. -/
theorem Building.next (h : Building before key x t) (move : Move σ) :
    Stage before key (x.next m key move) := by
  cases move with
  | add items =>
    obtain ⟨g, kept, hadd⟩ := Site.addToTransaction_of_building (m := m) h.found h.phase_eq items
    have hfound : ({ x.site with ground := g } : Site σ).transactions[key]? = some t := h.found
    refine Stage.building (t := { t with items := t.items ++ kept }) ⟨?_, h.phase_eq, h.outcome_eq,
      h.reporter, h.summary_eq, ?_, h.out_eq, h.returns_eq, h.executed_eq, h.not_cancelled⟩
    · simp only [TransactionRun.next, hadd]
      exact Site.getElem?_setTransaction hfound _
    · simp only [TransactionRun.next, hadd]
      exact h.reports_eq
  | execute =>
    rcases Site.execute_of_building h.found h.phase_eq with
      ⟨hitems, hok, p, hsite⟩ | ⟨hrefused, t', ht', hsite⟩
    · have hfound : ({ x.site with pool := p } : Site σ).transactions[key]? = some t := h.found
      have hnext : x.next m key .execute = { x with
          site := ({ x.site with pool := p } : Site σ).setTransaction key t.begin.2
          out := List.range t.items.length
          executed := some t.items.length } := by
        have hempty : t.items.isEmpty = false := by simpa using hitems
        simp only [TransactionRun.next, execute, h.found, hok, hsite, hempty, Bool.false_eq_true,
          if_false]
      rw [hnext]
      refine Stage.underway (n := t.items.length) (t := t.begin.2) ⟨?_, rfl, h.outcome_eq,
        h.reporter, ?_, ?_, ?_, h.reports_eq, rfl, h.not_cancelled⟩
      · exact Site.getElem?_setTransaction hfound _
      · exact (List.length_range).symm
      · have hlength : t.items.length ≠ 0 := fun hzero => hitems (List.length_eq_zero_iff.mp hzero)
        simpa using hlength
      · simp only [h.returns_eq]
        refine Tally.range ?_
        simp only [Transaction.begin, h.summary_eq]
    · have hnext : x.next m key .execute = { x with
          site := x.site.book key (t'.conclude .failure) } := by
        simp only [TransactionRun.next, execute, h.found, hsite]
        split
        · rename_i t'' heq hok
          cases heq
          rcases hrefused with hempty | ⟨e, herror⟩
          · rw [hempty]
            rfl
          · rw [hok] at herror
            cases herror
        · rfl
      rw [hnext]
      refine Stage.void (t := (t'.conclude .failure).1) ⟨?_, rfl, h.out_eq, h.executed_eq⟩
      exact Site.getElem?_book h.found _
  | cancel =>
    rw [next_cancel_of_ne h.found (by rw [h.phase_eq]; exact TransactionPhase.noConfusion)]
    exact Stage.building h
  | back k i =>
    rw [next_back_of_nil h.out_eq]
    exact Stage.building h
  | elsewhere s =>
    obtain ⟨s', hnext, hsame, hreports⟩ := next_elsewhere m key x s
    rw [hnext]
    exact Stage.building ⟨hsame.trans h.found, h.phase_eq, h.outcome_eq, h.reporter, h.summary_eq,
      hreports.trans h.reports_eq, h.out_eq, h.returns_eq, h.executed_eq, h.not_cancelled⟩

/-- A transaction that could not be executed stays as it is. -/
theorem Void.next (h : Void key x t) (move : Move σ) : Void key (x.next m key move) t := by
  have hphase : t.phase ≠ .building := by
    rw [h.phase_eq]
    exact TransactionPhase.noConfusion
  cases move with
  | add items =>
    rw [next_add_of_ne h.found hphase]
    exact h
  | execute =>
    rw [next_execute_of_ne h.found hphase]
    exact h
  | cancel =>
    rw [next_cancel_of_ne h.found (by rw [h.phase_eq]; exact TransactionPhase.noConfusion)]
    exact h
  | back k i =>
    rw [next_back_of_nil h.out_eq]
    exact h
  | elsewhere s =>
    obtain ⟨s', hnext, hsame, -⟩ := next_elsewhere m key x s
    rw [hnext]
    exact ⟨hsame.trans h.found, h.phase_eq, h.out_eq, h.executed_eq⟩

/-- An executing transaction that is cancelled has ended. -/
theorem Underway.cancel (h : Underway before key n x t) :
    Ended before key n (x.next m key .cancel) (t.conclude .cancelled).1 .cancelled := by
  obtain ⟨p, hcancel⟩ := Site.cancelTransaction_of_executing h.found h.phase_eq
  have hfound : ({ x.site with pool := p } : Site σ).transactions[key]? = some t := h.found
  have hnext : x.next m key .cancel = { x with
      site := ({ x.site with pool := p } : Site σ).book key (t.conclude .cancelled)
      cancelled := true } := by
    simp only [TransactionRun.next, hcancel, Bool.or_true]
  rw [hnext]
  have hout : 0 < x.out.length := List.length_pos_iff.mpr h.out_ne_nil
  have hcount := h.tally.count_eq
  refine ⟨Site.getElem?_book hfound _, rfl, rfl, ?_, h.pos, h.tally.items_eq, ?_, ?_, ?_,
    h.tally.bytes_eq, h.outstanding_eq, h.executed_eq⟩
  · rw [Site.reports_book, show ({ x.site with pool := p } : Site σ).reports key = before from
      h.reports_eq]
    simp only [Transaction.conclude, h.reporter, if_true, Option.toList_some]
  · exact iff_of_false Outcome.noConfusion h.not_allDone
  · refine iff_of_false Outcome.noConfusion ?_
    rintro ⟨hsettled, -⟩
    change t.summary.done + t.summary.failed = n at hsettled
    omega
  · exact iff_of_true rfl rfl

/-- Counting an item leaves everything but the books as it is. -/
theorem count_eq (t : Transaction) (a : Arrival) :
    (t.count a).phase = t.phase ∧ (t.count a).outcome = t.outcome ∧
      (t.count a).hasReporter = t.hasReporter := by
  cases a <;> exact ⟨rfl, rfl, rfl⟩

/-- An item that comes back while others are out leaves the transaction underway. -/
theorem Underway.goOn (h : Underway before key n x t) {s : Site σ}
    (hfound : s.transactions[key]? = some t) (hreports : s.reports key = before) {a : Arrival}
    {out : List ℕ} {returns : List Return} (hout : out ≠ [])
    (htally : Tally n (t.count a).summary out returns)
    (hcount : (t.count a).outstanding = out.length) :
    Underway before key n { x with
      site := s.book key (t.arrive a), out := out, returns := returns } (t.count a) := by
  obtain ⟨hphase, houtcome, hreporter⟩ := count_eq t a
  have hpos : (t.count a).outstanding > 0 := by
    rw [hcount]
    exact List.length_pos_iff.mpr hout
  have harrive : t.arrive a = (t.count a, none) := by
    unfold Transaction.arrive Transaction.concludeIfSettled
    exact if_pos hpos
  refine ⟨?_, hphase.trans h.phase_eq, houtcome.trans h.outcome_eq, hreporter.trans h.reporter,
    hcount, hout, htally, ?_, h.executed_eq, h.not_cancelled⟩
  · rw [harrive]
    exact Site.getElem?_book hfound _
  · rw [Site.reports_book, hreports, harrive]
    exact List.append_nil before

/-- An item that comes back and is put back again leaves the transaction underway. -/
theorem Underway.putBack (h : Underway before key n x t) {k slot : ℕ}
    (hslot : x.out[k]? = some slot) {i : Item}
    (hback : (x.site.receive m t.client i).1 = .putBack) :
    Underway before key n (x.receive m key k slot t i) (t.count .putBack) := by
  have hcounted := x.site.counted_receive m t.client i
  obtain ⟨p, g, hreceive⟩ := x.site.receive_eq m t.client i
  have hfound : ({ x.site with pool := p, ground := g } : Site σ).transactions[key]? = some t :=
    h.found
  have hnext : x.receive m key k slot t i = { x with
      site := ({ x.site with pool := p, ground := g } : Site σ).book key (t.arrive .putBack)
      returns := ⟨slot, i⟩ :: x.returns } := by
    unfold TransactionRun.receive
    rw [if_pos h.phase_eq, Site.returnToTransaction_of_executing h.found h.phase_eq, hreceive,
      hback, if_pos rfl]
  have hstate : i.state.isResubmittable := by
    rw [hback] at hcounted
    cases hcounted with
    | putBack hstate => exact hstate
  have hcount : (t.count .putBack).outstanding = x.out.length := by
    have hout : 0 < x.out.length := List.length_pos_iff.mpr h.out_ne_nil
    have houtstanding := h.outstanding_eq
    simp only [Transaction.count]
    omega
  rw [hnext]
  exact h.goOn hfound h.reports_eq h.out_ne_nil (h.tally.putBack hslot hstate rfl) hcount

/-- The tally after an item came back for good. -/
theorem Underway.tally_count (h : Underway before key n x t) {k slot : ℕ}
    (hslot : x.out[k]? = some slot) {i : Item} {a : Arrival} (hcounted : Site.Counted i a)
    (hgood : a ≠ .putBack) :
    Tally n (t.count a).summary (x.out.eraseIdx k) (⟨slot, i⟩ :: x.returns) ∧
      (t.count a).outstanding = (x.out.eraseIdx k).length := by
  obtain ⟨hlt, -⟩ := List.getElem?_eq_some_iff.mp hslot
  have hlength := List.length_eraseIdx_of_lt hlt
  have houtstanding := h.outstanding_eq
  cases hcounted with
  | done state =>
    refine ⟨h.tally.settle hslot rfl ?_ ?_ ?_, ?_⟩
    · simp only [Transaction.count]
      omega
    · exact ⟨fun hfailed => ⟨hfailed, state⟩, fun hboth => hboth.1⟩
    · simp only [Transaction.count, Return.bytes]
      rw [if_pos (Or.inl state)]
    · simp only [Transaction.count]
      omega
  | failed state =>
    refine ⟨h.tally.settle hslot rfl ?_ ?_ ?_, ?_⟩
    · simp only [Transaction.count]
      omega
    · refine iff_of_false (Nat.succ_ne_zero _) ?_
      rintro ⟨-, hdone⟩
      rw [state] at hdone
      cases hdone
    · simp only [Transaction.count, Return.bytes]
      rw [if_pos (Or.inr state)]
    · simp only [Transaction.count]
      omega
  | lost not_done not_failed =>
    refine ⟨h.tally.settle hslot rfl ?_ ?_ ?_, ?_⟩
    · simp only [Transaction.count]
      omega
    · exact iff_of_false (Nat.succ_ne_zero _) fun hboth => not_done hboth.2
    · simp only [Transaction.count, Return.bytes]
      rw [if_neg (not_or.mpr ⟨not_done, not_failed⟩)]
    · simp only [Transaction.count]
      omega
  | putBack state => exact absurd rfl hgood

/-- The verdict on a settled transaction is a success if nothing failed. -/
theorem verdict_eq_success (failed : ℕ) :
    (if failed = 0 then Outcome.success else .failure) = .success ↔ failed = 0 := by
  split
  · rename_i hzero
    exact iff_of_true rfl hzero
  · rename_i hne
    exact iff_of_false Outcome.noConfusion hne

/-- It is a failure if something failed. -/
theorem verdict_eq_failure (failed : ℕ) :
    (if failed = 0 then Outcome.success else .failure) = .failure ↔ ¬ failed = 0 := by
  split
  · rename_i hzero
    exact iff_of_false Outcome.noConfusion (not_not_intro hzero)
  · rename_i hne
    exact iff_of_true rfl hne

/-- It never says that the transaction was cancelled. -/
theorem verdict_ne_cancelled (failed : ℕ) :
    (if failed = 0 then Outcome.success else .failure) ≠ .cancelled := by
  split <;> exact Outcome.noConfusion

/-- The last item that comes back ends the transaction, which reports its verdict. -/
theorem Underway.conclude (h : Underway before key n x t) {s : Site σ}
    (hfound : s.transactions[key]? = some t) (hreports : s.reports key = before) {a : Arrival}
    {returns : List Return} (htally : Tally n (t.count a).summary [] returns)
    (hcount : (t.count a).outstanding = 0) :
    Ended before key n { x with
        site := s.book key (t.arrive a), out := [], returns := returns } (t.arrive a).1
      (if (t.count a).summary.failed = 0 then .success else .failure) := by
  obtain ⟨-, -, hreporter⟩ := count_eq t a
  have harrive : t.arrive a = (t.count a).conclude
      (if (t.count a).summary.failed = 0 then .success else .failure) := by
    unfold Transaction.arrive Transaction.concludeIfSettled
    exact if_neg (hcount ▸ Nat.lt_irrefl 0)
  have hall : (t.count a).summary.failed = 0 ↔ AllDone { x with
      site := s.book key (t.arrive a), out := [], returns := returns } n := by
    refine htally.failed_iff.trans ?_
    exact ⟨fun hrest slot hlt => hrest slot hlt List.not_mem_nil,
      fun hrest slot hlt _ => hrest slot hlt⟩
  have hsettled := htally.count_eq
  rw [List.length_nil, Nat.add_zero] at hsettled
  refine ⟨Site.getElem?_book hfound _, ?_, ?_, ?_, h.pos, ?_, ?_, ?_, ?_, ?_, ?_, h.executed_eq⟩
  · rw [harrive]
    rfl
  · rw [harrive]
    rfl
  · rw [Site.reports_book, hreports, harrive]
    simp only [Transaction.conclude, hreporter, h.reporter, if_true, Option.toList_some]
  · rw [harrive]
    exact htally.items_eq
  · rw [← hall]
    exact verdict_eq_success _
  · rw [← hall, harrive]
    exact (verdict_eq_failure _).trans ⟨fun hfailed => ⟨hsettled, hfailed⟩, fun hboth => hboth.2⟩
  · refine iff_of_false (verdict_ne_cancelled _) ?_
    rw [show _ = false from h.not_cancelled]
    exact Bool.false_ne_true
  · rw [harrive]
    exact htally.bytes_eq
  · rw [harrive]
    exact hcount

/-- An item that comes back for good ends the transaction if it was the last one that was out. -/
theorem Underway.settle (h : Underway before key n x t) {k slot : ℕ}
    (hslot : x.out[k]? = some slot) {i : Item}
    (hgood : (x.site.receive m t.client i).1 ≠ .putBack) :
    Stage before key (x.receive m key k slot t i) := by
  have hcounted := x.site.counted_receive m t.client i
  obtain ⟨p, g, hreceive⟩ := x.site.receive_eq m t.client i
  have hfound : ({ x.site with pool := p, ground := g } : Site σ).transactions[key]? = some t :=
    h.found
  have hreports : ({ x.site with pool := p, ground := g } : Site σ).reports key = before :=
    h.reports_eq
  have hnext : x.receive m key k slot t i = { x with
      site := ({ x.site with pool := p, ground := g } : Site σ).book key
        (t.arrive (x.site.receive m t.client i).1)
      out := x.out.eraseIdx k
      returns := ⟨slot, i⟩ :: x.returns } := by
    unfold TransactionRun.receive
    rw [if_pos h.phase_eq, Site.returnToTransaction_of_executing h.found h.phase_eq, hreceive,
      if_neg hgood]
  obtain ⟨htally, hcount⟩ := h.tally_count hslot hcounted hgood
  rw [hnext]
  by_cases hlast : x.out.eraseIdx k = []
  · rw [hlast] at htally hcount ⊢
    exact Stage.ended (h.conclude hfound hreports htally hcount)
  · exact Stage.underway (h.goOn hfound hreports hlast htally hcount)

/-- An executing transaction stays underway or has ended. -/
theorem Underway.next (h : Underway before key n x t) (move : Move σ) :
    Stage before key (x.next m key move) := by
  have hphase : t.phase ≠ .building := by
    rw [h.phase_eq]
    exact TransactionPhase.noConfusion
  cases move with
  | add items =>
    rw [next_add_of_ne h.found hphase]
    exact Stage.underway h
  | execute =>
    rw [next_execute_of_ne h.found hphase]
    exact Stage.underway h
  | cancel => exact Stage.ended h.cancel
  | back k i =>
    simp only [TransactionRun.next, h.found]
    cases hslot : x.out[k]? with
    | none => exact Stage.underway h
    | some slot =>
      by_cases hback : (x.site.receive m t.client i).1 = .putBack
      · exact Stage.underway (h.putBack hslot hback)
      · exact h.settle hslot hback
  | elsewhere s =>
    obtain ⟨s', hnext, hsame, hreports⟩ := next_elsewhere m key x s
    rw [hnext]
    exact Stage.underway ⟨hsame.trans h.found, h.phase_eq, h.outcome_eq, h.reporter,
      h.outstanding_eq, h.out_ne_nil, h.tally, hreports.trans h.reports_eq, h.executed_eq,
      h.not_cancelled⟩

/-- A transaction that has ended keeps its outcome, its summary and its report. -/
theorem Ended.next {o : Outcome} (h : Ended before key n x t o) (move : Move σ) :
    ∃ t', Ended before key n (x.next m key move) t' o ∧ t'.summary = t.summary := by
  have hbuilding : t.phase ≠ .building := by
    rw [h.phase_eq]
    exact TransactionPhase.noConfusion
  have hexecuting : t.phase ≠ .executing := by
    rw [h.phase_eq]
    exact TransactionPhase.noConfusion
  cases move with
  | add items =>
    rw [next_add_of_ne h.found hbuilding]
    exact ⟨t, h, rfl⟩
  | execute =>
    rw [next_execute_of_ne h.found hbuilding]
    exact ⟨t, h, rfl⟩
  | cancel =>
    rw [next_cancel_of_ne h.found hexecuting]
    exact ⟨t, h, rfl⟩
  | back k i =>
    simp only [TransactionRun.next, h.found]
    cases hslot : x.out[k]? with
    | none => exact ⟨t, h, rfl⟩
    | some slot =>
      have hnext : x.receive m key k slot t i = { x with
          site := x.site.setTransaction key { t with outstanding := t.outstanding - 1 }
          out := x.out.eraseIdx k } := by
        unfold TransactionRun.receive
        rw [if_neg hexecuting, Site.returnToTransaction_of_ne h.found hexecuting]
      obtain ⟨hlt, -⟩ := List.getElem?_eq_some_iff.mp hslot
      refine ⟨{ t with outstanding := t.outstanding - 1 }, ?_, rfl⟩
      simp only [hnext]
      refine ⟨Site.getElem?_setTransaction h.found _, h.phase_eq, h.outcome_eq, h.reports_eq,
        h.pos, h.items_eq, h.success_iff, h.failure_iff, h.cancelled_iff, h.bytes_eq, ?_,
        h.executed_eq⟩
      simp only [List.length_eraseIdx_of_lt hlt, h.outstanding_eq]
  | elsewhere s =>
    obtain ⟨s', hnext, hsame, hreports⟩ := next_elsewhere m key x s
    rw [hnext]
    exact ⟨t, ⟨hsame.trans h.found, h.phase_eq, h.outcome_eq, hreports.trans h.reports_eq,
      h.pos, h.items_eq, h.success_iff, h.failure_iff, h.cancelled_iff, h.bytes_eq,
      h.outstanding_eq, h.executed_eq⟩, rfl⟩

/-- Every move takes a run from stage to stage. -/
theorem Stage.next (h : Stage before key x) (move : Move σ) :
    Stage before key (x.next m key move) := by
  cases h with
  | building h => exact h.next move
  | void h => exact Stage.void (h.next move)
  | underway h => exact h.next move
  | ended h =>
    obtain ⟨t', hended, -⟩ := h.next (m := m) move
    exact Stage.ended hended

/-! ### Whole runs -/

/-- One more move comes last. -/
theorem after_concat (m : StorageManager σ) (s : Site σ) (moves : List (Move σ)) (move : Move σ) :
    after m s (moves ++ [move]) = (after m s moves).next m s.transactions.length move :=
  List.foldl_concat _ _ _ _

/-- A transaction that was just opened has no items and has not reported. -/
theorem stage_start (s : Site σ) :
    Stage (s.reports s.transactions.length) s.transactions.length (start s) := by
  refine Stage.building (t := .create s.newClient.1)
    ⟨?_, rfl, rfl, rfl, rfl, rfl, rfl, rfl, rfl, rfl⟩
  exact List.getElem?_concat_length

/-- Every run is at one of the stages. -/
theorem stage_after (m : StorageManager σ) (s : Site σ) (moves : List (Move σ)) :
    Stage (s.reports s.transactions.length) s.transactions.length (after m s moves) := by
  induction moves using List.reverseRecOn with
  | nil => exact stage_start s
  | append_singleton moves move ih =>
    rw [after_concat]
    exact ih.next move

/-- A transaction that has ended stays ended, whatever else happens. -/
theorem ended_after_append (s : Site σ) (moves more : List (Move σ)) {o : Outcome}
    (h : Ended before s.transactions.length n (after m s moves) t o) :
    ∃ t', Ended before s.transactions.length n (after m s (moves ++ more)) t' o ∧
      t'.summary = t.summary := by
  induction more using List.reverseRecOn with
  | nil =>
    rw [List.append_nil]
    exact ⟨t, h, rfl⟩
  | append_singleton more move ih =>
    obtain ⟨t', hended, hsummary⟩ := ih
    obtain ⟨t'', hended', hsummary'⟩ := hended.next (m := m) move
    rw [← List.append_assoc, after_concat]
    exact ⟨t'', hended', hsummary'.trans hsummary⟩

/-- What is to hold of a transaction whose `n` items were executed: its books add up while it
executes, and what it reports is what became of its items. -/
structure Accounted (before : List Report) (key n : ℕ) (x : TransactionRun σ) (t : Transaction) :
    Prop where
  pos : 0 < n
  items_eq : t.summary.items = n
  bytes_eq : t.summary.bytes = (x.returns.map Return.bytes).sum
  outstanding_eq : t.outstanding = x.out.length
  begun : t.phase ≠ .building
  /-- While it executes, something is outstanding and nothing was reported. -/
  executing : t.phase = .executing →
    t.summary.done + t.summary.failed + t.outstanding = n ∧ 1 ≤ t.outstanding ∧
      t.outcome = none ∧ x.site.reports key = before
  /-- Once it does not, there is one report. -/
  reported : t.phase = .reported →
    ∃ o, t.outcome = some o ∧ x.site.reports key = before ++ [⟨o, t.summary⟩]
  success_iff : t.outcome = some .success ↔ AllDone x n
  failure_iff : t.outcome = some .failure ↔ t.summary.done + t.summary.failed = n ∧ ¬ AllDone x n
  cancelled_iff : t.outcome = some .cancelled ↔ x.cancelled

/-- The books of an executing transaction are right. -/
theorem Underway.accounted (h : Underway before key n x t) : Accounted before key n x t := by
  have hout : 0 < x.out.length := List.length_pos_iff.mpr h.out_ne_nil
  have hcount := h.tally.count_eq
  have hnone (o : Outcome) : t.outcome ≠ some o := by
    rw [h.outcome_eq]
    exact Option.some_ne_none o |>.symm
  refine ⟨h.pos, h.tally.items_eq, h.tally.bytes_eq, h.outstanding_eq, ?_, ?_, ?_, ?_, ?_, ?_⟩
  · rw [h.phase_eq]
    exact TransactionPhase.noConfusion
  · intro _
    rw [h.outstanding_eq]
    exact ⟨hcount, hout, h.outcome_eq, h.reports_eq⟩
  · intro hphase
    rw [h.phase_eq] at hphase
    cases hphase
  · exact iff_of_false (hnone _) h.not_allDone
  · refine iff_of_false (hnone _) ?_
    rintro ⟨hsettled, -⟩
    omega
  · refine iff_of_false (hnone _) ?_
    rw [h.not_cancelled]
    exact Bool.false_ne_true

/-- What a transaction has reported is right. -/
theorem Ended.accounted {o : Outcome} (h : Ended before key n x t o) :
    Accounted before key n x t := by
  have houtcome (o' : Outcome) : t.outcome = some o' ↔ o = o' := by
    rw [h.outcome_eq, Option.some.injEq]
  refine ⟨h.pos, h.items_eq, h.bytes_eq, h.outstanding_eq, ?_, ?_, ?_, ?_, ?_, ?_⟩
  · rw [h.phase_eq]
    exact TransactionPhase.noConfusion
  · intro hphase
    rw [h.phase_eq] at hphase
    cases hphase
  · intro _
    exact ⟨o, h.outcome_eq, h.reports_eq⟩
  · exact (houtcome _).trans h.success_iff
  · exact (houtcome _).trans h.failure_iff
  · exact (houtcome _).trans h.cancelled_iff

/-- A transaction whose items were executed keeps its books right in every run: while it
executes, what is done, failed and outstanding adds up and nothing is reported; it reports once,
when it stops executing, and what it reports is what became of its items. After that, its outcome,
its summary and its report stay as they are. -/
theorem settled_after (m : StorageManager σ) (s : Site σ) (moves : List (Move σ)) {n : ℕ}
    (h : (after m s moves).executed = some n) :
    ∃ t, (after m s moves).site.transactions[s.transactions.length]? = some t ∧
      Accounted (s.reports s.transactions.length) s.transactions.length n (after m s moves) t ∧
      (t.phase = .reported → ∀ more : List (Move σ), ∃ t',
        (after m s (moves ++ more)).site.transactions[s.transactions.length]? = some t' ∧
        t'.phase = .reported ∧ t'.outcome = t.outcome ∧ t'.summary = t.summary ∧
        (after m s (moves ++ more)).site.reports s.transactions.length =
          (after m s moves).site.reports s.transactions.length) := by
  cases stage_after m s moves with
  | building hbuilding =>
    rw [hbuilding.executed_eq] at h
    cases h
  | void hvoid =>
    rw [hvoid.executed_eq] at h
    cases h
  | underway hunderway =>
    obtain rfl := Option.some.inj (hunderway.executed_eq.symm.trans h)
    refine ⟨_, hunderway.found, hunderway.accounted, ?_⟩
    intro hphase
    rw [hunderway.phase_eq] at hphase
    cases hphase
  | ended hended =>
    obtain rfl := Option.some.inj (hended.executed_eq.symm.trans h)
    refine ⟨_, hended.found, hended.accounted, ?_⟩
    intro _ more
    obtain ⟨t', hended', hsummary⟩ := ended_after_append s moves more hended
    refine ⟨t', hended'.found, hended'.phase_eq, hended'.outcome_eq.trans hended.outcome_eq.symm,
      hsummary, ?_⟩
    rw [hended'.reports_eq, hended.reports_eq, hsummary]

/-- A site with one medium and one worker. -/
def smallSite : Site Shelf :=
  let site := Site.create ⟨.blank, .ofMedia [⟨⟨1, 0⟩, ⟨"/"⟩, true⟩] none true⟩ Settings.defaults
    ⟨false, false, []⟩
  { site with pool := site.pool.manned ⟨1, 0⟩ site.pool.loop .nobody }

/-- Two items are executed. The destination of one vanishes, it is put back and fails; the other
one is done. Items are added before the end and the transaction is cancelled after it, both in
vain. -/
def returningMoves : List (Move Shelf) :=
  let named := Item.fresh (.buffer .empty) (.inl ⟨"/named"⟩)
  let auto := Item.fresh (.buffer .empty) (.inr ⟨.unset, "class", ⟨"auto"⟩⟩)
  [.add [named, auto], .execute, .back 1 { auto with state := .commonDestinationVanished },
    .back 0 { named with state := .done, bytes := 7 }, .add [named],
    .back 0 { auto with state := .failed, bytes := 5 }, .cancel]

/-- The transaction that took this run has kept its books right. -/
theorem settled_after_returningMoves :
    (after Shelf.manager smallSite returningMoves).executed = some 2 ∧
      ∃ t, (after Shelf.manager smallSite returningMoves).site.transactions[0]? = some t ∧
        Accounted [] 0 2 (after Shelf.manager smallSite returningMoves) t := by
  have hexecuted : (after Shelf.manager smallSite returningMoves).executed = some 2 := by
    decide +kernel
  obtain ⟨t, hfound, haccounted, -⟩ := settled_after _ _ _ hexecuted
  exact ⟨hexecuted, t, hfound, haccounted⟩

end TransactionRun

end Haulage
