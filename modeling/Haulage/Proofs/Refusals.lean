import Haulage.Proofs.Grants
import Haulage.Proofs.Settlement

/-!
# Executions that the pool refuses

A transaction is begun before its items are submitted, and a refusal does not take that back. So a
transaction that could not be executed has reported a failure in which none of its items is counted,
and has all of them outstanding although the pool has none
(`TransactionRun.unbalanced_refusedMoves`). Every other report of a success or a failure balances:
what is done and what failed are all the items, and nothing is outstanding.

`TransactionRun.stands_after` says so for every run that a transaction can take. The reports of an
execution without items, of the last item that came back and of an execution that was refused are
made in three places, and `Standing` has a case for what each of them leaves behind.
-/

namespace Haulage

/-! ## Balanced books -/

namespace Transaction

/-- What is done, what failed and what is outstanding are all the items. -/
def Balanced (t : Transaction) : Prop :=
  t.summary.done + t.summary.failed + t.outstanding = t.summary.items

/-- Counting an item that was outstanding keeps the balance. -/
theorem Balanced.count {t : Transaction} (h : t.Balanced) (hpos : 0 < t.outstanding)
    (a : Arrival) : (t.count a).Balanced := by
  unfold Balanced at h ⊢
  cases a with
  | done bytes =>
    simp only [Transaction.count]
    omega
  | failed bytes =>
    simp only [Transaction.count]
    omega
  | putBack =>
    simp only [Transaction.count]
    omega

/-- An item that comes back is counted, and the last one ends the transaction. -/
theorem arrive_eq (t : Transaction) (a : Arrival) :
    (0 < (t.count a).outstanding ∧ t.arrive a = (t.count a, none)) ∨
    ((t.count a).outstanding = 0 ∧ ∃ o, o ≠ .cancelled ∧ t.arrive a = (t.count a).conclude o) := by
  unfold arrive concludeIfSettled
  by_cases hpos : (t.count a).outstanding > 0
  · rw [if_pos hpos]
    exact Or.inl ⟨hpos, rfl⟩
  · rw [if_neg hpos]
    exact Or.inr ⟨Nat.eq_zero_of_not_pos hpos, _, TransactionRun.verdict_ne_cancelled _, rfl⟩

end Transaction

/-! ## Refusals in a run -/

/-- An execution that the pool refused, with the site at which the transaction was to be
executed. -/
structure Refusal (σ : Type) where
  site : Site σ
  reason : PoolError
  deriving Repr

/-- What there is to a refusal to execute the transaction `t`: the pool had a reason and took none
of the items. -/
structure Refusal.Meets {σ : Type} (r : Refusal σ) (key : ℕ) (t : Transaction) : Prop where
  found : r.site.transactions[key]? = some t
  phase_eq : t.phase = .building
  items_ne : t.items ≠ []
  refused : r.site.pool.submit t.client (.transaction key) t.items = .error r.reason
  why : r.site.pool.Unopened t.client t.items.length r.reason
  answer : (r.site.execute key).1 = .error (.refused r.reason)
  untouched : (r.site.execute key).2.pool = r.site.pool

namespace TransactionRun

variable {σ : Type} {m : StorageManager σ} {before : List Report} {key n : ℕ} {t : Transaction}
  {x : TransactionRun σ}

/-- The refusal that a move meets with, if it does. -/
def refusal (key : ℕ) (x : TransactionRun σ) : Move σ → Option (Refusal σ)
  | .execute => match (x.site.execute key).1 with
    | .error (.refused e) => some ⟨x.site, e⟩
    | _ => none
  | _ => none

/-- The refusals that some moves meet with, oldest first. -/
def refusalsFrom (m : StorageManager σ) (key : ℕ) : TransactionRun σ → List (Move σ) → List
    (Refusal σ)
  | _, [] => []
  | x, move :: rest => (x.refusal key move).toList ++ refusalsFrom m key (x.next m key move) rest

/-- The refusals in a run, oldest first. -/
def refusals (m : StorageManager σ) (s : Site σ) (moves : List (Move σ)) : List (Refusal σ) :=
  refusalsFrom m s.transactions.length (start s) moves

/-- One more move may meet with one more refusal. -/
theorem refusals_concat (m : StorageManager σ) (s : Site σ) (moves : List (Move σ))
    (move : Move σ) : refusals m s (moves ++ [move]) =
      refusals m s moves ++ ((after m s moves).refusal s.transactions.length move).toList := by
  unfold refusals after
  generalize start s = x
  induction moves generalizing x with
  | nil => simp [refusalsFrom]
  | cons first rest ih =>
    rw [List.cons_append, refusalsFrom, refusalsFrom, ih, List.append_assoc, List.foldl_cons]

/-! ## Where a transaction stands -/

/-- Where a transaction stands in a run, by the refusals that it met with. -/
inductive Standing (before : List Report) (key : ℕ) (x : TransactionRun σ) (t : Transaction) :
    List (Refusal σ) → Prop
  /-- It has not reported yet. -/
  | silent (phase : t.phase ≠ .reported) (outcome : t.outcome = none)
      (reports : x.site.reports key = before) (balanced : t.Balanced) : Standing before key x t []
  | cancelled (phase : t.phase = .reported) (outcome : t.outcome = some .cancelled)
      (reports : x.site.reports key = before ++ [⟨.cancelled, t.summary⟩]) :
      Standing before key x t []
  /-- It was executed, with or without items, and has come to an end. -/
  | settled {o : Outcome} (phase : t.phase = .reported) (outcome : t.outcome = some o)
      (not_cancelled : o ≠ .cancelled)
      (reports : x.site.reports key = before ++ [⟨o, t.summary⟩])
      (balanced : t.summary.done + t.summary.failed = t.summary.items)
      (outstanding : t.outstanding = 0) : Standing before key x t []
  /-- It could not be executed. All its items stay outstanding, and the report counts none. -/
  | refused {r : Refusal σ} {t₀ : Transaction} (refusal : r.Meets key t₀)
      (phase : t.phase = .reported) (outcome : t.outcome = some .failure)
      (reports : x.site.reports key = before ++ [⟨.failure, t.summary⟩])
      (summary : t.summary = ⟨t₀.items.length, 0, 0, 0, 0⟩)
      (outstanding : t.outstanding = t₀.items.length) (out : x.out = []) :
      Standing before key x t [r]

/-- A move after the report meets with no refusal, and changes at most what is outstanding. -/
theorem next_of_reported (m : StorageManager σ) (hfound : x.site.transactions[key]? = some t)
    (hphase : t.phase = .reported) (move : Move σ) :
    x.refusal key move = none ∧ ∃ t',
      (x.next m key move).site.transactions[key]? = some t' ∧
      (x.next m key move).site.reports key = x.site.reports key ∧
      ((t' = t ∧ (x.next m key move).out = x.out) ∨
        (x.out ≠ [] ∧ t' = { t with outstanding := t.outstanding - 1 })) := by
  have hbuilding : t.phase ≠ .building := by
    rw [hphase]
    exact TransactionPhase.noConfusion
  have hexecuting : t.phase ≠ .executing := by
    rw [hphase]
    exact TransactionPhase.noConfusion
  cases move with
  | add items =>
    rw [next_add_of_ne hfound hbuilding]
    exact ⟨rfl, t, hfound, rfl, Or.inl ⟨rfl, rfl⟩⟩
  | execute =>
    rw [next_execute_of_ne hfound hbuilding]
    refine ⟨?_, t, hfound, rfl, Or.inl ⟨rfl, rfl⟩⟩
    simp only [refusal, Site.execute_of_ne hfound hbuilding]
  | cancel =>
    rw [next_cancel_of_ne hfound hexecuting]
    exact ⟨rfl, t, hfound, rfl, Or.inl ⟨rfl, rfl⟩⟩
  | back k i =>
    refine ⟨rfl, ?_⟩
    simp only [TransactionRun.next, hfound]
    cases hslot : x.out[k]? with
    | none => exact ⟨t, hfound, rfl, Or.inl ⟨rfl, rfl⟩⟩
    | some slot =>
      have hout : x.out ≠ [] := by
        intro hnil
        rw [hnil, List.getElem?_nil] at hslot
        cases hslot
      have hnext : x.receive m key k slot t i = { x with
          site := x.site.setTransaction key { t with outstanding := t.outstanding - 1 }
          out := x.out.eraseIdx k } := by
        unfold TransactionRun.receive
        rw [if_neg hexecuting, Site.returnToTransaction_of_ne hfound hexecuting]
      simp only [hnext]
      exact ⟨_, Site.getElem?_setTransaction hfound _, rfl, Or.inr ⟨hout, rfl⟩⟩
  | elsewhere s =>
    obtain ⟨s', hnext, hsame, hreports⟩ := next_elsewhere m key x s
    rw [hnext]
    exact ⟨rfl, t, hsame.trans hfound, hreports, Or.inl ⟨rfl, rfl⟩⟩

/-- What the run holds of its transaction. -/
def Stands (before : List Report) (key : ℕ) (x : TransactionRun σ) (rs : List (Refusal σ)) : Prop :=
  ∃ t, x.site.transactions[key]? = some t ∧ Standing before key x t rs

/-- A transaction that has reported stands where it stood. -/
theorem Standing.next_of_reported {rs : List (Refusal σ)} (h : Standing before key x t rs)
    (m : StorageManager σ) (hfound : x.site.transactions[key]? = some t)
    (hphase : t.phase = .reported) (move : Move σ) :
    Stands before key (x.next m key move) (rs ++ (x.refusal key move).toList) := by
  obtain ⟨hrefusal, t', hfound', hreports, hchange⟩ :=
    TransactionRun.next_of_reported m hfound hphase move
  rw [hrefusal, Option.toList_none, List.append_nil]
  have hsame : t'.phase = t.phase ∧ t'.outcome = t.outcome ∧ t'.summary = t.summary := by
    rcases hchange with ⟨rfl, -⟩ | ⟨-, rfl⟩ <;> exact ⟨rfl, rfl, rfl⟩
  obtain ⟨hsamePhase, hsameOutcome, hsameSummary⟩ := hsame
  refine ⟨t', hfound', ?_⟩
  cases h with
  | silent phase => exact absurd hphase phase
  | cancelled phase outcome reports =>
    refine .cancelled (hsamePhase.trans phase) (hsameOutcome.trans outcome) ?_
    rw [hreports, reports, hsameSummary]
  | settled phase outcome not_cancelled reports balanced outstanding =>
    refine .settled (hsamePhase.trans phase) (hsameOutcome.trans outcome) not_cancelled ?_ ?_ ?_
    · rw [hreports, reports, hsameSummary]
    · rw [hsameSummary]
      exact balanced
    · rcases hchange with ⟨rfl, -⟩ | ⟨-, rfl⟩
      · exact outstanding
      · simp only [outstanding]
  | refused refusal phase outcome reports summary outstanding out =>
    -- nothing comes back late, since nothing was given out
    obtain ⟨rfl, hout⟩ := hchange.resolve_right fun h => h.1 out
    exact .refused refusal phase outcome (hreports.trans reports) summary outstanding
      (hout.trans out)

/-- The report of a transaction that ends. -/
theorem reports_conclude (s : Site σ) (key : ℕ) {t : Transaction} (hreporter : t.hasReporter)
    (o : Outcome) : (s.book key (t.conclude o)).reports key =
      s.reports key ++ [⟨o, t.summary⟩] := by
  rw [Site.reports_book]
  simp only [Transaction.conclude, hreporter, if_true, Option.toList_some]

/-- A transaction that is executed has begun, or reports at once that it failed. -/
theorem Building.stands_execute (h : Building before key x t) (hbalanced : t.Balanced) :
    Stands before key (x.next m key .execute) (x.refusal key .execute).toList := by
  rcases Site.execute_eq h.found h.phase_eq with
    ⟨hitems, hexecute⟩ | ⟨hitems, p, -, hexecute⟩ | ⟨hitems, e, hsubmit, hexecute⟩
  · have hnext : x.next m key .execute =
        { x with site := x.site.book key (t.conclude .failure) } := by
      simp only [TransactionRun.next, execute, h.found, hexecute, hitems, List.isEmpty_nil, if_true]
    have hsettled : t.outstanding = 0 := by
      simpa only [Transaction.Balanced, h.summary_eq, Nat.zero_add] using hbalanced
    simp only [refusal, hexecute, Option.toList_none, hnext]
    refine ⟨_, Site.getElem?_book h.found _, .settled rfl rfl Outcome.noConfusion ?_ ?_ hsettled⟩
    · rw [reports_conclude _ _ h.reporter, h.reports_eq]
      rfl
    · simp only [Transaction.conclude, h.summary_eq]
  · have hempty : t.items.isEmpty = false := by simpa using hitems
    have hfound : ({ x.site with pool := p } : Site σ).transactions[key]? = some t := h.found
    simp only [refusal, hexecute, Option.toList_none, TransactionRun.next, execute, h.found, hempty,
      Bool.false_eq_true, if_false]
    refine ⟨_, Site.getElem?_setTransaction hfound _,
      .silent TransactionPhase.noConfusion h.outcome_eq h.reports_eq ?_⟩
    simp only [Transaction.Balanced, Transaction.begin, h.summary_eq, Nat.zero_add]
  · have hnext : x.next m key .execute =
        { x with site := x.site.book key (t.begin.2.conclude .failure) } := by
      simp only [TransactionRun.next, execute, h.found, hexecute]
    have hmeets : Refusal.Meets ⟨x.site, e⟩ key t :=
      { found := h.found
        phase_eq := h.phase_eq
        items_ne := hitems
        refused := hsubmit
        why := Pool.unopened_of_submit hsubmit
        answer := by rw [hexecute]
        untouched := by rw [hexecute, Site.pool_book] }
    simp only [refusal, hexecute, Option.toList_some, hnext]
    refine ⟨_, Site.getElem?_book h.found _, .refused hmeets rfl rfl ?_ ?_ rfl h.out_eq⟩
    · rw [reports_conclude _ _ (show t.begin.2.hasReporter from h.reporter), h.reports_eq]
      rfl
    · simp only [Transaction.conclude, Transaction.begin, h.summary_eq]

/-- A transaction that was not executed yet stays silent, or is executed. -/
theorem Building.stands (h : Building before key x t) (hbalanced : t.Balanced) (move : Move σ) :
    Stands before key (x.next m key move) (x.refusal key move).toList := by
  have hnot : t.phase ≠ .reported := by
    rw [h.phase_eq]
    exact TransactionPhase.noConfusion
  cases move with
  | add items =>
    obtain ⟨g, kept, hadd⟩ := Site.addToTransaction_of_building (m := m) h.found h.phase_eq items
    have hfound : ({ x.site with ground := g } : Site σ).transactions[key]? = some t := h.found
    refine ⟨{ t with items := t.items ++ kept }, ?_, .silent hnot h.outcome_eq ?_ hbalanced⟩
    · simp only [TransactionRun.next, hadd]
      exact Site.getElem?_setTransaction hfound _
    · simp only [TransactionRun.next, hadd]
      exact h.reports_eq
  | execute => exact h.stands_execute hbalanced
  | cancel =>
    rw [next_cancel_of_ne h.found (by rw [h.phase_eq]; exact TransactionPhase.noConfusion)]
    exact ⟨t, h.found, .silent hnot h.outcome_eq h.reports_eq hbalanced⟩
  | back k i =>
    rw [next_back_of_nil h.out_eq]
    exact ⟨t, h.found, .silent hnot h.outcome_eq h.reports_eq hbalanced⟩
  | elsewhere s =>
    obtain ⟨s', hnext, hsame, hreports⟩ := next_elsewhere m key x s
    rw [hnext]
    exact ⟨t, hsame.trans h.found,
      .silent hnot h.outcome_eq (hreports.trans h.reports_eq) hbalanced⟩

/-- An item that comes back is counted, and the last one ends the transaction with balanced
books. -/
theorem Underway.stands_receive (h : Underway before key n x t) (hbalanced : t.Balanced)
    (k slot : ℕ) (i : Item) : Stands before key (x.receive m key k slot t i) [] := by
  have hpos : 0 < t.outstanding := by
    rw [h.outstanding_eq]
    exact List.length_pos_iff.mpr h.out_ne_nil
  obtain ⟨p, g, hreceive⟩ := x.site.receive_eq m t.client i
  have hfound : ({ x.site with pool := p, ground := g } : Site σ).transactions[key]? = some t :=
    h.found
  have hreports : ({ x.site with pool := p, ground := g } : Site σ).reports key = before :=
    h.reports_eq
  have hsite : (x.receive m key k slot t i).site =
      ({ x.site with pool := p, ground := g } : Site σ).book key
        (t.arrive (x.site.receive m t.client i).1) := by
    unfold TransactionRun.receive
    rw [if_pos h.phase_eq, Site.returnToTransaction_of_executing h.found h.phase_eq, hreceive]
  generalize (x.site.receive m t.client i).1 = a at hsite
  have hcounted := hbalanced.count hpos a
  obtain ⟨hphase, houtcome, hreporter⟩ := count_eq t a
  refine ⟨(t.arrive a).1, ?_, ?_⟩
  · rw [hsite]
    exact Site.getElem?_book hfound _
  · rcases t.arrive_eq a with ⟨-, harrive⟩ | ⟨hlast, o, ho, harrive⟩
    · rw [harrive] at hsite ⊢
      refine .silent ?_ (houtcome.trans h.outcome_eq) ?_ hcounted
      · rw [hphase, h.phase_eq]
        exact TransactionPhase.noConfusion
      · rw [hsite, Site.reports_book, hreports]
        exact List.append_nil _
    · rw [harrive] at hsite ⊢
      refine .settled rfl rfl ho ?_ ?_ hlast
      · rw [hsite, reports_conclude _ _ (hreporter.trans h.reporter), hreports]
        rfl
      · unfold Transaction.Balanced at hcounted
        rw [hlast] at hcounted
        exact hcounted

/-- An executing transaction stays silent until the last item comes back or it is cancelled. -/
theorem Underway.stands (h : Underway before key n x t) (hbalanced : t.Balanced)
    (move : Move σ) :
    Stands before key (x.next m key move) (x.refusal key move).toList := by
  have hbuilding : t.phase ≠ .building := by
    rw [h.phase_eq]
    exact TransactionPhase.noConfusion
  have hnot : t.phase ≠ .reported := by
    rw [h.phase_eq]
    exact TransactionPhase.noConfusion
  have hsilent : Standing before key x t [] :=
    .silent hnot h.outcome_eq h.reports_eq hbalanced
  cases move with
  | add items =>
    rw [next_add_of_ne h.found hbuilding]
    exact ⟨t, h.found, hsilent⟩
  | execute =>
    rw [next_execute_of_ne h.found hbuilding]
    simp only [refusal, Site.execute_of_ne h.found hbuilding]
    exact ⟨t, h.found, hsilent⟩
  | cancel =>
    have hended := h.cancel (m := m)
    exact ⟨_, hended.found, .cancelled hended.phase_eq hended.outcome_eq hended.reports_eq⟩
  | back k i =>
    simp only [TransactionRun.next, h.found, refusal, Option.toList_none]
    cases x.out[k]? with
    | none => exact ⟨t, h.found, hsilent⟩
    | some slot => exact h.stands_receive hbalanced k slot i
  | elsewhere s =>
    obtain ⟨s', hnext, hsame, hreports⟩ := next_elsewhere m key x s
    rw [hnext]
    exact ⟨t, hsame.trans h.found,
      .silent hnot h.outcome_eq (hreports.trans h.reports_eq) hbalanced⟩

/-- Every move takes a transaction from where it stands to where it may stand next. -/
theorem Stands.next {rs : List (Refusal σ)} (h : Stands before key x rs)
    (hstage : Stage before key x) (m : StorageManager σ) (move : Move σ) :
    Stands before key (x.next m key move) (rs ++ (x.refusal key move).toList) := by
  obtain ⟨t, hfound, hstanding⟩ := h
  cases hstanding with
  | silent phase outcome reports balanced =>
    rw [List.nil_append]
    cases hstage with
    | building hbuilding =>
      cases hfound.symm.trans hbuilding.found
      exact hbuilding.stands balanced move
    | underway hunderway =>
      cases hfound.symm.trans hunderway.found
      exact hunderway.stands balanced move
    | void hvoid =>
      cases hfound.symm.trans hvoid.found
      exact absurd hvoid.phase_eq phase
    | ended hended =>
      cases hfound.symm.trans hended.found
      exact absurd hended.phase_eq phase
  | cancelled phase outcome reports =>
    exact (Standing.cancelled phase outcome reports).next_of_reported m hfound phase move
  | settled phase outcome not_cancelled reports balanced outstanding =>
    exact (Standing.settled phase outcome not_cancelled reports balanced outstanding
      ).next_of_reported m hfound phase move
  | refused refusal phase outcome reports summary outstanding out =>
    exact (Standing.refused refusal phase outcome reports summary outstanding out
      ).next_of_reported m hfound phase move

/-- In every run the transaction reports at most once. The books of a report of a success or a
failure balance, and nothing is outstanding then, unless the execution was refused: then the report
counts none of the items, and all of them stay outstanding though the pool took none. -/
theorem stands_after (m : StorageManager σ) (s : Site σ) (moves : List (Move σ)) :
    ∃ t, (after m s moves).site.transactions[s.transactions.length]? = some t ∧
      Standing (s.reports s.transactions.length) s.transactions.length (after m s moves) t
        (refusals m s moves) := by
  induction moves using List.reverseRecOn with
  | nil =>
    refine ⟨.create s.newClient.1, List.getElem?_concat_length, ?_⟩
    exact .silent TransactionPhase.noConfusion rfl rfl rfl
  | append_singleton moves move ih =>
    rw [refusals_concat, after_concat]
    exact Stands.next ih (stage_after m s moves) m move

/-- An item is added to a transaction, which is executed before the pool was started. -/
def refusedMoves : List (Move Shelf) :=
  [.add [Item.fresh (.buffer .empty) (.inl ⟨"out"⟩)], .execute]

/-- A site whose pool was not started. -/
def idleSite : Site Shelf :=
  .create ⟨.blank, .ofMedia [] none false⟩ Settings.defaults ⟨false, false, []⟩

/-- The transaction has reported a failure in which its one item is neither done nor failed, and
still has it outstanding. -/
theorem unbalanced_refusedMoves :
    (refusals Shelf.manager idleSite refusedMoves).map (·.reason) = [.notInitialized] ∧
      (after Shelf.manager idleSite refusedMoves).site.reports 0 =
        [⟨.failure, ⟨1, 0, 0, 0, 0⟩⟩] ∧
      ∃ t, (after Shelf.manager idleSite refusedMoves).site.transactions[0]? = some t ∧
        t.outstanding ≠ 0 ∧ t.summary.done + t.summary.failed ≠ t.summary.items := by
  have hbooks : (after Shelf.manager idleSite refusedMoves).site.transactions[0]? =
      some ⟨⟨1⟩, .reported, [], 1, ⟨1, 0, 0, 0, 0⟩, some .failure, false⟩ := by
    decide +kernel
  exact ⟨by decide +kernel, by decide +kernel, _, hbooks, by decide, by decide⟩

end TransactionRun

end Haulage
