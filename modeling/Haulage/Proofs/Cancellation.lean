import Haulage.Proofs.Logbook
import Haulage.Proofs.Operations
import Haulage.Storage.Shelf
import Mathlib.Data.List.Induction

/-!
# Cancelling and tags

Tags are few, and a tag that became free is given out again while signals to cancel its former
holder may still be on their way. `Workshop.cancelled_after` says that this does no harm: in every
run of a workshop in which signals to cancel are only sent by calls, an item ends up cancelled only
if its own client asked for that while the item was with the pool.

A worker takes mail in order. So a signal to cancel can only act on jobs in front of it in the line
of its worker, and those were there when it was sent. `Worker.Warned` says that all of these had
been asked to be cancelled already. At the moment of the call that is so because no two jobs in
flight carry the same tag; from then on the order of the line keeps it so, whoever gets the tag
next.
-/

namespace Haulage

open Disk (Path Tree)

/-! ## What leaves an item cancelled -/

/-- A failure does not cancel. -/
theorem Item.state_failWith_ne (i : Item) (f : CopyFailure) :
    (i.failWith f).state ≠ .cancelled := by
  rw [failWith_eq]
  exact i.endState_ne_cancelled (some f)

/-- Hearing a signal cancels only if it is the one to cancel the item's own tag. -/
theorem Attempt.eq_cancel_of_hear {a : Attempt} {s : Signal}
    (h : (a.hear s).item.state = .cancelled) :
    a.item.state = .cancelled ∨ ∃ tag, s = .cancel tag ∧ a.item.tag = some tag := by
  rcases a.hear_cases s with heq | heq | ⟨state, hstop, heq⟩ <;> rw [heq] at h
  · exact .inl h
  · exact .inl h
  · obtain rfl : state = .cancelled := h
    exact .inr (Item.eq_cancel_of_stopState hstop)

/-- Moving does not cancel. -/
theorem Attempt.eq_cancelled_of_move {a : Attempt} {t : Tree}
    (h : (a.move t).1.item.state = .cancelled) : a.item.state = .cancelled := by
  unfold Attempt.move at h
  split at h
  · unfold Attempt.openSession at h
    split at h
    · cases h
    · split at h
      · exact absurd h (a.item.state_failWith_ne _)
      · exact h
  · rename_i s _
    unfold Attempt.moveChunk at h
    split at h
    · exact absurd h (Item.state_failWith_ne _ _)
    · cases h
    · exact h

/-! ## Workers -/

/-- If the second piece of mail cancels the first, then that was asked for. -/
def Heeds (asked : Job → Prop) (m m' : Mail) : Prop :=
  ∀ j tag, m = .job j → m' = .signal (.cancel tag) → j.item.tag = some tag → asked j

/-- Whatever a worker is told to cancel, and whatever is cancelled in its hand, was asked to be
cancelled. -/
structure Worker.Warned (asked : Job → Prop) (w : Worker) : Prop where
  line : w.line.Pairwise (Heeds asked)
  running : ∀ r, w.duty = .running r → r.attempt.item.state = .cancelled →
    asked (Job.manifest ⟨r.client, r.attempt.item⟩)

namespace Worker.Warned

variable {σ : Type} {asked asked' : Job → Prop} {w : Worker}

/-- A worker with nothing to do is warned. -/
theorem fresh : Worker.fresh.Warned asked :=
  ⟨List.Pairwise.nil, fun r hr => by cases hr⟩

/-- The job in hand is in the line. -/
theorem mem_line_of_job? {j : Job} (h : w.duty.job? = some j) : .job j.manifest ∈ w.line := by
  rw [Worker.line_of_busy h]
  exact List.mem_cons_self

/-- A worker stays warned as more is asked for. -/
theorem mono (h : w.Warned asked)
    (himp : ∀ j, .job j ∈ w.line → asked j → asked' j) : w.Warned asked' := by
  constructor
  · refine h.line.imp_of_mem ?_
    intro m m' hm _ hheeds j tag hj hsignal htag
    subst hj
    exact himp j hm (hheeds j tag rfl hsignal htag)
  · intro r hr hcancelled
    refine himp _ (mem_line_of_job? ?_) (h.running r hr hcancelled)
    rw [hr]
    rfl

/-- New mail leaves a worker warned if all jobs that it cancels were asked to be. -/
theorem post (h : w.Warned asked) {m : Mail}
    (hm : ∀ tag, m = .signal (.cancel tag) → ∀ j, .job j ∈ w.line → j.item.tag = some tag →
      asked j) : (w.post m).Warned asked := by
  refine ⟨?_, h.running⟩
  rw [Worker.line_post, List.pairwise_append]
  refine ⟨h.line, List.pairwise_singleton _ _, ?_⟩
  intro m₁ hm₁ m₂ hm₂ j tag hj hsignal htag
  subst hj
  refine hm tag ?_ j hm₁ htag
  rw [List.mem_singleton.mp hm₂] at hsignal
  cases m with
  | job j' => cases hsignal
  | signal s => exact hsignal

/-- A worker stays warned when it takes a step, and a job that it finishes cancelled was asked to
be cancelled. -/
theorem step {m : StorageManager σ} {buffer : BufferSize} {g : Surroundings σ} {r : StepResult σ}
    (h : w.Warned asked) (hstep : w.step m buffer g = some r) :
    r.worker.Warned asked ∧
      ∀ j ∈ r.finished, j.item.state = .cancelled → asked j.manifest := by
  have hturn := Worker.turn_of_step hstep
  have hline : r.worker.line.Pairwise (Heeds asked) :=
    h.line.sublist (Worker.line_of_turn hturn).1
  cases hturn with
  | pickUp duty next => exact ⟨⟨hline, fun r hr => by cases hr⟩, fun j hj => by cases hj⟩
  | @skip s w' duty next =>
    refine ⟨⟨hline, ?_⟩, fun j hj => by cases hj⟩
    intro r hr
    change (if s = .stop then Duty.gone else .idle) = .running r at hr
    split at hr <;> cases hr
  | sourceMissing duty check =>
    refine ⟨⟨hline, fun r hr => by cases hr⟩, ?_⟩
    intro j hj hcancelled
    cases hj
    cases hcancelled
  | sourceFound duty check => exact ⟨⟨hline, fun r hr => by cases hr⟩, fun j hj => by cases hj⟩
  | noAllocation duty failed =>
    refine ⟨⟨hline, fun r hr => by cases hr⟩, ?_⟩
    intro j hj hcancelled
    cases hj
    cases hcancelled
  | @unfitDestination j i g' e duty ready check =>
    refine ⟨⟨hline, fun r hr => by cases hr⟩, ?_⟩
    intro j' hj' hcancelled
    cases hj'
    change unfit i = .cancelled at hcancelled
    unfold unfit at hcancelled
    split at hcancelled <;> cases hcancelled
  | launch duty ready check =>
    refine ⟨⟨hline, ?_⟩, fun j hj => by cases hj⟩
    intro r hr hcancelled
    cases hr
    cases hcancelled
  | @quiet r' duty stage next =>
    refine ⟨⟨hline, ?_⟩, fun j hj => by cases hj⟩
    intro r hr hcancelled
    cases hr
    exact h.running r' duty hcancelled
  | @hear r' mail w' duty stage next =>
    refine ⟨⟨hline, ?_⟩, fun j hj => by cases hj⟩
    intro r hr hcancelled
    cases hr
    change asked ⟨r'.client, (r'.attempt.hear mail.tells).item.manifest⟩
    rw [r'.attempt.manifest_hear mail.tells]
    rcases Attempt.eq_cancel_of_hear hcancelled with hbefore | ⟨tag, htells, htag⟩
    · exact h.running r' duty hbefore
    · have hmail : mail = .signal (.cancel tag) := by
        cases mail with
        | job j => cases htells
        | signal s => exact congrArg Mail.signal htells
      have hpair := h.line
      rw [line_of_busy (j := ⟨r'.client, r'.attempt.item⟩) (by rw [duty]; rfl),
        queue_of_nextMail next, hmail, List.pairwise_cons] at hpair
      refine hpair.1 (.signal (.cancel tag)) ?_ _ tag rfl rfl htag
      rw [List.map_append, List.map_cons]
      exact List.mem_append_right _ List.mem_cons_self
  | @move r' duty stage =>
    refine ⟨⟨hline, ?_⟩, fun j hj => by cases hj⟩
    intro r hr hcancelled
    cases hr
    change asked ⟨r'.client, (r'.attempt.move g.tree).1.item.manifest⟩
    rw [r'.attempt.manifest_move g.tree]
    exact h.running r' duty (Attempt.eq_cancelled_of_move hcancelled)
  | @close r' duty stage =>
    obtain ⟨i, t, hclose, hmanifest, hstate⟩ := w.close_eq g r'
    rw [hclose] at hline ⊢
    refine ⟨⟨hline, ?_⟩, ?_⟩
    · intro r hr
      change (if r'.sawStop then Duty.gone else .idle) = .running r at hr
      split at hr <;> cases hr
    · intro j hj hcancelled
      cases hj
      change asked ⟨r'.client, i.manifest⟩
      rw [hmanifest]
      rcases hstate with hsame | hfailed
      · exact h.running r' duty (hsame.symm.trans hcancelled)
      · rw [hfailed] at hcancelled
        cases hcancelled

end Worker.Warned

/-! ## Workshops -/

namespace Log

variable {κ : Type}

/-- The client of the job asked for its items to be cancelled since the job was taken on. -/
def Asked (log : List (Entry κ)) (j : Job) : Prop :=
  .cancelled j.client ∈ since (Entry.takes j) log

/-- What was asked for stays so, unless the job is taken on again. -/
theorem Asked.append {log : List (Entry κ)} {j : Job} (h : Asked log j)
    {entries : List (Entry κ)} (hnew : ∀ e ∈ entries, e.takes j = false) :
    Asked (entries ++ log) j := by
  unfold Asked
  rw [since_append hnew]
  exact List.mem_append_right _ h

/-- A job that a worker finishes as cancelled was asked to be, after it was taken on and before
anybody was handed it. -/
def CancelledRightly : Entry κ → List (Entry κ) → Prop
  | .finished j, older => j.item.state = .cancelled → OnRecord older False j ∧ Asked older j
  | .opened _ _, _ | .taken _, _ | .cancelled _, _ | .detached _, _ | .handed _ _, _
  | .struck _, _ | .stray _, _ => True

end Log

namespace Workshop

open Log

variable {κ σ : Type}

/-- Is the act no broadcast of a signal to cancel? -/
def Act.cancelsByCall : Act κ σ → Bool
  | .broadcast (.cancel _) => false
  | _ => true

/-- All that is cancelled, and all that the signals on their way can cancel, was asked to be. -/
structure Warned (y : Workshop κ σ) : Prop where
  workers : ∀ w ∈ y.pool.crew, w.Warned (Asked y.log)
  errands : ∀ k tag, .post k (.cancel tag) ∈ y.errands →
    ∀ j ∈ y.inFlight, j.item.tag = some tag → Asked y.log j

/-- A job that a worker has was not handed over. -/
theorem Balanced.not_isHanded {y : Workshop κ σ} (h : y.Balanced) {w : Worker}
    (hw : w ∈ y.pool.crew) {j : Job} (hj : .job j ∈ w.line) : ¬ y.IsHanded j := by
  rintro ⟨j', r, hdelivery, hmanifest⟩
  have hmem : j ∈ ({ y with delivery := none } : Workshop κ σ).inFlight :=
    mem_inFlight_of_line (y := { y with delivery := none }) hw hj
  have heq : j = j.manifest := by
    obtain ⟨m, -, hm⟩ := List.mem_map.mp hj
    cases m with
    | job j'' =>
      cases hm
      rfl
    | signal s => cases hm
  exact h.manifest_ne_of_delivery hdelivery hmem hmanifest

/-- A job that a worker has is on record, and was not handed over. -/
theorem Booked.onRecord {y : Workshop κ σ} (h : y.Booked) {w : Worker} (hw : w ∈ y.pool.crew)
    {j : Job} (hj : .job j.manifest ∈ w.line) : OnRecord y.log False j := by
  have hrecord := (h.recorded.jobs _ (mem_inFlight_of_line hw hj)).of_manifest
  exact hrecord.mono fun hhanded => absurd hhanded (h.balanced.not_isHanded hw hj)

/-- A job that carries a tag of an account belongs to the client of the account. -/
theorem Balanced.client_eq {y : Workshop κ σ} (h : y.Balanced) {c : ClientId} {a : Account κ}
    (known : y.pool.clients.find? c = some a) {tag : Tag} (htag : tag ∈ a.tags) {j : Job}
    (hj : j ∈ y.inFlight) (hcarried : j.item.tag = some tag) : j.client = c := by
  obtain ⟨j', hj', hclient, hcarried'⟩ := h.carrier known htag
  rw [h.eq_of_tag hj hj' (hcarried.trans hcarried'.symm)]
  exact hclient

/-- Acts that broadcast no signal to cancel keep the workshop warned. -/
theorem Warned.effect {m : StorageManager σ} {y y' : Workshop κ σ} {a : Act κ σ} (h : y.Warned)
    (hbooked : y.Booked) (heffect : Effect m y a y') (hstays : a ≠ .dismiss)
    (hcall : Act.cancelsByCall a) : y'.Warned := by
  have hbooking := hbooked.booking heffect hstays
  obtain ⟨entries, hlog, htakes⟩ := hbooked.balanced.log_append hbooking
  have hasked : ∀ j ∈ y.inFlight, Asked y.log j → Asked y'.log j := by
    intro j hj hbefore
    rw [hlog]
    exact hbefore.append (htakes j hj)
  have hcrew : ∀ w ∈ y.pool.crew, w.Warned (Asked y'.log) := fun w hw =>
    (h.workers w hw).mono fun j hj => hasked j (mem_inFlight_of_line hw hj)
  constructor
  · refine heffect.crew hcrew Worker.Warned.fresh ?_ ?_ ?_
    · intro w hw j _
      exact (hcrew w hw).post fun tag htag => by cases htag
    · intro w hw k s hpost
      refine (hcrew w hw).post ?_
      intro tag htag j hj hcarried
      cases htag
      have hflight := mem_inFlight_of_line hw hj
      exact hasked j hflight (h.errands k tag hpost j hflight hcarried)
    · intro w hw r hstep
      have hsub := (Worker.line_of_turn (Worker.turn_of_step hstep)).1
      refine ((h.workers w hw).step hstep).1.mono fun j hj => hasked j ?_
      exact mem_inFlight_of_line hw (hsub.subset hj)
  · intro k tag hpost j hj hcarried
    cases heffect.sent hpost with
    | before errands =>
      have hflight := hbooking.mem_inFlight (List.ne_nil_of_mem errands) hj
      exact hasked j hflight (h.errands _ tag errands j hflight hcarried)
    | @cancelling c account _ calm known held =>
      have hflight : j ∈ y.inFlight := by
        simpa only [inFlight, calm, filterMap_job?_cancellings, List.filterMap_nil] using hj
      have hclient : j.client = c := hbooked.balanced.client_eq known held hflight hcarried
      change .cancelled j.client ∈ since (Entry.takes j) ([.cancelled c] ++ y.log)
      rw [hclient, since_append fun e he => by rw [List.mem_singleton.mp he]; rfl]
      exact List.mem_append_left _ (List.mem_singleton.mpr rfl)
    | told => cases hcall

/-- A log in which jobs are cancelled rightly stays so, if those that a worker finishes are. -/
theorem cancelledRightly_effect {m : StorageManager σ} {y y' : Workshop κ σ} {a : Act κ σ}
    (h : Throughout CancelledRightly y.log) (heffect : Effect m y a y')
    (hfinished : ∀ w ∈ y.pool.crew, ∀ r, w.step m y.pool.buffer y.ground = some r →
      ∀ j ∈ r.finished, CancelledRightly (.finished j) y.log) :
    Throughout CancelledRightly y'.log := by
  have htaken (jobs : List Job) : ∀ e ∈ (jobs.map (@Entry.taken κ)).reverse,
      ∀ older, CancelledRightly e older := by
    intro e he older
    obtain ⟨j, -, rfl⟩ := List.mem_map.mp (List.mem_reverse.mp he)
    trivial
  cases heffect with
  | nothing a => exact h
  | aside stays clients crew completed phase => exact h
  | started calm start => exact h
  | @opened c receiver items tags clients calm running unknown items_ne allocated =>
    change Throughout CancelledRightly (_ ++ [_] ++ y.log)
    rw [List.append_assoc]
    exact Throughout.append (h.cons (e := .opened c receiver) trivial) (htaken _)
  | added calm running known allocated =>
    change Throughout CancelledRightly (_ ++ [] ++ y.log)
    rw [List.append_nil]
    exact h.append (htaken _)
  | cancelled calm running known => exact h.cons trivial
  | detached c => exact h.cons trivial
  | told calm running => exact h
  | stopped calm running => exact h
  | retired calm resting => exact h
  | dismissed calm down gone => exact h
  | ran errands => exact h
  | @worked k w r worker step =>
    change Throughout CancelledRightly (r.finished.toList.map Entry.finished ++ y.log)
    cases hr : r.finished with
    | none => exact h
    | some j => exact h.cons (hfinished w (List.mem_of_getElem? worker) r step j hr)
  | fetched free completed => exact h
  | strayed delivery unknown => exact h.cons trivial
  | handed delivery known => exact h.cons trivial
  | struck delivery => exact h.cons trivial

/-- The jobs of a worker that are cancelled were asked to be, and nobody was handed them yet. -/
theorem Warned.finished {m : StorageManager σ} {y : Workshop κ σ} (h : y.Warned)
    (hbooked : y.Booked) {w : Worker} (hw : w ∈ y.pool.crew)
    {r : StepResult σ} (hstep : w.step m y.pool.buffer y.ground = some r) {j : Job}
    (hj : j ∈ r.finished) : CancelledRightly (.finished j) y.log := by
  intro hcancelled
  obtain ⟨-, hjobs⟩ := Worker.line_of_turn (Worker.turn_of_step hstep)
  have hline : .job j.manifest ∈ w.line := by
    refine mem_jobsIn.mp ?_
    rw [← hjobs, hj]
    exact List.mem_cons_self
  exact ⟨hbooked.onRecord hw hline, ((h.workers w hw).step hstep).2 j hj hcancelled⟩

/-- Items are cancelled only if their own client asked for it while they were with the pool. -/
structure CancelledExactly (m : StorageManager σ) (y : Workshop κ σ) : Prop where
  /-- An item that a worker finished as cancelled had been taken on and not yet been handed over or
  struck off, and its client asked for its items to be cancelled in between. -/
  finished : ∀ newer j older, y.log = newer ++ .finished j :: older →
    j.item.state = .cancelled → OnRecord older False j ∧ Asked older j
  /-- The same is true of an item that was stopped by being cancelled and is still in hand. -/
  running : ∀ w ∈ y.pool.crew, ∀ r, w.duty = .running r → r.attempt.item.state = .cancelled →
    OnRecord y.log False ⟨r.client, r.attempt.item⟩ ∧ Asked y.log ⟨r.client, r.attempt.item⟩
  /-- Acts that nothing interrupts are the calls that they make up. -/
  uninterrupted : y.Uninterrupted m

/-- In every run of a workshop in which signals to cancel are only sent by calls, whatever else is
broadcast and whether or not the pool is shut down, items are cancelled only if their own client
asked for it while they were with the pool. -/
theorem cancelled_after (m : StorageManager σ) (settings : Settings) (loop : EventLoop)
    (ground : Surroundings σ) (acts : List (Act κ σ)) (hcall : ∀ a ∈ acts, Act.cancelsByCall a) :
    (after m settings loop ground acts).CancelledExactly m := by
  suffices hinv : Throughout CancelledRightly (after m settings loop ground acts).log ∧
      ((after m settings loop ground acts).Booked ∧ (after m settings loop ground acts).Warned ∨
        (after m settings loop ground acts).Deserted) by
    obtain ⟨hlog, hrest⟩ := hinv
    refine ⟨fun newer j older hsplit => hlog newer _ older hsplit, ?_, uninterrupted m _⟩
    intro w hw r hr hcancelled
    rcases hrest with ⟨hbooked, hwarned⟩ | hdeserted
    · have hline : .job (Job.manifest ⟨r.client, r.attempt.item⟩) ∈ w.line := by
        refine Worker.Warned.mem_line_of_job? ?_
        rw [hr]
        rfl
      exact ⟨hbooked.onRecord hw hline, (hwarned.workers w hw).running r hr hcancelled⟩
    · rw [hdeserted.crew_eq] at hw
      cases hw
  induction acts using List.reverseRecOn with
  | nil =>
    refine ⟨throughout_nil _, Or.inl ⟨booked_create settings loop ground, ?_, ?_⟩⟩
    · intro w hw
      cases hw
    · intro k tag hpost
      cases hpost
  | append_singleton acts a ih =>
    obtain ⟨hlog, hrest⟩ := ih fun a' ha' => hcall a' (List.mem_append_left _ ha')
    have ha : Act.cancelsByCall a := hcall a (List.mem_append_right _ (List.mem_singleton.mpr rfl))
    have heffect := effect_next m (after m settings loop ground acts) a
    rw [after_concat]
    rcases hrest with ⟨hbooked, hwarned⟩ | hdeserted
    · refine ⟨cancelledRightly_effect hlog heffect fun w hw r hstep j hj =>
        hwarned.finished hbooked hw hstep hj, ?_⟩
      by_cases hstays : a = .dismiss
      · subst hstays
        rcases heffect.eq_or_deserted with hsame | hdeserted
        · rw [hsame]
          exact Or.inl ⟨hbooked, hwarned⟩
        · exact Or.inr hdeserted
      · exact Or.inl ⟨hbooked.effect heffect hstays, hwarned.effect hbooked heffect hstays ha⟩
    · refine ⟨cancelledRightly_effect hlog heffect ?_, Or.inr (hdeserted.effect heffect)⟩
      intro w hw
      rw [hdeserted.crew_eq] at hw
      cases hw

/-- A client that has its one item cancelled before a worker takes it. -/
def cancellingRun : List (Act Unit Shelf) :=
  [.start ⟨1, 0⟩ .nobody, .submit ⟨1⟩ () [.fresh (.buffer .empty) (.inl ⟨"/to"⟩)], .run,
    .cancel ⟨1⟩, .run, .work 0, .work 0, .work 0, .work 0, .work 0]

/-- The item of that run ends up cancelled, and rightly so. -/
theorem cancelled_after_cancellingRun :
    (∀ a ∈ cancellingRun, Act.cancelsByCall a) ∧
      (after Shelf.manager Settings.defaults ⟨false, false, []⟩ ⟨.blank, .ofMedia [] none false⟩
        cancellingRun).CancelledExactly Shelf.manager ∧
      ∃ j older, (after Shelf.manager Settings.defaults ⟨false, false, []⟩
        ⟨.blank, .ofMedia [] none false⟩ cancellingRun).log = .finished j :: older ∧
        j.item.state = .cancelled :=
  ⟨by decide, cancelled_after _ _ _ _ _ (by decide), _, _, rfl, rfl⟩

end Workshop

end Haulage
