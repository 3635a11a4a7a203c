import Haulage.Proofs.Cancellation

/-!
# Signals in pursuit

A client that asks for its items to be cancelled does not know where they are. The signal goes to
every worker, and from then on it is on the heels of the job it is meant for: it is either still to
be sent to the worker that has the job, or among the mail that this worker will tell the job.

`Worker.Owes` is the mail that a worker has not told a job yet. It is the same for a job in the
inbox, in the backlog, among the deferred mail and in hand, and `Worker.Owes.of_turn` says how a
turn changes it. `Workshop.Pursued` is the invariant, and `Workshop.pursued_after` says that every
run keeps it, however the mail is deferred and put back.
-/

namespace Haulage

/-! ## Mail that a job has not been told -/

/-- Deferring mail may drop it from the front, and does nothing else to what comes later. -/
theorem deferring_append_suffix (deferred : List Mail) (m : Mail) (mail : List Mail) :
    deferring deferred m ++ mail <:+ deferred ++ m :: mail := by
  unfold deferring
  split
  · rename_i hskip
    rw [Bool.and_eq_true, List.isEmpty_iff] at hskip
    rw [hskip.1]
    exact List.suffix_cons m mail
  · rw [List.append_assoc]
    exact List.suffix_rfl

/-- One piece of mail among some with one more at the end: it is either among those before, or it is
the one more. -/
theorem eq_append_cons_of_concat {mail before after : List Mail} {m x : Mail}
    (h : mail ++ [m] = before ++ x :: after) :
    (∃ after', mail = before ++ x :: after' ∧ after = after' ++ [m]) ∨ m = x ∧ after = [] := by
  rcases List.eq_nil_or_concat after with rfl | ⟨after', m', rfl⟩
  · obtain ⟨-, hm⟩ := List.append_inj' h rfl
    exact Or.inr ⟨(List.cons.inj hm).1, rfl⟩
  · rw [List.concat_eq_append, ← List.cons_append, ← List.append_assoc] at h
    obtain ⟨hmail, hm⟩ := List.append_inj' h rfl
    exact Or.inl ⟨after', hmail, by rw [List.concat_eq_append, hm]⟩

namespace Worker

variable {σ : Type}

/-- The mail behind the job in hand: what was deferred, and what was not taken yet. -/
def rest (w : Worker) : List Mail := w.duty.deferred ++ w.queue

/-- New mail comes last. -/
@[simp] theorem rest_post (w : Worker) (m : Mail) : (w.post m).rest = w.rest ++ [m] := by
  unfold rest
  rw [queue_post, ← List.append_assoc]
  rfl

/-- The line is the job in hand and the mail behind it. -/
theorem line_eq (w : Worker) :
    w.line = (w.duty.job?.toList.map Mail.job ++ w.rest).map Mail.manifest := by
  unfold line rest
  rw [List.append_assoc]

/-- The jobs of a worker are the one in hand and those behind it. -/
theorem jobsIn_line (w : Worker) :
    jobsIn w.line = (w.duty.job?.toList ++ jobsIn w.rest).map Job.manifest := by
  have hhand : jobsIn (w.duty.job?.toList.map Mail.job) = w.duty.job?.toList := by
    unfold jobsIn
    rw [List.filterMap_map]
    exact List.filterMap_some
  rw [line_eq, jobsIn_map_manifest, jobsIn_append, hhand]

/-- Mail that was not taken yet is behind the job in hand. -/
theorem queue_suffix_rest (w : Worker) : w.queue <:+ w.rest := List.suffix_append _ _

/-- A step takes mail off the front, and changes nothing else about it. -/
theorem rest_of_turn {m : StorageManager σ} {buffer : BufferSize} {w : Worker}
    {g : Surroundings σ} {r : StepResult σ} (h : Turn m buffer w g r) :
    r.worker.rest <:+ w.rest := by
  cases h with
  | pickUp duty next =>
    unfold rest
    rw [duty, queue_of_nextMail next]
    exact List.suffix_cons _ _
  | @skip s w' duty next =>
    have hfree : ({ w' with duty := if s = .stop then .gone else .idle } : Worker).rest =
        w'.queue := by
      change (if s = .stop then Duty.gone else .idle).deferred ++ w'.queue = w'.queue
      split <;> rfl
    rw [hfree]
    unfold rest
    rw [duty, queue_of_nextMail next]
    exact List.suffix_cons _ _
  | sourceMissing duty check =>
    unfold rest
    rw [duty]
    exact List.suffix_rfl
  | sourceFound duty check =>
    unfold rest
    rw [duty]
    exact List.suffix_rfl
  | noAllocation duty failed =>
    unfold rest
    rw [duty]
    exact List.suffix_rfl
  | unfitDestination duty ready check =>
    unfold rest
    rw [duty]
    exact List.suffix_rfl
  | launch duty ready check =>
    unfold rest
    rw [duty]
    exact List.suffix_rfl
  | quiet duty stage next =>
    unfold rest
    rw [duty]
    exact List.suffix_rfl
  | @hear r mail w' duty stage next =>
    unfold rest
    rw [duty, queue_of_nextMail next]
    exact deferring_append_suffix r.deferred mail w'.queue
  | move duty stage =>
    unfold rest
    rw [duty]
    exact List.suffix_rfl
  | @close r duty stage =>
    obtain ⟨i, t, hclose, -, -⟩ := w.close_eq g r
    have hnone : (if r.sawStop then Duty.gone else .idle).deferred = [] := by
      split <;> rfl
    have hput : (w.close g r).worker.rest = w.rest := by
      rw [hclose]
      change (if r.sawStop then Duty.gone else .idle).deferred ++
        ((r.deferred ++ w.backlog) ++ w.inbox) = _
      rw [hnone, List.nil_append, List.append_assoc]
      unfold rest
      rw [duty]
      rfl
    exact hput ▸ List.suffix_rfl

/-- The mail that a worker has not told a job yet, for a job that it has and whose attempt, if there
is one, is not over. -/
inductive Owes (w : Worker) (j : Job) : List Mail → Prop
  /-- The job was not taken yet, or was deferred. -/
  | waiting (before : List Mail) {mail : List Mail} (rest : w.rest = before ++ .job j :: mail) :
      Owes w j mail
  /-- The job is in hand. -/
  | inHand (job : w.duty.job? = some j)
      (unended : ∀ r, w.duty = .running r → r.attempt.stage ≠ .ended) : Owes w j w.queue

namespace Owes

variable {w : Worker} {j : Job} {mail : List Mail}

/-- Such a job is either behind the one in hand, or it is the one in hand. -/
theorem rest_or_hand (h : w.Owes j mail) :
    (∃ before, w.rest = before ++ .job j :: mail) ∨ w.duty.job? = some j ∧
      (∀ r, w.duty = .running r → r.attempt.stage ≠ .ended) ∧ w.queue = mail := by
  cases h with
  | waiting before rest => exact Or.inl ⟨before, rest⟩
  | inHand job unended => exact Or.inr ⟨job, unended, rfl⟩

/-- The job is in the line of the worker. -/
theorem mem_line (h : w.Owes j mail) : .job j.manifest ∈ w.line := by
  cases h with
  | waiting before rest =>
    have hmem : .job j ∈ w.duty.job?.toList.map Mail.job ++ w.rest := by
      rw [rest]
      exact List.mem_append_right _ (List.mem_append_right _ List.mem_cons_self)
    rw [line_eq]
    exact List.mem_map_of_mem hmem
  | inHand job unended =>
    rw [line_of_busy job]
    exact List.mem_cons_self

/-- The mail is behind the job in hand. -/
theorem suffix_rest (h : w.Owes j mail) : mail <:+ w.rest := by
  cases h with
  | waiting before rest =>
    rw [rest]
    exact (List.suffix_cons _ _).trans (List.suffix_append _ _)
  | inHand job unended => exact w.queue_suffix_rest

/-- New mail is owed to every job of the worker, and nothing to itself if it is a job. -/
theorem of_post {m : Mail} (h : (w.post m).Owes j mail) :
    (∃ mail', w.Owes j mail' ∧ mail = mail' ++ [m]) ∨ m = .job j ∧ mail = [] := by
  cases h with
  | waiting before rest =>
    rw [rest_post] at rest
    rcases eq_append_cons_of_concat rest with ⟨mail', hrest, hmail⟩ | hnew
    · exact Or.inl ⟨mail', Owes.waiting before hrest, hmail⟩
    · exact Or.inr hnew
  | inHand job unended => exact Or.inl ⟨w.queue, Owes.inHand job unended, w.queue_post m⟩

/-- What is owed after a turn was owed before, except for the mail that the job was just told, and
that did not stop it. -/
theorem of_turn {m : StorageManager σ} {buffer : BufferSize} {g : Surroundings σ}
    {r : StepResult σ} (hturn : Turn m buffer w g r) (h : r.worker.Owes j mail) :
    ∃ j' mail', w.Owes j' mail' ∧ j'.manifest = j.manifest ∧
      (mail' = mail ∨ ∃ m, mail' = m :: mail ∧ (j'.item.inspect m.tells).1 = true) := by
  rcases h.rest_or_hand with ⟨before, hrest⟩ | ⟨job, unended, rfl⟩
  · -- A job behind the one in hand was there before.
    obtain ⟨taken, htaken⟩ := rest_of_turn hturn
    refine ⟨j, mail, Owes.waiting (taken ++ before) ?_, rfl, Or.inl rfl⟩
    rw [← htaken, hrest, List.append_assoc]
  · -- A job in hand was in hand before, unless the worker has just taken it.
    have hhand {j' : Job} (hj' : w.duty.job? = some j')
        (hopen : ∀ r, w.duty = .running r → r.attempt.stage ≠ .ended) : w.Owes j' w.queue :=
      Owes.inHand hj' hopen
    have hchecked {j' : Job} (hduty : w.duty = .received j' ∨ w.duty = .preparing j') :
        ∀ r, w.duty = .running r → r.attempt.stage ≠ .ended := by
      intro r hr
      rcases hduty with hd | hd <;> rw [hd] at hr <;> cases hr
    have hopen {r : Running} {stage : Stage} (hduty : w.duty = .running r)
        (hstage : r.attempt.stage = stage) (hne : stage ≠ .ended) :
        ∀ r, w.duty = .running r → r.attempt.stage ≠ .ended := by
      intro r' hr'
      rw [hduty] at hr'
      cases hr'
      rw [hstage]
      exact hne
    cases hturn with
    | @pickUp j' w' duty next =>
      cases job
      refine ⟨j, _, Owes.waiting [] ?_, rfl, Or.inl rfl⟩
      unfold rest
      rw [duty, queue_of_nextMail next]
      rfl
    | @skip s w' duty next =>
      change (if s = .stop then Duty.gone else .idle).job? = some j at job
      split at job <;> cases job
    | sourceMissing duty check => cases job
    | sourceFound duty check =>
      cases job
      exact ⟨j, w.queue, hhand (by rw [duty]; rfl) (hchecked (Or.inl duty)), rfl, Or.inl rfl⟩
    | noAllocation duty failed => cases job
    | unfitDestination duty ready check => cases job
    | @launch j' i g' duty ready check =>
      cases job
      exact ⟨j', w.queue, hhand (by rw [duty]; rfl) (hchecked (Or.inr duty)),
        congrArg (Job.mk j'.client) ready.manifest_eq.symm, Or.inl rfl⟩
    | @quiet r duty stage next =>
      cases job
      exact ⟨⟨r.client, r.attempt.item⟩, w.queue,
        hhand (by rw [duty]; rfl) (hopen duty stage Stage.noConfusion),
        congrArg (Job.mk r.client) (r.attempt.manifest_hear .none).symm, Or.inl rfl⟩
    | @hear r m w' duty stage next =>
      cases job
      have hqueue : w.queue = m :: w'.queue := queue_of_nextMail next
      refine ⟨⟨r.client, r.attempt.item⟩, w.queue,
        hhand (by rw [duty]; rfl) (hopen duty stage Stage.noConfusion),
        congrArg (Job.mk r.client) (r.attempt.manifest_hear m.tells).symm,
        Or.inr ⟨m, hqueue, ?_⟩⟩
      by_contra hstops
      refine unended _ rfl ?_
      change (r.attempt.hear m.tells).stage = .ended
      obtain ⟨state, hstop⟩ := Option.ne_none_iff_exists'.mp (mt Item.inspect_fst_iff.mpr hstops)
      rw [Attempt.hear_of_stops hstop]
    | @move r duty stage =>
      cases job
      exact ⟨⟨r.client, r.attempt.item⟩, w.queue,
        hhand (by rw [duty]; rfl) (hopen duty stage Stage.noConfusion),
        congrArg (Job.mk r.client) (r.attempt.manifest_move g.tree).symm, Or.inl rfl⟩
    | @close r duty stage =>
      obtain ⟨i, t, hclose, -, -⟩ := w.close_eq g r
      rw [hclose] at job
      rw [job?_ite_gone] at job
      cases job

end Owes

end Worker

namespace Log

/-- What was asked for was asked for the manifest. -/
theorem Asked.congr {κ : Type} {log : List (Entry κ)} {j j' : Job} (h : Asked log j)
    (hmanifest : j.manifest = j'.manifest) : Asked log j' := by
  have hclient : j.client = j'.client := (Job.mk.inj hmanifest).1
  have htakes : Entry.takes (κ := κ) j = Entry.takes j' := by
    unfold Entry.takes
    rw [hmanifest]
  unfold Asked at h ⊢
  rwa [← hclient, ← htakes]

end Log

/-! ## Candid workshops -/

namespace Workshop

open Log

variable {κ σ : Type}

/-- Does the act tell the workers nothing that they are to find out for themselves? A worker listens
until nothing is waiting, and a signal that says so would make it stop listening too early. -/
def Act.isCandid : Act κ σ → Bool
  | .broadcast .none => false
  | _ => true

/-- No worker is told that nothing is waiting. -/
structure Candid (y : Workshop κ σ) : Prop where
  workers : ∀ w ∈ y.pool.crew, .signal .none ∉ w.rest
  errands : ∀ k, .post k .none ∉ y.errands

/-- Candid acts keep the workshop candid. -/
theorem Candid.effect {m : StorageManager σ} {y y' : Workshop κ σ} {a : Act κ σ} (h : y.Candid)
    (heffect : Effect m y a y') (hcandid : Act.isCandid a) : y'.Candid := by
  -- New mail keeps the mail candid unless it is the signal itself.
  have hpost {w : Worker} (hw : w ∈ y.pool.crew) {mail : Mail} (hne : mail ≠ .signal .none) :
      .signal .none ∉ (w.post mail).rest := by
    rw [Worker.rest_post, List.mem_append, List.mem_singleton]
    rintro (hold | hnew)
    · exact h.workers w hw hold
    · exact hne hnew.symm
  constructor
  · refine heffect.crew h.workers List.not_mem_nil ?_ ?_ ?_
    · intro w hw j _
      exact hpost hw fun heq => by cases heq
    · intro w hw k s hs
      refine hpost hw ?_
      rintro ⟨⟩
      exact h.errands k hs
    · intro w hw r hstep hmem
      exact h.workers w hw ((Worker.rest_of_turn (Worker.turn_of_step hstep)).subset hmem)
  · intro k hpost
    cases heffect.sent hpost with
    | before errands => exact h.errands _ errands
    | told => cases hcandid

/-- A run of candid acts keeps the workshop candid. -/
theorem candid_after (m : StorageManager σ) (settings : Settings) (loop : EventLoop)
    (ground : Surroundings σ) (acts : List (Act κ σ)) (hcandid : ∀ a ∈ acts, Act.isCandid a) :
    (after m settings loop ground acts).Candid := by
  induction acts using List.reverseRecOn with
  | nil =>
    constructor
    · intro w hw
      cases hw
    · intro k hk
      cases hk
  | append_singleton acts a ih =>
    rw [after_concat]
    have ha : Act.isCandid a := hcandid a (List.mem_append_right _ (List.mem_singleton.mpr rfl))
    exact (ih fun a' ha' => hcandid a' (List.mem_append_left _ ha')).effect (effect_next m _ a) ha

/-! ## Pursuit -/

/-- Every job whose client asked for its items to be cancelled is pursued by the signal. -/
structure Pursued (y : Workshop κ σ) : Prop where
  /-- A job that is still to be dispatched has only just been taken on. -/
  unasked : ∀ j, .dispatch j ∈ y.errands → ¬ Asked y.log j
  /-- The signal is among the mail that the job is still to be told, or still to be sent. -/
  pursued : ∀ k w, y.pool.crew[k]? = some w → ∀ j mail, w.Owes j mail → Asked y.log j →
    ∀ tag, j.item.tag = some tag → .signal (.cancel tag) ∈ mail ∨ .post k (.cancel tag) ∈ y.errands

/-- Nothing was asked for a job that has just been taken on together with others. -/
theorem not_asked_of_taking {jobs : List Job} {j : Job} (hj : j ∈ jobs) (log : List (Entry κ)) :
    ¬ Asked ((jobs.map Entry.taken).reverse ++ log) j := by
  intro hasked
  have hany : (jobs.map (@Entry.taken κ)).reverse.any (Entry.takes j) := by
    rw [List.any_reverse, List.any_map]
    exact List.any_eq_true.mpr ⟨j, hj, by simp [Entry.takes]⟩
  obtain ⟨j', -, heq⟩ := List.mem_map.mp (List.mem_reverse.mp (mem_since_append_of_any hany hasked))
  cases heq

/-- What is asked for after an act was asked for before, or the call that asks for it has just
begun. -/
theorem Effect.asked {m : StorageManager σ} {y y' : Workshop κ σ} {a : Act κ σ}
    (h : Effect m y a y') {j : Job} (hasked : Asked y'.log j) :
    Asked y.log j ∨ ∃ account, y.errands = [] ∧ y.pool.clients.find? j.client = some account ∧
      y'.pool.crew = y.pool.crew ∧ y'.errands = y.pool.cancellings account.tags := by
  obtain ⟨entries, hlog, hlogged⟩ := h.log
  unfold Asked at hasked
  rw [hlog] at hasked
  rcases mem_since_append hasked with hnew | hold
  · cases hlogged _ hnew with
    | @cancelled _ account calm known crew errands =>
      exact Or.inr ⟨account, calm, known, crew, errands⟩
  · exact Or.inl hold

/-- Every act keeps up the pursuit. -/
theorem Pursued.effect {m : StorageManager σ} {y y' : Workshop κ σ} {a : Act κ σ} (h : y.Pursued)
    (hbooked : y.Booked) (heffect : Effect m y a y') : y'.Pursued := by
  constructor
  · intro j hj hasked
    rcases heffect.asked hasked with hold | ⟨account, -, -, -, herrands⟩
    · rcases heffect.dispatching hj with hbefore | ⟨jobs, entries, hmem, hlog⟩
      · exact h.unasked j hbefore hold
      · rw [hlog, List.append_assoc] at hasked
        exact not_asked_of_taking hmem _ hasked
    · rw [herrands] at hj
      obtain ⟨k, tag, -, heq⟩ := Pool.of_mem_cancellings hj
      cases heq
  · intro k w hw j mail howes hasked tag htag
    rcases heffect.asked hasked with hold | ⟨account, -, known, hcrew, herrands⟩
    · cases heffect.came hw with
      | fresh =>
        have hnone := howes.mem_line
        cases hnone
      | kept before posts =>
        exact (h.pursued k w before j mail howes hold tag htag).imp_right (posts _)
      | @job w j' before errands =>
        rcases howes.of_post with ⟨mail', howes', rfl⟩ | ⟨hnew, -⟩
        · rcases h.pursued k w before j mail' howes' hold tag htag with hmail | hpost
          · exact Or.inl (List.mem_append_left _ hmail)
          · rw [errands] at hpost
            exact Or.inr ((List.mem_cons.mp hpost).resolve_left Errand.noConfusion)
        · cases hnew
          refine absurd hold (h.unasked j ?_)
          rw [errands]
          exact List.mem_cons_self
      | @signal w s before errands =>
        rcases howes.of_post with ⟨mail', howes', rfl⟩ | ⟨hnew, -⟩
        · rcases h.pursued k w before j mail' howes' hold tag htag with hmail | hpost
          · exact Or.inl (List.mem_append_left _ hmail)
          · rw [errands] at hpost
            rcases List.mem_cons.mp hpost with heq | hlater
            · cases heq
              exact Or.inl (List.mem_append_right _ (List.mem_singleton.mpr rfl))
            · exact Or.inr hlater
        · cases hnew
      | @step w r before step errands =>
        obtain ⟨j', mail', howes', hmanifest, htold⟩ := howes.of_turn (Worker.turn_of_step step)
        have htag' : j'.item.tag = some tag :=
          (congrArg (fun j : Job => j.item.tag) hmanifest).trans htag
        rw [errands]
        have hbefore := h.pursued k w before j' mail' howes' (hold.congr hmanifest.symm) tag htag'
        rcases htold with rfl | ⟨told, rfl, hgoesOn⟩
        · exact hbefore
        · refine hbefore.imp_left fun hmail => (List.mem_cons.mp hmail).resolve_left ?_
          -- The signal itself would have stopped the job.
          rintro rfl
          rw [Mail.tells, Item.inspect_of_stops (Item.stopState?_cancel htag')] at hgoesOn
          cases hgoesOn
    · -- The call sends the signal to every worker.
      rw [hcrew] at hw
      have hflight := mem_inFlight_of_line (List.mem_of_getElem? hw) howes.mem_line
      obtain ⟨account', tag', known', htag', hheld⟩ := hbooked.balanced.held hflight
      cases known.symm.trans known'
      cases htag.symm.trans htag'
      rw [herrands]
      refine Or.inr (List.mem_flatMap.mpr ⟨tag, hheld, List.mem_map.mpr ⟨k, ?_, rfl⟩⟩)
      exact List.mem_range.mpr (List.getElem?_eq_some_iff.mp hw).1

/-- What acts on a workshop in order keep is kept by a whole run, until the pool is dismissed. -/
theorem Booked.foldl {P : Workshop κ σ → Prop} {m : StorageManager σ}
    (hkeep : ∀ {y y' : Workshop κ σ} {a : Act κ σ},
      y.Booked → P y → Effect m y a y' → a ≠ .dismiss →
      P y')
    {y : Workshop κ σ} (hbooked : y.Booked) (hP : P y) (acts : List (Act κ σ)) :
    (acts.foldl (next m) y).Booked ∧ P (acts.foldl (next m) y) ∨
      (acts.foldl (next m) y).Deserted := by
  induction acts using List.reverseRecOn with
  | nil => exact Or.inl ⟨hbooked, hP⟩
  | append_singleton acts a ih =>
    have heffect := effect_next m (acts.foldl (next m) y) a
    rw [List.foldl_concat]
    rcases ih with ⟨hbooked, hP⟩ | hdeserted
    · by_cases hstays : a = .dismiss
      · subst hstays
        rcases heffect.eq_or_deserted with hsame | hdeserted
        · rw [hsame]
          exact Or.inl ⟨hbooked, hP⟩
        · exact Or.inr hdeserted
      · exact Or.inl ⟨hbooked.effect heffect hstays, hkeep hbooked hP heffect hstays⟩
    · exact Or.inr (hdeserted.effect heffect)

/-- In every run the books are in order and every job is pursued that is to be, until the pool is
dismissed. -/
theorem pursued_after (m : StorageManager σ) (settings : Settings) (loop : EventLoop)
    (ground : Surroundings σ) (acts : List (Act κ σ)) :
    (after m settings loop ground acts).Booked ∧ (after m settings loop ground acts).Pursued ∨
      (after m settings loop ground acts).Deserted := by
  refine (booked_create settings loop ground).foldl
    (fun hbooked hpursued heffect _ => Pursued.effect hpursued hbooked heffect) ⟨?_, ?_⟩ acts
  · intro j hj
    cases hj
  · intro k w hw
    cases hw

end Workshop

end Haulage
