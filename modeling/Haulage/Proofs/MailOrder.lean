import Haulage.Proofs.Turns
import Mathlib.Data.List.Induction

/-!
# The order of mail

A worker puts mail back that it took from its inbox while a job was running. The statement of this
file, `WorkerRun.inOrder_after`, says that nobody can tell: in every interleaving of the worker's
steps with new mail, jobs are begun and finished in the order in which they were posted, each is
told the mail behind it without gap or repetition, and whatever has not been told yet stays ahead of
every job that it was posted behind.

A run is a worker with the record of what happened to it. The record is kept by `WorkerRun.next`,
which does not look at where mail is stored. The proof relates the two: `WorkerRun.Standing` says
where in the posted mail the worker is, and every turn of the worker keeps it so.
-/

namespace Haulage

/-! ## Worker runs -/

/-- A job that a worker took up, with the mail that was handed out while it was run and the
signals that the job was told. -/
structure Round where
  job : Job
  heard : List Mail
  told : List Signal
  deriving Repr, DecidableEq

/-- A worker with the record of what happened to it: the mail that was posted to it, oldest first,
and the rounds it began and the jobs it finished, each with the latest first. -/
structure WorkerRun where
  worker : Worker
  posted : List Mail
  rounds : List Round
  finished : List Job
  deriving Repr

/-- What may happen next in a run. -/
inductive Happening (σ : Type) where
  /-- Mail is posted to the worker. -/
  | post (m : Mail)
  /-- The worker takes a step, in whatever surroundings it finds. -/
  | step (g : Surroundings σ)
  deriving Repr

namespace WorkerRun

variable {σ : Type}

/-- The beginning of a run. -/
def start : WorkerRun := ⟨.fresh, [], [], []⟩

/-- The rounds with one more piece of mail handed out in the current one. -/
def handOut (m : Mail) (s : Signal) : List Round → List Round
  | [] => []
  | round :: earlier =>
    { round with heard := round.heard ++ [m], told := round.told ++ [s] } :: earlier

/-- The rounds after the next step of the worker. An idle worker that takes a job begins a round,
and a running job that listens is handed the next mail, if there is any. -/
def roundsAfterStep (x : WorkerRun) : List Round :=
  match x.worker.duty, x.worker.nextMail with
  | .idle, some (.job j, _) => ⟨j, [], []⟩ :: x.rounds
  | .running r, some (m, _) =>
    if r.attempt.stage = .listening then handOut m (x.worker.listen r).1 x.rounds else x.rounds
  | _, _ => x.rounds

/-- The run after one more happening. -/
def next (m : StorageManager σ) (buffer : BufferSize) (x : WorkerRun) : Happening σ → WorkerRun
  | .post mail => { x with worker := x.worker.post mail, posted := x.posted ++ [mail] }
  | .step g => match x.worker.step m buffer g with
    | none => x
    | some r =>
      { x with
        worker := r.worker
        rounds := x.roundsAfterStep
        finished := r.finished.toList ++ x.finished }

/-- The run after some happenings. -/
def after (m : StorageManager σ) (buffer : BufferSize) (hs : List (Happening σ)) : WorkerRun :=
  hs.foldl (next m buffer) start

/-- The jobs that were begun, in the order in which they were. -/
def begun (rounds : List Round) : List Job := (rounds.map Round.job).reverse

/-- The mail that was posted to the worker and that a later job may still be told: what was
deferred, what was put back and what is in the inbox. -/
def ahead (x : WorkerRun) : List Mail := x.worker.duty.deferred ++ x.worker.queue

/-- The mail of a run is handled in order. -/
structure InOrder (x : WorkerRun) : Prop where
  /-- The jobs are begun in the order of the mail, each once and none left out. -/
  begun_isPrefix : begun x.rounds <+: jobsIn x.posted
  /-- They are finished in the same order; all that were begun are, but for the one in hand. -/
  finished_eq : x.finished.map Job.manifest =
    (x.rounds.drop x.worker.duty.job?.toList.length).map (·.job.manifest)
  /-- What is handed out while a job is run is a stretch of the mail directly behind that job. A
  queued job in it shows as such, a signal as itself. -/
  heard_segment : ∀ later round earlier, x.rounds = later ++ round :: earlier →
    ∃ before behind, x.posted = before ++ .job round.job :: (round.heard ++ behind) ∧
      jobsIn before = begun earlier ∧ round.told = round.heard.map Mail.tells
  /-- Between two jobs, the mail not yet taken is the end of the mail from somewhere in front of
  the first job that was not begun. -/
  queue_isSuffix : x.worker.duty.job? = none →
    ∃ before, x.posted = before ++ x.worker.queue ∧ jobsIn before = begun x.rounds
  /-- All mail behind a job that is not finished either was told to that job, which is then the
  one in hand, or is still ahead of it. -/
  behind_available : ∀ before j behind, x.posted = before ++ .job j :: behind →
    x.finished.length ≤ (jobsIn before).length →
    (∃ round earlier, x.rounds = round :: earlier ∧ round.job = j ∧
      begun earlier = jobsIn before ∧ behind = round.heard ++ x.worker.queue) ∨
    .job j :: behind <:+ x.ahead

/-! ## Where the worker is in the mail -/

/-- Every round was told a stretch of the mail directly behind its job. -/
def Placed (posted : List Mail) : List Round → Prop
  | [] => True
  | round :: earlier =>
    (∃ before behind, posted = before ++ .job round.job :: (round.heard ++ behind) ∧
      jobsIn before = begun earlier ∧ round.told = round.heard.map Mail.tells) ∧
    Placed posted earlier

/-- The worker has no job in hand, and has taken the mail `before` for good. -/
structure Between (x : WorkerRun) (before : List Mail) : Prop where
  posted_eq : x.posted = before ++ x.worker.queue
  jobsIn_before : jobsIn before = begun x.rounds
  finished_eq : x.finished.map Job.manifest = x.rounds.map (·.job.manifest)

/-- The worker has the job `j` in hand, which it took in the given round behind the mail
`before`. -/
structure InHand (x : WorkerRun) (j : Job) (before : List Mail) (round : Round)
    (earlier : List Round) : Prop where
  rounds_eq : x.rounds = round :: earlier
  posted_eq : x.posted = before ++ .job round.job :: (round.heard ++ x.worker.queue)
  jobsIn_before : jobsIn before = begun earlier
  told_eq : round.told = round.heard.map Mail.tells
  deferred_eq : x.worker.duty.deferred = round.heard.dropWhile (!·.isJob)
  manifest_eq : j.manifest = round.job.manifest
  finished_eq : x.finished.map Job.manifest = earlier.map (·.job.manifest)

/-- Where in the posted mail the worker is. -/
def Standing (x : WorkerRun) : Prop :=
  match x.worker.duty.job? with
  | none => ∃ before, Between x before
  | some j => ∃ before round earlier, InHand x j before round earlier

/-- The jobs begun with one more round. -/
@[simp] theorem begun_cons (round : Round) (earlier : List Round) :
    begun (round :: earlier) = begun earlier ++ [round.job] := by
  simp [begun]

/-- There are no jobs in front of the first job. -/
theorem jobsIn_takeWhile (mail : List Mail) : jobsIn (mail.takeWhile (!·.isJob)) = [] := by
  induction mail with
  | nil => rfl
  | cons m mail ih =>
    cases m with
    | job j => rfl
    | signal s => exact ih

/-- Deferring mail as it comes is the same as dropping what lies in front of the first job. -/
theorem deferring_dropWhile (heard : List Mail) (m : Mail) :
    deferring (heard.dropWhile (!·.isJob)) m = (heard ++ [m]).dropWhile (!·.isJob) := by
  rw [List.dropWhile_append]
  unfold deferring
  cases m with
  | job j =>
    cases heard.dropWhile (!·.isJob) with
    | nil => rfl
    | cons m rest => rfl
  | signal s =>
    cases heard.dropWhile (!·.isJob) with
    | nil => rfl
    | cons m rest => rfl

/-- A job with no fewer jobs in front of it than `before` holds lies behind `before`. -/
theorem isSuffix_of_jobsIn_le {before queue b behind : List Mail} {j : Job}
    (h : before ++ queue = b ++ .job j :: behind)
    (hle : (jobsIn before).length ≤ (jobsIn b).length) : .job j :: behind <:+ queue := by
  rcases List.append_eq_append_iff.mp h with ⟨gap, -, hq⟩ | ⟨gap, hb, hj⟩
  · exact ⟨gap, hq.symm⟩
  · cases gap with
    | nil => exact ⟨[], hj⟩
    | cons m gap =>
      obtain ⟨rfl, -⟩ := List.cons.inj hj
      rw [hb, jobsIn_append, jobsIn_job, List.length_append, List.length_cons] at hle
      omega

/-! ### New mail -/

/-- New mail leaves the stretches where they are. -/
theorem Placed.post {posted : List Mail} {rounds : List Round} (h : Placed posted rounds)
    (m : Mail) : Placed (posted ++ [m]) rounds := by
  induction rounds with
  | nil => trivial
  | cons round earlier ih =>
    obtain ⟨⟨before, behind, hposted, hjobs, htold⟩, hrest⟩ := h
    refine ⟨⟨before, behind ++ [m], ?_, hjobs, htold⟩, ih hrest⟩
    simp only [hposted, List.append_assoc, List.cons_append]

/-- New mail leaves the worker where it is. -/
theorem Standing.post {x : WorkerRun} (h : x.Standing) (m : Mail) :
    Standing { x with worker := x.worker.post m, posted := x.posted ++ [m] } := by
  unfold Standing at h ⊢
  change match x.worker.duty.job? with | none => _ | some j => _
  split at h
  · obtain ⟨before, h⟩ := h
    refine ⟨before, ?_, h.jobsIn_before, h.finished_eq⟩
    simp only [h.posted_eq, Worker.queue_post, List.append_assoc]
  · obtain ⟨before, round, earlier, h⟩ := h
    refine ⟨before, round, earlier, h.rounds_eq, ?_, h.jobsIn_before, h.told_eq, h.deferred_eq,
      h.manifest_eq, h.finished_eq⟩
    simp only [h.posted_eq, Worker.queue_post, List.append_assoc, List.cons_append]

/-! ### Steps of the worker -/

/-- A job that stays in hand may be changed, as long as its manifest is not. -/
theorem InHand.keep {x : WorkerRun} {j j' : Job} {before : List Mail} {round : Round}
    {earlier : List Round} (h : x.InHand j before round earlier) {w : Worker}
    (hq : w.queue = x.worker.queue) (hd : w.duty.deferred = x.worker.duty.deferred)
    (hm : j'.manifest = j.manifest) :
    InHand { x with worker := w } j' before round earlier where
  rounds_eq := h.rounds_eq
  posted_eq := by rw [h.posted_eq, hq]
  jobsIn_before := h.jobsIn_before
  told_eq := h.told_eq
  deferred_eq := hd.trans h.deferred_eq
  manifest_eq := hm.trans h.manifest_eq
  finished_eq := h.finished_eq

/-- A job in hand is finished by putting the deferred mail back in front of the queue. What was
heard in front of the first further job is then done with. -/
theorem InHand.putBack {x : WorkerRun} {j j' : Job} {before : List Mail} {round : Round}
    {earlier : List Round} (h : x.InHand j before round earlier) {w : Worker}
    (hq : w.queue = x.worker.duty.deferred ++ x.worker.queue) (hm : j'.manifest = j.manifest) :
    Between { x with worker := w, finished := j' :: x.finished }
      (before ++ .job round.job :: round.heard.takeWhile (!·.isJob)) where
  posted_eq := by
    have hheard : round.heard.takeWhile (!·.isJob) ++ x.worker.duty.deferred = round.heard := by
      rw [h.deferred_eq, List.takeWhile_append_dropWhile]
    simp only [h.posted_eq, hq, List.append_assoc, List.cons_append]
    rw [← List.append_assoc (round.heard.takeWhile _), hheard]
  jobsIn_before := by
    rw [jobsIn_append, jobsIn_job, jobsIn_takeWhile, h.jobsIn_before, h.rounds_eq, begun_cons]
  finished_eq := by
    simp only [List.map_cons, h.finished_eq, h.rounds_eq, hm, h.manifest_eq]

/-- Mail that a running job hears is handed out in the current round. -/
theorem InHand.hear {x : WorkerRun} {r : Running} {before : List Mail} {round : Round}
    {earlier : List Round} (h : x.InHand ⟨r.client, r.attempt.item⟩ before round earlier)
    (hd : x.worker.duty = .running r) {m : Mail} {w : Worker}
    (hn : x.worker.nextMail = some (m, w)) :
    InHand { x with
        worker := { w with duty := .running (r.told m) }
        rounds := handOut m m.tells x.rounds }
      ⟨r.client, (r.told m).attempt.item⟩ before
      { round with heard := round.heard ++ [m], told := round.told ++ [m.tells] } earlier where
  rounds_eq := by rw [h.rounds_eq]; rfl
  posted_eq := by
    rw [h.posted_eq, Worker.queue_of_nextMail hn]
    simp only [List.append_assoc, List.cons_append, List.nil_append]
    rfl
  jobsIn_before := h.jobsIn_before
  told_eq := by rw [h.told_eq, List.map_append]; rfl
  deferred_eq := by
    have hdeferred : r.deferred = round.heard.dropWhile (!·.isJob) := by
      rw [← h.deferred_eq, hd]
      rfl
    change deferring r.deferred m = _
    rw [hdeferred, deferring_dropWhile]
  manifest_eq := by
    rw [← h.manifest_eq]
    exact congrArg (Job.mk r.client) (r.attempt.manifest_hear m.tells)
  finished_eq := h.finished_eq

/-- A worker without a job in hand stands between two jobs. -/
theorem Standing.between {x : WorkerRun} (h : x.Standing) (hd : x.worker.duty.job? = none) :
    ∃ before, x.Between before := by
  unfold Standing at h
  rw [hd] at h
  exact h

/-- A worker with a job in hand stands behind that job. -/
theorem Standing.inHand {x : WorkerRun} {j : Job} (h : x.Standing)
    (hd : x.worker.duty.job? = some j) :
    ∃ before round earlier, x.InHand j before round earlier := by
  unfold Standing at h
  rw [hd] at h
  exact h

theorem Between.standing {x : WorkerRun} {before : List Mail} (h : x.Between before)
    (hd : x.worker.duty.job? = none) : x.Standing := by
  unfold Standing
  rw [hd]
  exact ⟨before, h⟩

theorem InHand.standing {x : WorkerRun} {j : Job} {before : List Mail} {round : Round}
    {earlier : List Round} (h : x.InHand j before round earlier)
    (hd : x.worker.duty.job? = some j) : x.Standing := by
  unfold Standing
  rw [hd]
  exact ⟨before, round, earlier, h⟩

/-- Where the worker is behind a job in hand, the rounds are placed if the earlier ones are. -/
theorem InHand.placed {x : WorkerRun} {j : Job} {before : List Mail} {round : Round}
    {earlier : List Round} (h : x.InHand j before round earlier)
    (hp : Placed x.posted earlier) : Placed x.posted x.rounds := by
  rw [h.rounds_eq]
  exact ⟨⟨before, x.worker.queue, h.posted_eq, h.jobsIn_before, h.told_eq⟩, hp⟩

/-- The record grows only where an idle worker takes a job or a running job listens. -/
theorem roundsAfterStep_eq_rounds {x : WorkerRun} (hidle : x.worker.duty ≠ .idle)
    (hlisten : ∀ r, x.worker.duty = .running r → r.attempt.stage ≠ .listening) :
    x.roundsAfterStep = x.rounds := by
  unfold roundsAfterStep
  split
  · rename_i hd _
    exact absurd hd hidle
  · rename_i r _ _ hd _
    exact if_neg (hlisten r hd)
  · rfl

/-- A step that leaves the job in hand where it is. -/
theorem Standing.keep {x : WorkerRun} {j j' : Job} (h : x.Standing) (hp : Placed x.posted x.rounds)
    (hj : x.worker.duty.job? = some j) {w : Worker} (hj' : w.duty.job? = some j')
    (hq : w.queue = x.worker.queue) (hd : w.duty.deferred = x.worker.duty.deferred)
    (hm : j'.manifest = j.manifest) (hr : x.roundsAfterStep = x.rounds) :
    Standing { x with worker := w, rounds := x.roundsAfterStep } ∧
      Placed x.posted x.roundsAfterStep := by
  obtain ⟨before, round, earlier, h⟩ := h.inHand hj
  rw [hr]
  exact ⟨(h.keep hq hd hm).standing hj', hp⟩

/-- A step that finishes the job in hand. -/
theorem Standing.putBack {x : WorkerRun} {j j' : Job} (h : x.Standing)
    (hp : Placed x.posted x.rounds) (hj : x.worker.duty.job? = some j) {w : Worker}
    (hw : w.duty.job? = none) (hq : w.queue = x.worker.duty.deferred ++ x.worker.queue)
    (hm : j'.manifest = j.manifest) (hr : x.roundsAfterStep = x.rounds) :
    Standing { x with
      worker := w, rounds := x.roundsAfterStep, finished := j' :: x.finished } ∧
      Placed x.posted x.roundsAfterStep := by
  obtain ⟨before, round, earlier, h⟩ := h.inHand hj
  rw [hr]
  exact ⟨(h.putBack hq hm).standing hw, hp⟩

/-- A step leaves the worker somewhere in the mail, with its rounds placed. -/
theorem Standing.step {m : StorageManager σ} {buffer : BufferSize} {x : WorkerRun}
    {g : Surroundings σ} {r : StepResult σ} (h : x.Standing) (hp : Placed x.posted x.rounds)
    (hr : x.worker.step m buffer g = some r) :
    Standing { x with
      worker := r.worker, rounds := x.roundsAfterStep,
      finished := r.finished.toList ++ x.finished } ∧
      Placed x.posted x.roundsAfterStep := by
  cases Worker.turn_of_step hr with
  | @pickUp j w duty next =>
    obtain ⟨before, h⟩ := h.between (by rw [duty]; rfl)
    have hrounds : x.roundsAfterStep = ⟨j, [], []⟩ :: x.rounds := by
      simp only [roundsAfterStep, duty, next]
    have hhand : InHand { x with
        worker := { w with duty := .received j }, rounds := ⟨j, [], []⟩ :: x.rounds }
        j before ⟨j, [], []⟩ x.rounds :=
      { rounds_eq := rfl
        posted_eq := by rw [h.posted_eq, Worker.queue_of_nextMail next]; rfl
        jobsIn_before := h.jobsIn_before
        told_eq := rfl
        deferred_eq := rfl
        manifest_eq := rfl
        finished_eq := h.finished_eq }
    rw [hrounds]
    exact ⟨hhand.standing rfl, hhand.placed hp⟩
  | @skip s w duty next =>
    obtain ⟨before, h⟩ := h.between (by rw [duty]; rfl)
    have hrounds : x.roundsAfterStep = x.rounds := by
      simp only [roundsAfterStep, duty, next]
    have hduty : Duty.job? (if s = .stop then .gone else .idle) = none := by
      split <;> rfl
    rw [hrounds]
    have hbetween : Between { x with
        worker := { w with duty := if s = .stop then .gone else .idle } }
        (before ++ [.signal s]) :=
      { posted_eq := by
          rw [h.posted_eq, Worker.queue_of_nextMail next, List.append_assoc]
          rfl
        jobsIn_before := by
          rw [jobsIn_append, h.jobsIn_before]
          exact List.append_nil _
        finished_eq := h.finished_eq }
    exact ⟨hbetween.standing hduty, hp⟩
  | @sourceMissing j e duty check =>
    refine h.putBack hp (j := j) (by rw [duty]; rfl) rfl ?_ rfl
      (roundsAfterStep_eq_rounds (by simp [duty]) (by simp [duty]))
    rw [duty]
    rfl
  | @sourceFound j duty check =>
    exact h.keep hp (j := j) (by rw [duty]; rfl) rfl rfl (by rw [duty]; rfl) rfl
      (roundsAfterStep_eq_rounds (by simp [duty]) (by simp [duty]))
  | @noAllocation j e i s t duty failed =>
    have hmanifest : i.manifest = j.item.manifest := by
      have hprep := j.item.manifest_prepare m g.storage g.tree
      rw [failed] at hprep
      exact hprep
    refine h.putBack hp (j := j) (by rw [duty]; rfl) rfl ?_ (congrArg (Job.mk j.client) hmanifest)
      (roundsAfterStep_eq_rounds (by simp [duty]) (by simp [duty]))
    rw [duty]
    rfl
  | @unfitDestination j i g' e duty ready check =>
    refine h.putBack hp (j := j) (by rw [duty]; rfl) rfl ?_
      (congrArg (Job.mk j.client) ready.manifest_eq)
      (roundsAfterStep_eq_rounds (by simp [duty]) (by simp [duty]))
    rw [duty]
    rfl
  | @launch j i g' duty ready check =>
    exact h.keep hp (j := j) (by rw [duty]; rfl) rfl rfl (by rw [duty]; rfl)
      (congrArg (Job.mk j.client) ready.manifest_eq)
      (roundsAfterStep_eq_rounds (by simp [duty]) (by simp [duty]))
  | @quiet r duty stage next =>
    have hrounds : x.roundsAfterStep = x.rounds := by
      simp only [roundsAfterStep, duty, next]
    exact h.keep hp (j := ⟨r.client, r.attempt.item⟩) (by rw [duty]; rfl) rfl rfl
      (by rw [duty]; rfl) (congrArg (Job.mk r.client) (r.attempt.manifest_hear .none)) hrounds
  | @hear r mail w duty stage next =>
    obtain ⟨before, round, earlier, h⟩ :=
      h.inHand (j := ⟨r.client, r.attempt.item⟩) (by rw [duty]; rfl)
    have hrounds : x.roundsAfterStep = handOut mail mail.tells x.rounds := by
      simp only [roundsAfterStep, duty, next, stage, if_true, Worker.listen_of_nextMail next]
    rw [h.rounds_eq] at hp
    have hhand := h.hear duty next
    rw [hrounds]
    exact ⟨hhand.standing rfl, hhand.placed hp.2⟩
  | @move r duty stage =>
    exact h.keep hp (j := ⟨r.client, r.attempt.item⟩) (by rw [duty]; rfl) rfl rfl
      (by rw [duty]; rfl) (congrArg (Job.mk r.client) (r.attempt.manifest_move g.tree))
      (roundsAfterStep_eq_rounds (by simp [duty]) (by simp [duty, stage]))
  | @close r duty stage =>
    obtain ⟨i, t, hclose, hmanifest, -⟩ := x.worker.close_eq g r
    have hduty : Duty.job? (if r.sawStop then .gone else .idle) = none := by
      split <;> rfl
    rw [hclose]
    refine h.putBack hp (j := ⟨r.client, r.attempt.item⟩) (by rw [duty]; rfl) hduty ?_
      (congrArg (Job.mk r.client) hmanifest)
      (roundsAfterStep_eq_rounds (by simp [duty]) (by simp [duty, stage]))
    rw [duty]
    exact List.append_assoc _ _ _

/-- Through a whole run the worker stands somewhere in the mail, with its rounds placed. -/
theorem standing_after (m : StorageManager σ) (buffer : BufferSize) (hs : List (Happening σ)) :
    (after m buffer hs).Standing ∧
      Placed (after m buffer hs).posted (after m buffer hs).rounds := by
  induction hs using List.reverseRecOn with
  | nil => exact ⟨⟨[], rfl, rfl, rfl⟩, trivial⟩
  | append_singleton hs a ih =>
    obtain ⟨hstanding, hplaced⟩ := ih
    have hafter : after m buffer (hs ++ [a]) = next m buffer (after m buffer hs) a := by
      simp only [after, List.foldl_append, List.foldl_cons, List.foldl_nil]
    rw [hafter]
    cases a with
    | post mail => exact ⟨hstanding.post mail, hplaced.post mail⟩
    | step g =>
      simp only [next]
      split
      · exact ⟨hstanding, hplaced⟩
      · rename_i r hr
        exact hstanding.step hplaced hr

/-! ## Order -/

/-- A placed round was told a stretch of the mail behind its job. -/
theorem Placed.split {posted : List Mail} {rounds later : List Round} {round : Round}
    {earlier : List Round} (h : Placed posted rounds) (hr : rounds = later ++ round :: earlier) :
    ∃ before behind, posted = before ++ .job round.job :: (round.heard ++ behind) ∧
      jobsIn before = begun earlier ∧ round.told = round.heard.map Mail.tells := by
  induction later generalizing rounds with
  | nil =>
    subst hr
    exact h.1
  | cons first later ih =>
    subst hr
    exact ih h.2 rfl

/-- The jobs begun are the first ones of the mail. -/
theorem Standing.begun_isPrefix {x : WorkerRun} (h : x.Standing) :
    begun x.rounds <+: jobsIn x.posted := by
  cases hj : x.worker.duty.job? with
  | none =>
    obtain ⟨before, h⟩ := h.between hj
    refine ⟨jobsIn x.worker.queue, ?_⟩
    rw [h.posted_eq, jobsIn_append, h.jobsIn_before]
  | some j =>
    obtain ⟨before, round, earlier, h⟩ := h.inHand hj
    refine ⟨jobsIn (round.heard ++ x.worker.queue), ?_⟩
    simp only [h.posted_eq, h.rounds_eq, jobsIn_append, jobsIn_job, h.jobsIn_before, begun_cons,
      List.append_assoc, List.cons_append, List.nil_append]

/-- The jobs finished are those begun, but for the one in hand. -/
theorem Standing.finished_eq {x : WorkerRun} (h : x.Standing) :
    x.finished.map Job.manifest =
      (x.rounds.drop x.worker.duty.job?.toList.length).map (·.job.manifest) := by
  cases hj : x.worker.duty.job? with
  | none =>
    obtain ⟨before, h⟩ := h.between hj
    exact h.finished_eq
  | some j =>
    obtain ⟨before, round, earlier, h⟩ := h.inHand hj
    rw [h.finished_eq, h.rounds_eq]
    rfl

/-- Behind a job in hand, the mail from the next job on is deferred or in the queue. -/
theorem InHand.ahead_eq {x : WorkerRun} {j : Job} {before : List Mail} {round : Round}
    {earlier : List Round} (h : x.InHand j before round earlier) :
    round.heard.takeWhile (!·.isJob) ++ x.ahead = round.heard ++ x.worker.queue := by
  rw [ahead, h.deferred_eq, ← List.append_assoc, List.takeWhile_append_dropWhile]

/-- The mail behind a job that is not finished was told to it or is ahead of it. -/
theorem Standing.behind_available {x : WorkerRun} (h : x.Standing) {before : List Mail} {j : Job}
    {behind : List Mail} (hposted : x.posted = before ++ .job j :: behind)
    (hlate : x.finished.length ≤ (jobsIn before).length) :
    (∃ round earlier, x.rounds = round :: earlier ∧ round.job = j ∧
      begun earlier = jobsIn before ∧ behind = round.heard ++ x.worker.queue) ∨
    .job j :: behind <:+ x.ahead := by
  cases hj : x.worker.duty.job? with
  | none =>
    obtain ⟨taken, h⟩ := h.between hj
    have hlen : x.finished.length = (jobsIn taken).length := by
      have hmap := congrArg List.length h.finished_eq
      rw [h.jobsIn_before, begun, List.length_reverse, List.length_map]
      simpa using hmap
    have hsuffix : .job j :: behind <:+ x.worker.queue :=
      isSuffix_of_jobsIn_le (h.posted_eq.symm.trans hposted) (hlen ▸ hlate)
    exact Or.inr (hsuffix.trans (List.suffix_append _ _))
  | some k =>
    obtain ⟨taken, round, earlier, h⟩ := h.inHand hj
    have hlen : x.finished.length = (jobsIn taken).length := by
      have hmap := congrArg List.length h.finished_eq
      rw [h.jobsIn_before, begun, List.length_reverse, List.length_map]
      simpa using hmap
    have hsuffix := isSuffix_of_jobsIn_le (h.posted_eq.symm.trans hposted) (hlen ▸ hlate)
    rcases List.suffix_cons_iff.mp hsuffix with heq | hlater
    · -- the job in question is the one in hand
      obtain ⟨hjob, hbehind⟩ := List.cons.inj heq
      have hbefore : taken = before := by
        have happend := h.posted_eq.symm.trans hposted
        rw [← heq] at happend
        exact List.append_cancel_right happend
      refine Or.inl ⟨round, earlier, h.rounds_eq, (Mail.job.inj hjob).symm, ?_, hbehind⟩
      rw [← h.jobsIn_before, hbefore]
    · -- it lies further behind, and there is no job in front of what was deferred
      obtain ⟨gap, hgap⟩ := hlater
      rw [← h.ahead_eq] at hgap
      refine Or.inr (isSuffix_of_jobsIn_le hgap.symm ?_)
      rw [jobsIn_takeWhile]
      exact Nat.zero_le _

/-- In every interleaving of new mail with the steps of a worker, whatever the worker finds
around it, the mail is handled in order. -/
theorem inOrder_after (m : StorageManager σ) (buffer : BufferSize) (hs : List (Happening σ)) :
    (after m buffer hs).InOrder := by
  obtain ⟨hstanding, hplaced⟩ := standing_after m buffer hs
  exact
    { begun_isPrefix := hstanding.begun_isPrefix
      finished_eq := hstanding.finished_eq
      heard_segment := fun later round earlier hr => hplaced.split hr
      queue_isSuffix := by
        intro hd
        obtain ⟨before, h⟩ := hstanding.between hd
        exact ⟨before, h.posted_eq, h.jobsIn_before⟩
      behind_available := fun before j behind hposted hlate =>
        hstanding.behind_available hposted hlate }

end WorkerRun

end Haulage
