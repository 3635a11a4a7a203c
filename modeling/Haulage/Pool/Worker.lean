import Haulage.Item.Attempt
import Haulage.Item.Checks
import Haulage.Pool.Error

/-!
# Workers

A worker takes the mail of its inbox in order. A job is checked, prepared and
run; signals that arrive meanwhile act on it. From the next queued job on, mail
belongs to that job too: it is deferred while the running item listens, and put
back in front of everything else when the item is finished.

`Worker.step` is one step of a worker, between any two of which the inbox may
grow and others may act. `Worker.step_progress` says that a worker left alone
comes to rest.
-/

namespace Haulage

open Disk (Path Tree)

/-- An item with the client that it belongs to. -/
structure Job where
  client : ClientId
  item : Item
  deriving Repr, DecidableEq

/-- What arrives in the inbox of a worker. -/
inductive Mail where
  | job (j : Job)
  | signal (s : Signal)
  deriving Repr, DecidableEq

/-- Is it a job? -/
def Mail.isJob : Mail → Bool
  | .job _ => true
  | .signal _ => false

/-- A job that is being run. -/
structure Running where
  client : ClientId
  attempt : Attempt
  /-- The mail from the next queued job on, in order of arrival. -/
  deferred : List Mail
  sawStop : Bool
  deriving Repr

/-- What a worker is doing. -/
inductive Duty where
  /-- It waits for mail. -/
  | idle
  /-- It has taken a job. -/
  | received (j : Job)
  /-- It has found the source of a job in order, and prepares the destination. -/
  | preparing (j : Job)
  /-- It runs a job. -/
  | running (r : Running)
  /-- It has ended. -/
  | gone
  deriving Repr

/-- A worker. The backlog holds mail that was taken from the inbox and put back. -/
structure Worker where
  inbox : List Mail
  backlog : List Mail
  duty : Duty
  deriving Repr

/-- The file tree and the storage manager's state, which all workers share. -/
structure Surroundings (σ : Type) where
  tree : Tree
  storage : σ
  deriving Repr

/-- A worker after a step, with the job that the step finished, if it finished one. -/
structure StepResult (σ : Type) where
  worker : Worker
  surroundings : Surroundings σ
  finished : Option Job
  deriving Repr

namespace Worker

/-- A worker with nothing to do. -/
def fresh : Worker := ⟨[], [], .idle⟩

/-- The worker with one more piece of mail. -/
def post (w : Worker) (m : Mail) : Worker := { w with inbox := w.inbox ++ [m] }

/-- The next mail: the backlog comes before the inbox. -/
def nextMail (w : Worker) : Option (Mail × Worker) :=
  match w.backlog with
  | m :: rest => some (m, { w with backlog := rest })
  | [] => match w.inbox with
    | m :: rest => some (m, { w with inbox := rest })
    | [] => none

/-- The next signal for a running job. Mail from a further job on is deferred; that job itself
shows as a signal. -/
def listen (w : Worker) (r : Running) : Signal × Running × Worker :=
  match w.nextMail with
  | none => (.none, r, w)
  | some (.job j, w') => (.newItem, { r with deferred := r.deferred ++ [.job j] }, w')
  | some (.signal s, w') =>
    (s,
      { r with
        deferred := if r.deferred.isEmpty then r.deferred else r.deferred ++ [.signal s]
        sawStop := r.sawStop || s = .stop }, w')

variable {σ : Type}

/-- The worker hands over a job that ended before it was run. -/
def reject (w : Worker) (g : Surroundings σ) (j : Job) (state : ItemState) : StepResult σ :=
  ⟨{ w with duty := .idle }, g, some { j with item := { j.item with state := state } }⟩

/-- The state of an item whose destination turned out unfit. -/
def unfit (i : Item) : ItemState :=
  if i.isAuto then .commonDestinationVanished else .destinationVanished

/-- The worker begins to run a job if its destination can be written. -/
def launch (buffer : BufferSize) (w : Worker) (g : Surroundings σ) (j : Job) : StepResult σ :=
  match j.item.checkDestination g.tree with
  | .error _ => w.reject g j (unfit j.item)
  | .ok () =>
    ⟨{ w with duty := .running ⟨j.client, .start j.item buffer, [], false⟩ }, g, none⟩

/-- The worker has a destination allocated where one is needed, and begins to run the job. It
waits while the storage manager keeps such requests waiting. -/
def prepare (m : StorageManager σ) (buffer : BufferSize) (w : Worker) (g : Surroundings σ)
    (j : Job) : Option (StepResult σ) :=
  match j.item.wish, j.item.destination with
  | some wish, none =>
    if m.busy g.storage wish.label then none
    else match j.item.prepare m g.storage g.tree with
      | (.error _, i, s, t) => some (w.reject ⟨t, s⟩ { j with item := i } .failed)
      | (.ok (), i, s, t) => some (w.launch buffer ⟨t, s⟩ { j with item := i })
  | _, _ => some (w.launch buffer g j)

/-- The worker closes a job whose attempt is over and puts the deferred mail back. -/
def close (w : Worker) (g : Surroundings σ) (r : Running) : StepResult σ :=
  let (i, t) :=
    if r.attempt.item.state = .done then r.attempt.item.finish g.tree
    else r.attempt.item.dropSession g.tree
  ⟨{ w with
      backlog := r.deferred ++ w.backlog
      duty := if r.sawStop then .gone else .idle },
    { g with tree := t }, some ⟨r.client, i⟩⟩

/-- One step of a running job. -/
def runStep (w : Worker) (g : Surroundings σ) (r : Running) : StepResult σ :=
  match r.attempt.stage with
  | .ended => w.close g r
  | .listening =>
    let (s, r', w') := w.listen r
    ⟨{ w' with duty := .running { r' with attempt := r.attempt.hear s } }, g, none⟩
  | .moving =>
    let (a, t) := r.attempt.move g.tree
    ⟨{ w with duty := .running { r with attempt := a } }, { g with tree := t }, none⟩

/-- One step of a worker. There is none while it waits, and none once it has ended. -/
def step (m : StorageManager σ) (buffer : BufferSize) (w : Worker) (g : Surroundings σ) :
    Option (StepResult σ) :=
  match w.duty with
  | .gone => none
  | .idle => match w.nextMail with
    | none => none
    | some (.job j, w') => some ⟨{ w' with duty := .received j }, g, none⟩
    | some (.signal s, w') =>
      some ⟨{ w' with duty := if s = .stop then .gone else .idle }, g, none⟩
  | .received j => match j.item.checkSource g.tree with
    | .error _ => some (w.reject g j .sourceVanished)
    | .ok () => some ⟨{ w with duty := .preparing j }, g, none⟩
  | .preparing j => w.prepare m buffer g j
  | .running r => some (w.runStep g r)

/-! ## Progress -/

/-- The jobs in hand, the deferred ones included. -/
def dutyJobs : Duty → Nat
  | .idle | .gone => 0
  | .received _ | .preparing _ => 1
  | .running r => r.deferred.countP Mail.isJob + 1

/-- The jobs that the worker has to finish. -/
def jobs (w : Worker) : Nat :=
  w.inbox.countP Mail.isJob + w.backlog.countP Mail.isJob + dutyJobs w.duty

/-- The rank of a duty; on the way of one job it goes down. -/
def dutyRank : Duty → Nat
  | .idle => 4
  | .received _ => 3
  | .preparing _ => 2
  | .running _ => 1
  | .gone => 0

/-- The mail not yet taken. -/
def unread (w : Worker) : Nat := w.inbox.length + w.backlog.length

/-- What is left of the attempt that is being made. -/
def attemptLeft (t : Tree) : Duty → Nat × (Nat × Nat × Nat × Nat) × Nat
  | .running r =>
    (if r.attempt.stage = .ended then 0 else 1, r.attempt.work t, Attempt.rank r.attempt.stage)
  | _ => (0, (0, 0, 0, 0), 0)

/-- What is left to do for a worker. -/
def left (w : Worker) (t : Tree) :
    Nat × Nat × Nat × Nat × (Nat × Nat × Nat × Nat) × Nat :=
  (w.jobs, dutyRank w.duty, w.unread, attemptLeft t w.duty)

/-- The order in which the progress of workers is measured. -/
abbrev Less : Nat × Nat × Nat × Nat × (Nat × Nat × Nat × Nat) × Nat →
    Nat × Nat × Nat × Nat × (Nat × Nat × Nat × Nat) × Nat → Prop :=
  Prod.Lex (· < ·) (Prod.Lex (· < ·) (Prod.Lex (· < ·)
    (Prod.Lex (· < ·) (Prod.Lex Attempt.Less (· < ·)))))

theorem less_of_jobs {w w' : Worker} {t t' : Tree} (h : w'.jobs < w.jobs) :
    Less (w'.left t') (w.left t) := Prod.Lex.left _ _ h

theorem less_of_rank {w w' : Worker} {t t' : Tree} (hj : w'.jobs = w.jobs)
    (h : dutyRank w'.duty < dutyRank w.duty) : Less (w'.left t') (w.left t) := by
  unfold left
  rw [hj]
  exact Prod.Lex.right _ (Prod.Lex.left _ _ h)

theorem less_of_unread {w w' : Worker} {t t' : Tree} (hj : w'.jobs = w.jobs)
    (hr : dutyRank w'.duty = dutyRank w.duty) (h : w'.unread < w.unread) :
    Less (w'.left t') (w.left t) := by
  unfold left
  rw [hj, hr]
  exact Prod.Lex.right _ (Prod.Lex.right _ (Prod.Lex.left _ _ h))

theorem less_of_attempt {w w' : Worker} {t t' : Tree} (hj : w'.jobs = w.jobs)
    (hr : dutyRank w'.duty = dutyRank w.duty) (hu : w'.unread = w.unread)
    (h : Prod.Lex (· < ·) (Prod.Lex Attempt.Less (· < ·)) (attemptLeft t' w'.duty)
      (attemptLeft t w.duty)) :
    Less (w'.left t') (w.left t) := by
  unfold left
  rw [hj, hr, hu]
  exact Prod.Lex.right _ (Prod.Lex.right _ (Prod.Lex.right _ h))

/-- Taking mail takes one piece, and leaves the duty alone. -/
theorem nextMail_spec {w w' : Worker} {m : Mail} (h : w.nextMail = some (m, w')) :
    w'.duty = w.duty ∧ w'.unread + 1 = w.unread ∧
      w'.inbox.countP Mail.isJob + w'.backlog.countP Mail.isJob +
        (if m.isJob then 1 else 0) =
      w.inbox.countP Mail.isJob + w.backlog.countP Mail.isJob := by
  unfold nextMail at h
  split at h
  · rename_i m' rest hb
    simp only [Option.some.injEq, Prod.mk.injEq] at h
    obtain ⟨hm, hw⟩ := h
    subst hm hw
    refine ⟨rfl, ?_, ?_⟩
    · simp only [unread, hb, List.length_cons]
      omega
    · simp only [hb, List.countP_cons]
      omega
  · rename_i hb
    split at h
    · rename_i m' rest hi
      simp only [Option.some.injEq, Prod.mk.injEq] at h
      obtain ⟨hm, hw⟩ := h
      subst hm hw
      refine ⟨rfl, ?_, ?_⟩
      · simp only [unread, hi, List.length_cons]
        omega
      · simp only [hi, List.countP_cons]
        omega
    · simp at h

theorem jobs_reject (w : Worker) (g : Surroundings σ) (j : Job) (s : ItemState) :
    (w.reject g j s).worker.jobs =
      w.inbox.countP Mail.isJob + w.backlog.countP Mail.isJob := by
  simp [reject, jobs, dutyJobs]

/-- Beginning to run a job is progress over preparing it. -/
theorem launch_progress {buffer : BufferSize} {w : Worker} {g : Surroundings σ} {j j' : Job}
    {t : Tree} (hd : w.duty = .preparing j') :
    Less ((w.launch buffer g j).worker.left (w.launch buffer g j).surroundings.tree)
      (w.left t) := by
  unfold launch
  split
  · apply less_of_jobs
    rw [jobs_reject]
    simp [jobs, dutyJobs, hd]
  · apply less_of_rank
    · simp [jobs, dutyJobs, hd]
    · simp [dutyRank, hd]

theorem prepare_progress {m : StorageManager σ} {buffer : BufferSize} {w : Worker}
    {g : Surroundings σ} {j : Job} {r : StepResult σ} (hd : w.duty = .preparing j)
    (h : w.prepare m buffer g j = some r) :
    Less (r.worker.left r.surroundings.tree) (w.left g.tree) := by
  unfold prepare at h
  split at h
  · split at h
    · simp at h
    · split at h
      · simp only [Option.some.injEq] at h
        subst h
        apply less_of_jobs
        rw [jobs_reject]
        simp [jobs, dutyJobs, hd]
      · simp only [Option.some.injEq] at h
        subst h
        exact launch_progress hd
  · simp only [Option.some.injEq] at h
    subst h
    exact launch_progress hd

/-- Listening takes mail, or finds that there is none. -/
theorem listen_progress {w : Worker} {g : Surroundings σ} {r : Running}
    (hd : w.duty = .running r) (hs : r.attempt.stage = .listening) :
    Less ((w.runStep g r).worker.left (w.runStep g r).surroundings.tree) (w.left g.tree) := by
  simp only [runStep, hs]
  unfold listen
  split
  · apply less_of_attempt
    · simp [jobs, dutyJobs, hd]
    · simp [dutyRank, hd]
    · simp [unread]
    · simp only [attemptLeft, hd, hs, Attempt.hear, if_true, Attempt.work, Attempt.rank]
      exact Prod.Lex.right _ (Prod.Lex.right _ (by decide))
  · rename_i j w' hn
    obtain ⟨-, hu, hc⟩ := nextMail_spec hn
    apply less_of_unread
    · simp only [jobs, dutyJobs, hd, List.countP_append, List.countP_cons, List.countP_nil] at hc ⊢
      simp only [Mail.isJob, if_true] at hc ⊢
      omega
    · simp [dutyRank, hd]
    · simp only [unread] at hu ⊢
      omega
  · rename_i s w' hn
    obtain ⟨-, hu, hc⟩ := nextMail_spec hn
    apply less_of_unread
    · have hcount : (if r.deferred.isEmpty then r.deferred
          else r.deferred ++ [Mail.signal s]).countP Mail.isJob = r.deferred.countP Mail.isJob := by
        split
        · rfl
        · simp [Mail.isJob]
      simp only [jobs, dutyJobs, hd, hcount] at hc ⊢
      simp only [Mail.isJob, Bool.false_eq_true, if_false] at hc
      omega
    · simp [dutyRank, hd]
    · simp only [unread] at hu ⊢
      omega

/-- Moving brings the attempt on. -/
theorem moving_progress {w : Worker} {g : Surroundings σ} {r : Running}
    (hd : w.duty = .running r) (hs : r.attempt.stage = .moving) :
    Less ((w.runStep g r).worker.left (w.runStep g r).surroundings.tree) (w.left g.tree) := by
  simp only [runStep, hs]
  apply less_of_attempt
  · simp [jobs, dutyJobs, hd]
  · simp [dutyRank, hd]
  · rfl
  · simp only [attemptLeft, hd, hs]
    rcases r.attempt.move_progress g.tree with hless | hover
    · by_cases ho : (r.attempt.move g.tree).1.stage = .ended
      · rw [if_pos ho]
        exact Prod.Lex.left _ _ (by decide)
      · rw [if_neg ho]
        exact Prod.Lex.right _ (Prod.Lex.left _ _ hless)
    · rw [if_pos hover]
      exact Prod.Lex.left _ _ (by decide)

theorem close_progress {w : Worker} {g : Surroundings σ} {r : Running} {t : Tree}
    (hd : w.duty = .running r) :
    Less ((w.close g r).worker.left (w.close g r).surroundings.tree) (w.left t) := by
  apply less_of_jobs
  have hzero : dutyJobs (if r.sawStop then .gone else .idle) = 0 := by
    split <;> rfl
  simp only [close, jobs, hd, List.countP_append]
  rw [hzero]
  simp only [dutyJobs]
  omega

/-- A step of a worker lowers what is left for it to do. -/
theorem step_progress {m : StorageManager σ} {buffer : BufferSize} {w : Worker}
    {g : Surroundings σ} {r : StepResult σ} (h : w.step m buffer g = some r) :
    Less (r.worker.left r.surroundings.tree) (w.left g.tree) := by
  unfold step at h
  split at h
  · simp at h
  · rename_i hd
    split at h
    · simp at h
    · rename_i j w' hn
      simp only [Option.some.injEq] at h
      subst h
      obtain ⟨-, -, hc⟩ := nextMail_spec hn
      apply less_of_rank
      · simp only [jobs, dutyJobs, hd, Mail.isJob, if_true] at hc ⊢
        omega
      · simp [dutyRank, hd]
    · rename_i s w' hn
      simp only [Option.some.injEq] at h
      subst h
      obtain ⟨-, hu, hc⟩ := nextMail_spec hn
      simp only [Mail.isJob, Bool.false_eq_true, if_false, Nat.add_zero] at hc
      by_cases hs : s = .stop
      · apply less_of_rank
        · simp [jobs, dutyJobs, hd, hs, hc]
        · simp [dutyRank, hd, hs]
      · apply less_of_unread
        · simp [jobs, dutyJobs, hd, hs, hc]
        · simp [dutyRank, hd, hs]
        · simp only [unread] at hu ⊢
          omega
  · rename_i j hd
    split at h
    · simp only [Option.some.injEq] at h
      subst h
      apply less_of_jobs
      rw [jobs_reject]
      simp [jobs, dutyJobs, hd]
    · simp only [Option.some.injEq] at h
      subst h
      apply less_of_rank
      · simp [jobs, dutyJobs, hd]
      · simp [dutyRank, hd]
  · rename_i j hd
    exact prepare_progress hd h
  · rename_i r' hd
    simp only [Option.some.injEq] at h
    subst h
    cases hs : r'.attempt.stage with
    | ended =>
      simp only [runStep, hs]
      exact close_progress hd
    | listening => exact listen_progress hd hs
    | moving => exact moving_progress hd hs

/-- Let the worker go on until it comes to rest, collecting the jobs that it finishes. -/
def settle (m : StorageManager σ) (buffer : BufferSize) (w : Worker) (g : Surroundings σ)
    (finished : List Job) : Worker × Surroundings σ × List Job :=
  match _h : w.step m buffer g with
  | none => (w, g, finished)
  | some r => settle m buffer r.worker r.surroundings (finished ++ r.finished.toList)
termination_by w.left g.tree
decreasing_by exact step_progress _h

end Worker

end Haulage
