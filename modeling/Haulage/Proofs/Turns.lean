import Haulage.Pool.Worker
import Haulage.Proofs.Notices

/-!
# Turns of a worker

`Worker.step` is one function. `Turn` says what one step can do, one constructor for each kind of
turn with the tests that lead to it, and `turn_of_step` that there is nothing else. Whatever is
proved about workers is proved by going through the turns.

Running an item changes how far it has come, but never what it is: its manifest stays the same
through every attempt.
-/

namespace Haulage

open Disk (Path Tree)

/-! ## The manifest of an item -/

/-- The item without what an attempt changes. What is left is the payload, the wish, the medium of
the source, the tag, and what the owner said about it. -/
def Item.manifest (i : Item) : Item :=
  { i with
    state := .waiting
    destination := none
    destinationPriority := .unset
    bytes := 0
    session := none }

/-- The job without what an attempt at its item changes. -/
def Job.manifest (j : Job) : Job := { j with item := j.item.manifest }

/-- Closing an item leaves its manifest alone. -/
@[simp] theorem Item.manifest_close (i : Item) (state : ItemState) :
    (i.close state).manifest = i.manifest := rfl

/-- A failure leaves the manifest alone. -/
@[simp] theorem Item.manifest_failWith (i : Item) (f : CopyFailure) :
    (i.failWith f).manifest = i.manifest := by
  rw [failWith_eq, manifest_close]

/-- Having a destination allocated leaves the manifest alone. -/
theorem Item.manifest_prepare {σ : Type} (m : StorageManager σ) (s : σ) (t : Tree) (i : Item) :
    (i.prepare m s t).2.1.manifest = i.manifest := by
  unfold Item.prepare
  split
  · rfl
  · split <;> rfl

/-- Giving up the copy under way leaves the manifest alone. -/
@[simp] theorem Item.manifest_dropSession (t : Tree) (i : Item) :
    (i.dropSession t).1.manifest = i.manifest := by
  unfold Item.dropSession
  split <;> rfl

/-- Closing the copy leaves the manifest alone. -/
@[simp] theorem Item.manifest_finish (t : Tree) (i : Item) :
    (i.finish t).1.manifest = i.manifest := by
  unfold Item.finish
  split
  · rfl
  · split
    · split <;> rfl
    · rfl

/-- Giving up the copy under way leaves the state alone. -/
theorem Item.state_dropSession (t : Tree) (i : Item) : (i.dropSession t).1.state = i.state := by
  unfold Item.dropSession
  split <;> rfl

/-- Closing the copy leaves the state alone, or finds that the item has failed after all. -/
theorem Item.state_finish (t : Tree) (i : Item) :
    (i.finish t).1.state = i.state ∨ (i.finish t).1.state = .failed := by
  unfold Item.finish
  split
  · exact Or.inl rfl
  · split
    · split
      · exact Or.inl rfl
      · exact Or.inr rfl
    · exact Or.inl rfl

/-- A failure leaves the copy alone and what was counted. -/
theorem Item.failWith_kept (f : CopyFailure) (i : Item) :
    (i.failWith f).session = i.session ∧ (i.failWith f).bytes = i.bytes := by
  rw [failWith_eq]
  exact ⟨rfl, rfl⟩

/-- No copy is open once the item was finished. -/
theorem Item.session_finish (t : Tree) (i : Item) : (i.finish t).1.session = none := by
  unfold finish
  split
  · assumption
  · split
    · split <;> rfl
    · rfl

/-- No copy is open once it was given up. -/
theorem Item.session_dropSession (t : Tree) (i : Item) : (i.dropSession t).1.session = none := by
  unfold dropSession
  split
  · assumption
  · rfl

namespace Attempt

/-- Hearing a signal leaves the manifest alone. -/
@[simp] theorem manifest_hear (a : Attempt) (s : Signal) :
    (a.hear s).item.manifest = a.item.manifest := by
  rcases a.hear_cases s with h | h | ⟨state, -, h⟩ <;> rw [h]
  exact a.item.manifest_close state

/-- Hearing a signal leaves the copy alone and what was counted. -/
theorem hear_kept (s : Signal) (a : Attempt) :
    (a.hear s).item.session = a.item.session ∧ (a.hear s).item.bytes = a.item.bytes := by
  rcases a.hear_cases s with h | h | ⟨state, -, h⟩ <;> rw [h] <;> exact ⟨rfl, rfl⟩

/-- A copy stays open when a chunk is moved, or cannot be. -/
theorem session_moveChunk (t : Tree) (a : Attempt) (s : Session) :
    (a.moveChunk t s).1.item.session ≠ none := by
  unfold moveChunk
  split
  · rename_i f s' _ _
    have hsession := (Item.failWith_kept f { a.item with session := some s' }).1
    simp [fail, hsession]
  · simp
  · simp

/-- A move that does not end the attempt leaves the copy open. -/
theorem session_move {t : Tree} {a : Attempt} (h : (a.move t).1.stage ≠ .ended) :
    (a.move t).1.item.session ≠ none := by
  unfold move at h ⊢
  split at h
  · unfold openSession at h ⊢
    split at h
    · exact absurd rfl h
    · split at h
      · exact absurd rfl h
      · simp
  · exact a.session_moveChunk t _

/-- A move leaves the manifest alone. -/
@[simp] theorem manifest_move (t : Tree) (a : Attempt) :
    (a.move t).1.item.manifest = a.item.manifest := by
  unfold move
  split
  · unfold openSession
    split
    · rfl
    · split
      · exact a.item.manifest_failWith _
      · rfl
  · rename_i s _
    unfold moveChunk
    split
    · rename_i f s' t' _
      exact Item.manifest_failWith { a.item with session := some s' } f
    · rfl
    · rfl

end Attempt

/-! ## The mail of a worker -/

/-- The job that a piece of mail is, if it is one. -/
def Mail.job? : Mail → Option Job
  | .job j => some j
  | .signal _ => none

/-- What a piece of mail tells a running job: a queued job shows as such, a signal as itself. -/
def Mail.tells : Mail → Signal
  | .job _ => .newItem
  | .signal s => s

/-- The jobs among some mail, in order. -/
def jobsIn (mail : List Mail) : List Job := mail.filterMap Mail.job?

@[simp] theorem jobsIn_nil : jobsIn [] = [] := rfl

@[simp] theorem jobsIn_job (j : Job) (mail : List Mail) :
    jobsIn (.job j :: mail) = j :: jobsIn mail := rfl

@[simp] theorem jobsIn_signal (s : Signal) (mail : List Mail) :
    jobsIn (.signal s :: mail) = jobsIn mail := rfl

@[simp] theorem jobsIn_append (mail mail' : List Mail) :
    jobsIn (mail ++ mail') = jobsIn mail ++ jobsIn mail' := List.filterMap_append

/-- The jobs among some mail are the mail that is a job. -/
theorem mem_jobsIn {mail : List Mail} {j : Job} : j ∈ jobsIn mail ↔ .job j ∈ mail := by
  induction mail with
  | nil => simp
  | cons m rest ih =>
    cases m with
    | job j' => simp [ih]
    | signal s => simp [ih]

/-- The job that a worker has in hand. -/
def Duty.job? : Duty → Option Job
  | .idle | .gone => none
  | .received j | .preparing j => some j
  | .running r => some ⟨r.client, r.attempt.item⟩

/-- The mail that is deferred while a job is run. -/
def Duty.deferred : Duty → List Mail
  | .running r => r.deferred
  | .idle | .gone | .received _ | .preparing _ => []

namespace Worker

/-- The mail that a worker has not taken yet, in the order in which it will. -/
def queue (w : Worker) : List Mail := w.backlog ++ w.inbox

/-- New mail comes last. -/
@[simp] theorem queue_post (w : Worker) (m : Mail) : (w.post m).queue = w.queue ++ [m] :=
  (List.append_assoc _ _ _).symm

/-- The mail taken next is the first of the queue. -/
theorem queue_of_nextMail {w w' : Worker} {m : Mail} (h : w.nextMail = some (m, w')) :
    w.queue = m :: w'.queue := by
  unfold nextMail at h
  split at h
  · rename_i rest hb
    cases h
    simp only [queue, hb, List.cons_append]
  · rename_i hb
    split at h
    · rename_i rest hi
      cases h
      simp only [queue, hb, hi, List.nil_append]
    · cases h

/-- Where there is no next mail the queue is empty. -/
theorem queue_of_nextMail_none {w : Worker} (h : w.nextMail = none) : w.queue = [] := by
  unfold nextMail at h
  split at h
  · cases h
  · rename_i hb
    split at h
    · cases h
    · rename_i hi
      rw [queue, hb, hi]
      rfl

end Worker

/-- The deferred mail with one more piece heard. Mail is deferred from the first job on. -/
def deferring (deferred : List Mail) (m : Mail) : List Mail :=
  if deferred.isEmpty && !m.isJob then [] else deferred ++ [m]

/-- The running job after it was told a piece of mail. -/
def Running.told (r : Running) (m : Mail) : Running :=
  { r with
    attempt := r.attempt.hear m.tells
    deferred := deferring r.deferred m
    sawStop := r.sawStop || m.tells = .stop }

namespace Worker

/-- A running job that listens is told the next mail. -/
theorem listen_of_nextMail {w w' : Worker} {r : Running} {m : Mail}
    (h : w.nextMail = some (m, w')) :
    w.listen r = (m.tells, { r with
      deferred := deferring r.deferred m
      sawStop := r.sawStop || m.tells = .stop }, w') := by
  unfold listen
  rw [h]
  cases m with
  | job j => simp [Mail.tells, deferring, Mail.isJob]
  | signal s =>
    have hdefer : deferring r.deferred (.signal s) =
        if r.deferred.isEmpty then r.deferred else r.deferred ++ [.signal s] := by
      cases hd : r.deferred with
      | nil => rfl
      | cons m rest => rfl
    rw [hdefer]
    rfl

/-- A running job that listens in vain is told so. -/
theorem listen_of_nextMail_none {w : Worker} {r : Running} (h : w.nextMail = none) :
    w.listen r = (.none, r, w) := by
  unfold listen
  rw [h]

/-! ## Turns -/

variable {σ : Type}

/-- The item of a job is ready to be run as `i` in the surroundings `g'`: either it needed no
destination, or one was allocated. -/
inductive Readied (m : StorageManager σ) (g : Surroundings σ) (j : Job) :
    Item → Surroundings σ → Prop
  | asIs : Readied m g j j.item g
  | allocated {i : Item} {s : σ} {t : Tree}
      (h : j.item.prepare m g.storage g.tree = (.ok (), i, s, t)) : Readied m g j i ⟨t, s⟩

/-- Getting an item ready leaves its manifest alone. -/
theorem Readied.manifest_eq {m : StorageManager σ} {g g' : Surroundings σ} {j : Job} {i : Item}
    (h : Readied m g j i g') : i.manifest = j.item.manifest := by
  cases h with
  | asIs => rfl
  | allocated h =>
    have hprep := j.item.manifest_prepare m g.storage g.tree
    rw [h] at hprep
    exact hprep

/-- Getting an item ready leaves an open copy alone. -/
theorem Readied.session_eq {m : StorageManager σ} {g g' : Surroundings σ} {j : Job} {i : Item}
    (h : Readied m g j i g') : i.session = j.item.session := by
  cases h with
  | asIs => rfl
  | allocated h =>
    unfold Item.prepare at h
    split at h
    · cases h
      rfl
    · split at h
      · cases h
      · cases h
        rfl

/-- What one step of a worker does. -/
inductive Turn (m : StorageManager σ) (buffer : BufferSize) (w : Worker) (g : Surroundings σ) :
    StepResult σ → Prop
  /-- An idle worker takes a job. -/
  | pickUp {j : Job} {w' : Worker} (duty : w.duty = .idle)
      (next : w.nextMail = some (.job j, w')) :
      Turn m buffer w g ⟨{ w' with duty := .received j }, g, none⟩
  /-- An idle worker takes a signal, and ends if that says so. -/
  | skip {s : Signal} {w' : Worker} (duty : w.duty = .idle)
      (next : w.nextMail = some (.signal s, w')) :
      Turn m buffer w g ⟨{ w' with duty := if s = .stop then .gone else .idle }, g, none⟩
  /-- The source of a job is not in order. -/
  | sourceMissing {j : Job} {e : ItemError} (duty : w.duty = .received j)
      (check : j.item.checkSource g.tree = .error e) :
      Turn m buffer w g (w.reject g j .sourceVanished)
  /-- The source of a job is in order. -/
  | sourceFound {j : Job} (duty : w.duty = .received j)
      (check : j.item.checkSource g.tree = .ok ()) :
      Turn m buffer w g ⟨{ w with duty := .preparing j }, g, none⟩
  /-- No destination can be allocated. -/
  | noAllocation {j : Job} {e : ItemError} {i : Item} {s : σ} {t : Tree}
      (duty : w.duty = .preparing j)
      (failed : j.item.prepare m g.storage g.tree = (.error e, i, s, t)) :
      Turn m buffer w g (w.reject ⟨t, s⟩ { j with item := i } .failed)
  /-- The destination cannot be written. -/
  | unfitDestination {j : Job} {i : Item} {g' : Surroundings σ} {e : ItemError}
      (duty : w.duty = .preparing j) (ready : Readied m g j i g')
      (check : i.checkDestination g'.tree = .error e) :
      Turn m buffer w g (w.reject g' { j with item := i } (unfit i))
  /-- The job begins to run. -/
  | launch {j : Job} {i : Item} {g' : Surroundings σ} (duty : w.duty = .preparing j)
      (ready : Readied m g j i g') (check : i.checkDestination g'.tree = .ok ()) :
      Turn m buffer w g
        ⟨{ w with duty := .running ⟨j.client, .start i buffer, [], false⟩ }, g', none⟩
  /-- The running job listens, and there is no mail. -/
  | quiet {r : Running} (duty : w.duty = .running r) (stage : r.attempt.stage = .listening)
      (next : w.nextMail = none) :
      Turn m buffer w g
        ⟨{ w with duty := .running { r with attempt := r.attempt.hear .none } }, g, none⟩
  /-- The running job listens, and is told the next mail. -/
  | hear {r : Running} {mail : Mail} {w' : Worker} (duty : w.duty = .running r)
      (stage : r.attempt.stage = .listening) (next : w.nextMail = some (mail, w')) :
      Turn m buffer w g ⟨{ w' with duty := .running (r.told mail) }, g, none⟩
  /-- The running job moves on. -/
  | move {r : Running} (duty : w.duty = .running r) (stage : r.attempt.stage = .moving) :
      Turn m buffer w g
        ⟨{ w with duty := .running { r with attempt := (r.attempt.move g.tree).1 } },
          { g with tree := (r.attempt.move g.tree).2 }, none⟩
  /-- The attempt is over, and the job is closed. -/
  | close {r : Running} (duty : w.duty = .running r) (stage : r.attempt.stage = .ended) :
      Turn m buffer w g (w.close g r)

/-- Closing a job gives back its item, in the state in which the attempt ended unless the output
could not be moved into place, and puts the deferred mail back. -/
theorem close_eq (w : Worker) (g : Surroundings σ) (r : Running) :
    ∃ i t, w.close g r =
        ⟨{ w with
            backlog := r.deferred ++ w.backlog
            duty := if r.sawStop then .gone else .idle },
          { g with tree := t }, some ⟨r.client, i⟩⟩ ∧
      i.manifest = r.attempt.item.manifest ∧
      (i.state = r.attempt.item.state ∨ i.state = .failed) := by
  unfold close
  split
  rename_i i t hclosed
  refine ⟨i, t, rfl, ?_⟩
  split at hclosed
  · have hmanifest := r.attempt.item.manifest_finish g.tree
    have hstate := r.attempt.item.state_finish g.tree
    rw [hclosed] at hmanifest hstate
    exact ⟨hmanifest, hstate⟩
  · have hmanifest := r.attempt.item.manifest_dropSession g.tree
    have hstate := r.attempt.item.state_dropSession g.tree
    rw [hclosed] at hmanifest hstate
    exact ⟨hmanifest, Or.inl hstate⟩

/-- Beginning to run a job is a turn. -/
theorem turn_launch {m : StorageManager σ} {buffer : BufferSize} {w : Worker}
    {g g' : Surroundings σ} {j : Job} {i : Item} (duty : w.duty = .preparing j)
    (ready : Readied m g j i g') : Turn m buffer w g (w.launch buffer g' { j with item := i }) := by
  unfold Worker.launch
  split
  · rename_i e hcheck
    exact Turn.unfitDestination (j := j) duty ready hcheck
  · rename_i hcheck
    exact Turn.launch (j := j) duty ready hcheck

/-- Preparing a job is a turn. -/
theorem turn_prepare {m : StorageManager σ} {buffer : BufferSize} {w : Worker}
    {g : Surroundings σ} {j : Job} {r : StepResult σ} (duty : w.duty = .preparing j)
    (h : w.prepare m buffer g j = some r) : Turn m buffer w g r := by
  unfold Worker.prepare at h
  split at h
  · split at h
    · cases h
    · split at h
      · rename_i hprep
        cases h
        exact Turn.noAllocation duty hprep
      · rename_i hprep
        cases h
        exact turn_launch duty (.allocated hprep)
  · cases h
    exact turn_launch duty .asIs

/-- A step of a running job is a turn. -/
theorem turn_runStep {m : StorageManager σ} {buffer : BufferSize} {w : Worker}
    {g : Surroundings σ} {r : Running} (duty : w.duty = .running r) :
    Turn m buffer w g (w.runStep g r) := by
  unfold runStep
  cases hs : r.attempt.stage with
  | ended => exact Turn.close duty hs
  | moving => exact Turn.move duty hs
  | listening =>
    cases hn : w.nextMail with
    | none =>
      rw [listen_of_nextMail_none hn]
      exact Turn.quiet duty hs hn
    | some x =>
      obtain ⟨mail, w'⟩ := x
      rw [listen_of_nextMail hn]
      exact Turn.hear duty hs hn

/-- Every step of a worker is one of the turns. -/
theorem turn_of_step {m : StorageManager σ} {buffer : BufferSize} {w : Worker}
    {g : Surroundings σ} {r : StepResult σ} (h : w.step m buffer g = some r) :
    Turn m buffer w g r := by
  unfold step at h
  split at h
  · cases h
  · rename_i hd
    split at h
    · cases h
    · rename_i hn
      cases h
      exact Turn.pickUp hd hn
    · rename_i hn
      cases h
      exact Turn.skip hd hn
  · rename_i j hd
    split at h
    · rename_i hcheck
      cases h
      exact Turn.sourceMissing hd hcheck
    · rename_i hcheck
      cases h
      exact Turn.sourceFound hd hcheck
  · rename_i j hd
    exact turn_prepare hd h
  · rename_i r' hd
    cases h
    exact turn_runStep hd

/-! ## The line of a worker -/

end Worker

/-- The mail without what attempts change. -/
def Mail.manifest : Mail → Mail
  | .job j => .job j.manifest
  | .signal s => .signal s

/-- The jobs among manifests are the manifests of the jobs. -/
@[simp] theorem jobsIn_map_manifest (mail : List Mail) :
    jobsIn (mail.map Mail.manifest) = (jobsIn mail).map Job.manifest := by
  induction mail with
  | nil => rfl
  | cons m rest ih =>
    cases m with
    | job j => simp [Mail.manifest, ih]
    | signal s => simp [Mail.manifest, ih]

/-- No job gets lost when mail is deferred. -/
theorem jobsIn_deferring (deferred : List Mail) (m : Mail) :
    jobsIn (deferring deferred m) = jobsIn deferred ++ jobsIn [m] := by
  unfold deferring
  split
  · rename_i hskip
    rw [Bool.and_eq_true, List.isEmpty_iff] at hskip
    cases m with
    | job j => cases hskip.2
    | signal s => simp [hskip.1]
  · exact jobsIn_append _ _

/-- Deferring mail keeps the order. -/
theorem deferring_sublist (deferred : List Mail) (m : Mail) :
    (deferring deferred m).Sublist (deferred ++ [m]) := by
  unfold deferring
  split
  · exact List.nil_sublist _
  · exact List.Sublist.refl _

namespace Worker

/-- All that a worker has: the job in hand, the mail deferred and the mail not yet taken, each job
as its manifest. -/
def line (w : Worker) : List Mail :=
  (w.duty.job?.toList.map Mail.job ++ w.duty.deferred ++ w.queue).map Mail.manifest

/-- A worker with nothing to do has an empty line. -/
@[simp] theorem line_fresh : fresh.line = [] := rfl

/-- New mail comes to the end of the line. -/
@[simp] theorem line_post (w : Worker) (m : Mail) : (w.post m).line = w.line ++ [m.manifest] := by
  unfold line
  rw [queue_post]
  change ((w.duty.job?.toList.map Mail.job ++ w.duty.deferred) ++ (w.queue ++ [m])).map _ = _
  rw [← List.append_assoc, List.map_append, List.map_singleton]

/-- The line of a worker that has no job in hand. -/
theorem line_of_free {w : Worker} (h : w.duty.job? = none) :
    w.line = w.queue.map Mail.manifest := by
  have hdeferred : w.duty.deferred = [] := by
    cases hd : w.duty with
    | running r =>
      rw [hd] at h
      cases h
    | idle | gone | received j | preparing j => rfl
  unfold line
  rw [h, hdeferred]
  rfl

/-- The line of a worker that has a job in hand. -/
theorem line_of_busy {w : Worker} {j : Job} (h : w.duty.job? = some j) :
    w.line = .job j.manifest :: (w.duty.deferred ++ w.queue).map Mail.manifest := by
  unfold line
  rw [h]
  rfl

/-- A worker that is idle or has ended has no job in hand. -/
theorem job?_ite_gone (b : Bool) : (if b then Duty.gone else Duty.idle).job? = none := by
  cases b <;> rfl

/-- What a step does to the line: signals may be taken out anywhere, and the job at the head leaves
it when it is finished. Nothing else happens. -/
theorem line_of_turn {σ : Type} {m : StorageManager σ} {buffer : BufferSize} {w : Worker}
    {g : Surroundings σ} {r : StepResult σ} (h : Turn m buffer w g r) :
    r.worker.line.Sublist w.line ∧
      r.finished.toList.map Job.manifest ++ jobsIn r.worker.line = jobsIn w.line := by
  -- A job that is handed over leaves the head of the line.
  have hrejected (j j' : Job) (w' : Worker) (hj : w.duty.job? = some j)
      (hfree : w'.duty.job? = none) (hqueue : w'.queue = w.duty.deferred ++ w.queue)
      (hmanifest : j'.manifest = j.manifest) :
      w'.line.Sublist w.line ∧ [j'].map Job.manifest ++ jobsIn w'.line = jobsIn w.line := by
    rw [line_of_busy hj, line_of_free hfree, hqueue]
    refine ⟨List.sublist_cons_self _ _, ?_⟩
    rw [jobsIn_job, List.map_singleton, hmanifest]
    rfl
  -- A job that stays in hand keeps the line as it is.
  have hkept (j j' : Job) (w' : Worker) (hj : w.duty.job? = some j)
      (hj' : w'.duty.job? = some j') (hdeferred : w'.duty.deferred = w.duty.deferred)
      (hqueue : w'.queue = w.queue) (hmanifest : j'.manifest = j.manifest) :
      w'.line.Sublist w.line ∧ [] ++ jobsIn w'.line = jobsIn w.line := by
    have hline : w'.line = w.line := by
      rw [line_of_busy hj, line_of_busy hj', hdeferred, hqueue, hmanifest]
    rw [hline]
    exact ⟨List.Sublist.refl _, rfl⟩
  cases h with
  | @pickUp j w' duty next =>
    have hline : ({ w' with duty := .received j } : Worker).line = w.line := by
      rw [line_of_busy (j := j) rfl, line_of_free (by rw [duty]; rfl), queue_of_nextMail next]
      rfl
    rw [hline]
    exact ⟨List.Sublist.refl _, rfl⟩
  | @skip s w' duty next =>
    have hline : w.line = .signal s :: w'.queue.map Mail.manifest := by
      rw [line_of_free (by rw [duty]; rfl), queue_of_nextMail next]
      rfl
    have hfree : ({ w' with duty := if s = .stop then .gone else .idle } : Worker).line =
        w'.queue.map Mail.manifest := by
      refine line_of_free ?_
      change (if s = .stop then Duty.gone else Duty.idle).job? = none
      split <;> rfl
    rw [hline, hfree]
    exact ⟨List.sublist_cons_self _ _, rfl⟩
  | @sourceMissing j e duty check =>
    exact hrejected j _ _ (by rw [duty]; rfl) rfl (by rw [duty]; rfl) rfl
  | @sourceFound j duty check =>
    exact hkept j j _ (by rw [duty]; rfl) rfl (by rw [duty]; rfl) rfl rfl
  | @noAllocation j e i s t duty failed =>
    have hmanifest : i.manifest = j.item.manifest := by
      have hprep := j.item.manifest_prepare m g.storage g.tree
      rw [failed] at hprep
      exact hprep
    exact hrejected j _ _ (by rw [duty]; rfl) rfl (by rw [duty]; rfl)
      (congrArg (Job.mk j.client) hmanifest)
  | @unfitDestination j i g' e duty ready check =>
    exact hrejected j _ _ (by rw [duty]; rfl) rfl (by rw [duty]; rfl)
      (congrArg (Job.mk j.client) ready.manifest_eq)
  | @launch j i g' duty ready check =>
    exact hkept j ⟨j.client, { i with state := .ongoing }⟩ _ (by rw [duty]; rfl) rfl
      (by rw [duty]; rfl) rfl (congrArg (Job.mk j.client) ready.manifest_eq)
  | @quiet r duty stage next =>
    exact hkept ⟨r.client, r.attempt.item⟩ _ _ (by rw [duty]; rfl) rfl (by rw [duty]; rfl) rfl
      (congrArg (Job.mk r.client) (r.attempt.manifest_hear .none))
  | @hear r mail w' duty stage next =>
    have hmanifest : Job.manifest ⟨r.client, (r.attempt.hear mail.tells).item⟩ =
        Job.manifest ⟨r.client, r.attempt.item⟩ :=
      congrArg (Job.mk r.client) (r.attempt.manifest_hear mail.tells)
    have hbefore : w.line = .job (Job.manifest ⟨r.client, r.attempt.item⟩) ::
        ((r.deferred ++ [mail]) ++ w'.queue).map Mail.manifest := by
      rw [line_of_busy (j := ⟨r.client, r.attempt.item⟩) (by rw [duty]; rfl), duty,
        queue_of_nextMail next, List.append_assoc]
      rfl
    have hafter : ({ w' with duty := .running (r.told mail) } : Worker).line =
        .job (Job.manifest ⟨r.client, r.attempt.item⟩) ::
          (deferring r.deferred mail ++ w'.queue).map Mail.manifest :=
      (line_of_busy (j := ⟨r.client, (r.attempt.hear mail.tells).item⟩) rfl).trans
        (by rw [hmanifest]; rfl)
    rw [hbefore, hafter]
    constructor
    · exact (((deferring_sublist _ _).append_right _).map _).cons_cons _
    · simp only [jobsIn_job, jobsIn_map_manifest, jobsIn_append, jobsIn_deferring]
      rfl
  | @move r duty stage =>
    exact hkept ⟨r.client, r.attempt.item⟩ _ _ (by rw [duty]; rfl) rfl (by rw [duty]; rfl) rfl
      (congrArg (Job.mk r.client) (r.attempt.manifest_move g.tree))
  | @close r duty stage =>
    obtain ⟨i, t, hclose, hmanifest, -⟩ := w.close_eq g r
    rw [hclose]
    refine hrejected ⟨r.client, r.attempt.item⟩ ⟨r.client, i⟩ _ (by rw [duty]; rfl)
      (job?_ite_gone r.sawStop) ?_ (congrArg (Job.mk r.client) hmanifest)
    rw [duty]
    exact List.append_assoc _ _ _

end Worker

end Haulage
