import Haulage.Proofs.Operations
import Haulage.Proofs.Pursuit

/-!
# Cancelling in time

Asking for an item to be cancelled is effective as long as nothing of it was moved.
`Workshop.cancelsInTime_after` says so for every run of a workshop: a job that is not yet taken, or
checked, or listens for the first time, comes to an end without anything being moved for it. It ends
up cancelled, or in the state of what stopped it even before, or it stays where it is because the
pool is shut down.

A `Recall` is such a job together with the mail that its worker still tells it before the signal to
cancel. `Worker.Recalled` says what a worker may have to do with the job: at any time the signal is
among the mail to come and only early mail is in front of it, or the attempt is over.
-/

namespace Haulage

/-- A job that is called back by a signal to cancel its tag, and the mail that comes to it before
that signal. -/
structure Recall where
  job : Job
  tag : Tag
  carried : job.item.tag = some tag
  early : List Mail
  candid : .signal .none ∉ early

/-! ## Attempts cut short -/

/-- An item that a signal stops is not done. -/
theorem Item.state_ne_done_of_stops {s : Signal} {i : Item} (h : (i.inspect s).1 = false) :
    (i.inspect s).2.state ≠ .done := by
  cases hstop : i.stopState? s with
  | none =>
    rw [inspect_fst_iff.mpr hstop] at h
    cases h
  | some state =>
    rw [inspect_of_stops hstop]
    exact (stopState_spec hstop).2

/-- The signal to cancel the tag of its item ends an attempt. -/
theorem Attempt.stage_hear_cancel {a : Attempt} {tag : Tag} (h : a.item.tag = some tag) :
    (a.hear (.cancel tag)).stage = .ended := by
  rw [hear_of_stops (Item.stopState?_cancel h)]

namespace Recall

variable {σ : Type}

/-- Is it the job that is called back, as far as attempts do not change it? -/
def Concerns (c : Recall) (j : Job) : Prop := j.manifest = c.job.manifest

/-- The states in which an attempt at the job may end before anything is moved. What the job was
checked against was `seen`. -/
inductive CutShort (c : Recall) (m : StorageManager σ) (seen : Surroundings σ → Prop) :
    ItemState → Prop
  /-- It was cancelled. -/
  | cancelled : CutShort c m seen .cancelled
  /-- An earlier signal stopped it. -/
  | stopped {s : Signal} {i : Item} (told : .signal s ∈ c.early)
      (manifest : i.manifest = c.job.item.manifest) (stops : (i.inspect s).1 = false) :
      CutShort c m seen (i.inspect s).2.state
  /-- Its source was not in order. -/
  | sourceMissing {g : Surroundings σ} {e : ItemError} (there : seen g)
      (check : c.job.item.checkSource g.tree = .error e) : CutShort c m seen .sourceVanished
  /-- No destination could be allocated. -/
  | noAllocation {g : Surroundings σ} {e : ItemError} {i : Item} {s : σ} {t : Disk.Tree}
      (there : seen g) (failed : c.job.item.prepare m g.storage g.tree = (.error e, i, s, t)) :
      CutShort c m seen .failed
  /-- Its destination could not be written. -/
  | unfitDestination {g g' : Surroundings σ} {e : ItemError} {i : Item} (there : seen g)
      (ready : Worker.Readied m g c.job i g') (check : i.checkDestination g'.tree = .error e) :
      CutShort c m seen (Worker.unfit i)

/-- An attempt that was cut short is not done. -/
theorem CutShort.ne_done {c : Recall} {m : StorageManager σ} {seen : Surroundings σ → Prop}
    {state : ItemState} (h : c.CutShort m seen state) : state ≠ .done := by
  cases h with
  | cancelled => exact ItemState.noConfusion
  | stopped told manifest stops => exact Item.state_ne_done_of_stops stops
  | sourceMissing there check => exact ItemState.noConfusion
  | noAllocation there failed => exact ItemState.noConfusion
  | unfitDestination there ready check =>
    unfold Worker.unfit
    split <;> exact ItemState.noConfusion

/-- What a step on behalf of the job may do to the surroundings. -/
inductive Spared (c : Recall) (m : StorageManager σ) (g g' : Surroundings σ) : Prop
  /-- The file tree stays as it is. -/
  | untouched (tree : g'.tree = g.tree)
  /-- The storage manager allocates a destination, or tries to. -/
  | allocated {x : Except ItemError Unit} {i : Item}
      (prepared : c.job.item.prepare m g.storage g.tree = (x, i, g'.storage, g'.tree))
  /-- A copy that was open already when the job was called back is given up. -/
  | abandoned {s : Session} (session : c.job.item.session = some s)
      (tree : g'.tree = s.abandon g.tree)

/-- The signal is to come, and of the mail in front of it all is early. -/
def Due (c : Recall) (mail : List Mail) : Prop :=
  ∃ ahead behind, mail = ahead ++ .signal (.cancel c.tag) :: behind ∧ ahead <:+ c.early

/-- New mail comes behind the signal. -/
theorem Due.concat {c : Recall} {mail : List Mail} (h : c.Due mail) (m : Mail) :
    c.Due (mail ++ [m]) := by
  obtain ⟨ahead, behind, rfl, hearly⟩ := h
  exact ⟨ahead, behind ++ [m], by simp, hearly⟩

/-- The signal is among the mail. -/
theorem Due.mem {c : Recall} {mail : List Mail} (h : c.Due mail) :
    .signal (.cancel c.tag) ∈ mail := by
  obtain ⟨ahead, behind, rfl, -⟩ := h
  exact List.mem_append_right _ List.mem_cons_self

/-- The next mail is the signal, or early and not the last before it. -/
theorem Due.cons {c : Recall} {m : Mail} {mail : List Mail} (h : c.Due (m :: mail)) :
    m = .signal (.cancel c.tag) ∨ m ∈ c.early ∧ c.Due mail := by
  obtain ⟨ahead, behind, hsplit, hearly⟩ := h
  cases ahead with
  | nil => exact Or.inl (List.cons.inj hsplit).1
  | cons x ahead =>
    obtain ⟨rfl, hmail⟩ := List.cons.inj hsplit
    refine Or.inr ⟨hearly.subset List.mem_cons_self, ahead, behind, hmail, ?_⟩
    exact (List.suffix_cons _ _).trans hearly

/-- The early mail is as much as there can be in front of the signal. -/
theorem Due.idxOf_le {c : Recall} {mail : List Mail} (h : c.Due mail) :
    mail.idxOf (.signal (.cancel c.tag)) ≤ c.early.length := by
  obtain ⟨ahead, behind, rfl, hearly⟩ := h
  refine le_trans ?_ hearly.length_le
  rw [List.idxOf_append]
  split
  · exact List.idxOf_le_length
  · rw [List.idxOf_cons_self, Nat.zero_add]

/-- What a worker that has the job in hand may be doing, with this mail to come. -/
inductive Stays (c : Recall) (m : StorageManager σ) (seen : Surroundings σ → Prop)
    (mail : List Mail) : Duty → Prop
  /-- The job is to be checked. -/
  | received (due : c.Due mail) : Stays c m seen mail (.received c.job)
  /-- The job is to be prepared. -/
  | preparing (due : c.Due mail) : Stays c m seen mail (.preparing c.job)
  /-- The job listens. -/
  | listening {r : Running} (stage : r.attempt.stage = .listening)
      (session : r.attempt.item.session = c.job.item.session) (due : c.Due mail) :
      Stays c m seen mail (.running r)
  /-- The attempt was cut short. -/
  | ended {r : Running} (stage : r.attempt.stage = .ended)
      (session : r.attempt.item.session = c.job.item.session)
      (cut : c.CutShort m seen r.attempt.item.state) : Stays c m seen mail (.running r)

/-- New mail changes nothing. -/
theorem Stays.concat {c : Recall} {m : StorageManager σ} {seen : Surroundings σ → Prop}
    {mail : List Mail} {d : Duty} (h : c.Stays m seen mail d) (m' : Mail) :
    c.Stays m seen (mail ++ [m']) d := by
  cases h with
  | received due => exact Stays.received (due.concat m')
  | preparing due => exact Stays.preparing (due.concat m')
  | listening stage session due => exact Stays.listening stage session (due.concat m')
  | ended stage session cut => exact Stays.ended stage session cut

end Recall

/-! ## Workers -/

/-- Whatever the worker has to do with the job called back, the signal is to come in time, or
the attempt was cut short. -/
structure Worker.Recalled {σ : Type} (c : Recall) (m : StorageManager σ)
    (seen : Surroundings σ → Prop) (w : Worker) : Prop where
  waiting : ∀ before j mail, w.rest = before ++ .job j :: mail → c.Concerns j →
    j = c.job ∧ c.Due mail
  inHand : ∀ j, w.duty.job? = some j → c.Concerns j → c.Stays m seen w.queue w.duty

/-- Closing a job that is not done gives up the copy that is open. -/
theorem Worker.close_of_ne_done {σ : Type} (w : Worker) (g : Surroundings σ) {r : Running}
    (h : r.attempt.item.state ≠ .done) :
    w.close g r =
      ⟨{ w with
          backlog := r.deferred ++ w.backlog
          duty := if r.sawStop then .gone else .idle },
        { g with tree := (r.attempt.item.dropSession g.tree).2 },
        some ⟨r.client, (r.attempt.item.dropSession g.tree).1⟩⟩ := by
  unfold Worker.close
  rw [if_neg h]

/-- How many steps the worker takes until the job in hand is finished, at most, if the signal to
cancel its tag is among the mail to come. -/
def Worker.toGo (tag : Tag) (w : Worker) : ℕ :=
  match w.duty with
  | .idle | .gone => 0
  | .received _ => w.queue.idxOf (.signal (.cancel tag)) + 3
  | .preparing _ => w.queue.idxOf (.signal (.cancel tag)) + 2
  | .running r =>
    if r.attempt.stage = .ended then 0 else w.queue.idxOf (.signal (.cancel tag)) + 1

namespace Worker.Recalled

open Recall

variable {σ : Type} {c : Recall} {m : StorageManager σ} {seen : Surroundings σ → Prop} {w : Worker}

/-- A new worker has nothing to do with the job. -/
theorem fresh : Worker.fresh.Recalled c m seen := by
  constructor
  · intro before j mail hrest
    exact absurd hrest (by simp [rest, queue, Worker.fresh, Duty.deferred])
  · intro j hj
    cases hj

/-- New mail other than the job changes nothing. -/
theorem post (h : w.Recalled c m seen) {new : Mail} (hnew : ∀ j, new = .job j → ¬ c.Concerns j) :
    (w.post new).Recalled c m seen := by
  constructor
  · intro before j mail hrest hj
    rw [rest_post] at hrest
    rcases eq_append_cons_of_concat hrest with ⟨mail', hold, rfl⟩ | ⟨hjob, -⟩
    · obtain ⟨hsame, hdue⟩ := h.waiting before j mail' hold hj
      exact ⟨hsame, hdue.concat new⟩
    · exact absurd hj (hnew j hjob)
  · intro j hj hconcerns
    rw [queue_post]
    exact (h.inHand j hj hconcerns).concat new

/-- A job that is to be checked is the one called back, and the signal is to come. -/
theorem of_checking (h : w.Recalled c m seen) {j : Job}
    (duty : w.duty = .received j ∨ w.duty = .preparing j) (concerns : c.Concerns j) :
    j = c.job ∧ c.Due w.queue := by
  rcases duty with hd | hd
  · have hstays := h.inHand j (by rw [hd]; rfl) concerns
    rw [hd] at hstays
    cases hstays with
    | received due => exact ⟨rfl, due⟩
  · have hstays := h.inHand j (by rw [hd]; rfl) concerns
    rw [hd] at hstays
    cases hstays with
    | preparing due => exact ⟨rfl, due⟩

/-- A running job listens, and the signal is to come, or its attempt was cut short. -/
theorem of_running (h : w.Recalled c m seen) {r : Running} (duty : w.duty = .running r)
    (concerns : c.Concerns ⟨r.client, r.attempt.item⟩) :
    r.attempt.item.session = c.job.item.session ∧
      (r.attempt.stage = .listening ∧ c.Due w.queue ∨
        r.attempt.stage = .ended ∧ c.CutShort m seen r.attempt.item.state) := by
  have hstays := h.inHand ⟨r.client, r.attempt.item⟩ (by rw [duty]; rfl) concerns
  rw [duty] at hstays
  cases hstays with
  | listening stage session due => exact ⟨session, Or.inl ⟨stage, due⟩⟩
  | ended stage session cut => exact ⟨session, Or.inr ⟨stage, cut⟩⟩

/-- Nothing is moved for the job. -/
theorem not_moving (h : w.Recalled c m seen) {r : Running} (duty : w.duty = .running r)
    (concerns : c.Concerns ⟨r.client, r.attempt.item⟩) : r.attempt.stage ≠ .moving := by
  obtain ⟨-, ⟨stage, -⟩ | ⟨stage, -⟩⟩ := h.of_running duty concerns
  · rw [stage]
    exact Stage.noConfusion
  · rw [stage]
    exact Stage.noConfusion

/-- A job that listens while the signal is to come goes on, or its attempt is cut short. -/
theorem stays_of_told {r : Running} {mail : List Mail} {new : Mail}
    (concerns : c.Concerns ⟨r.client, r.attempt.item⟩) (stage : r.attempt.stage = .listening)
    (session : r.attempt.item.session = c.job.item.session) (due : c.Due (new :: mail)) :
    c.Stays m seen mail (.running (r.told new)) := by
  have hitem : r.attempt.item.manifest = c.job.item.manifest := (Job.mk.inj concerns).2
  have htag : r.attempt.item.tag = some c.tag :=
    (congrArg Item.tag hitem).trans c.carried
  -- Whatever stops the item, its attempt was cut short.
  have hended {state : ItemState} (hstop : r.attempt.item.stopState? new.tells = some state)
      (hcut : c.CutShort m seen state) : c.Stays m seen mail (.running (r.told new)) := by
    have hhear : (r.told new).attempt =
        { r.attempt with item := r.attempt.item.close state, stage := .ended } :=
      Attempt.hear_of_stops hstop
    refine Stays.ended ?_ ?_ ?_
    · rw [hhear]
    · rw [hhear]
      exact session
    · rw [hhear]
      exact hcut
  rcases due.cons with rfl | ⟨hearly, hdue⟩
  · -- The signal cancels the item.
    exact hended (Item.stopState?_cancel htag) CutShort.cancelled
  · -- Early mail may stop the item before.
    cases hstop : r.attempt.item.stopState? new.tells with
    | some state =>
      refine hended hstop ?_
      cases new with
      | job j => cases hstop
      | signal s =>
        have hinspect : r.attempt.item.inspect s = (false, r.attempt.item.close state) :=
          Item.inspect_of_stops hstop
        have hcut : c.CutShort m seen (r.attempt.item.inspect s).2.state :=
          CutShort.stopped hearly hitem (congrArg Prod.fst hinspect)
        rw [hinspect] at hcut
        exact hcut
    | none =>
      have htells : new.tells ≠ .none := by
        intro hnone
        cases new with
        | job j => cases hnone
        | signal s =>
          rw [show s = .none from hnone] at hearly
          exact c.candid hearly
      have hhear : (r.told new).attempt = r.attempt := Attempt.hear_of_ignored hstop htells
      refine Stays.listening ?_ ?_ hdue
      · rw [hhear]
        exact stage
      · rw [hhear]
        exact session

/-- A worker that takes a step stays as it should be. -/
theorem turn {buffer : BufferSize} {g : Surroundings σ} {r : StepResult σ}
    (h : w.Recalled c m seen) (hturn : Turn m buffer w g r) : r.worker.Recalled c m seen := by
  constructor
  · intro before j mail hrest
    obtain ⟨taken, htaken⟩ := rest_of_turn hturn
    refine h.waiting (taken ++ before) j mail ?_
    rw [← htaken, hrest, List.append_assoc]
  · intro j hj hconcerns
    cases hturn with
    | @pickUp j' w' duty next =>
      cases hj
      have hrest : w.rest = [] ++ .job j :: w'.queue := by
        unfold rest
        rw [duty, queue_of_nextMail next]
        rfl
      obtain ⟨rfl, hdue⟩ := h.waiting [] j w'.queue hrest hconcerns
      exact Stays.received hdue
    | @skip s w' duty next =>
      change (if s = .stop then Duty.gone else .idle).job? = some j at hj
      split at hj <;> cases hj
    | sourceMissing duty check => cases hj
    | sourceFound duty check =>
      cases hj
      obtain ⟨rfl, hdue⟩ := h.of_checking (Or.inl duty) hconcerns
      exact Stays.preparing hdue
    | noAllocation duty failed => cases hj
    | unfitDestination duty ready check => cases hj
    | @launch j' i g' duty ready check =>
      cases hj
      have hmanifest : Job.manifest ⟨j'.client, i⟩ = j'.manifest :=
        congrArg (Job.mk j'.client) ready.manifest_eq
      obtain ⟨rfl, hdue⟩ := h.of_checking (Or.inr duty) (hmanifest.symm.trans hconcerns)
      exact Stays.listening rfl ready.session_eq hdue
    | @quiet r duty stage next =>
      cases hj
      have hmanifest := congrArg (Job.mk r.client) (r.attempt.manifest_hear .none)
      obtain ⟨-, ⟨-, hdue⟩ | ⟨hended, -⟩⟩ := h.of_running duty (hmanifest.symm.trans hconcerns)
      · rw [queue_of_nextMail_none next] at hdue
        cases hdue.mem
      · cases stage.symm.trans hended
    | @hear r mail w' duty stage next =>
      cases hj
      have hmanifest := congrArg (Job.mk r.client) (r.attempt.manifest_hear mail.tells)
      have hconcerns' : c.Concerns ⟨r.client, r.attempt.item⟩ := hmanifest.symm.trans hconcerns
      obtain ⟨hsession, ⟨-, hdue⟩ | ⟨hended, -⟩⟩ := h.of_running duty hconcerns'
      · rw [queue_of_nextMail next] at hdue
        exact stays_of_told hconcerns' stage hsession hdue
      · cases stage.symm.trans hended
    | @move r duty stage =>
      cases hj
      have hmanifest := congrArg (Job.mk r.client) (r.attempt.manifest_move g.tree)
      exact absurd stage (h.not_moving duty (hmanifest.symm.trans hconcerns))
    | @close r duty stage =>
      obtain ⟨i, t, hclose, -, -⟩ := w.close_eq g r
      rw [hclose, job?_ite_gone] at hj
      cases hj

/-- The job is cut short when it is finished. -/
theorem finished {buffer : BufferSize} {g : Surroundings σ} {r : StepResult σ}
    (h : w.Recalled c m seen) (there : seen g) (hturn : Turn m buffer w g r) {j : Job}
    (hj : r.finished = some j) (concerns : c.Concerns j) : c.CutShort m seen j.item.state := by
  cases hturn with
  | pickUp duty next => cases hj
  | skip duty next => cases hj
  | sourceMissing duty check =>
    cases hj
    obtain ⟨rfl, -⟩ := h.of_checking (Or.inl duty) concerns
    exact CutShort.sourceMissing there check
  | sourceFound duty check => cases hj
  | @noAllocation j' e i s t duty failed =>
    cases hj
    have hmanifest : i.manifest = j'.item.manifest := by
      have hprep := j'.item.manifest_prepare m g.storage g.tree
      rw [failed] at hprep
      exact hprep
    have hconcerns : c.Concerns j' := (congrArg (Job.mk j'.client) hmanifest).symm.trans concerns
    obtain ⟨rfl, -⟩ := h.of_checking (Or.inr duty) hconcerns
    exact CutShort.noAllocation there failed
  | @unfitDestination j' i g' e duty ready check =>
    cases hj
    have hconcerns : c.Concerns j' :=
      (congrArg (Job.mk j'.client) ready.manifest_eq).symm.trans concerns
    obtain ⟨rfl, -⟩ := h.of_checking (Or.inr duty) hconcerns
    exact CutShort.unfitDestination there ready check
  | launch duty ready check => cases hj
  | quiet duty stage next => cases hj
  | hear duty stage next => cases hj
  | move duty stage => cases hj
  | @close r duty stage =>
    obtain ⟨i, t, hclose, hmanifest, -⟩ := w.close_eq g r
    have hi : j = ⟨r.client, i⟩ := by
      rw [hclose] at hj
      exact (Option.some.inj hj).symm
    have hconcerns : c.Concerns ⟨r.client, r.attempt.item⟩ := by
      rw [hi] at concerns
      exact (congrArg (Job.mk r.client) hmanifest).symm.trans concerns
    obtain ⟨-, ⟨hlistening, -⟩ | ⟨-, hcut⟩⟩ := h.of_running duty hconcerns
    · cases stage.symm.trans hlistening
    · rw [close_of_ne_done w g hcut.ne_done] at hj
      rw [← Option.some.inj hj]
      change c.CutShort m seen (r.attempt.item.dropSession g.tree).1.state
      rw [Item.state_dropSession]
      exact hcut

/-- A step on behalf of the job spares the file tree. -/
theorem spared {buffer : BufferSize} {g : Surroundings σ} {r : StepResult σ}
    (h : w.Recalled c m seen) (hturn : Turn m buffer w g r) {j : Job}
    (hj : w.duty.job? = some j) (concerns : c.Concerns j) :
    c.Spared m g r.surroundings := by
  have hready {j' : Job} {i : Item} {g' : Surroundings σ} (hsame : j' = c.job)
      (ready : Readied m g j' i g') : c.Spared m g g' := by
    subst hsame
    cases ready with
    | asIs => exact Spared.untouched rfl
    | allocated prepared => exact Spared.allocated prepared
  cases hturn with
  | pickUp duty next =>
    rw [duty] at hj
    cases hj
  | skip duty next => exact Spared.untouched rfl
  | sourceMissing duty check => exact Spared.untouched rfl
  | sourceFound duty check => exact Spared.untouched rfl
  | noAllocation duty failed =>
    rw [duty] at hj
    cases hj
    obtain ⟨rfl, -⟩ := h.of_checking (Or.inr duty) concerns
    exact Spared.allocated failed
  | unfitDestination duty ready check =>
    rw [duty] at hj
    cases hj
    exact hready (h.of_checking (Or.inr duty) concerns).1 ready
  | launch duty ready check =>
    rw [duty] at hj
    cases hj
    exact hready (h.of_checking (Or.inr duty) concerns).1 ready
  | quiet duty stage next => exact Spared.untouched rfl
  | hear duty stage next => exact Spared.untouched rfl
  | move duty stage =>
    rw [duty] at hj
    cases hj
    exact absurd stage (h.not_moving duty concerns)
  | @close r duty stage =>
    rw [duty] at hj
    cases hj
    obtain ⟨hsession, ⟨hlistening, -⟩ | ⟨-, hcut⟩⟩ := h.of_running duty concerns
    · cases stage.symm.trans hlistening
    · rw [close_of_ne_done w g hcut.ne_done]
      cases hopen : r.attempt.item.session with
      | none =>
        refine Spared.untouched ?_
        change (r.attempt.item.dropSession g.tree).2 = g.tree
        rw [Item.dropSession, hopen]
      | some s =>
        refine Spared.abandoned (hsession.symm.trans hopen) ?_
        change (r.attempt.item.dropSession g.tree).2 = s.abandon g.tree
        rw [Item.dropSession, hopen]

/-- A worker that has the job in hand only waits for the storage manager. -/
theorem step_or_busy {buffer : BufferSize} {g : Surroundings σ} (h : w.Recalled c m seen) {j : Job}
    (hj : w.duty.job? = some j) (concerns : c.Concerns j) :
    (∃ r, w.step m buffer g = some r) ∨
      ∃ wish, c.job.item.wish = some wish ∧ m.busy g.storage wish.label = true := by
  have hstays := h.inHand j hj concerns
  unfold Worker.step
  generalize w.duty = d at hstays
  cases hstays with
  | received due =>
    refine Or.inl ?_
    dsimp only
    split
    · exact ⟨_, rfl⟩
    · exact ⟨_, rfl⟩
  | preparing due =>
    dsimp only
    unfold Worker.prepare
    split
    · rename_i wish hwish _
      split
      · rename_i hbusy
        exact Or.inr ⟨wish, hwish, hbusy⟩
      · refine Or.inl ?_
        split
        · exact ⟨_, rfl⟩
        · exact ⟨_, rfl⟩
    · exact Or.inl ⟨_, rfl⟩
  | listening stage session due => exact Or.inl ⟨_, rfl⟩
  | ended stage session cut => exact Or.inl ⟨_, rfl⟩

/-- Every step on behalf of the job brings it closer to its end. -/
theorem closer {buffer : BufferSize} {g : Surroundings σ} {r : StepResult σ}
    (h : w.Recalled c m seen) (hturn : Turn m buffer w g r) {j : Job}
    (hj : w.duty.job? = some j) (concerns : c.Concerns j) :
    (∃ j', r.finished = some j' ∧ c.Concerns j') ∨ r.worker.toGo c.tag < w.toGo c.tag := by
  cases hturn with
  | pickUp duty next =>
    rw [duty] at hj
    cases hj
  | skip duty next =>
    rw [duty] at hj
    cases hj
  | sourceMissing duty check =>
    rw [duty] at hj
    cases hj
    exact Or.inl ⟨_, rfl, concerns⟩
  | sourceFound duty check =>
    refine Or.inr ?_
    simp only [toGo, duty]
    exact Nat.lt_succ_self _
  | noAllocation duty failed =>
    rw [duty] at hj
    cases hj
    have hmanifest := j.item.manifest_prepare m g.storage g.tree
    rw [failed] at hmanifest
    exact Or.inl ⟨_, rfl, (congrArg (Job.mk j.client) hmanifest).trans concerns⟩
  | unfitDestination duty ready check =>
    rw [duty] at hj
    cases hj
    exact Or.inl ⟨_, rfl, (congrArg (Job.mk j.client) ready.manifest_eq).trans concerns⟩
  | launch duty ready check =>
    refine Or.inr ?_
    simp only [toGo, duty]
    exact Nat.lt_succ_self _
  | quiet duty stage next =>
    rw [duty] at hj
    cases hj
    obtain ⟨-, ⟨-, hdue⟩ | ⟨hended, -⟩⟩ := h.of_running duty concerns
    · rw [queue_of_nextMail_none next] at hdue
      cases hdue.mem
    · cases stage.symm.trans hended
  | @hear r mail w' duty stage next =>
    rw [duty] at hj
    cases hj
    obtain ⟨hsession, ⟨-, hdue⟩ | ⟨hended, -⟩⟩ := h.of_running duty concerns
    · have htag : r.attempt.item.tag = some c.tag :=
        (congrArg (fun j : Job => j.item.tag) concerns).trans c.carried
      refine Or.inr ?_
      simp only [toGo, duty, stage, queue_of_nextMail next, reduceCtorEq, if_false]
      change (if (r.attempt.hear mail.tells).stage = .ended then 0 else _) < _
      by_cases hmail : mail = .signal (.cancel c.tag)
      · rw [hmail]
        change (if (r.attempt.hear (.cancel c.tag)).stage = .ended then 0 else _) < _
        rw [if_pos (Attempt.stage_hear_cancel htag)]
        exact Nat.succ_pos _
      · rw [List.idxOf_cons_ne _ hmail]
        split
        · exact Nat.succ_pos _
        · exact Nat.lt_succ_self _
    · cases stage.symm.trans hended
  | move duty stage =>
    rw [duty] at hj
    cases hj
    exact absurd stage (h.not_moving duty concerns)
  | @close r duty stage =>
    rw [duty] at hj
    cases hj
    obtain ⟨i, t, hclose, hmanifest, -⟩ := w.close_eq g r
    rw [hclose]
    exact Or.inl ⟨_, rfl, (congrArg (Job.mk r.client) hmanifest).trans concerns⟩

/-- There are as many steps to go as there is early mail, and three more. -/
theorem toGo_le (h : w.Recalled c m seen) {j : Job} (hj : w.duty.job? = some j)
    (concerns : c.Concerns j) : w.toGo c.tag ≤ c.early.length + 3 := by
  have hstays := h.inHand j hj concerns
  unfold toGo
  generalize w.duty = d at hstays
  cases hstays with
  | received due => exact Nat.add_le_add_right due.idxOf_le 3
  | preparing due => exact Nat.add_le_add due.idxOf_le (by decide)
  | listening stage session due =>
    simp only [stage, reduceCtorEq, if_false]
    exact Nat.add_le_add due.idxOf_le (by decide)
  | ended stage session cut => simp only [stage, if_true, Nat.zero_le]

/-- New mail leaves it as close to its end as it was. -/
theorem toGo_post (h : w.Recalled c m seen) {j : Job} (hj : w.duty.job? = some j)
    (concerns : c.Concerns j) (new : Mail) : (w.post new).toGo c.tag = w.toGo c.tag := by
  have hstays := h.inHand j hj concerns
  have hduty : (w.post new).duty = w.duty := rfl
  unfold toGo
  rw [queue_post, hduty]
  generalize w.duty = d at hstays
  cases hstays with
  | received due => simp only [List.idxOf_append_of_mem due.mem]
  | preparing due => simp only [List.idxOf_append_of_mem due.mem]
  | listening stage session due => simp only [List.idxOf_append_of_mem due.mem]
  | ended stage session cut => simp only [stage, if_true]

end Worker.Recalled

/-! ## Workshops -/

/-- Two places of one job among mail without two jobs of one manifest are the same. -/
theorem eq_of_split {rest before before' mail mail' : List Mail} {j j' : Job}
    (hnodup : ((jobsIn rest).map Job.manifest).Nodup) (h : rest = before ++ .job j :: mail)
    (h' : rest = before' ++ .job j' :: mail') (hmanifest : j'.manifest = j.manifest) :
    j' = j ∧ mail' = mail := by
  have hmem {x : Job} {ahead behind : List Mail} :
      x.manifest ∈ (jobsIn (ahead ++ .job x :: behind)).map Job.manifest :=
    List.mem_map_of_mem (mem_jobsIn.mpr (List.mem_append_right _ List.mem_cons_self))
  induction rest generalizing before before' with
  | nil => exact absurd h (by simp)
  | cons x rest ih =>
    cases before with
    | nil =>
      obtain ⟨rfl, rfl⟩ := List.cons.inj h
      cases before' with
      | nil =>
        obtain ⟨hjob, rfl⟩ := List.cons.inj h'
        exact ⟨(Mail.job.inj hjob).symm, rfl⟩
      | cons x' before' =>
        obtain ⟨-, hrest⟩ := List.cons.inj h'
        rw [jobsIn_job, List.map_cons, hrest, ← hmanifest] at hnodup
        exact absurd hmem (List.nodup_cons.mp hnodup).1
    | cons y before =>
      obtain ⟨rfl, hrest⟩ := List.cons.inj h
      cases before' with
      | nil =>
        obtain ⟨rfl, -⟩ := List.cons.inj h'
        rw [jobsIn_job, List.map_cons, hrest, hmanifest] at hnodup
        exact absurd hmem (List.nodup_cons.mp hnodup).1
      | cons y' before' =>
        obtain ⟨-, hrest'⟩ := List.cons.inj h'
        refine ih ?_ hrest hrest'
        cases x with
        | job j'' => exact (List.nodup_cons.mp hnodup).2
        | signal s => exact hnodup

namespace Workshop

open Log

variable {κ σ : Type}

/-- No job is twice in the line of a worker. -/
theorem Balanced.nodup_line {y : Workshop κ σ} (h : y.Balanced) {w : Worker}
    (hw : w ∈ y.pool.crew) : (jobsIn w.line).Nodup := by
  have hflight : y.inFlight.Nodup := Multiset.Nodup.of_map _ h.nodup
  unfold inFlight at hflight
  rw [Multiset.nodup_add, Multiset.nodup_add, Multiset.nodup_add] at hflight
  exact (List.nodup_flatMap.mp (Multiset.coe_nodup.mp hflight.1.1.2.1)).1 w hw

/-- No job is in the lines of two workers. -/
theorem Balanced.place_eq {y : Workshop κ σ} (h : y.Balanced) {k k' : ℕ} {w w' : Worker}
    (hw : y.pool.crew[k]? = some w) (hw' : y.pool.crew[k']? = some w') {j : Job}
    (hj : .job j ∈ w.line) (hj' : .job j ∈ w'.line) : k = k' := by
  have hflight : y.inFlight.Nodup := Multiset.Nodup.of_map _ h.nodup
  unfold inFlight at hflight
  rw [Multiset.nodup_add, Multiset.nodup_add, Multiset.nodup_add] at hflight
  have hapart := List.pairwise_iff_getElem.mp
    (List.nodup_flatMap.mp (Multiset.coe_nodup.mp hflight.1.1.2.1)).2
  obtain ⟨hlt, rfl⟩ := List.getElem?_eq_some_iff.mp hw
  obtain ⟨hlt', rfl⟩ := List.getElem?_eq_some_iff.mp hw'
  rcases Nat.lt_trichotomy k k' with hless | heq | hmore
  · exact absurd (mem_jobsIn.mpr hj') (hapart k k' hlt hlt' hless (mem_jobsIn.mpr hj))
  · exact heq
  · exact absurd (mem_jobsIn.mpr hj) (hapart k' k hlt' hlt hmore (mem_jobsIn.mpr hj'))

/-- A job that a worker has is nowhere else. -/
theorem Balanced.nowhere_else {y : Workshop κ σ} (h : y.Balanced) {w : Worker}
    (hw : w ∈ y.pool.crew) {j : Job} (hj : .job j ∈ w.line) :
    (∀ j', .dispatch j' ∈ y.errands → j'.manifest ≠ j) ∧
      (∀ j' ∈ y.pool.completed, j'.manifest ≠ j) ∧
      ∀ d, y.delivery = some d → d.job.manifest ≠ j := by
  have hflight : y.inFlight.Nodup := Multiset.Nodup.of_map _ h.nodup
  have hload : j ∈ crewLoad y.pool.crew :=
    Multiset.mem_coe.mpr (List.mem_flatMap.mpr ⟨w, hw, mem_jobsIn.mpr hj⟩)
  unfold inFlight at hflight
  rw [Multiset.nodup_add, Multiset.nodup_add, Multiset.nodup_add] at hflight
  obtain ⟨⟨⟨-, -, herrands⟩, -, hcompleted⟩, -, hdelivery⟩ := hflight
  rw [Multiset.disjoint_left] at herrands hcompleted hdelivery
  refine ⟨?_, ?_, ?_⟩
  · rintro j' hj' rfl
    refine herrands (Multiset.mem_coe.mpr (List.mem_map_of_mem ?_)) hload
    exact List.mem_filterMap.mpr ⟨_, hj', rfl⟩
  · rintro j' hj' rfl
    exact hcompleted (Multiset.mem_add.mpr (Or.inr hload))
      (Multiset.mem_coe.mpr (List.mem_map_of_mem hj'))
  · rintro d hd rfl
    refine hdelivery (Multiset.mem_add.mpr (Or.inl (Multiset.mem_add.mpr (Or.inr hload)))) ?_
    rw [hd]
    exact Multiset.mem_coe.mpr List.mem_cons_self

/-- The job that is called back is nowhere in the workshop, or the signal comes in time, or its
attempt was cut short. -/
structure Recalled (c : Recall) (m : StorageManager σ) (seen : Surroundings σ → Prop)
    (newer : List (Entry κ)) (y : Workshop κ σ) : Prop where
  workers : ∀ w ∈ y.pool.crew, w.Recalled c m seen
  errands : ∀ j, .dispatch j ∈ y.errands → ¬ c.Concerns j
  completed : ∀ j ∈ y.pool.completed, c.Concerns j → c.CutShort m seen j.item.state
  delivery : ∀ d, y.delivery = some d → c.Concerns d.job → c.CutShort m seen d.job.item.state
  finished : ∀ j, .finished j ∈ newer → c.Concerns j → c.CutShort m seen j.item.state
  handed : ∀ j receiver, .handed j receiver ∈ newer → c.Concerns j →
    c.CutShort m seen j.item.state

/-- It stays so unless the job is taken on again. -/
theorem Recalled.effect {c : Recall} {m : StorageManager σ} {seen : Surroundings σ → Prop}
    {newer entries : List (Entry κ)} {y y' : Workshop κ σ} {a : Act κ σ}
    (h : y.Recalled c m seen newer) (heffect : Effect m y a y') (there : seen y.ground)
    (hlog : y'.log = entries ++ y.log) (hnone : ∀ e ∈ entries, e.takes c.job = false) :
    y'.Recalled c m seen (entries ++ newer) := by
  have hlogged : ∀ e ∈ entries, Logged m y y' e := by
    obtain ⟨entries', hlog', hlogged⟩ := heffect.log
    rwa [List.append_cancel_right (hlog.symm.trans hlog')]
  have hstep : ∀ w ∈ y.pool.crew, ∀ r, w.step m y.pool.buffer y.ground = some r → ∀ j,
      r.finished = some j → c.Concerns j → c.CutShort m seen j.item.state :=
    fun w hw r hr j hj => (h.workers w hw).finished there (Worker.turn_of_step hr) hj
  constructor
  · refine heffect.crew h.workers Worker.Recalled.fresh ?_ ?_ ?_
    · intro w hw j hj
      refine (h.workers w hw).post ?_
      rintro j' ⟨⟩
      exact h.errands j hj
    · intro w hw k s _
      exact (h.workers w hw).post fun j hj => by cases hj
    · intro w hw r hr
      exact (h.workers w hw).turn (Worker.turn_of_step hr)
  · intro j hj hconcerns
    rcases heffect.dispatching hj with hbefore | ⟨jobs, others, hmem, hlog'⟩
    · exact h.errands j hbefore hconcerns
    · have hentries := List.append_cancel_right (hlog.symm.trans hlog')
      have htaken : .taken j ∈ entries := by
        rw [hentries]
        exact List.mem_append_left _ (List.mem_reverse.mpr (List.mem_map_of_mem hmem))
      have hother : ¬ j.manifest = c.job.manifest := of_decide_eq_false (hnone _ htaken)
      exact hother hconcerns
  · intro j hj hconcerns
    rcases heffect.completed hj with hbefore | ⟨w, hw, r, hr, hfinished⟩
    · exact h.completed j hbefore hconcerns
    · exact hstep w hw r hr j hfinished hconcerns
  · intro d hd hconcerns
    rcases heffect.delivery hd with ⟨receiver, hbefore⟩ | hbefore
    · exact h.delivery ⟨d.job, receiver⟩ hbefore hconcerns
    · exact h.completed _ hbefore hconcerns
  · intro j hj hconcerns
    rcases List.mem_append.mp hj with hnew | hold
    · cases hlogged _ hnew with
      | finished worker step finished => exact hstep _ worker _ step j finished hconcerns
    · exact h.finished j hold hconcerns
  · intro j receiver hj hconcerns
    rcases List.mem_append.mp hj with hnew | hold
    · cases hlogged _ hnew with
      | handed delivery => exact h.delivery _ delivery hconcerns
    · exact h.handed j receiver hold hconcerns

/-- It stays so in every run in which the job is not taken on again. What is `seen` are the
surroundings on the way. -/
theorem Recalled.foldl {c : Recall} {m : StorageManager σ} {seen : Surroundings σ → Prop}
    {y : Workshop κ σ} (h : y.Recalled c m seen []) {further : List (Act κ σ)}
    (hseen : ∀ past, past <+: further → seen (past.foldl (next m) y).ground)
    (past : List (Act κ σ)) (hpast : past <+: further) :
    ∃ newer, (past.foldl (next m) y).log = newer ++ y.log ∧
      ((∀ e ∈ newer, e.takes c.job = false) →
        (past.foldl (next m) y).Recalled c m seen newer) := by
  induction past using List.reverseRecOn with
  | nil => exact ⟨[], rfl, fun _ => h⟩
  | append_singleton past a ih =>
    have hpast' : past <+: further := (List.prefix_append past [a]).trans hpast
    obtain ⟨newer, hlog, hrecalled⟩ := ih hpast'
    have heffect := effect_next m (past.foldl (next m) y) a
    obtain ⟨entries, hentries, -⟩ := heffect.log
    rw [List.foldl_concat]
    refine ⟨entries ++ newer, ?_, fun hnone => ?_⟩
    · rw [hentries, hlog, List.append_assoc]
    · have hbefore := hrecalled fun e he => hnone e (List.mem_append_right _ he)
      exact hbefore.effect heffect (hseen past hpast') hentries
        fun e he => hnone e (List.mem_append_left _ he)

/-- A job that a worker has stays with a worker, or is finished. -/
theorem Effect.keeps_line {m : StorageManager σ} {y y' : Workshop κ σ} {a : Act κ σ}
    (h : Effect m y a y') (hmanned : y.Manned) (hstays : a ≠ .dismiss) {w : Worker}
    (hw : w ∈ y.pool.crew) {j : Job} (hj : .job j ∈ w.line) :
    (∃ w' ∈ y'.pool.crew, .job j ∈ w'.line) ∨
      ∃ j' : Job, y'.log = [.finished j'] ++ y.log ∧ j'.manifest = j := by
  cases h with
  | nothing a => exact Or.inl ⟨w, hw, hj⟩
  | aside stays clients crew completed phase =>
    rw [← crew] at hw
    exact Or.inl ⟨w, hw, hj⟩
  | started calm start =>
    rw [hmanned.crew_eq_nil (Pool.of_start start).1] at hw
    cases hw
  | opened calm running unknown items_ne allocated => exact Or.inl ⟨w, hw, hj⟩
  | added calm running known allocated => exact Or.inl ⟨w, hw, hj⟩
  | cancelled calm running known => exact Or.inl ⟨w, hw, hj⟩
  | detached c => exact Or.inl ⟨w, hw, hj⟩
  | told calm running => exact Or.inl ⟨w, hw, hj⟩
  | stopped calm running => exact Or.inl ⟨w, hw, hj⟩
  | retired calm resting => exact Or.inl ⟨w, hw, hj⟩
  | dismissed calm down gone => exact absurd rfl hstays
  | @ran e rest errands =>
    have hmodify (k : ℕ) (m : Mail) :
        ∃ w' ∈ y.pool.crew.modify k (·.post m), .job j ∈ w'.line := by
      obtain ⟨i, hi⟩ := List.mem_iff_getElem?.mp hw
      have hget : (y.pool.crew.modify k (·.post m))[i]? =
          some (if k = i then w.post m else w) := by
        rw [List.getElem?_modify, hi]
        split <;> rfl
      refine ⟨_, List.mem_of_getElem? hget, ?_⟩
      split
      · rw [Worker.line_post]
        exact List.mem_append_left _ hj
      · exact hj
    cases e with
    | dispatch j' => exact Or.inl (hmodify _ _)
    | post k s => exact Or.inl (hmodify _ _)
  | @worked k w₁ r worker step =>
    obtain ⟨-, hset, -, -⟩ :=
      foldl_complete r.finished.toList { y.pool with crew := y.pool.crew.set k r.worker }
    have hcrew : (y.worked k r).pool.crew = y.pool.crew.set k r.worker := hset
    obtain ⟨hlt, -⟩ := List.getElem?_eq_some_iff.mp worker
    obtain ⟨i, hi⟩ := List.mem_iff_getElem?.mp hw
    rw [hcrew]
    by_cases hplace : k = i
    · subst hplace
      cases worker.symm.trans hi
      obtain ⟨-, hjobs⟩ := Worker.line_of_turn (Worker.turn_of_step step)
      have hmem := mem_jobsIn.mpr hj
      rw [← hjobs, List.mem_append] at hmem
      rcases hmem with hfinished | hline
      · obtain ⟨j', hj', rfl⟩ := List.mem_map.mp hfinished
        refine Or.inr ⟨j', ?_, rfl⟩
        change r.finished.toList.map Entry.finished ++ y.log = _
        rw [Option.mem_toList.mp hj']
        rfl
      · exact Or.inl ⟨r.worker, List.mem_set hlt r.worker, mem_jobsIn.mp hline⟩
    · have hget : (y.pool.crew.set k r.worker)[i]? = some w := by
        rw [List.getElem?_set_ne hplace, hi]
      exact Or.inl ⟨w, List.mem_of_getElem? hget, hj⟩
  | fetched free completed => exact Or.inl ⟨w, hw, hj⟩
  | strayed delivery unknown => exact Or.inl ⟨w, hw, hj⟩
  | handed delivery known => exact Or.inl ⟨w, hw, hj⟩
  | struck delivery => exact Or.inl ⟨w, hw, hj⟩

/-- In every run a job that a worker has stays with a worker until it is finished, or the pool is
dismissed. -/
theorem Booked.fate {m : StorageManager σ} {y : Workshop κ σ} (h : y.Booked) {w : Worker}
    (hw : w ∈ y.pool.crew) {j : Job} (hj : .job j ∈ w.line) (further : List (Act κ σ))
    {newer : List (Entry κ)} (hlog : (further.foldl (next m) y).log = newer ++ y.log) :
    (∃ w' ∈ (further.foldl (next m) y).pool.crew, .job j ∈ w'.line) ∨
      (∃ j', .finished j' ∈ newer ∧ j'.manifest = j) ∨ (further.foldl (next m) y).Deserted := by
  let P (y' : Workshop κ σ) : Prop := ∃ newer, y'.log = newer ++ y.log ∧
    ((∃ w' ∈ y'.pool.crew, .job j ∈ w'.line) ∨ ∃ j', .finished j' ∈ newer ∧ j'.manifest = j)
  have hkeep {y₁ y₂ : Workshop κ σ} {a : Act κ σ} (hbooked : y₁.Booked) (hP : P y₁)
      (heffect : Effect m y₁ a y₂) (hstays : a ≠ .dismiss) : P y₂ := by
    obtain ⟨newer, hlog, ⟨w', hw', hj'⟩ | ⟨j', hj', hmanifest⟩⟩ := hP
    · rcases heffect.keeps_line hbooked.manned hstays hw' hj' with hline | ⟨j', hlog', hmanifest⟩
      · obtain ⟨entries, hentries, -⟩ := heffect.log
        refine ⟨entries ++ newer, ?_, Or.inl hline⟩
        rw [hentries, hlog, List.append_assoc]
      · refine ⟨[.finished j'] ++ newer, ?_, Or.inr ⟨j', List.mem_cons_self, hmanifest⟩⟩
        rw [hlog', hlog, List.append_assoc]
    · obtain ⟨entries, hentries, -⟩ := heffect.log
      refine ⟨entries ++ newer, ?_, Or.inr ⟨j', List.mem_append_right _ hj', hmanifest⟩⟩
      rw [hentries, hlog, List.append_assoc]
  rcases h.foldl hkeep ⟨[], rfl, Or.inl ⟨w, hw, hj⟩⟩ further with
    ⟨-, newer', hlog', hplace⟩ | hdeserted
  · cases List.append_cancel_right (hlog.symm.trans hlog')
    exact hplace.imp_right Or.inl
  · exact Or.inr (Or.inr hdeserted)

/-! ## Effective cancelling -/

/-- What has become of a job that was called back. -/
structure CalledBack (c : Recall) (m : StorageManager σ) (seen : Surroundings σ → Prop)
    (newer : List (Entry κ)) (y : Workshop κ σ) : Prop where
  /-- The job is still with a worker, or was finished, unless the pool was shut down before. -/
  fate : (∃ w ∈ y.pool.crew, .job c.job.manifest ∈ w.line) ∨
    (∃ j, .finished j ∈ newer ∧ c.Concerns j) ∨ y.Deserted
  /-- Nothing is moved for it. -/
  not_moving : ∀ w ∈ y.pool.crew, ∀ r, w.duty = .running r →
    c.Concerns ⟨r.client, r.attempt.item⟩ → r.attempt.stage ≠ .moving
  /-- No step on its behalf writes anything. -/
  spared : ∀ w ∈ y.pool.crew, ∀ j, w.duty.job? = some j → c.Concerns j → ∀ r,
    w.step m y.pool.buffer y.ground = some r → c.Spared m y.ground r.surroundings
  /-- The worker that has it in hand takes a step, unless the storage manager keeps it waiting. -/
  step_or_busy : ∀ w ∈ y.pool.crew, ∀ j, w.duty.job? = some j → c.Concerns j →
    (∃ r, w.step m y.pool.buffer y.ground = some r) ∨
      ∃ wish, c.job.item.wish = some wish ∧ m.busy y.ground.storage wish.label = true
  /-- There are only so many steps to go, each one brings the job closer to its end, and no new mail
  puts that off. -/
  closer : ∀ w ∈ y.pool.crew, ∀ j, w.duty.job? = some j → c.Concerns j →
    w.toGo c.tag ≤ c.early.length + 3 ∧
      (∀ r, w.step m y.pool.buffer y.ground = some r →
        (∃ j', r.finished = some j' ∧ c.Concerns j') ∨ r.worker.toGo c.tag < w.toGo c.tag) ∧
      ∀ mail, (w.post mail).toGo c.tag = w.toGo c.tag
  /-- When it is finished it was cut short. -/
  finished : ∀ j, .finished j ∈ newer → c.Concerns j → c.CutShort m seen j.item.state
  /-- Whoever is handed it is not told that it is done. -/
  handed : ∀ j receiver, .handed j receiver ∈ newer → c.Concerns j →
    c.CutShort m seen j.item.state ∧ j.item.state ≠ .done

/-- Asking for items to be cancelled is effective. -/
structure CancelsInTime (m : StorageManager σ) (y : Workshop κ σ) : Prop where
  /-- A call that is not refused asks for all items of the client to be cancelled. -/
  asked : y.errands = [] → ∀ c p, y.pool.cancel c = .ok p → ∀ j ∈ y.inFlight, j.client = c →
    Asked (y.next m (.cancel c)).log j
  /-- Once the worker of a job has been sent everything there was to send, the signal is among the
  mail that the job is still to be told, and whatever happens further calls the job back if nothing
  was moved since it was last told anything. Only being taken on again gives it another attempt. -/
  calledBack : ∀ k w, y.pool.crew[k]? = some w → (∀ s, .post k s ∉ y.errands) →
    ∀ j mail, w.Owes j mail → Asked y.log j →
      (∀ r, w.duty = .running r → w.duty.job? = some j → r.attempt.stage = .listening) →
      ∃ c : Recall, c.job = j ∧ (∃ later, mail = c.early ++ .signal (.cancel c.tag) :: later) ∧
        ∀ further : List (Act κ σ), ∃ newer, (further.foldl (next m) y).log = newer ++ y.log ∧
          ((∀ e ∈ newer, e.takes j = false) →
            (further.foldl (next m) y).CalledBack c m
              (fun g => ∃ past, past <+: further ∧ (past.foldl (next m) y).ground = g) newer)
  /-- Acts that nothing interrupts are the calls that they make up. -/
  uninterrupted : y.Uninterrupted m

/-- A worker that has the job has it in one place, and no other worker has it. -/
theorem Booked.recalled_worker {m : StorageManager σ} {seen : Surroundings σ → Prop}
    {y : Workshop κ σ} (h : y.Booked) {k : ℕ} {w : Worker} (hw : y.pool.crew[k]? = some w)
    {c : Recall}
    {mail : List Mail} (howes : w.Owes c.job mail) (hdue : c.Due mail)
    (hlistens : ∀ r, w.duty = .running r → w.duty.job? = some c.job →
      r.attempt.stage = .listening) {w' : Worker} (hw' : w' ∈ y.pool.crew) :
    w'.Recalled c m seen := by
  have hsame {j : Job} (hj : .job j.manifest ∈ w'.line) (hconcerns : c.Concerns j) : w' = w := by
    obtain ⟨k', hk'⟩ := List.mem_iff_getElem?.mp hw'
    have hj' : .job c.job.manifest ∈ w'.line := by
      rwa [← show j.manifest = c.job.manifest from hconcerns]
    cases h.balanced.place_eq hw hk' howes.mem_line hj'
    exact Option.some.inj (hk'.symm.trans hw)
  have hnodup := h.balanced.nodup_line (List.mem_of_getElem? hw)
  rw [Worker.jobsIn_line, List.map_append] at hnodup
  have hrest : ((jobsIn w.rest).map Job.manifest).Nodup := hnodup.of_append_right
  -- A job is not in hand and behind itself at once.
  have hapart {j j' : Job} (hhand : w.duty.job? = some j) (hbehind : j' ∈ jobsIn w.rest)
      (hmanifest : j'.manifest = j.manifest) : False := by
    refine List.disjoint_of_nodup_append hnodup (a := j.manifest) ?_ ?_
    · rw [hhand]
      exact List.mem_cons_self
    · rw [← hmanifest]
      exact List.mem_map_of_mem hbehind
  constructor
  · intro before j mail' hsplit hconcerns
    have hmem : .job j ∈ w'.rest := by
      rw [hsplit]
      exact List.mem_append_right _ List.mem_cons_self
    have hline : .job j.manifest ∈ w'.line := (Worker.Owes.waiting before hsplit).mem_line
    rw [hsame hline hconcerns] at hsplit hmem
    rcases howes.rest_or_hand with ⟨before', hsplit'⟩ | ⟨hhand, -, -⟩
    · obtain ⟨hjob, hmail⟩ := eq_of_split hrest hsplit' hsplit hconcerns
      exact ⟨hjob, hmail ▸ hdue⟩
    · exact absurd hconcerns fun hmanifest => hapart hhand (mem_jobsIn.mpr hmem) hmanifest
  · intro j hj hconcerns
    have hline : .job j.manifest ∈ w'.line := Worker.Warned.mem_line_of_job? hj
    rw [hsame hline hconcerns] at hj ⊢
    rcases howes.rest_or_hand with ⟨before', hsplit'⟩ | ⟨hhand, -, hqueue⟩
    · have hmem : .job c.job ∈ w.rest := by
        rw [hsplit']
        exact List.mem_append_right _ List.mem_cons_self
      exact absurd hconcerns.symm fun hmanifest => hapart hj (mem_jobsIn.mpr hmem) hmanifest
    · rw [← hqueue] at hdue
      cases hduty : w.duty with
      | idle | gone =>
        rw [hduty] at hhand
        cases hhand
      | received j' =>
        rw [hduty] at hhand
        cases hhand
        exact Recall.Stays.received hdue
      | preparing j' =>
        rw [hduty] at hhand
        cases hhand
        exact Recall.Stays.preparing hdue
      | running r =>
        have hstage := hlistens r hduty hhand
        rw [hduty] at hhand
        have hjob : (⟨r.client, r.attempt.item⟩ : Job) = c.job := Option.some.inj hhand
        refine Recall.Stays.listening hstage ?_ hdue
        rw [← hjob]

/-- The job is recalled at the moment when its worker was sent everything. -/
theorem Booked.recalled {m : StorageManager σ} {seen : Surroundings σ → Prop} {y : Workshop κ σ}
    (h : y.Booked) {k : ℕ} {w : Worker} (hw : y.pool.crew[k]? = some w) {c : Recall}
    {mail : List Mail} (howes : w.Owes c.job mail) (hdue : c.Due mail)
    (hlistens : ∀ r, w.duty = .running r → w.duty.job? = some c.job →
      r.attempt.stage = .listening) : y.Recalled c m seen [] := by
  obtain ⟨herrands, hcompleted, hdelivery⟩ :=
    h.balanced.nowhere_else (List.mem_of_getElem? hw) howes.mem_line
  refine ⟨fun w' hw' => h.recalled_worker hw howes hdue hlistens hw', herrands, ?_, ?_, ?_, ?_⟩
  · intro j hj hconcerns
    exact absurd hconcerns (hcompleted j hj)
  · intro d hd hconcerns
    exact absurd hconcerns (hdelivery d hd)
  · intro j hj
    cases hj
  · intro j receiver hj
    cases hj

/-- A job that was recalled is called back by whatever happens further. -/
theorem Recalled.calledBack {c : Recall} {m : StorageManager σ} {seen : Surroundings σ → Prop}
    {newer : List (Entry κ)} {y : Workshop κ σ} (h : y.Recalled c m seen newer)
    (hfate : (∃ w ∈ y.pool.crew, .job c.job.manifest ∈ w.line) ∨
      (∃ j, .finished j ∈ newer ∧ c.Concerns j) ∨ y.Deserted) :
    y.CalledBack c m seen newer where
  fate := hfate
  not_moving w hw _ duty concerns := (h.workers w hw).not_moving duty concerns
  spared w hw _ hj concerns _ hr := (h.workers w hw).spared (Worker.turn_of_step hr) hj concerns
  step_or_busy w hw _ hj concerns := (h.workers w hw).step_or_busy hj concerns
  closer w hw _ hj concerns :=
    ⟨(h.workers w hw).toGo_le hj concerns,
      fun _ hr => (h.workers w hw).closer (Worker.turn_of_step hr) hj concerns,
      (h.workers w hw).toGo_post hj concerns⟩
  finished := h.finished
  handed j receiver hj concerns :=
    ⟨h.handed j receiver hj concerns, (h.handed j receiver hj concerns).ne_done⟩

/-- In every run of a workshop in which no signal says that nothing is waiting, asking for items to
be cancelled is effective, whatever happens afterwards. -/
theorem cancelsInTime_after (m : StorageManager σ) (settings : Settings) (loop : EventLoop)
    (ground : Surroundings σ) (acts : List (Act κ σ)) (hcandid : ∀ a ∈ acts, Act.isCandid a) :
    (after m settings loop ground acts).CancelsInTime m := by
  generalize hy : after m settings loop ground acts = y
  have hpursued := pursued_after m settings loop ground acts
  have hsincere := candid_after m settings loop ground acts hcandid
  rw [hy] at hpursued hsincere
  refine ⟨?_, ?_, y.uninterrupted m⟩
  · intro hcalm c p hcancel j _ hclient
    obtain ⟨-, a, hfind, -⟩ := Pool.of_cancel hcancel
    have hlog : (y.next m (.cancel c)).log = [.cancelled c] ++ y.log := by
      simp only [next, hcalm, hfind, hcancel]
      rfl
    unfold Asked
    rw [hlog, hclient, since_append fun e he => by rw [List.mem_singleton.mp he]; rfl]
    exact List.mem_append_left _ (List.mem_singleton.mpr rfl)
  · intro k w hw hsent j mail howes hasked hlistens
    rcases hpursued with ⟨hbooked, hpursued⟩ | hdeserted
    · have hmem := List.mem_of_getElem? hw
      obtain ⟨-, tag, -, htag, -⟩ :=
        hbooked.balanced.held (mem_inFlight_of_line hmem howes.mem_line)
      have hcoming := (hpursued.pursued k w hw j mail howes hasked tag htag).resolve_right (hsent _)
      obtain ⟨early, later, hmail⟩ := List.append_of_mem hcoming
      have hearly : .signal .none ∉ early := by
        intro hnone
        refine hsincere.workers w hmem (howes.suffix_rest.subset ?_)
        rw [hmail]
        exact List.mem_append_left _ hnone
      let c : Recall := ⟨j, tag, htag, early, hearly⟩
      refine ⟨c, rfl, ⟨later, hmail⟩, fun further => ?_⟩
      let seen (g : Surroundings σ) : Prop :=
        ∃ past, past <+: further ∧ (past.foldl (next m) y).ground = g
      have hdue : c.Due mail := ⟨early, later, hmail, List.suffix_rfl⟩
      have hrecalled : y.Recalled c m seen [] := hbooked.recalled hw howes hdue hlistens
      obtain ⟨newer, hlog, hstays⟩ := hrecalled.foldl
        (fun past hpast => ⟨past, hpast, rfl⟩) further List.prefix_rfl
      refine ⟨newer, hlog, fun hnone => ?_⟩
      exact (hstays hnone).calledBack (hbooked.fate hmem howes.mem_line further hlog)
    · rw [hdeserted.crew_eq] at hw
      cases hw

/-- A client that asks for its two items to be cancelled while the only worker has taken none, and
another signal is in front of them. -/
def recallingRun : List (Act Unit Shelf) :=
  let item := Item.fresh (.buffer .empty) (.inl ⟨"/to"⟩)
  [.start ⟨1, 0⟩ .nobody, .submit ⟨1⟩ () [item, item], .run, .run, .broadcast (.cancel 7), .run,
    .cancel ⟨1⟩, .run, .run]

/-- Both items of that run are called back. -/
theorem cancelsInTime_after_recallingRun :
    (∀ a ∈ recallingRun, Act.isCandid a) ∧
      (after Shelf.manager Settings.defaults ⟨false, false, []⟩ ⟨.blank, .ofMedia [] none false⟩
        recallingRun).CancelsInTime Shelf.manager ∧
      ∃ w j j', (after Shelf.manager Settings.defaults ⟨false, false, []⟩
          ⟨.blank, .ofMedia [] none false⟩ recallingRun).pool.crew = [w] ∧
        w.Owes j [.job j', .signal (.cancel 7), .signal (.cancel 1), .signal (.cancel 2)] ∧
        w.Owes j' [.signal (.cancel 7), .signal (.cancel 1), .signal (.cancel 2)] ∧
        j.item.tag = some 1 ∧ j'.item.tag = some 2 :=
  ⟨by decide, cancelsInTime_after _ _ _ _ _ (by decide), _, _, _, rfl, .waiting [] rfl,
    .waiting [.job _] rfl, rfl, rfl⟩

end Workshop

end Haulage
