import Haulage.Proofs.Sessions
import Haulage.Proofs.Turns

/-!
# A worker at one job

From the moment a worker has taken a job until it hands the job over, it checks
the job, begins the staged copy when it first moves, moves chunk after chunk and
closes what it began. A `Lane` says what is known of the tree meanwhile: how it
may be before the staged copy is begun, and where it may differ from the ground
afterwards. `JobRun.Underway.step` is what one step of the worker does: it touches
the staged copy only and stays on its way, or it finishes the job, and then
`Lane.Closed` says what is left.

The worker is not alone in the tree. `JobRun.Underway.frame` says that others may
change the tree as they like away from its staged copy.
-/

namespace Haulage

open Disk (Location Node Path Tree)

/-! ## Runs of a job -/

/-- What may happen while a worker is at a job. -/
inductive Beat where
  /-- Mail is posted to the worker. -/
  | post (m : Mail)
  /-- The worker takes a step. -/
  | step

/-- A worker at one job, with the job once it is finished. -/
structure JobRun (σ : Type) where
  worker : Worker
  surroundings : Surroundings σ
  finished : Option Job

namespace JobRun

variable {σ : Type}

/-- The worker has just taken the job. -/
def start (w : Worker) (g : Surroundings σ) (j : Job) : JobRun σ :=
  ⟨{ w with duty := .received j }, g, none⟩

/-- The run after one more beat. It is over when the job is finished. -/
def next (m : StorageManager σ) (buffer : BufferSize) (x : JobRun σ) : Beat → JobRun σ
  | .post mail => { x with worker := x.worker.post mail }
  | .step =>
    if x.finished.isSome then x
    else match x.worker.step m buffer x.surroundings with
      | none => x
      | some r => ⟨r.worker, r.surroundings, r.finished⟩

/-- The run after some beats. -/
def after (m : StorageManager σ) (buffer : BufferSize) (x : JobRun σ) (beats : List Beat) :
    JobRun σ :=
  beats.foldl (next m buffer) x

/-- The file tree as the run has left it. -/
abbrev tree (x : JobRun σ) : Tree := x.surroundings.tree

/-- A run that is over stays as it is, but for the mail. -/
theorem next_of_finished (m : StorageManager σ) (buffer : BufferSize) {x : JobRun σ} {j : Job}
    (h : x.finished = some j) (b : Beat) :
    (x.next m buffer b).finished = some j ∧ (x.next m buffer b).surroundings = x.surroundings := by
  cases b with
  | post mail => exact ⟨h, rfl⟩
  | step => simp [next, h]

end JobRun

/-! ## Lanes -/

/-- A transfer, with what is known of the tree around it. -/
structure Lane where
  /-- The tree without the transfer. -/
  ground : Tree
  payload : Payload
  destination : Path
  /-- The segments of the destination before its last name. -/
  init : List String
  /-- The last name of the destination. -/
  name : String
  /-- How the tree may be before the staged copy is begun. -/
  Idle : Tree → Prop
  /-- Where the tree may differ from the ground once the staged copy was begun in a directory. -/
  Busy : Location → Location → Prop

namespace Lane

/-- The staged copy has its place in the directory. -/
abbrev Moored (L : Lane) (dir : Location) : Prop :=
  Berth (L.Busy dir) L.ground L.destination L.init L.name dir

/-- Before the staged copy is begun everything is ready for it. -/
structure Ready (L : Lane) : Prop where
  clear {t : Tree} (h : L.Idle t) : Session.Clear t L.destination L.init L.name
  offers {t : Tree} (h : L.Idle t) : Session.Offers L.ground t L.payload
  moored {t : Tree} {dir : Location} (h : L.Idle t)
    (hseat : t.Seats (staged L.destination) dir (L.name ++ ".mlc.partial")) : L.Moored dir
  agrees {t : Tree} {dir : Location} (h : L.Idle t)
    (hseat : t.Seats (staged L.destination) dir (L.name ++ ".mlc.partial")) :
    L.ground.Agrees (L.Busy dir) t

/-- Nothing happened to the tree, or the staged copy was changed. -/
inductive Touched (L : Lane) (t : Tree) : Tree → Prop
  | not : Touched L t t
  | staged {dir : Location} {t' : Tree} (moored : L.Moored dir)
      (changes : t.Changes (stageAt dir L.name <+: ·) t') : Touched L t t'

/-- What finishing an item leaves in the tree. -/
inductive Closed (L : Lane) (t : Tree) (i : Item) : Tree → Prop
  /-- The staged copy was never begun. -/
  | unopened (idle : L.Idle t) (undone : i.state ≠ .done) : Closed L t i t
  /-- The payload was moved to its destination. -/
  | published {dir : Location} {t' : Tree} (moored : L.Moored dir)
      (agrees : L.ground.Agrees (L.Busy dir) t) (done : i.state = .done)
      (changes : t.Changes (fun l => stageAt dir L.name <+: l ∨ dir ++ [L.name] <+: l) t')
      (holds : t'.Holds (dir ++ [L.name]) (L.payload.image L.ground))
      (bare : t'.Bare (stageAt dir L.name))
      (kind : ∀ e, t.lookup (dir ++ [L.name]) = some e → e ≠ .directory →
        L.payload.image L.ground [] ≠ some .directory) : Closed L t i t'
  /-- The staged copy was removed. -/
  | dropped {dir : Location} {t' : Tree} (moored : L.Moored dir)
      (agrees : L.ground.Agrees (L.Busy dir) t) (undone : i.state ≠ .done)
      (changes : t.Changes (stageAt dir L.name <+: ·) t')
      (bare : t'.Bare (stageAt dir L.name)) : Closed L t i t'

end Lane

/-! ## How items end -/

/-- A failed step ends an item undone. -/
theorem Item.failWith_spec (f : CopyFailure) (i : Item) :
    (i.failWith f).session = i.session ∧ (i.failWith f).payload = i.payload ∧
      (i.failWith f).state.isTerminal ∧ (i.failWith f).state ≠ .done := by
  have hspec := i.endState_spec (some f)
  rw [failWith_eq]
  exact ⟨rfl, rfl, hspec.1, fun hdone => Option.some_ne_none f (hspec.2.mp hdone)⟩

/-! ## Attempts -/

/-- How an attempt stands, with the tree `t` as it is. -/
inductive Attempt.Carries (L : Lane) (t : Tree) (a : Attempt) : Prop
  /-- No copy has been opened. -/
  | unopened (payload : a.item.payload = L.payload) (session : a.item.session = none)
      (idle : L.Idle t) (going : a.stage ≠ .ended → a.item.destination = some L.destination)
      (ended : a.stage = .ended → a.item.state.isTerminal ∧ a.item.state ≠ .done)
  /-- A copy is open. -/
  | opened {dir : Location} {s : Session} (payload : a.item.payload = L.payload)
      (session : a.item.session = some s) (destination : s.destination = L.destination)
      (moored : L.Moored dir) (agrees : L.ground.Agrees (L.Busy dir) t) (numbered : t.Numbered)
      (clearable : Session.Clearable t (stageAt dir L.name))
      (going : a.stage ≠ .ended →
        Session.Suits L.ground t L.destination (stageAt dir L.name) L.payload s)
      (ended : a.stage = .ended → a.item.state.isTerminal)
      (done : a.stage = .ended → a.item.state = .done →
        Session.Suits L.ground t L.destination (stageAt dir L.name) L.payload s ∧
          s.Exhausted L.ground)

namespace Attempt.Carries

variable {L : Lane} {t t' : Tree} {a : Attempt}

/-- Hearing a signal changes nothing in the tree. -/
theorem hear (h : Carries L t a) (hgo : a.stage ≠ .ended) (s : Signal) :
    Carries L t (a.hear s) := by
  rcases a.hear_cases s with heq | heq | ⟨state, hstop, heq⟩
  · rw [heq]
    cases h with
    | unopened payload session idle going ended =>
      exact .unopened payload session idle (fun _ => going hgo) fun h => by simp at h
    | opened payload session destination moored agrees numbered clearable going ended done =>
      exact .opened payload session destination moored agrees numbered clearable
        (fun _ => going hgo) (fun h => by simp at h) fun h => by simp at h
  · rwa [heq]
  · obtain ⟨hterminal, hnot⟩ := Item.stopState_spec hstop
    rw [heq]
    cases h with
    | unopened payload session idle going ended =>
      exact .unopened payload session idle (fun h => absurd rfl h) fun _ => ⟨hterminal, hnot⟩
    | opened payload session destination moored agrees numbered clearable going ended done =>
      exact .opened payload session destination moored agrees numbered clearable
        (fun h => absurd rfl h) (fun _ => hterminal) fun _ h => absurd h hnot

/-- A move changes the staged copy only. -/
theorem move (h : Carries L t a) (hgo : a.stage ≠ .ended) (hL : L.Ready) :
    Carries L (a.move t).2 (a.move t).1 ∧ L.Touched t (a.move t).2 := by
  cases h with
  | unopened payload session idle going ended =>
    unfold Attempt.move openSession
    rw [session, going hgo, payload]
    simp only
    have hstarted := (hL.clear idle).start_started (hL.offers idle)
    generalize Session.start t L.payload L.destination = r at hstarted
    cases hstarted with
    | failed f =>
      obtain ⟨hsession, hpayload, hterminal, hnot⟩ := a.item.failWith_spec f
      exact ⟨.unopened (hpayload.trans payload) (hsession.trans session) idle
        (fun h => absurd rfl h) fun _ => ⟨hterminal, hnot⟩, .not⟩
    | @begun dir s t' hseat hc hs =>
      have hmoored := hL.moored idle hseat
      have hagrees := (hL.agrees idle hseat).trans (hc.toAgrees.mono fun _ => hmoored.covers)
      exact ⟨.opened payload rfl hs.destination_eq hmoored hagrees
        (hc.numbered (hL.clear idle).numbered) (hs.clearable hmoored.sound) (fun _ => hs)
        (fun h => absurd h hgo) fun h => absurd h hgo, .staged hmoored hc⟩
  | @opened dir s payload session destination moored agrees numbered clearable going ended done =>
    have hmoved := Session.copyChunk_moved a.buffer.2 moored agrees numbered (going hgo)
    unfold Attempt.move moveChunk
    rw [session]
    simp only
    generalize s.copyChunk a.buffer t = r at hmoved
    obtain ⟨r, s', t'⟩ := r
    have hagrees := agrees.trans (hmoved.changes.toAgrees.mono fun _ => moored.covers)
    have hnumbered := hmoved.changes.numbered numbered
    have htouched : L.Touched t t' := .staged moored hmoved.changes
    cases r with
    | error f =>
      obtain ⟨hsession, hpayload, hterminal, hnot⟩ :=
        Item.failWith_spec f { a.item with session := some s' }
      exact ⟨.opened (hpayload.trans payload) hsession hmoved.destination_eq moored hagrees
        hnumbered hmoved.clearable (fun h => absurd rfl h) (fun _ => hterminal)
        fun _ h => absurd h hnot, htouched⟩
    | ok c =>
      cases c with
      | complete =>
        exact ⟨.opened payload rfl hmoved.destination_eq moored hagrees hnumbered hmoved.clearable
          (fun h => absurd rfl h) (fun _ => rfl)
          fun _ _ => ⟨hmoved.suits rfl, hmoved.exhausted rfl⟩, htouched⟩
      | copied k =>
        exact ⟨.opened payload rfl hmoved.destination_eq moored hagrees hnumbered hmoved.clearable
          (fun _ => hmoved.suits rfl) (fun h => by simp at h) fun h => by simp at h, htouched⟩

/-- What others change away from the staged copy does not matter to an attempt. -/
theorem frame (h : Carries L t a) {Q : Location → Prop} (hc : t.Changes Q t')
    (hidle : L.Idle t → L.Idle t')
    (hoff : ∀ dir, L.Moored dir → ∀ l, Q l → ¬stageAt dir L.name <+: l ∧ L.Busy dir l) :
    Carries L t' a := by
  cases h with
  | unopened payload session idle going ended =>
    exact .unopened payload session (hidle idle) going ended
  | @opened dir s payload session destination moored agrees numbered clearable going ended done =>
    have happart : ∀ l, stageAt dir L.name <+: l → ¬Q l := fun l hl hq =>
      (hoff dir moored l hq).1 hl
    have hclearable : Session.Clearable t' (stageAt dir L.name) := by
      refine clearable.imp (fun hdir => ?_) fun hnone rel hrel => ?_
      · rwa [hc.lookup_eq (happart _ (List.prefix_refl _))]
      · rw [hc.lookup_eq (happart _ (List.prefix_append _ rel)), hnone rel hrel]
    refine .opened payload session destination moored
      (agrees.trans (hc.toAgrees.mono fun l hl => (hoff dir moored l hl).2))
      (hc.numbered numbered) hclearable (fun hgo => (going hgo).frame hc happart numbered) ended
      fun hend hdone => ?_
    obtain ⟨hsuits, hexhausted⟩ := done hend hdone
    exact ⟨hsuits.frame hc happart numbered, hexhausted⟩

/-- Finishing an item moves its payload to the destination, or leaves nothing of it. -/
theorem finish (h : Carries L t a) (hended : a.stage = .ended) :
    (a.item.finish t).1.state.isTerminal ∧ (a.item.finish t).1.session = none ∧
      L.Closed t (a.item.finish t).1 (a.item.finish t).2 := by
  unfold Item.finish
  cases h with
  | unopened payload session idle going ended =>
    obtain ⟨hterminal, hnot⟩ := ended hended
    rw [session]
    exact ⟨hterminal, session, .unopened idle hnot⟩
  | @opened dir s payload session destination moored agrees numbered clearable going ended done =>
    rw [session]
    simp only
    by_cases hdone : a.item.state = .done
    · obtain ⟨hsuits, hexhausted⟩ := done hended hdone
      have hcommitted := Session.commit_committed moored agrees numbered hsuits hexhausted
      rw [if_pos hdone]
      generalize s.commit t = r at hcommitted
      cases hcommitted with
      | published hc hholds hbare hkind =>
        exact ⟨ended hended, rfl, .published moored agrees hdone hc hholds hbare hkind⟩
      | dropped hc hbare => exact ⟨rfl, rfl, .dropped moored agrees (by simp) hc hbare⟩
    · obtain ⟨hc, hbare⟩ := Session.abandon_bare moored agrees clearable destination
      rw [if_neg hdone]
      exact ⟨ended hended, rfl, .dropped moored agrees hdone hc hbare⟩

variable {σ : Type}

/-- Closing a job is finishing its item. -/
theorem close_eq (w : Worker) (g : Surroundings σ) (r : Running) :
    (w.close g r).finished = some ⟨r.client, (r.attempt.item.finish g.tree).1⟩ ∧
      (w.close g r).surroundings.tree = (r.attempt.item.finish g.tree).2 := by
  have hsame : r.attempt.item.state ≠ .done →
      r.attempt.item.finish g.tree = r.attempt.item.dropSession g.tree := by
    intro hnot
    unfold Item.finish Item.dropSession
    simp only [if_neg hnot]
  by_cases hdone : r.attempt.item.state = .done
  · simp [Worker.close, hdone]
  · simp [Worker.close, hdone, hsame hdone]

/-- Closing a job moves its payload to the destination, or leaves nothing of it. -/
theorem close {w : Worker} {g : Surroundings σ} {r : Running} (h : r.attempt.Carries L g.tree)
    (hended : r.attempt.stage = .ended) :
    ∃ j, (w.close g r).finished = some j ∧ j.item.state.isTerminal ∧ j.item.session = none ∧
      L.Closed g.tree j.item (w.close g r).surroundings.tree := by
  obtain ⟨hfinished, htree⟩ := close_eq w g r
  rw [hfinished, htree]
  exact ⟨_, rfl, h.finish hended⟩

end Attempt.Carries

/-! ## Steps of a run -/

namespace JobRun

variable {σ : Type} {L : Lane} {x : JobRun σ}

/-- How far a run has come that is not over. -/
inductive Underway (L : Lane) (x : JobRun σ) : Prop
  /-- The job is still to be checked. -/
  | waiting {j : Job} (unfinished : x.finished = none)
      (duty : x.worker.duty = .received j ∨ x.worker.duty = .preparing j) (idle : L.Idle x.tree)
      (payload : j.item.payload = L.payload) (session : j.item.session = none)
      (destination : j.item.destination = some L.destination)
  /-- The job is being run. -/
  | running {r : Running} (unfinished : x.finished = none) (duty : x.worker.duty = .running r)
      (carries : r.attempt.Carries L x.tree)

namespace Underway

theorem unfinished (h : x.Underway L) : x.finished = none := by
  cases h <;> assumption

/-- The staged copy is still to be begun, or the tree is the ground away from where it may
differ. -/
theorem tree (h : x.Underway L) :
    L.Idle x.tree ∨ ∃ dir, L.Moored dir ∧ L.ground.Agrees (L.Busy dir) x.tree := by
  cases h with
  | waiting _ _ idle _ _ _ => exact .inl idle
  | running _ _ carries =>
    cases carries with
    | unopened _ _ idle _ _ => exact .inl idle
    | opened _ _ _ moored agrees _ _ _ _ _ => exact .inr ⟨_, moored, agrees⟩

theorem start {w : Worker} {g : Surroundings σ} {j : Job} (hidle : L.Idle g.tree)
    (hpayload : j.item.payload = L.payload) (hsession : j.item.session = none)
    (hdest : j.item.destination = some L.destination) : (JobRun.start w g j).Underway L :=
  .waiting rfl (.inl rfl) hidle hpayload hsession hdest

theorem post (h : x.Underway L) (mail : Mail) :
    ({ x with worker := x.worker.post mail } : JobRun σ).Underway L := by
  cases h with
  | waiting unfinished duty idle payload session destination =>
    exact .waiting unfinished duty idle payload session destination
  | running unfinished duty carries => exact .running unfinished duty carries

/-- What others change away from the staged copy does not matter to a run. -/
theorem frame (h : x.Underway L) {g : Surroundings σ} {Q : Location → Prop}
    (hc : x.tree.Changes Q g.tree) (hidle : L.Idle x.tree → L.Idle g.tree)
    (hoff : ∀ dir, L.Moored dir → ∀ l, Q l → ¬stageAt dir L.name <+: l ∧ L.Busy dir l) :
    ({ x with surroundings := g } : JobRun σ).Underway L := by
  cases h with
  | waiting unfinished duty idle payload session destination =>
    exact .waiting unfinished duty (hidle idle) payload session destination
  | running unfinished duty carries =>
    exact .running unfinished duty (carries.frame hc hidle hoff)

/-- While its job is unfinished the worker can take a step. It stays on its way, or it finishes
the job. -/
theorem step (h : x.Underway L) (hL : L.Ready) (m : StorageManager σ) (buffer : BufferSize) :
    ∃ r, x.worker.step m buffer x.surroundings = some r ∧
      ((⟨r.worker, r.surroundings, r.finished⟩ : JobRun σ).Underway L ∧
          L.Touched x.tree r.surroundings.tree ∨
        ∃ j, r.finished = some j ∧ j.item.state.isTerminal ∧ j.item.session = none ∧
          L.Closed x.tree j.item r.surroundings.tree) := by
  cases h with
  | @waiting j unfinished duty idle payload session destination =>
    have hreject : ∀ state : ItemState, state.isTerminal → state ≠ .done →
        ∃ j', (x.worker.reject x.surroundings j state).finished = some j' ∧
          j'.item.state.isTerminal ∧ j'.item.session = none ∧
          L.Closed x.tree j'.item (x.worker.reject x.surroundings j state).surroundings.tree :=
      fun state hterminal hnot => ⟨_, rfl, hterminal, session, .unopened idle hnot⟩
    rcases duty with duty | duty
    · unfold Worker.step
      rw [duty]
      cases hcheck : j.item.checkSource x.surroundings.tree with
      | error f =>
        exact ⟨_, by simp only [hcheck], .inr (hreject .sourceVanished rfl (by simp))⟩
      | ok =>
        exact ⟨⟨{ x.worker with duty := .preparing j }, x.surroundings, none⟩,
          by simp only [hcheck],
          .inl ⟨.waiting rfl (.inr rfl) idle payload session destination, .not⟩⟩
    · have hprepare : x.worker.prepare m buffer x.surroundings j =
          some (x.worker.launch buffer x.surroundings j) := by
        cases hwish : j.item.wish <;> simp [Worker.prepare, destination, hwish]
      unfold Worker.step
      rw [duty]
      refine ⟨_, hprepare, ?_⟩
      unfold Worker.launch
      cases hcheck : j.item.checkDestination x.surroundings.tree with
      | error f =>
        have hunfit : (Worker.unfit j.item).isTerminal ∧ Worker.unfit j.item ≠ .done := by
          unfold Worker.unfit
          split <;> exact ⟨rfl, by simp⟩
        exact .inr (hreject _ hunfit.1 hunfit.2)
      | ok =>
        exact .inl ⟨.running rfl rfl (.unopened payload session idle (fun _ => destination)
          fun h => by simp [Attempt.start] at h), .not⟩
  | @running r unfinished duty carries =>
    refine ⟨x.worker.runStep x.surroundings r, by simp only [Worker.step, duty], ?_⟩
    unfold Worker.runStep
    cases hstage : r.attempt.stage with
    | ended => exact .inr (carries.close hstage)
    | listening => exact .inl ⟨.running rfl rfl (carries.hear (by simp [hstage]) _), .not⟩
    | moving =>
      obtain ⟨hcarries, htouched⟩ := carries.move (by simp [hstage]) hL
      exact .inl ⟨.running rfl rfl hcarries, htouched⟩

/-- A beat leaves the run on its way, or it finishes the job. -/
theorem next (h : x.Underway L) (hL : L.Ready) (m : StorageManager σ) (buffer : BufferSize)
    (b : Beat) :
    (x.next m buffer b).Underway L ∧ L.Touched x.tree (x.next m buffer b).tree ∨
      ∃ j, (x.next m buffer b).finished = some j ∧ j.item.state.isTerminal ∧
        j.item.session = none ∧ L.Closed x.tree j.item (x.next m buffer b).tree := by
  cases b with
  | post mail => exact .inl ⟨h.post mail, .not⟩
  | step =>
    obtain ⟨r, hstep, hr⟩ := h.step hL m buffer
    have hnext : x.next m buffer .step = ⟨r.worker, r.surroundings, r.finished⟩ := by
      simp [JobRun.next, h.unfinished, hstep]
    rw [hnext]
    exact hr

/-- A worker that is left alone finishes its job. -/
theorem finishes (hL : L.Ready) (m : StorageManager σ) (buffer : BufferSize) (x : JobRun σ)
    (h : x.Underway L) : ∃ k, (x.after m buffer (List.replicate k .step)).finished.isSome := by
  obtain ⟨r, hstep, hr⟩ := h.step hL m buffer
  have hnext : x.next m buffer .step = ⟨r.worker, r.surroundings, r.finished⟩ := by
    simp [JobRun.next, h.unfinished, hstep]
  rcases hr with ⟨hunder, -⟩ | ⟨j, hfinished, -⟩
  · obtain ⟨k, hk⟩ := finishes hL m buffer ⟨r.worker, r.surroundings, r.finished⟩ hunder
    refine ⟨k + 1, ?_⟩
    rw [List.replicate_succ, JobRun.after, List.foldl_cons, hnext]
    exact hk
  · exact ⟨1, by simp [JobRun.after, hnext, hfinished]⟩
termination_by x.worker.left x.surroundings.tree
decreasing_by exact Worker.step_progress hstep

end Underway

end JobRun

end Haulage
