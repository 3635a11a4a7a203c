import Haulage.Proofs.Workshop

/-!
# Workers that come to rest

A worker that is left alone goes on until it comes to rest: it has ended, it has no mail left, or
it waits for the storage manager (`Worker.step_eq_none_iff`).

In a workshop, letting a worker come to rest is letting it take so many steps
(`Workshop.exists_works`), and letting all of them is one such run after the other
(`Workshop.exists_settle`). So a shutdown that nothing interrupts is made of acts of the workshop
(`Workshop.exists_shutdown`).
-/

namespace Haulage

namespace Worker

variable {σ : Type} {m : StorageManager σ} {buffer : BufferSize} {w : Worker} {g : Surroundings σ}

/-! ## At rest -/

/-- The worker waits for the storage manager to allocate a destination. -/
def Waits (m : StorageManager σ) (g : Surroundings σ) (w : Worker) : Prop :=
  ∃ j wish, w.duty = .preparing j ∧ j.item.wish = some wish ∧ j.item.destination = none ∧
    m.busy g.storage wish.label = true

/-- A worker without mail has taken all of it. -/
theorem nextMail_eq_none_iff : w.nextMail = none ↔ w.queue = [] := by
  refine ⟨queue_of_nextMail_none, fun h => ?_⟩
  obtain ⟨hbacklog, hinbox⟩ := List.append_eq_nil_iff.mp h
  unfold nextMail
  rw [hbacklog, hinbox]

/-- Preparing a job only ever has to wait for the storage manager. -/
theorem prepare_eq_none_iff {j : Job} (duty : w.duty = .preparing j) :
    w.prepare m buffer g j = none ↔ w.Waits m g := by
  unfold prepare
  constructor
  · intro h
    split at h
    · rename_i wish hwish hdestination
      split at h
      · rename_i hbusy
        exact ⟨j, wish, duty, hwish, hdestination, hbusy⟩
      · split at h <;> cases h
    · cases h
  · rintro ⟨j', wish, duty', hwish, hdestination, hbusy⟩
    obtain rfl := Duty.preparing.inj (duty.symm.trans duty')
    simp only [hwish, hdestination, hbusy, if_true]

/-- A worker comes to rest when it has ended, when it has nothing to do, or while it waits. -/
theorem step_eq_none_iff : w.step m buffer g = none ↔
    w.isGone = true ∨ (w.duty = .idle ∧ w.queue = []) ∨ w.Waits m g := by
  have hwaits (hne : ∀ j, w.duty ≠ .preparing j) : ¬w.Waits m g := by
    rintro ⟨j, -, hduty, -⟩
    exact hne j hduty
  unfold step isGone
  cases hduty : w.duty with
  | gone => simp
  | idle =>
    have hnone := nextMail_eq_none_iff (w := w)
    have hno := hwaits fun j hj => by simp [hduty] at hj
    cases hnext : w.nextMail with
    | none => simp [hnone.mp hnext]
    | some x =>
      have hne : w.queue ≠ [] := fun hempty => by simp [hnone.mpr hempty] at hnext
      obtain ⟨mail, w'⟩ := x
      cases mail <;> simp [hne, hno]
  | received j =>
    have hno := hwaits fun j hj => by simp [hduty] at hj
    simp only [hno, Bool.false_eq_true, or_false, reduceCtorEq, false_and, iff_false]
    split <;> simp
  | preparing j =>
    have hwaiting : w.prepare m buffer g j = none ↔ w.Waits m g := prepare_eq_none_iff hduty
    simpa using hwaiting
  | running r => simp [hwaits fun j hj => by simp [hduty] at hj]

/-- A worker that is let go on comes to rest. -/
theorem step_settle (m : StorageManager σ) (buffer : BufferSize) (w : Worker) (g : Surroundings σ)
    (finished : List Job) :
    (w.settle m buffer g finished).1.step m buffer (w.settle m buffer g finished).2.1 = none := by
  fun_induction w.settle m buffer g finished with
  | case1 w g finished hstep => exact hstep
  | case2 w g finished r hstep ih => exact ih

/-- A worker at rest stays as it is. -/
theorem settle_of_rest (hstep : w.step m buffer g = none) (finished : List Job) :
    w.settle m buffer g finished = (w, g, finished) := by
  rw [settle]
  split
  · rfl
  · rename_i r hr
    rw [hstep] at hr
    cases hr

/-- A worker that takes a step goes on from there. -/
theorem settle_of_step {r : StepResult σ} (hstep : w.step m buffer g = some r)
    (finished : List Job) :
    w.settle m buffer g finished =
      r.worker.settle m buffer r.surroundings (finished ++ r.finished.toList) := by
  rw [settle]
  split
  · rename_i hr
    rw [hstep] at hr
    cases hr
  · rename_i r' hr
    obtain rfl := Option.some.inj (hstep.symm.trans hr)
    rfl

/-- Jobs collected before come first. -/
theorem settle_append (m : StorageManager σ) (buffer : BufferSize) (w : Worker)
    (g : Surroundings σ) (collected finished : List Job) :
    w.settle m buffer g (collected ++ finished) = ((w.settle m buffer g finished).1,
      (w.settle m buffer g finished).2.1, collected ++ (w.settle m buffer g finished).2.2) := by
  fun_induction w.settle m buffer g finished with
  | case1 w g finished hstep => exact settle_of_rest hstep _
  | case2 w g finished r hstep ih =>
    rw [settle_of_step hstep, List.append_assoc]
    exact ih

end Worker

namespace Workshop

variable {κ σ : Type}

/-! ## Workers left alone -/

/-- Finishing jobs changes nothing but the jobs finished and the wakeup. -/
theorem foldl_complete_eq (jobs : List Job) (p : Pool κ) :
    jobs.foldl Pool.complete p = { p with
      completed := p.completed ++ jobs
      wakeup := jobs.foldl (fun u _ => u.notify) p.wakeup } := by
  induction jobs generalizing p with
  | nil => simp
  | cons j rest ih => simp [ih, Pool.complete]

/-- The workshop after a worker was left alone until it came to rest. -/
def rested (m : StorageManager σ) (y : Workshop κ σ) (k : ℕ) (log : List (Entry κ)) :
    Workshop κ σ :=
  { y with
    pool := (Pool.settleWorker m k y.pool y.ground).1
    ground := (Pool.settleWorker m k y.pool y.ground).2
    log := log }

/-- Letting a worker that takes a step go on is letting it go on from there. -/
theorem settleWorker_worked {m : StorageManager σ} {y : Workshop κ σ} {k : ℕ} {w : Worker}
    {r : StepResult σ} (worker : y.pool.crew[k]? = some w)
    (step : w.step m y.pool.buffer y.ground = some r) :
    Pool.settleWorker m k (y.worked k r).pool (y.worked k r).ground =
      Pool.settleWorker m k y.pool y.ground := by
  have hlt : k < y.pool.crew.length := (List.getElem?_eq_some_iff.mp worker).1
  have hsettle := Worker.settle_append m y.pool.buffer r.worker r.surroundings r.finished.toList []
  rw [List.append_nil] at hsettle
  simp only [Pool.settleWorker, worked, foldl_complete_eq, worker, List.getElem?_set_self hlt,
    Worker.settle_of_step step, List.nil_append, hsettle, List.foldl_append, List.set_set,
    List.append_assoc]

/-- Letting a worker take so many steps brings it to rest, and does nothing else. -/
theorem exists_works (m : StorageManager σ) (y : Workshop κ σ) (k : ℕ) :
    ∃ n log, (List.replicate n (.work k)).foldl (next m) y = y.rested m k log := by
  cases hworker : y.pool.crew[k]? with
  | none =>
    refine ⟨0, y.log, ?_⟩
    simp only [rested, Pool.settleWorker, hworker]
    rfl
  | some w =>
    -- The induction is along the steps by which the worker comes to rest.
    suffices hrest : ∀ buffer g (finished : List Job), y.pool.buffer = buffer → y.ground = g →
        ∃ n log, (List.replicate n (.work k)).foldl (next m) y = y.rested m k log from
      hrest _ _ [] rfl rfl
    intro buffer g finished
    fun_induction w.settle m buffer g finished generalizing y with
    | case1 w g finished hstep =>
      rintro rfl rfl
      have hlt := List.getElem?_eq_some_iff.mp hworker
      refine ⟨0, y.log, ?_⟩
      simp only [rested, Pool.settleWorker, hworker, Worker.settle_of_rest hstep]
      rw [← hlt.2, List.set_getElem_self]
      rfl
    | case2 w g finished r hstep ih =>
      rintro rfl rfl
      have hlt : k < y.pool.crew.length := (List.getElem?_eq_some_iff.mp hworker).1
      have hnext : y.next m (.work k) = y.worked k r := by
        simp only [next, hworker, hstep]
      have hcrew : (y.worked k r).pool.crew[k]? = some r.worker := by
        simp only [worked, foldl_complete_eq, List.getElem?_set_self hlt]
      have hbuffer : (y.worked k r).pool.buffer = y.pool.buffer := by
        simp only [worked, foldl_complete_eq]
      obtain ⟨n, log, hworks⟩ := ih (y.worked k r) hcrew hbuffer rfl
      refine ⟨n + 1, log, ?_⟩
      rw [List.replicate_succ, List.foldl_cons, hnext, hworks]
      unfold rested
      rw [settleWorker_worked hworker hstep]
      rfl

/-- The worker is at rest then. -/
theorem step_rested (m : StorageManager σ) (y : Workshop κ σ) {k : ℕ} {w : Worker}
    (worker : y.pool.crew[k]? = some w) (log : List (Entry κ)) :
    ∃ w', (y.rested m k log).pool.crew[k]? = some w' ∧
      w'.step m (y.rested m k log).pool.buffer (y.rested m k log).ground = none := by
  have hlt : k < y.pool.crew.length := (List.getElem?_eq_some_iff.mp worker).1
  refine ⟨(w.settle m y.pool.buffer y.ground []).1, ?_, ?_⟩
  · simp only [rested, Pool.settleWorker, worker, foldl_complete_eq, List.getElem?_set_self hlt]
  · simp only [rested, Pool.settleWorker, worker, foldl_complete_eq]
    exact Worker.step_settle m y.pool.buffer w y.ground []

/-! ## Calls that nothing interrupts -/

/-- Doing all errands one after the other. -/
theorem runs_eq (m : StorageManager σ) (y : Workshop κ σ) :
    (List.replicate y.errands.length .run).foldl (next m) y =
      { y with pool := y.errands.foldl Pool.run y.pool, errands := [] } := by
  obtain ⟨pool, ground, errands, delivery, log⟩ := y
  induction errands generalizing pool with
  | nil => rfl
  | cons e rest ih => exact ih (pool.run e)

/-- Letting all workers go on is letting each take so many steps. -/
theorem exists_settle (m : StorageManager σ) (y : Workshop κ σ) :
    ∃ (acts : List (Act κ σ)) (log : List (Entry κ)), (∀ a ∈ acts, ∃ k, a = .work k) ∧
      acts.foldl (next m) y = { y with
        pool := (Pool.settle m y.pool y.ground).1
        ground := (Pool.settle m y.pool y.ground).2
        log := log } := by
  suffices hall : ∀ places : List ℕ, ∃ (acts : List (Act κ σ)) (log : List (Entry κ)),
      (∀ a ∈ acts, ∃ k, a = .work k) ∧ acts.foldl (next m) y = { y with
        pool := (places.foldl (fun x k => Pool.settleWorker m k x.1 x.2) (y.pool, y.ground)).1
        ground := (places.foldl (fun x k => Pool.settleWorker m k x.1 x.2) (y.pool, y.ground)).2
        log := log } from hall _
  intro places
  induction places generalizing y with
  | nil => exact ⟨[], y.log, fun a ha => absurd ha List.not_mem_nil, rfl⟩
  | cons k places ih =>
    obtain ⟨n, log, hworks⟩ := exists_works m y k
    obtain ⟨acts, log', honly, hacts⟩ := ih (y.rested m k log)
    refine ⟨List.replicate n (.work k) ++ acts, log', ?_, ?_⟩
    · intro a ha
      rcases List.mem_append.mp ha with hwork | hlater
      · exact ⟨k, List.eq_of_mem_replicate hwork⟩
      · exact honly a hlater
    · rw [List.foldl_append, hworks, hacts]
      rfl

/-- Workers that go on leave the phase of the pool alone. -/
theorem phase_settle (m : StorageManager σ) (p : Pool κ) (g : Surroundings σ) :
    (Pool.settle m p g).1.phase = p.phase := by
  have hone (k : ℕ) (p : Pool κ) (g : Surroundings σ) :
      (Pool.settleWorker m k p g).1.phase = p.phase := by
    unfold Pool.settleWorker
    split
    · rfl
    · simp only [foldl_complete_eq]
  unfold Pool.settle
  generalize List.range p.crew.length = places
  induction places generalizing p g with
  | nil => rfl
  | cons k places ih => exact (ih _ _).trans (hone k p g)

/-- Shutting a running pool down, with nothing in between but its workers, is a run of the workshop
if they all end. -/
theorem exists_shutdown (m : StorageManager σ) {y : Workshop κ σ} (calm : y.errands = [])
    (running : y.pool.phase = .running)
    (gone : (Pool.settle m
      ({ y.pool with phase := .shutDown } |>.postAll .stop) y.ground).1.crew.all Worker.isGone) :
    ∃ (acts : List (Act κ σ)) (log : List (Entry κ)),
      (∀ a ∈ acts, a = .run ∨ ∃ k, a = .work k) ∧
      (acts.foldl (next m) (y.next m .stop)).next m .dismiss = { y with
        pool := (y.pool.shutdown m y.ground).1
        ground := (y.pool.shutdown m y.ground).2
        log := log } := by
  -- The pool is told to stop at once, and then its workers go on.
  obtain ⟨told, htold⟩ : ∃ p : Pool κ, p = ({ y.pool with phase := .shutDown }).postAll .stop :=
    ⟨_, rfl⟩
  rw [← htold] at gone
  have hstop : y.next m .stop =
      { y with pool := { y.pool with phase := .shutDown }, errands := y.pool.postings .stop } := by
    simp only [next, calm, running]
  have hruns := runs_eq m (y.next m .stop)
  rw [hstop] at hruns
  change _ = { y with
    pool := (({ y.pool with phase := .shutDown } : Pool κ).postings .stop).foldl Pool.run _
    errands := [] } at hruns
  rw [← Pool.postAll_eq_foldl, ← htold] at hruns
  obtain ⟨works, log, honly, hworks⟩ := exists_settle m { y with pool := told, errands := [] }
  have hdown : (Pool.settle m told y.ground).1.phase = .shutDown := by
    rw [phase_settle, htold]
    rfl
  refine ⟨List.replicate (y.pool.postings .stop).length .run ++ works, log, ?_, ?_⟩
  · intro a ha
    rcases List.mem_append.mp ha with hrun | hwork
    · exact Or.inl (List.eq_of_mem_replicate hrun)
    · exact Or.inr (honly a hwork)
  · rw [hstop, List.foldl_append, hruns, hworks]
    simp only [next, hdown, gone, if_true, Pool.shutdown, running, ← htold, calm]

end Workshop

end Haulage
