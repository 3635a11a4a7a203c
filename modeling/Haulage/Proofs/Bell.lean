import Haulage.Pool.Basic
import Mathlib.Data.List.Induction
import Mathlib.Logic.Function.Basic

/-!
# Wakeups for finished jobs

A worker that has finished a job hands it in, claims the wakeup, and writes a byte into the pipe
unless the wakeup had been claimed before. The handler empties the pipe, lets go of the claim, and
takes the jobs that were handed in until there are none. In `Bell` each of these is a step of its
own, of any number of workers and of the handler, in any order; the handler may begin its round
although nobody called it. The operations of the pool are these steps, one right after the other.

`Bell.readable_after` says both that and that no wakeup is lost. Two things are kept by every step:
a claim is followed up, and jobs that were handed in are claimed for. Both have exceptions while
somebody is still busy, and when nobody is, the two together leave a byte in the pipe.
-/

namespace Haulage

/-- How far a worker has come with a job that it finished. -/
inductive Handover where
  /-- It has nothing to hand in, or has done all there is to do. -/
  | done
  /-- It has handed in the job. -/
  | handedIn
  /-- It has claimed the wakeup, and is going to write. -/
  | claimed
  deriving Repr, DecidableEq

/-- How far the handler has come with its round. -/
inductive Watch where
  /-- It waits. -/
  | away
  /-- It has emptied the pipe. -/
  | drained
  /-- It takes the jobs that were handed in. -/
  | taking
  deriving Repr, DecidableEq

/-- A pool with workers that hand in jobs and a handler that takes them. -/
structure Bell (κ : Type) where
  pool : Pool κ
  handovers : ℕ → Handover
  round : Watch

/-- A step of a worker or of the handler. One that it is too early or too late for does nothing. -/
inductive Stroke where
  /-- A worker hands in a job. -/
  | handIn (k : ℕ) (j : Job)
  /-- It claims the wakeup. -/
  | claim (k : ℕ)
  /-- It writes a byte. -/
  | write (k : ℕ)
  /-- The handler empties the pipe. -/
  | drain
  /-- It lets go of the claim. -/
  | disarm
  /-- It takes the oldest job, and goes away if there is none. -/
  | take
  deriving Repr, DecidableEq

namespace Bell

variable {κ : Type}

/-- A pool that was just created, and nobody busy. -/
def create (settings : Settings) (loop : EventLoop) : Bell κ :=
  ⟨.create settings loop, fun _ => .done, .away⟩

/-- The bell after a step. -/
def next (b : Bell κ) : Stroke → Bell κ
  | .handIn k j => match b.handovers k with
    | .done =>
      { b with
        pool := { b.pool with completed := b.pool.completed ++ [j] }
        handovers := Function.update b.handovers k .handedIn }
    | _ => b
  | .claim k => match b.handovers k with
    | .handedIn =>
      { b with
        pool := { b.pool with wakeup := b.pool.wakeup.arm.2 }
        handovers :=
          Function.update b.handovers k (if b.pool.wakeup.arm.1 then .done else .claimed) }
    | _ => b
  | .write k => match b.handovers k with
    | .claimed =>
      { b with
        pool := { b.pool with wakeup := b.pool.wakeup.write }
        handovers := Function.update b.handovers k .done }
    | _ => b
  | .drain => match b.round with
    | .away => { b with pool := { b.pool with wakeup := b.pool.wakeup.drain }, round := .drained }
    | _ => b
  | .disarm => match b.round with
    | .drained =>
      { b with pool := { b.pool with wakeup := b.pool.wakeup.disarm }, round := .taking }
    | _ => b
  | .take => match b.round with
    | .taking => match b.pool.takeCompleted with
      | none => { b with round := .away }
      | some (_, p) => { b with pool := p }
    | _ => b

/-- The bell after some steps. -/
def after (settings : Settings) (loop : EventLoop) (steps : List Stroke) : Bell κ :=
  steps.foldl next (create settings loop)

/-- One more step comes last. -/
theorem after_concat (settings : Settings) (loop : EventLoop) (steps : List Stroke) (s : Stroke) :
    (after settings loop (steps ++ [s]) : Bell κ) = (after settings loop steps).next s := by
  unfold after
  rw [List.foldl_append]
  rfl

/-! ## Effects of steps -/

/-- What a step does. -/
inductive Effect (b : Bell κ) : Bell κ → Prop
  /-- It is too early or too late for the step. -/
  | nothing : Effect b b
  /-- A worker hands in a job. -/
  | handIn {k : ℕ} {j : Job} (handover : b.handovers k = .done) :
      Effect b { b with
        pool := { b.pool with completed := b.pool.completed ++ [j] }
        handovers := Function.update b.handovers k .handedIn }
  /-- A worker claims the wakeup. -/
  | claim {k : ℕ} (handover : b.handovers k = .handedIn) (unclaimed : b.pool.wakeup.armed = false) :
      Effect b { b with
        pool := { b.pool with wakeup := b.pool.wakeup.arm.2 }
        handovers := Function.update b.handovers k .claimed }
  /-- A worker finds the wakeup claimed. -/
  | yield {k : ℕ} (handover : b.handovers k = .handedIn) (claimed : b.pool.wakeup.armed = true) :
      Effect b { b with
        pool := { b.pool with wakeup := b.pool.wakeup.arm.2 }
        handovers := Function.update b.handovers k .done }
  /-- A worker writes a byte. -/
  | write {k : ℕ} (handover : b.handovers k = .claimed) :
      Effect b { b with
        pool := { b.pool with wakeup := b.pool.wakeup.write }
        handovers := Function.update b.handovers k .done }
  /-- The handler begins its round. -/
  | drain (round : b.round = .away) :
      Effect b { b with
        pool := { b.pool with wakeup := b.pool.wakeup.drain }, round := .drained }
  /-- The handler lets go of the claim. -/
  | disarm (round : b.round = .drained) :
      Effect b { b with
        pool := { b.pool with wakeup := b.pool.wakeup.disarm }, round := .taking }
  /-- The handler takes a job. -/
  | take {j : Job} {rest : List Job} (round : b.round = .taking)
      (completed : b.pool.completed = j :: rest) :
      Effect b { b with pool := { b.pool with completed := rest } }
  /-- The handler finds no more jobs. -/
  | leave (round : b.round = .taking) (completed : b.pool.completed = []) :
      Effect b { b with round := .away }

/-- Every step has one of the effects. -/
theorem effect_next (b : Bell κ) (s : Stroke) : Effect b (b.next s) := by
  cases s with
  | handIn k j =>
    simp only [next]
    split
    · rename_i hk
      exact Effect.handIn hk
    · exact Effect.nothing
  | claim k =>
    simp only [next]
    split
    · rename_i hk
      cases harmed : b.pool.wakeup.armed with
      | true =>
        rw [if_pos (show b.pool.wakeup.arm.1 = true from harmed)]
        exact Effect.yield hk harmed
      | false =>
        rw [if_neg (show ¬ b.pool.wakeup.arm.1 = true from Bool.eq_false_iff.mp harmed)]
        exact Effect.claim hk harmed
    · exact Effect.nothing
  | write k =>
    simp only [next]
    split
    · rename_i hk
      exact Effect.write hk
    · exact Effect.nothing
  | drain =>
    simp only [next]
    split
    · rename_i hround
      exact Effect.drain hround
    · exact Effect.nothing
  | disarm =>
    simp only [next]
    split
    · rename_i hround
      exact Effect.disarm hround
    · exact Effect.nothing
  | take =>
    simp only [next, Pool.takeCompleted]
    split
    · rename_i hround
      cases hjobs : b.pool.completed with
      | nil => exact Effect.leave hround hjobs
      | cons j rest => exact Effect.take hround hjobs
    · exact Effect.nothing

/-! ## Steps in a row -/

/-- A worker that is not interrupted completes the job. -/
theorem complete_eq_steps {b : Bell κ} {k : ℕ} (h : b.handovers k = .done) (j : Job) :
    [Stroke.handIn k j, .claim k, .write k].foldl next b =
      { b with pool := b.pool.complete j } := by
  have hback (x : Handover) :
      Function.update (Function.update b.handovers k x) k .done = b.handovers := by
    rw [Function.update_idem, ← h, Function.update_eq_self]
  cases harmed : b.pool.wakeup.armed with
  | true =>
    simp only [List.foldl_cons, List.foldl_nil, next, h, Function.update_self, Wakeup.arm, harmed,
      if_true, hback, Pool.complete, Wakeup.notify]
  | false =>
    simp only [List.foldl_cons, List.foldl_nil, next, h, Function.update_self, Wakeup.arm, harmed,
      Bool.false_eq_true, if_false, Function.update_idem, hback, Pool.complete, Wakeup.notify]

/-- A handler that is not interrupted acknowledges the wakeup. -/
theorem acknowledge_eq_steps {b : Bell κ} (h : b.round = .away) :
    [Stroke.drain, .disarm].foldl next b =
      { b with
        pool := { b.pool with wakeup := b.pool.wakeup.acknowledge }
        round := .taking } := by
  simp only [List.foldl_cons, List.foldl_nil, next, h, Wakeup.acknowledge]

/-- A handler that is not interrupted takes all jobs, and goes away. -/
theorem takes_eq_steps {b : Bell κ} (h : b.round = .taking) :
    (List.replicate (b.pool.completed.length + 1) Stroke.take).foldl next b =
      { b with pool := { b.pool with completed := [] }, round := .away } := by
  obtain ⟨pool, handovers, round⟩ := b
  obtain rfl : round = .taking := h
  generalize hjobs : pool.completed = jobs
  induction jobs generalizing pool with
  | nil =>
    change next ⟨pool, handovers, .taking⟩ .take = _
    simp only [next, Pool.takeCompleted, hjobs]
    rw [← hjobs]
  | cons j rest ih =>
    have hnext : next ⟨pool, handovers, .taking⟩ .take =
        ⟨{ pool with completed := rest }, handovers, .taking⟩ := by
      simp only [next, Pool.takeCompleted, hjobs]
    rw [List.length_cons, List.replicate_succ, List.foldl_cons, hnext]
    exact ih _ rfl

/-! ## No wakeup is lost -/

/-- What is kept by every step. -/
structure Attended (b : Bell κ) : Prop where
  /-- A claim has been followed up by a byte, or somebody is about to do so, or the handler is about
  to let go of the claim. -/
  followed : b.pool.wakeup.armed = true →
    0 < b.pool.wakeup.pipe ∨ (∃ k, b.handovers k = .claimed) ∨ b.round = .drained
  /-- For jobs that were handed in the wakeup is claimed, or somebody is about to do so, or the
  handler is going to take them. -/
  announced : b.pool.completed ≠ [] →
    b.pool.wakeup.armed = true ∨ (∃ k, b.handovers k = .handedIn) ∨ b.round ≠ .away

/-- A worker that goes on leaves alone how far the others are. -/
theorem exists_update {handovers : ℕ → Handover} {k : ℕ} {x : Handover} (hk : handovers k ≠ x)
    (x' : Handover) (h : ∃ k, handovers k = x) : ∃ k', Function.update handovers k x' k' = x := by
  obtain ⟨k', hk'⟩ := h
  refine ⟨k', ?_⟩
  have hne : k' ≠ k := by
    rintro rfl
    exact hk hk'
  rw [Function.update_of_ne hne, hk']

/-- A byte that was written is in the pipe. -/
theorem pipe_write_pos (w : Wakeup) : 0 < w.write.pipe :=
  Nat.lt_min.mpr ⟨Nat.succ_pos _, by decide⟩

/-- A bell that nobody has used is attended. -/
theorem attended_create (settings : Settings) (loop : EventLoop) :
    (create settings loop : Bell κ).Attended := by
  constructor
  · intro harmed
    cases harmed
  · intro hjobs
    exact absurd rfl hjobs

/-- Every step leaves the bell attended. -/
theorem Attended.effect {b b' : Bell κ} (h : b.Attended) (heffect : Effect b b') :
    b'.Attended := by
  have hother {k : ℕ} {x x' : Handover} (hk : b.handovers k = x) (hne : x ≠ x') :
      b.handovers k ≠ x' := by
    rw [hk]
    exact hne
  cases heffect with
  | nothing => exact h
  | @handIn k j handover =>
    constructor
    · intro harmed
      rcases h.followed harmed with hpipe | hclaimed | hround
      · exact Or.inl hpipe
      · exact Or.inr (Or.inl (exists_update (hother handover Handover.noConfusion) _ hclaimed))
      · exact Or.inr (Or.inr hround)
    · intro _
      exact Or.inr (Or.inl ⟨k, Function.update_self _ _ _⟩)
  | @claim k handover unclaimed =>
    constructor
    · intro _
      exact Or.inr (Or.inl ⟨k, Function.update_self _ _ _⟩)
    · intro _
      exact Or.inl rfl
  | @yield k handover claimed =>
    constructor
    · intro _
      rcases h.followed claimed with hpipe | hclaimed | hround
      · exact Or.inl hpipe
      · exact Or.inr (Or.inl (exists_update (hother handover Handover.noConfusion) _ hclaimed))
      · exact Or.inr (Or.inr hround)
    · intro _
      exact Or.inl rfl
  | @write k handover =>
    constructor
    · intro _
      exact Or.inl (pipe_write_pos _)
    · intro hjobs
      rcases h.announced hjobs with harmed | hhanded | hround
      · exact Or.inl harmed
      · exact Or.inr (Or.inl (exists_update (hother handover Handover.noConfusion) _ hhanded))
      · exact Or.inr (Or.inr hround)
  | drain round =>
    constructor
    · intro _
      exact Or.inr (Or.inr rfl)
    · intro _
      exact Or.inr (Or.inr Watch.noConfusion)
  | disarm round =>
    constructor
    · intro harmed
      cases harmed
    · intro _
      exact Or.inr (Or.inr Watch.noConfusion)
  | @take j rest round completed =>
    constructor
    · exact h.followed
    · intro _
      refine Or.inr (Or.inr ?_)
      change b.round ≠ .away
      rw [round]
      exact Watch.noConfusion
  | leave round completed =>
    constructor
    · intro harmed
      rcases h.followed harmed with hpipe | hclaimed | hdrained
      · exact Or.inl hpipe
      · exact Or.inr (Or.inl hclaimed)
      · cases round.symm.trans hdrained
    · intro hjobs
      exact absurd completed hjobs

/-- Whatever workers and the handler do, the bell is attended. -/
theorem attended_after (settings : Settings) (loop : EventLoop) (steps : List Stroke) :
    (after settings loop steps : Bell κ).Attended := by
  induction steps using List.reverseRecOn with
  | nil => exact attended_create settings loop
  | append_singleton steps s ih =>
    rw [after_concat]
    exact ih.effect (effect_next _ s)

/-- Jobs that were handed in wake the handler. -/
structure Wakes (b : Bell κ) : Prop where
  /-- Whenever jobs were handed in, and no worker and not the handler is busy with that, a byte is
  in the pipe, so that the handler will be called. -/
  readable : b.pool.completed ≠ [] → (∀ k, b.handovers k = .done) → b.round = .away →
    b.pool.wakeup.readable = true
  /-- The steps of a worker that nobody interrupts complete its job. -/
  complete : ∀ k j, b.handovers k = .done →
    [Stroke.handIn k j, .claim k, .write k].foldl next b = { b with pool := b.pool.complete j }
  /-- The first two steps of a handler that nobody interrupts acknowledge the wakeup. -/
  acknowledge : b.round = .away →
    [Stroke.drain, .disarm].foldl next b = { b with
      pool := { b.pool with wakeup := b.pool.wakeup.acknowledge }, round := .taking }
  /-- The others take the jobs that were handed in. -/
  take : b.round = .taking →
    (List.replicate (b.pool.completed.length + 1) Stroke.take).foldl next b =
      { b with pool := { b.pool with completed := [] }, round := .away }

/-- An attended bell with jobs, and nobody busy, is readable. -/
theorem Attended.readable {b : Bell κ} (h : b.Attended) (hjobs : b.pool.completed ≠ [])
    (hworkers : ∀ k, b.handovers k = .done) (hround : b.round = .away) :
    b.pool.wakeup.readable = true := by
  have hnone {x : Handover} (hx : x ≠ .done) : ¬ ∃ k, b.handovers k = x := by
    rintro ⟨k, hk⟩
    exact hx (hk.symm.trans (hworkers k))
  have harmed : b.pool.wakeup.armed = true := by
    rcases h.announced hjobs with harmed | hhanded | hbusy
    · exact harmed
    · exact absurd hhanded (hnone Handover.noConfusion)
    · exact absurd hround hbusy
  rcases h.followed harmed with hpipe | hclaimed | hdrained
  · exact decide_eq_true hpipe
  · exact absurd hclaimed (hnone Handover.noConfusion)
  · rw [hround] at hdrained
    cases hdrained

/-- Whatever workers and the handler do, no wakeup is lost. -/
theorem readable_after (settings : Settings) (loop : EventLoop) (steps : List Stroke) :
    (after settings loop steps : Bell κ).Wakes where
  readable := (attended_after settings loop steps).readable
  complete _ j h := complete_eq_steps h j
  acknowledge := acknowledge_eq_steps
  take := takes_eq_steps

/-- A worker that hands in a job between the two steps in which the handler acknowledges an earlier
one, and writes only after the handler went away. -/
def lateRun : List Stroke :=
  let job : Job := ⟨⟨1⟩, .fresh (.buffer .empty) (.inl ⟨"/to"⟩)⟩
  [.handIn 0 job, .claim 0, .drain, .disarm, .handIn 1 job, .claim 1, .take, .take, .take, .write 0,
    .handIn 2 job, .claim 2, .write 1]

/-- At the end of that run a job waits, nobody is busy, and the pipe is readable. -/
theorem readable_after_lateRun :
    (after Settings.defaults ⟨false, false, []⟩ lateRun : Bell Unit).pool.completed ≠ [] ∧
      (∀ k, (after Settings.defaults ⟨false, false, []⟩ lateRun : Bell Unit).handovers k = .done) ∧
      (after Settings.defaults ⟨false, false, []⟩ lateRun : Bell Unit).round = .away ∧
      (after Settings.defaults ⟨false, false, []⟩ lateRun : Bell Unit).pool.wakeup.readable =
        true := by
  have hjobs : (after Settings.defaults ⟨false, false, []⟩ lateRun : Bell Unit).pool.completed ≠
      [] := List.cons_ne_nil _ _
  have hworkers : ∀ k,
      (after Settings.defaults ⟨false, false, []⟩ lateRun : Bell Unit).handovers k = .done := by
    intro k
    rcases k with _ | _ | _ | k <;> rfl
  exact ⟨hjobs, hworkers, rfl, (readable_after _ _ _).readable hjobs hworkers rfl⟩

end Bell

end Haulage
