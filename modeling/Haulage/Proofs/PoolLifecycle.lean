import Haulage.Proofs.Finality
import Haulage.Proofs.Rest

/-!
# The life of a pool

A pool is started at most once and shut down for good. The event loop may refuse to watch its pipe
or complain when it is taken away, and may change its mind about both; so a start may fail, and be
tried again.

A shutdown takes a while: the workers are told to stop, and only when they have ended is what is
left dropped and the pipe no longer watched. A lifecycle is a workshop that remembers how far that
is. `PoolLifecycle.orderly_after` says what holds of it in every run: in which phases the pipe is
watched and there are workers, that a failed start leaves everything as it was, and that nothing
comes back after a shutdown is over.
-/

namespace Haulage

/-- How far a pool is with shutting down. -/
inductive Closure where
  /-- Nobody has asked for it. -/
  | none
  /-- The workers are to end. -/
  | underway
  /-- It is over. -/
  | complete
  deriving Repr, DecidableEq

/-- A workshop, and how far its pool is with shutting down. -/
structure PoolLifecycle (κ σ : Type) where
  workshop : Workshop κ σ
  closure : Closure
  deriving Repr

namespace PoolLifecycle

variable {κ σ : Type}

/-- What may happen. -/
inductive Event (κ σ : Type) where
  /-- An act of the workshop. -/
  | act (a : Act κ σ)
  /-- The event loop changes its mind about what it refuses and complains of. -/
  | mood (isFull complains : Bool)

/-- The pool with an event loop that changed its mind. -/
def swayed (p : Pool κ) (isFull complains : Bool) : Pool κ :=
  { p with loop := { p.loop with isFull := isFull, complains := complains } }

/-- How far the pool is with shutting down after an act. A second shutdown does not wait for the
first. -/
def closureAfter (t : PoolLifecycle κ σ) : Act κ σ → Closure
  | .stop => match t.workshop.errands, t.workshop.pool.phase with
    | [], .running => .underway
    | [], _ => if t.closure = .underway then .underway else .complete
    | _, _ => t.closure
  | .dismiss => match t.workshop.errands, t.workshop.pool.phase with
    | [], .shutDown => if t.workshop.pool.crew.all Worker.isGone then .complete else t.closure
    | _, _ => t.closure
  | _ => t.closure

/-- The lifecycle after an event. -/
def next (m : StorageManager σ) (t : PoolLifecycle κ σ) : Event κ σ → PoolLifecycle κ σ
  | .act a => ⟨t.workshop.next m a, t.closureAfter a⟩
  | .mood isFull complains =>
    { t with workshop := { t.workshop with pool := swayed t.workshop.pool isFull complains } }

/-- The lifecycle after some more events. -/
def later (m : StorageManager σ) (t : PoolLifecycle κ σ) (events : List (Event κ σ)) :
    PoolLifecycle κ σ :=
  events.foldl (next m) t

/-- One more event comes last. -/
theorem later_concat (m : StorageManager σ) (t : PoolLifecycle κ σ) (events : List (Event κ σ))
    (e : Event κ σ) : t.later m (events ++ [e]) = (t.later m events).next m e :=
  List.foldl_concat _ _ _ _

/-- The lifecycle after some events, from the beginning. -/
def after (m : StorageManager σ) (settings : Settings) (loop : EventLoop)
    (ground : Surroundings σ) (events : List (Event κ σ)) : PoolLifecycle κ σ :=
  later m ⟨.create settings loop ground, .none⟩ events

/-- How often the pipe of the pool is watched. -/
def watching (t : PoolLifecycle κ σ) : ℕ := t.workshop.pool.loop.watched.count Pool.descriptor

/-- A change of mind is nothing to the workshop. -/
theorem effect_mood (m : StorageManager σ) (y : Workshop κ σ) (isFull complains : Bool) :
    Workshop.Effect m y .acknowledge { y with pool := swayed y.pool isFull complains } :=
  .aside (by rintro ⟨⟩) rfl rfl rfl rfl

/-! ## What acts do to the equipment of a pool -/

/-- Two pools are in the same phase and have the same equipment. -/
structure SameGear (p p' : Pool κ) : Prop where
  phase : p'.phase = p.phase
  settings : p'.settings = p.settings
  loop : p'.loop = p.loop
  watcher : p'.watcher = p.watcher
  crew_length : p'.crew.length = p.crew.length

/-- Does the act begin or end the work of the pool? -/
def turns : Act κ σ → Bool
  | .start _ _ | .stop | .dismiss => true
  | _ => false

/-- All other acts leave the equipment alone. -/
theorem sameGear_next (m : StorageManager σ) (y : Workshop κ σ) {a : Act κ σ}
    (ha : turns a = false) : SameGear y.pool (y.next m a).pool := by
  have hsame : SameGear y.pool y.pool := ⟨rfl, rfl, rfl, rfl, rfl⟩
  cases a with
  | start machine watcher => cases ha
  | stop => cases ha
  | dismiss => cases ha
  | newClient => exact ⟨rfl, rfl, rfl, rfl, rfl⟩
  | submit c receiver items =>
    simp only [Workshop.next]
    split
    · split
      · exact hsame
      · exact ⟨rfl, rfl, rfl, rfl, rfl⟩
    · exact hsame
  | addItem c i =>
    simp only [Workshop.next]
    split
    · exact ⟨rfl, rfl, rfl, rfl, rfl⟩
    · exact hsame
  | cancel c =>
    simp only [Workshop.next]
    split
    · exact hsame
    · exact hsame
  | detach c => exact ⟨rfl, rfl, rfl, rfl, rfl⟩
  | broadcast s =>
    simp only [Workshop.next]
    split
    · exact hsame
    · exact hsame
  | run =>
    simp only [Workshop.next]
    split
    · exact hsame
    · rename_i e rest herrands
      cases e with
      | dispatch j => exact ⟨rfl, rfl, rfl, rfl, List.length_modify _ _ _⟩
      | post k s => exact ⟨rfl, rfl, rfl, rfl, List.length_modify _ _ _⟩
  | work k =>
    simp only [Workshop.next]
    split
    · exact hsame
    · split
      · exact hsame
      · rename_i r hstep
        simp only [Workshop.worked, Workshop.foldl_complete_eq]
        exact ⟨rfl, rfl, rfl, rfl, List.length_set⟩
  | change g => exact hsame
  | acknowledge => exact ⟨rfl, rfl, rfl, rfl, rfl⟩
  | fetch =>
    simp only [Workshop.next, Pool.takeCompleted]
    split
    · rename_i j p hfree htake
      split at htake
      · cases htake
      · cases htake
        exact ⟨rfl, rfl, rfl, rfl, rfl⟩
    · exact hsame
  | address =>
    simp only [Workshop.next]
    split
    · split
      · exact hsame
      · exact hsame
    · exact hsame
  | strike =>
    simp only [Workshop.next]
    split
    · exact ⟨rfl, rfl, rfl, rfl, rfl⟩
    · exact hsame

/-- The pool has the workers it is to have, and its pipe is watched if it is to be. -/
structure Equipped (p : Pool κ) : Prop where
  crew : ∃ machine, p.crew.length = p.settings.workerCount machine
  watcher : p.watcher.isSome
  watched : p.loop.watched.count Pool.descriptor = if p.watcher = some .eventLoop then 1 else 0

/-- Nobody watches the pipe of the pool. -/
structure Unwatched (p : Pool κ) : Prop where
  watcher : p.watcher = none
  watched : p.loop.watched.count Pool.descriptor = 0

/-- Equipment depends on nothing else. -/
theorem Equipped.of_sameGear {p p' : Pool κ} (h : Equipped p) (hsame : SameGear p p') :
    Equipped p' := by
  obtain ⟨⟨machine, hcrew⟩, hwatcher, hwatched⟩ := h
  refine ⟨⟨machine, ?_⟩, ?_, ?_⟩
  · rw [hsame.crew_length, hsame.settings, hcrew]
  · rw [hsame.watcher, hwatcher]
  · rw [hsame.loop, hsame.watcher, hwatched]

/-- Nor does its lack. -/
theorem Unwatched.of_sameGear {p p' : Pool κ} (h : Unwatched p) (hsame : SameGear p p') :
    Unwatched p' := by
  refine ⟨?_, ?_⟩
  · rw [hsame.watcher, h.watcher]
  · rw [hsame.loop, h.watched]

/-- A pool that is started gets its equipment. -/
theorem Unwatched.start {p p' : Pool κ} (h : Unwatched p) {machine : Machine} {watcher : Watcher}
    (hstart : p.start machine watcher = .ok p') : Equipped p' := by
  unfold Pool.start at hstart
  split at hstart
  · cases hstart
  · cases hstart
  · split at hstart
    · cases hstart
      exact ⟨⟨machine, List.length_replicate⟩, rfl, h.watched⟩
    · split at hstart
      · cases hstart
      · rename_i loop hregister
        cases hstart
        refine ⟨⟨machine, List.length_replicate⟩, rfl, ?_⟩
        unfold EventLoop.register at hregister
        split at hregister
        · cases hregister
        · cases hregister
          simp [Pool.manned, List.count_append, h.watched]

/-- A pool that is dismissed loses it, even where the event loop complains. -/
theorem Equipped.dismissed {p : Pool κ} (h : Equipped p) : Unwatched p.dismissed := by
  refine ⟨rfl, ?_⟩
  unfold Pool.dismissed
  split
  · simp [EventLoop.unregister, List.count_eq_zero]
  · rename_i hother
    rw [h.watched, if_neg hother]

/-! ## Where a pool is in its life -/

/-- Where a pool is in its life. -/
inductive Standing (t : PoolLifecycle κ σ) : Prop
  /-- It has not been started. -/
  | idle (closure : t.closure = .none) (phase : t.workshop.pool.phase = .idle)
      (books : t.workshop.Open)
      (gear : Unwatched t.workshop.pool)
  /-- It is running. -/
  | running (closure : t.closure = .none) (phase : t.workshop.pool.phase = .running)
      (books : t.workshop.Booked) (gear : Equipped t.workshop.pool)
  /-- Its workers are to end. -/
  | ending (closure : t.closure = .underway) (phase : t.workshop.pool.phase = .shutDown)
      (books : t.workshop.Booked) (gear : Equipped t.workshop.pool)
  /-- It was shut down. -/
  | ended (closure : t.closure = .complete) (books : t.workshop.Vacant)
      (gear : Unwatched t.workshop.pool)

variable {m : StorageManager σ} {t : PoolLifecycle κ σ}

/-- A pool that has not been started has nothing to do. -/
theorem calm_of_idle (books : t.workshop.Open) (phase : t.workshop.pool.phase = .idle) :
    t.workshop.errands = [] ∧ t.workshop.pool.crew = [] ∧ t.workshop.pool.completed = [] := by
  have hcrew := books.booked.manned.crew_eq_nil phase
  refine ⟨?_, hcrew, ?_⟩
  · by_contra herrands
    exact books.booked.manned.crew_ne_nil (Or.inr herrands) hcrew
  · by_contra hcompleted
    obtain ⟨j, hj⟩ := List.exists_mem_of_ne_nil _ hcompleted
    have hflight : j.manifest ∈ t.workshop.inFlight := by
      unfold Workshop.inFlight
      rw [Multiset.mem_add, Multiset.mem_add]
      exact Or.inl (Or.inr (Multiset.mem_coe.mpr (List.mem_map_of_mem hj)))
    obtain ⟨a, -, hknown, -⟩ := books.booked.balanced.held hflight
    rw [books.running hknown] at phase
    cases phase

/-- Acts that neither begin nor end the work of a pool leave it where it is in its life. -/
theorem Standing.routine (h : Standing t) {a : Act κ σ} (ha : turns a = false) :
    Standing (t.next m (.act a)) := by
  have hsame := sameGear_next m t.workshop ha
  have heffect := Workshop.effect_next m t.workshop a
  have hstays : a ≠ .dismiss := by
    rintro rfl
    cases ha
  have hgoes : a ≠ .stop := by
    rintro rfl
    cases ha
  have hclosure : (t.next m (.act a)).closure = t.closure := by
    cases a with
    | start machine watcher => cases ha
    | stop => cases ha
    | dismiss => cases ha
    | _ => rfl
  cases h with
  | idle closure phase books gear =>
    exact .idle (hclosure.trans closure) (hsame.phase.trans phase) (books.next m hgoes)
      (gear.of_sameGear hsame)
  | running closure phase books gear =>
    exact .running (hclosure.trans closure) (hsame.phase.trans phase)
      (books.effect heffect hstays) (gear.of_sameGear hsame)
  | ending closure phase books gear =>
    exact .ending (hclosure.trans closure) (hsame.phase.trans phase)
      (books.effect heffect hstays) (gear.of_sameGear hsame)
  | ended closure books gear =>
    exact .ended (hclosure.trans closure) (books.effect heffect) (gear.of_sameGear hsame)

/-! ### Beginning and end -/

/-- Starting a pool that is refused changes nothing. -/
theorem next_start_of_error {machine : Machine} {watcher : Watcher} {e : StartError}
    (hstart : t.workshop.pool.start machine watcher = .error e) :
    t.next m (.act (.start machine watcher)) = t := by
  have hworkshop : t.workshop.next m (.start machine watcher) = t.workshop := by
    simp only [Workshop.next, hstart]
    cases t.workshop.errands <;> rfl
  simp only [next, hworkshop, closureAfter]

/-- Telling a running pool to stop. -/
theorem next_stop_of_running (calm : t.workshop.errands = [])
    (running : t.workshop.pool.phase = .running) : t.next m (.act .stop) = ⟨{ t.workshop with
      pool := { t.workshop.pool with phase := .shutDown }
      errands := t.workshop.pool.postings .stop }, .underway⟩ := by
  simp only [next, Workshop.next, closureAfter, calm, running]

/-- Telling a pool that does not run to stop. -/
theorem next_stop_of_resting (calm : t.workshop.errands = [])
    (resting : t.workshop.pool.phase ≠ .running) : t.next m (.act .stop) =
      ⟨{ t.workshop with pool := { t.workshop.pool with phase := .shutDown } },
        if t.closure = .underway then .underway else .complete⟩ := by
  simp only [next, Workshop.next, closureAfter, calm]

/-- A call has to wait for the one before. -/
theorem next_stop_of_busy (busy : t.workshop.errands ≠ []) : t.next m (.act .stop) = t := by
  obtain ⟨e, rest, herrands⟩ := List.exists_cons_of_ne_nil busy
  have hworkshop : t.workshop.next m .stop = t.workshop := by
    simp only [Workshop.next, herrands]
  simp only [next, hworkshop, closureAfter, herrands]

/-- Dismissing a pool whose workers have ended. -/
theorem next_dismiss_of_gone (calm : t.workshop.errands = [])
    (down : t.workshop.pool.phase = .shutDown)
    (gone : t.workshop.pool.crew.all Worker.isGone) : t.next m (.act .dismiss) =
      ⟨{ t.workshop with pool := t.workshop.pool.dismissed }, .complete⟩ := by
  simp only [next, Workshop.next, closureAfter, calm, down, gone, if_true]

/-- It is too early to dismiss any other. -/
theorem next_dismiss_of_early
    (early : ¬ (t.workshop.errands = [] ∧ t.workshop.pool.phase = .shutDown ∧
    t.workshop.pool.crew.all Worker.isGone)) : t.next m (.act .dismiss) = t := by
  have hworkshop : t.workshop.next m .dismiss = t.workshop := by
    simp only [Workshop.next]
    split
    · rename_i hcalm hdown
      exact if_neg fun hgone => early ⟨hcalm, hdown, hgone⟩
    · rfl
  have hclosure : t.closureAfter .dismiss = t.closure := by
    simp only [closureAfter]
    split
    · rename_i hcalm hdown
      exact if_neg fun hgone => early ⟨hcalm, hdown, hgone⟩
    · rfl
  simp only [next, hworkshop, hclosure]

/-- A pool may be started once. -/
theorem Standing.start (h : Standing t) (machine : Machine) (watcher : Watcher) :
    Standing (t.next m (.act (.start machine watcher))) := by
  cases hstart : t.workshop.pool.start machine watcher with
  | error e =>
    rw [next_start_of_error hstart]
    exact h
  | ok p =>
    have hidle := (Pool.of_start hstart).1
    cases h with
    | idle closure phase books gear =>
      have hnext : t.workshop.next m (.start machine watcher) = { t.workshop with pool := p } := by
        simp only [Workshop.next, (calm_of_idle books phase).1, hstart]
      have hbooks := (books.next m (a := .start machine watcher) (by rintro ⟨⟩)).booked
      unfold PoolLifecycle.next
      simp only [hnext] at hbooks ⊢
      exact .running closure (Pool.of_start hstart).2.1 hbooks (gear.start hstart)
    | running closure phase books gear => simp [phase] at hidle
    | ending closure phase books gear => simp [phase] at hidle
    | ended closure books gear => simp [books.down] at hidle

/-- A pool that is told to stop has to wait for its workers, if it has any. -/
theorem Standing.stop (h : Standing t) : Standing (t.next m (.act .stop)) := by
  by_cases hcalm : t.workshop.errands = []
  · cases h with
    | idle closure phase books gear =>
      obtain ⟨-, hcrew, hcompleted⟩ := calm_of_idle books phase
      rw [next_stop_of_resting hcalm (by simp [phase])]
      have hvacant : ({ t.workshop with pool := { t.workshop.pool with phase := .shutDown } } :
          Workshop κ σ).Vacant :=
        ⟨⟨rfl, hcalm, hcrew, hcompleted⟩, books.unstarted phase⟩
      exact .ended (by simp [closure]) hvacant ⟨gear.watcher, gear.watched⟩
    | running closure phase books gear =>
      have hbooks := books.effect (Workshop.effect_next m t.workshop .stop) (by rintro ⟨⟩)
      have hnext := next_stop_of_running (m := m) hcalm phase
      rw [hnext]
      rw [show t.workshop.next m .stop = _ from congrArg PoolLifecycle.workshop hnext] at hbooks
      exact .ending rfl rfl hbooks ⟨gear.crew, gear.watcher, gear.watched⟩
    | ending closure phase books gear =>
      have hsame : t.next m (.act .stop) = t := by
        rw [next_stop_of_resting hcalm (by simp [phase]), if_pos closure, ← closure, ← phase]
      rw [hsame]
      exact .ending closure phase books gear
    | ended closure books gear =>
      have hsame : t.next m (.act .stop) = t := by
        rw [next_stop_of_resting hcalm (by simp [books.down]), closure, if_neg (by decide),
          ← books.down, ← closure]
      rw [hsame]
      exact .ended closure books gear
  · rw [next_stop_of_busy hcalm]
    exact h

/-- A pool is over when its workers have ended. -/
theorem Standing.dismiss (h : Standing t) : Standing (t.next m (.act .dismiss)) := by
  by_cases hready : t.workshop.errands = [] ∧ t.workshop.pool.phase = .shutDown ∧
      t.workshop.pool.crew.all Worker.isGone
  · obtain ⟨hcalm, hdown, hgone⟩ := hready
    rw [next_dismiss_of_gone hcalm hdown hgone]
    have hvacant : ({ t.workshop with pool := t.workshop.pool.dismissed } : Workshop κ σ).Vacant :=
      ⟨⟨hdown, hcalm, rfl, rfl⟩, rfl⟩
    refine .ended rfl hvacant ?_
    cases h with
    | idle closure phase books gear => simp [phase] at hdown
    | running closure phase books gear => simp [phase] at hdown
    | ending closure phase books gear => exact gear.dismissed
    | ended closure books gear =>
      refine ⟨rfl, ?_⟩
      simp only [Pool.dismissed, gear.watcher, gear.watched]
  · rw [next_dismiss_of_early hready]
    exact h

/-- The event loop may change its mind at any time. -/
theorem Standing.mood (h : Standing t) (isFull complains : Bool) :
    Standing (t.next m (.mood isFull complains)) := by
  have heffect := effect_mood m t.workshop isFull complains
  cases h with
  | idle closure phase books gear =>
    have hopen :
        ({ t.workshop with pool := swayed t.workshop.pool isFull complains } :
          Workshop κ σ).Open :=
      ⟨books.booked.effect heffect (by rintro ⟨⟩), books.up, books.unstarted⟩
    exact .idle closure phase hopen ⟨gear.watcher, gear.watched⟩
  | running closure phase books gear =>
    exact .running closure phase (books.effect heffect (by rintro ⟨⟩))
      ⟨gear.crew, gear.watcher, gear.watched⟩
  | ending closure phase books gear =>
    exact .ending closure phase (books.effect heffect (by rintro ⟨⟩))
      ⟨gear.crew, gear.watcher, gear.watched⟩
  | ended closure books gear =>
    exact .ended closure (books.effect heffect) ⟨gear.watcher, gear.watched⟩

/-- A pool goes on in its life with every event. -/
theorem Standing.next (h : Standing t) (e : Event κ σ) : Standing (t.next m e) := by
  cases e with
  | mood isFull complains => exact h.mood isFull complains
  | act a =>
    cases hturn : turns a with
    | false => exact h.routine hturn
    | true =>
      cases a with
      | start machine watcher => exact h.start machine watcher
      | stop => exact h.stop
      | dismiss => exact h.dismiss
      | _ => cases hturn

/-- A pool goes on in its life with every run. -/
theorem Standing.later (h : Standing t) (events : List (Event κ σ)) :
    Standing (t.later m events) := by
  induction events using List.reverseRecOn with
  | nil => exact h
  | append_singleton events e ih =>
    rw [later_concat]
    exact ih.next e

/-- In every run a pool is somewhere in its life. -/
theorem standing_after (m : StorageManager σ) (settings : Settings) {loop : EventLoop}
    (ground : Surroundings σ) (free : Pool.descriptor ∉ loop.watched)
    (events : List (Event κ σ)) : Standing (after m settings loop ground events) := by
  refine Standing.later (.idle rfl rfl ?_ ⟨rfl, List.count_eq_zero.mpr free⟩) events
  exact ⟨Workshop.booked_create settings loop ground, by rintro ⟨⟩, fun _ => rfl⟩

/-! ## Order -/

/-- The phases that may follow one another. -/
inductive Follows : PoolPhase → PoolPhase → Prop
  | stays (p : PoolPhase) : Follows p p
  | starts : Follows .idle .running
  | retires : Follows .idle .shutDown
  | stops : Follows .running .shutDown

/-- A pool is shut down for good. -/
structure Over (m : StorageManager σ) (t : PoolLifecycle κ σ) : Prop where
  outstanding : ∀ c, t.workshop.pool.outstanding c = 0
  start : ∀ machine watcher,
    t.workshop.pool.start machine watcher = .error (.refused .shutDown)
  submit : ∀ c receiver items, t.workshop.pool.submit c receiver items = .error .shutDown
  addItem : ∀ c i, t.workshop.pool.addItem c i = .error .shutDown
  /-- Whatever happens later, no receiver is handed anything, and the pool remains shut down. -/
  silent : ∀ events, (t.later m events).closure = .complete ∧
    ∃ newer, (t.later m events).workshop.log = newer ++ t.workshop.log ∧
      ∀ j receiver, .handed j receiver ∉ newer

/-- The pool is in order. While it is being shut down, its workers and its pipe are looked after by
whoever does that. -/
structure Orderly (m : StorageManager σ) (t : PoolLifecycle κ σ) : Prop where
  /-- A pool is started once, if at all, and then shut down for good. -/
  moves : ∀ e, Follows t.workshop.pool.phase (t.next m e).workshop.pool.phase
  /-- The pipe is watched once while the pool runs, and not at all otherwise. -/
  watching_eq : t.closure ≠ .underway → t.watching =
    if t.workshop.pool.phase = .running ∧ t.workshop.pool.watcher = some .eventLoop then 1 else 0
  /-- A running pool has as many workers as it is to have. -/
  running_iff : t.closure ≠ .underway → (t.workshop.pool.phase = .running ↔
    (∃ machine, t.workshop.pool.crew.length = t.workshop.pool.settings.workerCount machine) ∧
      t.workshop.pool.watcher.isSome)
  /-- Any other has none. -/
  bare : t.closure ≠ .underway → t.workshop.pool.phase ≠ .running →
    t.workshop.pool.crew = [] ∧ t.workshop.pool.watcher = none
  /-- There is a worker for the next job, whenever one can be dispatched. -/
  slot : t.workshop.pool.phase = .running ∨ t.workshop.errands ≠ [] →
    ∃ w, t.workshop.pool.crew[t.workshop.pool.cursor.toNat % t.workshop.pool.crew.length]? = some w
  /-- A start that fails changes nothing, and may succeed later. -/
  retry : t.workshop.pool.phase = .idle → ∀ machine watcher e,
    t.workshop.pool.start machine watcher = .error e →
      t.next m (.act (.start machine watcher)) = t ∧
      ∀ complains, ((t.next m (.mood false complains)).next m
        (.act (.start machine watcher))).workshop.pool.phase = .running
  /-- A pool that does not run is shut down at once. -/
  shutdown_resting : t.closure ≠ .underway → t.workshop.pool.phase ≠ .running →
    t.next m (.act .stop) = ⟨{ t.workshop with
      pool := (t.workshop.pool.shutdown m t.workshop.ground).1
      ground := (t.workshop.pool.shutdown m t.workshop.ground).2 }, .complete⟩
  /-- A running pool is shut down when its workers have ended. -/
  shutdown_running : t.workshop.errands = [] → t.workshop.pool.phase = .running →
    (Pool.settle m ({ t.workshop.pool with phase := .shutDown } |>.postAll .stop)
      t.workshop.ground).1.crew.all Worker.isGone →
    ∃ (acts : List (Act κ σ)) (log : List (Entry κ)),
      (∀ a ∈ acts, a = .run ∨ ∃ k, a = .work k) ∧
      t.later m (.act .stop :: acts.map .act ++ [.act .dismiss]) = ⟨{ t.workshop with
        pool := (t.workshop.pool.shutdown m t.workshop.ground).1
        ground := (t.workshop.pool.shutdown m t.workshop.ground).2
        log := log }, .complete⟩
  /-- Once the pool was shut down, that is that. -/
  closed : t.closure = .complete → Over m t

/-- Phases follow one another as they should. -/
theorem follows_next (m : StorageManager σ) (t : PoolLifecycle κ σ) (e : Event κ σ) :
    Follows t.workshop.pool.phase (t.next m e).workshop.pool.phase := by
  have hstays {t' : PoolLifecycle κ σ} (hphase : t'.workshop.pool.phase = t.workshop.pool.phase) :
      Follows t.workshop.pool.phase t'.workshop.pool.phase := by
    rw [hphase]
    exact .stays _
  cases e with
  | mood isFull complains => exact .stays _
  | act a =>
    cases hturn : turns a with
    | false => exact hstays (sameGear_next m t.workshop hturn).phase
    | true =>
      cases a with
      | start machine watcher =>
        cases hstart : t.workshop.pool.start machine watcher with
        | error e =>
          rw [next_start_of_error hstart]
          exact .stays _
        | ok p =>
          obtain ⟨hidle, hrunning, -⟩ := Pool.of_start hstart
          cases herrands : t.workshop.errands with
          | nil =>
            have hnext : (t.next m (.act (.start machine watcher))).workshop.pool = p := by
              simp only [next, Workshop.next, herrands, hstart]
            rw [hnext, hidle, hrunning]
            exact .starts
          | cons e rest =>
            refine hstays ?_
            simp only [next, Workshop.next, herrands]
      | stop =>
        by_cases hcalm : t.workshop.errands = []
        · cases hphase : t.workshop.pool.phase with
          | idle =>
            rw [next_stop_of_resting hcalm (by simp [hphase])]
            exact .retires
          | running =>
            rw [next_stop_of_running hcalm hphase]
            exact .stops
          | shutDown =>
            rw [next_stop_of_resting hcalm (by simp [hphase])]
            exact .stays _
        · rw [next_stop_of_busy hcalm]
          exact .stays _
      | dismiss =>
        refine hstays ?_
        by_cases hready : t.workshop.errands = [] ∧ t.workshop.pool.phase = .shutDown ∧
            t.workshop.pool.crew.all Worker.isGone
        · rw [next_dismiss_of_gone hready.1 hready.2.1 hready.2.2]
          rfl
        · rw [next_dismiss_of_early hready]
      | _ => cases hturn

/-- No receiver is handed anything by a pool that was dismissed. -/
theorem log_of_vacant {y y' : Workshop κ σ} {a : Act κ σ} (h : y.Vacant)
    (heffect : Workshop.Effect m y a y') :
    ∃ newer, y'.log = newer ++ y.log ∧ ∀ j receiver, .handed j receiver ∉ newer := by
  have hresting : y.pool.phase ≠ .running := by
    rw [h.down]
    exact PoolPhase.noConfusion
  have hsame (hlog : y'.log = y.log) :
      ∃ newer, y'.log = newer ++ y.log ∧ ∀ j receiver, .handed j receiver ∉ newer :=
    ⟨[], hlog, fun j receiver => List.not_mem_nil⟩
  have hone {e : Entry κ} (hlog : y'.log = e :: y.log) (he : ∀ j receiver, e ≠ .handed j receiver) :
      ∃ newer, y'.log = newer ++ y.log ∧ ∀ j receiver, .handed j receiver ∉ newer :=
    ⟨[e], hlog, fun j receiver hmem => he j receiver (List.mem_singleton.mp hmem).symm⟩
  cases heffect with
  | nothing a => exact hsame rfl
  | aside stays clients crew completed phase => exact hsame rfl
  | started calm start => exact hsame rfl
  | opened calm running unknown items_ne allocated => exact absurd running hresting
  | added calm running known allocated => exact absurd running hresting
  | cancelled calm running known => exact absurd running hresting
  | detached c => exact hone rfl (by rintro j receiver ⟨⟩)
  | told calm running => exact hsame rfl
  | stopped calm running => exact hsame rfl
  | retired calm resting => exact hsame rfl
  | dismissed calm down gone => exact hsame rfl
  | ran errands => exact hsame rfl
  | @worked k w r worker step =>
    rw [h.crew_eq] at worker
    cases worker
  | fetched free completed => exact hsame rfl
  | strayed delivery unknown => exact hone rfl (by rintro j receiver ⟨⟩)
  | handed delivery known =>
    rw [h.find?_eq] at known
    cases known
  | struck delivery => exact hone rfl (by rintro j receiver ⟨⟩)

/-- A pool was dismissed just when it is over. -/
theorem Standing.vacant_iff (h : Standing t) : t.workshop.Vacant ↔ t.closure = .complete := by
  constructor
  · intro hbooks
    cases h with
    | idle closure phase books gear => simp [hbooks.down] at phase
    | running closure phase books gear => simp [hbooks.down] at phase
    | ending closure phase books gear =>
      obtain ⟨machine, hcrew⟩ := gear.crew
      rw [hbooks.crew_eq] at hcrew
      simp only [List.length_nil, Settings.workerCount] at hcrew
      omega
    | ended closure books gear => exact closure
  · intro hover
    cases h with
    | idle closure phase books gear => simp [hover] at closure
    | running closure phase books gear => simp [hover] at closure
    | ending closure phase books gear => simp [hover] at closure
    | ended closure books gear => exact books

/-- A pool that was dismissed remains so, and is silent. -/
theorem vacant_later (hbooks : t.workshop.Vacant) (events : List (Event κ σ)) :
    (t.later m events).workshop.Vacant ∧
      ∃ newer, (t.later m events).workshop.log = newer ++ t.workshop.log ∧
        ∀ j receiver, .handed j receiver ∉ newer := by
  induction events using List.reverseRecOn with
  | nil => exact ⟨hbooks, [], rfl, fun j receiver => List.not_mem_nil⟩
  | append_singleton events e ih =>
    obtain ⟨hlater, newer, hlog, hsilent⟩ := ih
    rw [later_concat]
    obtain ⟨a, heffect⟩ : ∃ a, Workshop.Effect m (t.later m events).workshop a
        ((t.later m events).next m e).workshop := by
      cases e with
      | act a => exact ⟨a, Workshop.effect_next m _ a⟩
      | mood isFull complains => exact ⟨_, effect_mood m _ isFull complains⟩
    obtain ⟨newest, hlog', hsilent'⟩ := log_of_vacant hlater heffect
    refine ⟨hlater.effect heffect, newest ++ newer, ?_, ?_⟩
    · rw [hlog', hlog, List.append_assoc]
    · intro j receiver hmem
      rcases List.mem_append.mp hmem with hnew | hold
      · exact hsilent' j receiver hnew
      · exact hsilent j receiver hold

/-- A pool that was shut down is shut down for good. -/
theorem Standing.closed (h : Standing t) (hover : t.closure = .complete) : Over m t := by
  have hbooks := h.vacant_iff.mpr hover
  refine ⟨?_, ?_, ?_, ?_, ?_⟩
  · intro c
    simp only [Pool.outstanding, hbooks.find?_eq]
  · intro machine watcher
    simp only [Pool.start, hbooks.down]
  · intro c receiver items
    simp only [Pool.submit, Pool.checkRunning, hbooks.find?_eq, hbooks.down, Option.isSome_none,
      Bool.false_eq_true, if_false]
  · intro c i
    simp only [Pool.addItem, Pool.checkRunning, hbooks.down]
  · intro events
    obtain ⟨hlater, hsilent⟩ := vacant_later (m := m) hbooks events
    exact ⟨(h.later events).vacant_iff.mp hlater, hsilent⟩

/-- A start that failed may succeed when the event loop has room. -/
theorem next_start_of_mood (hidle : t.workshop.pool.phase = .idle) (hcalm : t.workshop.errands = [])
    (complains : Bool) (machine : Machine) (watcher : Watcher) :
    ((t.next m (.mood false complains)).next m
      (.act (.start machine watcher))).workshop.pool.phase = .running := by
  have hphase : (swayed t.workshop.pool false complains).phase = .idle := hidle
  cases watcher with
  | nobody =>
    simp only [next, Workshop.next, hcalm, Pool.start, hphase]
    rfl
  | eventLoop =>
    have hregister : (swayed t.workshop.pool false complains).loop.register Pool.descriptor =
        .ok _ := if_neg Bool.false_ne_true
    simp only [next, Workshop.next, hcalm, Pool.start, hphase, hregister]
    rfl

/-- A pool that is not being shut down runs and has its equipment, or has nothing at all. -/
theorem Standing.gear (h : Standing t) (hclosure : t.closure ≠ .underway) :
    (t.workshop.pool.phase = .running ∧ Equipped t.workshop.pool) ∨
      (t.workshop.pool.phase ≠ .running ∧ Unwatched t.workshop.pool ∧ t.workshop.pool.crew = [] ∧
        t.workshop.errands = []) := by
  cases h with
  | idle closure phase books gear =>
    obtain ⟨hcalm, hcrew, -⟩ := calm_of_idle books phase
    exact Or.inr ⟨by simp [phase], gear, hcrew, hcalm⟩
  | running closure phase books gear => exact Or.inl ⟨phase, gear⟩
  | ending closure phase books gear => exact absurd closure hclosure
  | ended closure books gear =>
    exact Or.inr ⟨by simp [books.down], gear, books.crew_eq, books.calm⟩

/-- There are workers as long as anything can be sent to them. -/
theorem Standing.crew_ne_nil (h : Standing t)
    (hbusy : t.workshop.pool.phase = .running ∨ t.workshop.errands ≠ []) :
    t.workshop.pool.crew ≠ [] := by
  cases h with
  | idle closure phase books gear => exact books.booked.manned.crew_ne_nil hbusy
  | running closure phase books gear => exact books.manned.crew_ne_nil hbusy
  | ending closure phase books gear => exact books.manned.crew_ne_nil hbusy
  | ended closure books gear =>
    rcases hbusy with hrunning | hbusy
    · simp [books.down] at hrunning
    · exact absurd books.calm hbusy

/-- Events that are acts are acts of the workshop. -/
theorem workshop_later_map (m : StorageManager σ) (t : PoolLifecycle κ σ) (acts : List (Act κ σ)) :
    (t.later m (acts.map .act)).workshop = acts.foldl (Workshop.next m) t.workshop := by
  induction acts generalizing t with
  | nil => rfl
  | cons a acts ih => exact ih (t.next m (.act a))

/-- Shutting a running pool down brings it to its end. -/
theorem Standing.shutdown (h : Standing t) (hcalm : t.workshop.errands = [])
    (hrunning : t.workshop.pool.phase = .running)
    (hgone : (Pool.settle m ({ t.workshop.pool with phase := .shutDown } |>.postAll .stop)
      t.workshop.ground).1.crew.all Worker.isGone) :
    ∃ (acts : List (Act κ σ)) (log : List (Entry κ)),
      (∀ a ∈ acts, a = .run ∨ ∃ k, a = .work k) ∧
      t.later m (.act .stop :: acts.map .act ++ [.act .dismiss]) = ⟨{ t.workshop with
        pool := (t.workshop.pool.shutdown m t.workshop.ground).1
        ground := (t.workshop.pool.shutdown m t.workshop.ground).2
        log := log }, .complete⟩ := by
  obtain ⟨acts, log, honly, hacts⟩ := Workshop.exists_shutdown m hcalm hrunning hgone
  refine ⟨acts, log, honly, ?_⟩
  have hworkshop : (t.later m (.act .stop :: acts.map .act ++ [.act .dismiss])).workshop =
      { t.workshop with
      pool := (t.workshop.pool.shutdown m t.workshop.ground).1
      ground := (t.workshop.pool.shutdown m t.workshop.ground).2
      log := log } := by
    rw [later_concat, ← hacts]
    exact congrArg (Workshop.next m · .dismiss) (workshop_later_map m (t.next m (.act .stop)) acts)
  have hvacant : (t.later m (.act .stop :: acts.map .act ++ [.act .dismiss])).workshop.Vacant := by
    rw [hworkshop]
    simp only [Pool.shutdown, hrunning, if_true]
    exact ⟨⟨Workshop.phase_settle m _ _, hcalm, rfl, rfl⟩, rfl⟩
  have hcomplete := (h.later _).vacant_iff.mp hvacant
  rw [← hworkshop, ← hcomplete]

/-- A pool somewhere in its life is in order. -/
theorem Standing.orderly (h : Standing t) : Orderly m t where
  moves := follows_next m t
  watching_eq hclosure := by
    unfold watching
    rcases h.gear hclosure with ⟨hphase, hgear⟩ | ⟨hphase, hgear, -⟩
    · rw [hgear.watched]
      simp only [hphase, true_and]
    · rw [hgear.watched]
      simp only [hphase, false_and, if_false]
  running_iff hclosure := by
    rcases h.gear hclosure with ⟨hphase, hgear⟩ | ⟨hphase, hgear, -⟩
    · exact ⟨fun _ => ⟨hgear.crew, hgear.watcher⟩, fun _ => hphase⟩
    · simp [hphase, hgear.watcher]
  bare hclosure hphase := by
    rcases h.gear hclosure with ⟨hrunning, -⟩ | ⟨-, hgear, hcrew, -⟩
    · exact absurd hrunning hphase
    · exact ⟨hcrew, hgear.watcher⟩
  slot hbusy := by
    have hlength := List.length_pos_iff.mpr (h.crew_ne_nil hbusy)
    exact ⟨_, List.getElem?_eq_getElem (Nat.mod_lt _ hlength)⟩
  retry hidle machine watcher e hstart := by
    refine ⟨next_start_of_error hstart, fun complains => ?_⟩
    have hclosure : t.closure ≠ .underway := by
      cases h with
      | ending closure phase books gear => simp [hidle] at phase
      | idle closure _ _ _ => simp [closure]
      | running closure _ _ _ => simp [closure]
      | ended closure _ _ => simp [closure]
    rcases h.gear hclosure with ⟨hphase, -⟩ | ⟨-, -, -, hcalm⟩
    · simp [hidle] at hphase
    · exact next_start_of_mood hidle hcalm complains machine watcher
  shutdown_resting hclosure hphase := by
    rcases h.gear hclosure with ⟨hrunning, -⟩ | ⟨-, -, -, hcalm⟩
    · exact absurd hrunning hphase
    · rw [next_stop_of_resting hcalm hphase, if_neg hclosure]
      simp only [Pool.shutdown, if_neg hphase]
  shutdown_running := h.shutdown
  closed := h.closed

/-- In every run a pool that was not watched in the beginning is in order. -/
theorem orderly_after (m : StorageManager σ) (settings : Settings) {loop : EventLoop}
    (ground : Surroundings σ) (free : Pool.descriptor ∉ loop.watched)
    (events : List (Event κ σ)) : Orderly m (after m settings loop ground events) :=
  (standing_after m settings ground free events).orderly

/-- A pool that the event loop has no room for at first. It then takes on an item whose source is
missing, is shut down while the event loop complains, and is asked to start again. -/
def wholeLife : List (Event Unit Shelf) :=
  [.act (.start ⟨1, 0⟩ .eventLoop), .mood false true, .act (.start ⟨1, 0⟩ .eventLoop),
    .act (.submit ⟨1⟩ () [.fresh (.file ⟨"/from"⟩) (.inl ⟨"/to"⟩)]), .act .run, .act (.work 0),
    .act (.work 0), .act .stop, .act .run, .act (.work 0), .act .dismiss, .act .fetch,
    .act .address, .act .stop, .act (.start ⟨1, 0⟩ .nobody)]

/-- That pool is in order at the end, and over. -/
theorem orderly_after_wholeLife :
    Pool.descriptor ∉ (EventLoop.mk true false [7]).watched ∧
      Orderly Shelf.manager (after Shelf.manager Settings.defaults ⟨true, false, [7]⟩
        ⟨.blank, .ofMedia [] none false⟩ wholeLife) ∧
      (after Shelf.manager Settings.defaults ⟨true, false, [7]⟩
        ⟨.blank, .ofMedia [] none false⟩ wholeLife).closure = .complete :=
  ⟨by decide, orderly_after _ _ _ (by decide) _, by decide +kernel⟩

end PoolLifecycle

end Haulage
