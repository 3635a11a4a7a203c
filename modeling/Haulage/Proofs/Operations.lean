import Haulage.Proofs.Rest

/-!
# Calls that nothing interrupts

A workshop cuts the calls of its pool into acts: a call changes the table of clients by an act of
its own, and each piece of its mail is sent by another. `Workshop.uninterrupted` says that the acts
of a call, one right after the other, do what the call does, so that nothing is added to the pool
and nothing left out by looking at it act by act.
-/

namespace Haulage

namespace Workshop

variable {κ σ : Type}

/-- The workshop once all mail of the call under way is sent. -/
def sent (m : StorageManager σ) (y : Workshop κ σ) : Workshop κ σ :=
  (List.replicate y.errands.length .run).foldl (next m) y

/-- With no mail to send the workshop stays as it is. -/
theorem sent_of_calm (m : StorageManager σ) {y : Workshop κ σ} (calm : y.errands = []) :
    y.sent m = y := by
  unfold sent
  rw [calm]
  rfl

/-- Sending mail leaves the delivery alone. -/
theorem delivery_sent (m : StorageManager σ) (y : Workshop κ σ) :
    (y.sent m).delivery = y.delivery := by
  unfold sent
  rw [runs_eq]

/-- What becomes of a workshop by a call that is answered so. A refused call changes nothing. -/
def Answered (y y' : Workshop κ σ) : Except PoolError (Pool κ) → Prop
  | .ok p => ∃ log, y' = { y with pool := p, log := log }
  | .error _ => y' = y

/-- Without interruption the calls of the pool are acts of the workshop. -/
structure Uninterrupted (m : StorageManager σ) (y : Workshop κ σ) : Prop where
  /-- Items are submitted. -/
  submit : y.errands = [] → ∀ c receiver items,
    y.Answered ((y.next m (.submit c receiver items)).sent m) (y.pool.submit c receiver items)
  /-- An item is added. -/
  addItem : y.errands = [] → ∀ c i,
    y.Answered ((y.next m (.addItem c i)).sent m) (y.pool.addItem c i)
  /-- The items of a client are cancelled. -/
  cancel : y.errands = [] → ∀ c, y.Answered ((y.next m (.cancel c)).sent m) (y.pool.cancel c)
  /-- A signal is broadcast. -/
  broadcast : y.errands = [] → ∀ s,
    (y.next m (.broadcast s)).sent m = { y with pool := y.pool.broadcast s }
  /-- The workers go on until they come to rest. -/
  settle : ∃ (acts : List (Act κ σ)) (log : List (Entry κ)), (∀ a ∈ acts, ∃ k, a = .work k) ∧
    acts.foldl (next m) y = { y with
      pool := (Pool.settle m y.pool y.ground).1
      ground := (Pool.settle m y.pool y.ground).2
      log := log }
  /-- A running pool is shut down, if its workers end. -/
  shutdown : y.errands = [] → y.pool.phase = .running →
    (Pool.settle m
      ({ y.pool with phase := .shutDown } |>.postAll .stop) y.ground).1.crew.all Worker.isGone →
    ∃ (acts : List (Act κ σ)) (log : List (Entry κ)),
      (∀ a ∈ acts, a = .run ∨ ∃ k, a = .work k) ∧
      (acts.foldl (next m) (y.next m .stop)).next m .dismiss = { y with
        pool := (y.pool.shutdown m y.ground).1
        ground := (y.pool.shutdown m y.ground).2
        log := log }

/-! ## One call after the other -/

/-- Submitting no items changes nothing. -/
theorem next_submit_nil (m : StorageManager σ) (y : Workshop κ σ) (c : ClientId) (receiver : κ)
    {items : List Item} (hitems : items = []) : y.next m (.submit c receiver items) = y := by
  subst hitems
  simp only [next, List.isEmpty_nil, if_true]
  split <;> rfl

/-- Items that are refused change nothing. -/
theorem next_submit_error (m : StorageManager σ) (y : Workshop κ σ) {c : ClientId} {receiver : κ}
    {items : List Item} {e : PoolError} (h : y.pool.submit c receiver items = .error e) :
    y.next m (.submit c receiver items) = y := by
  simp only [next, h]
  split
  · rename_i heq
    cases heq
  · rfl

/-- Submitting items and sending their jobs is the call of the pool. -/
theorem sent_submit (m : StorageManager σ) {y : Workshop κ σ} (calm : y.errands = [])
    (c : ClientId) (receiver : κ) (items : List Item) :
    y.Answered ((y.next m (.submit c receiver items)).sent m) (y.pool.submit c receiver items) := by
  cases h : y.pool.submit c receiver items with
  | error e =>
    rw [next_submit_error m y h]
    exact sent_of_calm m calm
  | ok p =>
    by_cases hitems : items = []
    · rw [next_submit_nil m y c receiver hitems, sent_of_calm m calm]
      obtain rfl := Pool.eq_of_submit_nil (hitems ▸ h)
      exact ⟨y.log, rfl⟩
    · have hempty : ¬ items.isEmpty = true := fun hempty => hitems (List.isEmpty_iff.mp hempty)
      have hp := Pool.submit_eq_foldl h hitems
      refine ⟨(y.next m (.submit c receiver items)).log, (runs_eq m _).trans ?_⟩
      simp only [next, calm, h, if_neg hempty, take, ← hp]

/-- Adding an item and sending its job is the call of the pool. -/
theorem sent_addItem (m : StorageManager σ) {y : Workshop κ σ} (calm : y.errands = [])
    (c : ClientId) (i : Item) :
    y.Answered ((y.next m (.addItem c i)).sent m) (y.pool.addItem c i) := by
  cases h : y.pool.addItem c i with
  | error e =>
    simp only [next, calm, h]
    exact sent_of_calm m calm
  | ok p =>
    have hp := Pool.addItem_eq_foldl h
    refine ⟨(y.next m (.addItem c i)).log, (runs_eq m _).trans ?_⟩
    simp only [next, calm, h, take, ← hp]

/-- Asking for items to be cancelled and telling the workers is the call of the pool. -/
theorem sent_cancel (m : StorageManager σ) {y : Workshop κ σ} (calm : y.errands = [])
    (c : ClientId) : y.Answered ((y.next m (.cancel c)).sent m) (y.pool.cancel c) := by
  cases h : y.pool.cancel c with
  | error e =>
    have hsame : y.next m (.cancel c) = y := by
      simp only [next, calm, h]
      cases y.pool.clients.find? c <;> rfl
    rw [hsame]
    exact sent_of_calm m calm
  | ok p =>
    obtain ⟨-, a, hfind, -⟩ := Pool.of_cancel h
    have hp := Pool.cancel_eq_foldl h hfind
    refine ⟨(y.next m (.cancel c)).log, (runs_eq m _).trans ?_⟩
    simp only [next, calm, h, hfind, ← hp]

/-- Broadcasting a signal is the call of the pool. -/
theorem sent_broadcast (m : StorageManager σ) {y : Workshop κ σ} (calm : y.errands = [])
    (s : Signal) : (y.next m (.broadcast s)).sent m = { y with pool := y.pool.broadcast s } := by
  cases hphase : y.pool.phase with
  | running =>
    refine (runs_eq m _).trans ?_
    simp only [next, calm, hphase, Pool.broadcast_eq_foldl hphase s]
  | idle | shutDown =>
    have hsame : y.next m (.broadcast s) = y := by
      simp only [next, calm, hphase]
    have hpool : y.pool.broadcast s = y.pool := by
      simp [Pool.broadcast, hphase]
    rw [hsame, hpool, sent_of_calm m calm]

/-- Whatever state a workshop is in, its acts are the calls of its pool. -/
theorem uninterrupted (m : StorageManager σ) (y : Workshop κ σ) : y.Uninterrupted m where
  submit := sent_submit m
  addItem := sent_addItem m
  cancel := sent_cancel m
  broadcast := sent_broadcast m
  settle := exists_settle m y
  shutdown := exists_shutdown m

end Workshop

end Haulage
