import Haulage.Proofs.Chains
import Mathlib.Data.Fintype.Basic

/-!
# Traffic at a queue

Any number of parties push values into one queue, take values out of it, look whether it is empty
and drain it, all at the same time. `Traffic` is a queue with its parties, and a move is the least
that one of them does at once: what it does to the cells that it alone knows of, what it does under
the lock of the tail, or what it does under the lock of the head. A party that goes on with
something under the lock of the head holds it in between, and nobody else gets it.

A value is pushed as soon as it is linked, but only later is a sleeping party woken, under the lock
of the head. A party that is to wait for a value finds the queue empty, still holding the lock, and
lets go of it in the same moment in which it falls asleep. Whoever is woken looks again.

`Traffic.Effect` says what a move can do, and `Traffic.effect_next` that there is nothing else. A
move has to do with the cells that its party reaches and with no others, `Traffic.next_congr` and
`Traffic.heap_next_of_notMem`. Done without interruption the moves are the operations of the queue,
`Traffic.Uninterrupted`.
-/

namespace Haulage.Queue

/-- What a party is doing. -/
inductive Stage (α : Type) where
  | idle
  /-- It has made a sentinel at `cell`, to push a value. -/
  | pushing (v : α) (cell : ℕ)
  /-- It has pushed a value, and has not yet woken anybody for that. -/
  | announcing
  /-- It has found the queue not empty, and is to take a value. It may have been woken for that. -/
  | taking (woken : Bool)
  /-- It has found the queue empty, and is to fall asleep. -/
  | vain
  | sleeping
  /-- It was woken, and has not yet looked again. -/
  | woken
  /-- It has made a sentinel at `cell`, to drain the queue. -/
  | swapping (cell : ℕ)
  /-- It takes apart the chain that it drained, and has these values so far. -/
  | clearing (cursor stop : ℕ) (collected : List α)
  deriving Repr

namespace Stage

variable {α : Type}

/-- Does the party hold the lock of the head? -/
def holds : Stage α → Bool
  | .taking _ | .vain => true
  | .idle | .pushing _ _ | .announcing | .sleeping | .woken | .swapping _ | .clearing _ _ _ => false

/-- Does the party sleep? -/
def sleeps : Stage α → Bool
  | .sleeping => true
  | .idle | .pushing _ _ | .announcing | .taking _ | .vain | .woken | .swapping _
  | .clearing _ _ _ => false

/-- The cells that the next move of the party has to do with. -/
def reaches (q : Linked α) : Stage α → List ℕ
  | .pushing _ a => [q.tail, a]
  | .taking _ => [q.head]
  | .swapping a => [a]
  | .clearing cursor stop _ => [cursor, stop]
  | .idle | .announcing | .vain | .sleeping | .woken => []

/-- A party that is to link a cell reaches the tail. -/
theorem tail_mem_reaches (q : Linked α) {s : Stage α} {v : α} {a : ℕ} (hs : s = .pushing v a) :
    q.tail ∈ s.reaches q := by
  subst hs
  exact List.mem_cons_self

/-- A party that is to take a value reaches the head. -/
theorem head_mem_reaches (q : Linked α) {s : Stage α} {w : Bool} (hs : s = .taking w) :
    q.head ∈ s.reaches q := by
  subst hs
  exact List.mem_cons_self

/-- A party that takes a chain apart reaches its first cell. -/
theorem cursor_mem_reaches (q : Linked α) {s : Stage α} {cursor stop : ℕ} {vs : List α}
    (hs : s = .clearing cursor stop vs) : cursor ∈ s.reaches q := by
  subst hs
  exact List.mem_cons_self

/-- It reaches the last cell as well. -/
theorem stop_mem_reaches (q : Linked α) {s : Stage α} {cursor stop : ℕ} {vs : List α}
    (hs : s = .clearing cursor stop vs) : stop ∈ s.reaches q := by
  subst hs
  exact List.mem_cons_of_mem _ List.mem_cons_self

/-- There is one stage of sleep. -/
theorem eq_sleeping {s : Stage α} (h : s.sleeps = true) : s = .sleeping := by
  cases s with
  | sleeping => rfl
  | idle | pushing v a | announcing | taking b | vain | woken | swapping a
  | clearing c b vs => cases h

end Stage

/-- What a party has done, at the moment from which on it counts. -/
inductive Deed (n : ℕ) (α : Type) where
  /-- It pushed a value. -/
  | pushed (k : Fin n) (v : α)
  /-- It popped a value. -/
  | popped (k : Fin n) (v : α)
  /-- It would have popped a value, and was told that there is none. -/
  | missed (k : Fin n)
  /-- It was told whether the queue is empty. -/
  | saw (k : Fin n) (empty : Bool)
  /-- It took the whole chain. -/
  | swapped (k : Fin n)
  /-- It answered the values of the chain that it took. -/
  | drained (k : Fin n) (vs : List α)
  deriving Repr

/-- A queue with `n` parties, and what they have done. -/
structure Traffic (n : ℕ) (α : Type) where
  queue : Linked α
  parties : Fin n → Stage α
  deeds : List (Deed n α)

/-- What a party does at once. A move that it is too early or too late for does nothing. -/
inductive Move (n : ℕ) (α : Type) where
  /-- It makes a sentinel, to push a value. -/
  | push (k : Fin n) (v : α)
  /-- It puts the value into the queue. -/
  | link (k : Fin n)
  /-- It wakes this sleeper, or nobody if nobody sleeps. -/
  | announce (k sleeper : Fin n)
  /-- It looks whether the queue is empty. -/
  | look (k : Fin n)
  /-- It looks whether there is a value to take, and may be ready to wait for one. -/
  | pop (k : Fin n) (waits : Bool)
  /-- It looks again. -/
  | retry (k : Fin n)
  /-- It takes the value. -/
  | take (k : Fin n)
  /-- It falls asleep. -/
  | sleep (k : Fin n)
  /-- It makes a sentinel, to drain the queue. -/
  | drain (k : Fin n)
  /-- It puts the sentinel in place of the chain. -/
  | swap (k : Fin n)
  /-- It frees the next cell of that chain. -/
  | clear (k : Fin n)
  deriving Repr

/-- Whose move it is. -/
def Move.actor {n : ℕ} {α : Type} : Move n α → Fin n
  | .push k _ | .link k | .announce k _ | .look k | .pop k _ | .retry k | .take k | .sleep k
  | .drain k | .swap k | .clear k => k

namespace Traffic

variable {n : ℕ} {α : Type}

/-- An empty queue with idle parties. -/
def create (n : ℕ) (α : Type) : Traffic n α := ⟨.empty, fun _ => .idle, []⟩

/-- Does anybody hold the lock of the head? -/
def locked (t : Traffic n α) : Bool := decide (∃ k, (t.parties k).holds = true)

/-- Does anybody sleep? -/
def asleep (t : Traffic n α) : Bool := decide (∃ k, (t.parties k).sleeps = true)

/-- The parties with one of them at another stage. -/
def turned (t : Traffic n α) (k : Fin n) (s : Stage α) : Fin n → Stage α :=
  Function.update t.parties k s

/-- The parties after one of them woke a sleeper. If this one does not sleep, nobody must, or it has
to be another. -/
def roused (t : Traffic n α) (k sleeper : Fin n) : Fin n → Stage α :=
  if (t.parties sleeper).sleeps then Function.update (t.turned k .idle) sleeper .woken
  else if t.asleep then t.parties
  else t.turned k .idle

/-- The traffic after a party freed a cell of the chain that it drained. -/
def cleared (t : Traffic n α) (k : Fin n) (cursor stop : ℕ) (collected : List α) : Traffic n α :=
  if cursor = stop then
    { t with
      queue := { t.queue with heap := t.queue.heap.free stop }
      parties := t.turned k .idle
      deeds := t.deeds ++ [.drained k collected] }
  else match t.queue.heap cursor with
    | some ⟨value, some c⟩ =>
      { t with
        queue := { t.queue with heap := t.queue.heap.free cursor }
        parties := t.turned k (.clearing c stop (collected ++ value.toList)) }
    | _ => t

/-- The traffic after a move. -/
def next (t : Traffic n α) : Move n α → Traffic n α
  | .push k v => match t.parties k with
    | .idle =>
      { t with queue := t.queue.allocate.2, parties := t.turned k (.pushing v t.queue.allocate.1) }
    | _ => t
  | .link k => match t.parties k with
    | .pushing v a =>
      { queue := t.queue.link v a
        parties := t.turned k .announcing
        deeds := t.deeds ++ [.pushed k v] }
    | _ => t
  | .announce k sleeper => match t.parties k, t.locked with
    | .announcing, false =>
      { t with parties := t.roused k sleeper }
    | _, _ => t
  | .look k => match t.parties k, t.locked with
    | .idle, false => { t with deeds := t.deeds ++ [.saw k t.queue.isEmpty] }
    | _, _ => t
  | .pop k waits => match t.parties k, t.locked with
    | .idle, false =>
      if t.queue.isEmpty then
        if waits then { t with parties := t.turned k .vain }
        else { t with deeds := t.deeds ++ [.missed k] }
      else { t with parties := t.turned k (.taking false) }
    | _, _ => t
  | .retry k => match t.parties k, t.locked with
    | .woken, false =>
      if t.queue.isEmpty then { t with parties := t.turned k .vain }
      else { t with parties := t.turned k (.taking true) }
    | _, _ => t
  | .take k => match t.parties k with
    | .taking _ => match t.queue.take with
      | (some v, q) =>
        { queue := q, parties := t.turned k .idle, deeds := t.deeds ++ [.popped k v] }
      | (none, q) => { queue := q, parties := t.turned k .idle, deeds := t.deeds ++ [.missed k] }
    | _ => t
  | .sleep k => match t.parties k with
    | .vain => { t with parties := t.turned k .sleeping }
    | _ => t
  | .drain k => match t.parties k with
    | .idle =>
      { t with queue := t.queue.allocate.2, parties := t.turned k (.swapping t.queue.allocate.1) }
    | _ => t
  | .swap k => match t.parties k, t.locked with
    | .swapping a, false =>
      { queue := (t.queue.swap a).2
        parties := t.turned k (.clearing (t.queue.swap a).1.1 (t.queue.swap a).1.2 [])
        deeds := t.deeds ++ [.swapped k] }
    | _, _ => t
  | .clear k => match t.parties k with
    | .clearing cursor stop collected => t.cleared k cursor stop collected
    | _ => t

/-- The traffic after some moves. -/
def after (n : ℕ) (α : Type) (moves : List (Move n α)) : Traffic n α :=
  moves.foldl next (create n α)

/-- One more move comes last. -/
theorem after_concat (moves : List (Move n α)) (m : Move n α) :
    after n α (moves ++ [m]) = (after n α moves).next m := by
  unfold after
  rw [List.foldl_append]
  rfl

/-! ## Parties -/

/-- Nobody holds the lock just if each party does not. -/
theorem locked_eq_false_iff {t : Traffic n α} :
    t.locked = false ↔ ∀ k, (t.parties k).holds = false := by
  simp [locked]

/-- Nobody sleeps just if each party does not. -/
theorem asleep_eq_false_iff {t : Traffic n α} :
    t.asleep = false ↔ ∀ k, (t.parties k).sleeps = false := by
  simp [asleep]

/-- The stage that a party turned to. -/
@[simp] theorem turned_self (t : Traffic n α) (k : Fin n) (s : Stage α) : t.turned k s k = s :=
  Function.update_self _ _ _

/-- The stages of the others are as before. -/
theorem turned_of_ne (t : Traffic n α) {k i : Fin n} (hne : i ≠ k) (s : Stage α) :
    t.turned k s i = t.parties i := Function.update_of_ne hne _ _

/-- A party that is back at its stage. -/
theorem turned_back {t t' : Traffic n α} {k : Fin n} {s s' : Stage α} (hk : t.parties k = s)
    (hparties : t'.parties = t.turned k s') : t'.turned k s = t.parties := by
  rw [turned, hparties, turned, Function.update_idem, ← hk, Function.update_eq_self]

/-- A party that does not take the lock of the head leaves it to the others. -/
theorem not_locked_of_turned {t t' : Traffic n α} (hunlocked : t.locked = false) {k : Fin n}
    {s : Stage α} (hparties : t'.parties = t.turned k s) (hs : s.holds = false) :
    t'.locked = false := by
  rw [locked_eq_false_iff] at hunlocked ⊢
  intro i
  rw [hparties]
  by_cases hi : i = k
  · rw [hi, turned_self, hs]
  · rw [turned_of_ne t hi, hunlocked i]

/-- Nobody falls asleep with a party that does not. -/
theorem not_asleep_of_turned {t t' : Traffic n α} (hawake : t.asleep = false) {k : Fin n}
    {s : Stage α} (hparties : t'.parties = t.turned k s) (hs : s.sleeps = false) :
    t'.asleep = false := by
  rw [asleep_eq_false_iff] at hawake ⊢
  intro i
  rw [hparties]
  by_cases hi : i = k
  · rw [hi, turned_self, hs]
  · rw [turned_of_ne t hi, hawake i]

/-! ## Effects of moves -/

/-- What a move does. -/
inductive Effect (t : Traffic n α) : Traffic n α → Prop
  /-- It is too early or too late for the move. -/
  | nothing : Effect t t
  /-- A sentinel is made for a value that is to be pushed. -/
  | allocated {k : Fin n} {v : α} (stage : t.parties k = .idle) :
      Effect t { t with
        queue := t.queue.allocate.2, parties := t.turned k (.pushing v t.queue.allocate.1) }
  /-- A value is pushed. -/
  | linked {k : Fin n} {v : α} {a : ℕ} (stage : t.parties k = .pushing v a) :
      Effect t
        { queue := t.queue.link v a
          parties := t.turned k .announcing
          deeds := t.deeds ++ [.pushed k v] }
  /-- Somebody is woken for a value that was pushed. -/
  | woke {k i : Fin n} (stage : t.parties k = .announcing) (unlocked : t.locked = false)
      (sleeper : t.parties i = .sleeping) (other : i ≠ k) :
      Effect t { t with parties := Function.update (t.turned k .idle) i .woken }
  /-- There is nobody to wake. -/
  | announced {k : Fin n} (stage : t.parties k = .announcing) (unlocked : t.locked = false)
      (awake : t.asleep = false) : Effect t { t with parties := t.turned k .idle }
  /-- A party is told whether the queue is empty. -/
  | looked {k : Fin n} (stage : t.parties k = .idle) (unlocked : t.locked = false) :
      Effect t { t with deeds := t.deeds ++ [.saw k t.queue.isEmpty] }
  /-- A party is told that there is no value. -/
  | missed {k : Fin n} (stage : t.parties k = .idle) (unlocked : t.locked = false)
      (empty : t.queue.isEmpty = true) : Effect t { t with deeds := t.deeds ++ [.missed k] }
  /-- A party finds no value, and is to wait for one. -/
  | turnedAway {k : Fin n} (stage : t.parties k = .idle ∨ t.parties k = .woken)
      (unlocked : t.locked = false) (empty : t.queue.isEmpty = true) :
      Effect t { t with parties := t.turned k .vain }
  /-- A party finds a value. -/
  | found {k : Fin n} (woken : Bool) (stage : t.parties k = if woken then .woken else .idle)
      (unlocked : t.locked = false) (nonempty : t.queue.isEmpty = false) :
      Effect t { t with parties := t.turned k (.taking woken) }
  /-- A party takes a value. -/
  | took {k : Fin n} {woken : Bool} {v : α} {q : Linked α} (stage : t.parties k = .taking woken)
      (take : t.queue.take = (some v, q)) :
      Effect t { queue := q, parties := t.turned k .idle, deeds := t.deeds ++ [.popped k v] }
  /-- A party that found a value does not get one after all. -/
  | failed {k : Fin n} {woken : Bool} {q : Linked α} (stage : t.parties k = .taking woken)
      (take : t.queue.take = (none, q)) :
      Effect t { queue := q, parties := t.turned k .idle, deeds := t.deeds ++ [.missed k] }
  /-- A party falls asleep. -/
  | slept {k : Fin n} (stage : t.parties k = .vain) :
      Effect t { t with parties := t.turned k .sleeping }
  /-- A sentinel is made for a drain. -/
  | prepared {k : Fin n} (stage : t.parties k = .idle) :
      Effect t { t with
        queue := t.queue.allocate.2, parties := t.turned k (.swapping t.queue.allocate.1) }
  /-- The chain is taken by a party that drains the queue. -/
  | swapped {k : Fin n} {a : ℕ} (stage : t.parties k = .swapping a)
      (unlocked : t.locked = false) :
      Effect t
        { queue := (t.queue.swap a).2
          parties := t.turned k (.clearing t.queue.head t.queue.tail [])
          deeds := t.deeds ++ [.swapped k] }
  /-- A cell of a chain that was taken is freed. -/
  | cleared {k : Fin n} {cursor stop c : ℕ} {collected : List α} {value : Option α}
      (stage : t.parties k = .clearing cursor stop collected) (further : cursor ≠ stop)
      (cell : t.queue.heap cursor = some ⟨value, some c⟩) :
      Effect t
        { t with
          queue := { t.queue with heap := t.queue.heap.free cursor }
          parties := t.turned k (.clearing c stop (collected ++ value.toList)) }
  /-- The last cell of a chain that was taken is freed. -/
  | drained {k : Fin n} {stop : ℕ} {collected : List α}
      (stage : t.parties k = .clearing stop stop collected) :
      Effect t
        { queue := { t.queue with heap := t.queue.heap.free stop }
          parties := t.turned k .idle
          deeds := t.deeds ++ [.drained k collected] }

/-- Every move has one of the effects. -/
theorem effect_next (t : Traffic n α) (m : Move n α) : Effect t (t.next m) := by
  cases m with
  | push k v =>
    simp only [next]
    split
    · rename_i hk
      exact Effect.allocated hk
    · exact Effect.nothing
  | link k =>
    simp only [next]
    split
    · rename_i v a hk
      exact Effect.linked hk
    · exact Effect.nothing
  | announce k sleeper =>
    simp only [next]
    split
    · rename_i hk hunlocked
      unfold roused
      split
      · rename_i hsleeps
        have hsleeper := Stage.eq_sleeping hsleeps
        refine Effect.woke hk hunlocked hsleeper ?_
        rintro rfl
        rw [hk] at hsleeper
        cases hsleeper
      · split
        · exact Effect.nothing
        · rename_i hawake
          exact Effect.announced hk hunlocked (Bool.eq_false_iff.mpr hawake)
    · exact Effect.nothing
  | look k =>
    simp only [next]
    split
    · rename_i hk hunlocked
      exact Effect.looked hk hunlocked
    · exact Effect.nothing
  | pop k waits =>
    simp only [next]
    split
    · rename_i hk hunlocked
      split
      · rename_i hempty
        split
        · exact Effect.turnedAway (Or.inl hk) hunlocked hempty
        · exact Effect.missed hk hunlocked hempty
      · rename_i hnonempty
        exact Effect.found false hk hunlocked (Bool.eq_false_iff.mpr hnonempty)
    · exact Effect.nothing
  | retry k =>
    simp only [next]
    split
    · rename_i hk hunlocked
      split
      · rename_i hempty
        exact Effect.turnedAway (Or.inr hk) hunlocked hempty
      · rename_i hnonempty
        exact Effect.found true hk hunlocked (Bool.eq_false_iff.mpr hnonempty)
    · exact Effect.nothing
  | take k =>
    simp only [next]
    split
    · rename_i woken hk
      split
      · rename_i v q htake
        exact Effect.took hk htake
      · rename_i q htake
        exact Effect.failed hk htake
    · exact Effect.nothing
  | sleep k =>
    simp only [next]
    split
    · rename_i hk
      exact Effect.slept hk
    · exact Effect.nothing
  | drain k =>
    simp only [next]
    split
    · rename_i hk
      exact Effect.prepared hk
    · exact Effect.nothing
  | swap k =>
    simp only [next]
    split
    · rename_i a hk hunlocked
      exact Effect.swapped hk hunlocked
    · exact Effect.nothing
  | clear k =>
    simp only [next]
    split
    · rename_i cursor stop collected hk
      unfold Traffic.cleared
      split
      · rename_i hstop
        subst hstop
        exact Effect.drained hk
      · rename_i hfurther
        split
        · rename_i value c hcell
          exact Effect.cleared hk hfurther hcell
        · exact Effect.nothing
    · exact Effect.nothing

/-! ## What a move looks at -/

/-- The traffic with another heap. -/
def withHeap (t : Traffic n α) (h : Heap α) : Traffic n α :=
  { t with queue := { t.queue with heap := h } }

@[simp] theorem parties_withHeap (t : Traffic n α) (h : Heap α) :
    (t.withHeap h).parties = t.parties := rfl

@[simp] theorem locked_withHeap (t : Traffic n α) (h : Heap α) :
    (t.withHeap h).locked = t.locked := rfl

/-- A move looks at no cells but those that its party reaches: whatever there is at other addresses,
the parties do the same and the queue gets the same ends. -/
theorem next_congr (t : Traffic n α) (m : Move n α) {h : Heap α}
    (hsame : ∀ a ∈ (t.parties m.actor).reaches t.queue, h a = t.queue.heap a) :
    ∃ h', (t.withHeap h).next m = (t.next m).withHeap h' := by
  cases m with
  | push k v =>
    simp only [next, parties_withHeap]
    split
    · exact ⟨_, rfl⟩
    · exact ⟨h, rfl⟩
  | link k =>
    simp only [next, parties_withHeap]
    split
    · exact ⟨_, rfl⟩
    · exact ⟨h, rfl⟩
  | announce k sleeper =>
    simp only [next, parties_withHeap, locked_withHeap]
    split
    · exact ⟨h, rfl⟩
    · exact ⟨h, rfl⟩
  | look k =>
    simp only [next, parties_withHeap, locked_withHeap]
    split
    · exact ⟨h, rfl⟩
    · exact ⟨h, rfl⟩
  | pop k waits =>
    simp only [next, parties_withHeap, locked_withHeap]
    split
    · change ∃ h', (if t.queue.isEmpty then _ else _) = _
      split
      · split
        · exact ⟨h, rfl⟩
        · exact ⟨h, rfl⟩
      · exact ⟨h, rfl⟩
    · exact ⟨h, rfl⟩
  | retry k =>
    simp only [next, parties_withHeap, locked_withHeap]
    split
    · change ∃ h', (if t.queue.isEmpty then _ else _) = _
      split
      · exact ⟨h, rfl⟩
      · exact ⟨h, rfl⟩
    · exact ⟨h, rfl⟩
  | take k =>
    simp only [next, parties_withHeap]
    split
    · rename_i w hk
      have hhead : h t.queue.head = t.queue.heap t.queue.head :=
        hsame _ (Stage.head_mem_reaches t.queue hk)
      simp only [Linked.take, withHeap, hhead]
      cases t.queue.heap t.queue.head with
      | none => exact ⟨h, rfl⟩
      | some c =>
        obtain ⟨value, following⟩ := c
        cases following with
        | none => exact ⟨h, rfl⟩
        | some b =>
          cases value with
          | none => exact ⟨_, rfl⟩
          | some v => exact ⟨_, rfl⟩
    · exact ⟨h, rfl⟩
  | sleep k =>
    simp only [next, parties_withHeap]
    split
    · exact ⟨h, rfl⟩
    · exact ⟨h, rfl⟩
  | drain k =>
    simp only [next, parties_withHeap]
    split
    · exact ⟨_, rfl⟩
    · exact ⟨h, rfl⟩
  | swap k =>
    simp only [next, parties_withHeap, locked_withHeap]
    split
    · exact ⟨h, rfl⟩
    · exact ⟨h, rfl⟩
  | clear k =>
    simp only [next, parties_withHeap]
    split
    · rename_i c b vs hk
      have hcursor : h c = t.queue.heap c := hsame _ (Stage.cursor_mem_reaches t.queue hk)
      unfold cleared
      split
      · exact ⟨_, rfl⟩
      · simp only [withHeap, hcursor]
        split
        · exact ⟨_, rfl⟩
        · exact ⟨h, rfl⟩
    · exact ⟨h, rfl⟩

/-- A move writes and frees no cells but those that its party reaches, and the next free one. -/
theorem heap_next_of_notMem (t : Traffic n α) (m : Move n α) {a : ℕ}
    (ha : a ∉ (t.parties m.actor).reaches t.queue) (hnew : a ≠ t.queue.fresh) :
    (t.next m).queue.heap a = t.queue.heap a := by
  cases m with
  | push k v | drain k =>
    simp only [next]
    split
    · exact Heap.write_of_ne hnew _
    · rfl
  | link k =>
    simp only [next]
    split
    · rename_i v b hk
      refine Heap.write_of_ne ?_ _
      rintro rfl
      exact ha (Stage.tail_mem_reaches t.queue hk)
    · rfl
  | announce k sleeper | look k | sleep k | swap k =>
    simp only [next]
    split
    · rfl
    · rfl
  | pop k waits =>
    simp only [next]
    split
    · split
      · split
        · rfl
        · rfl
      · rfl
    · rfl
  | retry k =>
    simp only [next]
    split
    · split
      · rfl
      · rfl
    · rfl
  | take k =>
    simp only [next]
    split
    · rename_i w hk
      have hkept : t.queue.take.2.heap a = t.queue.heap a := by
        unfold Linked.take
        split
        · rfl
        · split
          · rfl
          · refine Heap.free_of_ne ?_
            rintro rfl
            exact ha (Stage.head_mem_reaches t.queue hk)
      split
      · rename_i v q htake
        rwa [htake] at hkept
      · rename_i q htake
        rwa [htake] at hkept
    · rfl
  | clear k =>
    simp only [next]
    split
    · rename_i cursor stop vs hk
      unfold cleared
      split
      · refine Heap.free_of_ne ?_
        rintro rfl
        exact ha (Stage.stop_mem_reaches t.queue hk)
      · split
        · refine Heap.free_of_ne ?_
          rintro rfl
          exact ha (Stage.cursor_mem_reaches t.queue hk)
        · rfl
    · rfl

/-! ## Operations as moves -/

/-- A party has put a value into the queue, and is to wake somebody for that. -/
theorem link_eq_moves (t : Traffic n α) {k : Fin n} (hk : t.parties k = .idle) (v : α) :
    [Move.push k v, .link k].foldl next t =
      { queue := t.queue.append v
        parties := t.turned k .announcing
        deeds := t.deeds ++ [.pushed k v] } := by
  simp [next, hk, turned, Linked.append_eq]

/-- Pushing a value while nobody sleeps, done without interruption. -/
theorem push_eq_moves (t : Traffic n α) {k : Fin n} (hk : t.parties k = .idle)
    (hunlocked : t.locked = false) (hawake : t.asleep = false) (v : α) :
    [Move.push k v, .link k, .announce k k].foldl next t =
      { t with queue := t.queue.append v, deeds := t.deeds ++ [.pushed k v] } := by
  have hlinked := t.link_eq_moves hk v
  set t' := [Move.push k v, .link k].foldl next t
  have hstage : t'.parties k = .announcing := by
    rw [hlinked]
    exact turned_self t k _
  have hunlocked' : t'.locked = false :=
    not_locked_of_turned hunlocked (congrArg parties hlinked) rfl
  have hawake' : t'.asleep = false := not_asleep_of_turned hawake (congrArg parties hlinked) rfl
  have hroused : t'.roused k k = t.parties := by
    rw [roused, if_neg (by simp [hstage, Stage.sleeps]), if_neg (by simp [hawake'])]
    exact turned_back hk (congrArg parties hlinked)
  change t'.next (.announce k k) = _
  simp only [next, hstage, hunlocked']
  rw [hroused, hlinked]

/-- Pushing a value and waking a sleeper, done without interruption. -/
theorem wake_eq_moves (t : Traffic n α) {k i : Fin n} (hk : t.parties k = .idle)
    (hunlocked : t.locked = false) (hsleeper : t.parties i = .sleeping) (v : α) :
    [Move.push k v, .link k, .announce k i].foldl next t =
      { queue := t.queue.append v
        parties := t.turned i .woken
        deeds := t.deeds ++ [.pushed k v] } := by
  have hlinked := t.link_eq_moves hk v
  have hother : i ≠ k := by
    rintro rfl
    rw [hk] at hsleeper
    cases hsleeper
  set t' := [Move.push k v, .link k].foldl next t
  have hstage : t'.parties k = .announcing := by
    rw [hlinked]
    exact turned_self t k _
  have hsleeps : t'.parties i = .sleeping := by
    rw [hlinked]
    exact (turned_of_ne t hother _).trans hsleeper
  have hunlocked' : t'.locked = false :=
    not_locked_of_turned hunlocked (congrArg parties hlinked) rfl
  have hroused : t'.roused k i = t.turned i .woken := by
    rw [roused, if_pos (by rw [hsleeps]; rfl), turned_back hk (congrArg parties hlinked)]
    rfl
  change t'.next (.announce k i) = _
  simp only [next, hstage, hunlocked']
  rw [hroused, hlinked]

/-- Popping a value, done without interruption. -/
theorem pop_eq_moves (t : Traffic n α) {k : Fin n} (hk : t.parties k = .idle)
    (hunlocked : t.locked = false) :
    [Move.pop k false, .take k].foldl next t =
      { t with
        queue := t.queue.pop.2
        deeds := t.deeds ++ [match t.queue.pop.1 with
          | some v => .popped k v
          | none => .missed k] } := by
  cases hempty : t.queue.isEmpty with
  | true => simp [next, hk, hunlocked, hempty, Linked.pop]
  | false =>
    cases htake : t.queue.take with
    | mk answer q => cases answer with
      | none => simp [next, hk, hunlocked, hempty, Linked.pop, htake, turned]
      | some v => simp [next, hk, hunlocked, hempty, Linked.pop, htake, turned]

/-- Taking a chain apart that was taken, done without interruption. -/
theorem clear_eq_moves {h : Heap α} {cursor stop : ℕ} {cells : List ℕ} {vs : List α}
    (hchain : Chain h stop cursor cells vs) (hnodup : cells.Nodup) (t : Traffic n α) {k : Fin n}
    {collected : List α} (hk : t.parties k = .clearing cursor stop collected)
    (hheap : t.queue.heap = h) :
    (List.replicate cells.length (Move.clear k)).foldl next t =
      { queue := { t.queue with heap := h.without cells }
        parties := t.turned k .idle
        deeds := t.deeds ++ [.drained k (collected ++ vs)] } := by
  induction cells generalizing h cursor vs t collected with
  | nil => cases hchain
  | cons a cells ih =>
    obtain ⟨hfirst, hrest⟩ := List.nodup_cons.mp hnodup
    rw [List.length_cons, List.replicate_succ, List.foldl_cons]
    cases hchain with
    | sentinel last =>
      have hwithout : h.without [stop] = h.free stop := by
        funext b
        simp [Heap.without, Heap.free]
      simp [next, hk, cleared, hheap, hwithout]
    | @link _ c _ v vs cell rest =>
      have hnext : t.next (.clear k) =
          { t with
            queue := { t.queue with heap := h.free a }
            parties := t.turned k (.clearing c stop (collected ++ [v])) } := by
        simp [next, hk, cleared, rest.ne_last hfirst, hheap, cell]
      rw [hnext, ih (rest.free hfirst) hrest _ (turned_self t k _) rfl]
      simp [turned, Heap.without_cons]

/-- Draining the queue, done without interruption. -/
theorem drain_eq_moves (t : Traffic n α) {k : Fin n} (hk : t.parties k = .idle)
    (hunlocked : t.locked = false) {cells : List ℕ} {vs : List α}
    (hchain : Chain t.queue.heap t.queue.tail t.queue.head cells vs) (hnodup : cells.Nodup)
    (hbelow : ∀ a ∈ cells, a < t.queue.fresh) :
    (.drain k :: .swap k :: List.replicate cells.length (Move.clear k)).foldl next t =
      { t with
        queue := t.queue.drain.2
        deeds := t.deeds ++ [.swapped k, .drained k t.queue.drain.1] } := by
  have hlength := Nat.le_succ_of_le (length_le_of_below hnodup hbelow)
  have hnew : t.queue.fresh ∉ cells := fun hmem => Nat.lt_irrefl _ (hbelow _ hmem)
  have hkept := hchain.write hnew Linked.sentinel
  have hswapped : [Move.drain k, .swap k].foldl next t =
      { queue := t.queue.detach.2
        parties := t.turned k (.clearing t.queue.head t.queue.tail [])
        deeds := t.deeds ++ [.swapped k] } := by
    have hprepared : t.next (.drain k) =
        { t with
          queue := t.queue.allocate.2, parties := t.turned k (.swapping t.queue.allocate.1) } := by
      simp only [next, hk]
    have hunlocked' : (t.next (.drain k)).locked = false :=
      not_locked_of_turned hunlocked (congrArg parties hprepared) rfl
    rw [hprepared] at hunlocked'
    change (t.next (.drain k)).next (.swap k) = _
    rw [hprepared, Linked.detach_eq]
    simp only [next, turned_self, hunlocked']
    simp only [turned, Function.update_idem]
    rfl
  rw [List.foldl_cons, List.foldl_cons]
  change (List.replicate cells.length (Move.clear k)).foldl next
    ([Move.drain k, .swap k].foldl next t) = _
  rw [hswapped, clear_eq_moves hkept hnodup _ (turned_self t k _) rfl]
  have hvalues := hkept.values_eq hnodup hlength
  have hrelease := hkept.release_eq hnodup hlength
  simp only [Linked.drain, Linked.detach, hvalues, hrelease, List.nil_append,
    List.append_assoc, List.singleton_append]
  rw [turned_back hk rfl]

/-- What the moves of a party come to that nobody interrupts: they are the operations of the
queue. -/
structure Uninterrupted (t : Traffic n α) : Prop where
  /-- A value is appended. -/
  push : ∀ k v, t.parties k = .idle → t.locked = false → t.asleep = false →
    [Move.push k v, .link k, .announce k k].foldl next t =
      { t with queue := t.queue.append v, deeds := t.deeds ++ [.pushed k v] }
  /-- A value is appended, and a sleeper is woken. -/
  wake : ∀ k i v, t.parties k = .idle → t.locked = false → t.parties i = .sleeping →
    [Move.push k v, .link k, .announce k i].foldl next t =
      { queue := t.queue.append v
        parties := t.turned i .woken
        deeds := t.deeds ++ [.pushed k v] }
  /-- The oldest value is popped, if there is one. -/
  pop : ∀ k, t.parties k = .idle → t.locked = false →
    [Move.pop k false, .take k].foldl next t =
      { t with
        queue := t.queue.pop.2
        deeds := t.deeds ++ [match t.queue.pop.1 with
          | some v => .popped k v
          | none => .missed k] }
  /-- The queue is drained. -/
  drain : ∀ k, t.parties k = .idle → t.locked = false → ∃ count,
    (.drain k :: .swap k :: List.replicate count (Move.clear k)).foldl next t =
      { t with
        queue := t.queue.drain.2
        deeds := t.deeds ++ [.swapped k, .drained k t.queue.drain.1] }

end Traffic

end Haulage.Queue
