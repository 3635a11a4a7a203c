import Haulage.Proofs.Ledger

/-!
# The queue is a list

However the moves of the parties at a queue are mixed, the queue does what a plain list would do if
each operation happened at once: `Traffic.refines_after`. That what was done so far is right is said
by the ledger, and `Serves` says for each party what its next move is going to do.

The invariant `Tracks` says which cells are whose. The chain of the queue has its cells, a party
that is about to push or to drain has the sentinel that it made, and a party that has drained the
queue has what is left of the chain that it took. Nobody has a cell of another, so that a move has
to be compared with the cells of its own party and with the chain of the queue only. The values in
the chain are those in the ledger, and what a party that drains has collected, together with what
is left of its chain, is what it took according to the ledger.
-/

namespace Haulage.Queue

variable {n : ℕ} {α : Type}

/-- The cells that belong to a party at this stage, and the values that it has in hand. -/
def Stage.Keeps (h : Heap α) (cells : List ℕ) (hand : Option (List α)) : Stage α → Prop
  | .pushing _ a | .swapping a => cells = [a] ∧ h a = some Linked.sentinel ∧ hand = none
  | .clearing cursor stop vs => ∃ rest, Chain h stop cursor cells rest ∧ hand = some (vs ++ rest)
  | .idle | .announcing | .taking _ | .vain | .sleeping | .woken => cells = [] ∧ hand = none

/-- Only its own cells matter to a party. -/
theorem Stage.Keeps.congr {h h' : Heap α} {cells : List ℕ} {hand : Option (List α)} {s : Stage α}
    (hkeeps : s.Keeps h cells hand) (hsame : ∀ a ∈ cells, h' a = h a) : s.Keeps h' cells hand := by
  cases s with
  | pushing v a | swapping a =>
    obtain ⟨rfl, hcell, hhand⟩ := hkeeps
    exact ⟨rfl, (hsame a List.mem_cons_self).trans hcell, hhand⟩
  | clearing cursor stop vs =>
    obtain ⟨rest, hchain, hhand⟩ := hkeeps
    exact ⟨rest, hchain.congr hsame, hhand⟩
  | idle | announcing | taking w | vain | sleeping | woken => exact hkeeps

/-- The parties and the queue have these cells, and the ledger is right about them. -/
structure Tracks (t : Traffic n α) (region : Option (Fin n) → List ℕ) : Prop where
  regions : Regions t.queue.heap t.queue.fresh region
  chain : Chain t.queue.heap t.queue.tail t.queue.head (region none)
    ((ledger t.deeds).inside.map Prod.snd)
  keeps : ∀ k, (t.parties k).Keeps t.queue.heap (region (some k)) ((ledger t.deeds).onHand k)
  lawful : Lawful t.deeds
  /-- At most one party holds the lock of the head. -/
  exclusive : ∀ i k, (t.parties i).holds = true → (t.parties k).holds = true → i = k
  /-- What a party found does not go away while it holds the lock. -/
  taking : ∀ k w, t.parties k = .taking w → (ledger t.deeds).inside ≠ []

namespace Tracks

variable {t t' : Traffic n α} {region region' : Option (Fin n) → List ℕ}

/-- A party turns to another stage, and the others are not concerned. -/
theorem turn (ht : Tracks t region) {k : Fin n} {s : Stage α}
    (hparties : t'.parties = t.turned k s)
    (hregions : Regions t'.queue.heap t'.queue.fresh region')
    (hchain : Chain t'.queue.heap t'.queue.tail t'.queue.head (region' none)
      ((ledger t'.deeds).inside.map Prod.snd))
    (hkeeps : s.Keeps t'.queue.heap (region' (some k)) ((ledger t'.deeds).onHand k))
    (hothers : ∀ i, i ≠ k → region' (some i) = region (some i) ∧
      (∀ a ∈ region (some i), t'.queue.heap a = t.queue.heap a) ∧
      (ledger t'.deeds).onHand i = (ledger t.deeds).onHand i)
    (hlawful : Lawful t'.deeds)
    (hholds : s.holds = false ∨
      t.locked = false ∧ ∀ w, s = .taking w → (ledger t'.deeds).inside ≠ [])
    (hstays : ∀ i, i ≠ k → ∀ w, t.parties i = .taking w → (ledger t'.deeds).inside ≠ []) :
    Tracks t' region' := by
  have hat (i : Fin n) (hi : i ≠ k) : t'.parties i = t.parties i := by
    rw [hparties, Traffic.turned_of_ne t hi]
  have hself : t'.parties k = s := by
    rw [hparties, Traffic.turned_self]
  refine ⟨hregions, hchain, fun i => ?_, hlawful, ?_, fun i w hi => ?_⟩
  · by_cases hi : i = k
    · rw [hi, hself]
      exact hkeeps
    · obtain ⟨hcells, hsame, hhand⟩ := hothers i hi
      rw [hat i hi, hcells, hhand]
      exact (ht.keeps i).congr hsame
  · -- Whoever holds the lock held it before, or got it when nobody did.
    have hbefore (i : Fin n) (hi : i ≠ k) (hheld : (t'.parties i).holds = true)
        (hk : (t'.parties k).holds = true) : False := by
      rw [hat i hi] at hheld
      rw [hself] at hk
      rcases hholds with hnot | ⟨hunlocked, -⟩
      · rw [hnot] at hk
        cases hk
      · rw [Traffic.locked_eq_false_iff.mp hunlocked i] at hheld
        cases hheld
    intro i j hi hj
    by_cases hik : i = k
    · by_cases hjk : j = k
      · rw [hik, hjk]
      · exact (hbefore j hjk hj (hik ▸ hi)).elim
    · by_cases hjk : j = k
      · exact (hbefore i hik hi (hjk ▸ hj)).elim
      · rw [hat i hik] at hi
        rw [hat j hjk] at hj
        exact ht.exclusive i j hi hj
  · by_cases hik : i = k
    · rw [hik, hself] at hi
      rcases hholds with hnot | ⟨-, htaking⟩
      · rw [hi] at hnot
        cases hnot
      · exact htaking w hi
    · rw [hat i hik] at hi
      exact hstays i hik w hi

/-- A party turns to another stage, and does nothing to the queue. -/
theorem turn_only (ht : Tracks t region) {k : Fin n} {s s' : Stage α} (hk : t.parties k = s)
    (hkeeps : ∀ h cells hand, s.Keeps h cells hand → s'.Keeps h cells hand)
    (hholds : s'.holds = false ∨
      t.locked = false ∧ ∀ w, s' = .taking w → (ledger t.deeds).inside ≠ []) :
    Tracks { t with parties := t.turned k s' } region := by
  have hkept := hkeeps _ _ _ (hk ▸ ht.keeps k)
  refine ht.turn rfl ht.regions ht.chain hkept
    (fun i hi => ⟨rfl, fun a ha => rfl, rfl⟩) ht.lawful hholds fun i hi => ht.taking i

/-- A party is told something about the queue. -/
theorem report (ht : Tracks t region) {d : Deed n α} (hallowed : (ledger t.deeds).Allows d)
    (hsame : (ledger t.deeds).enter d = ledger t.deeds) :
    Tracks { t with deeds := t.deeds ++ [d] } region := by
  have hledger : ledger (t.deeds ++ [d]) = ledger t.deeds := (ledger_concat _ _).trans hsame
  refine ⟨ht.regions, ?_, fun k => ?_, ht.lawful.concat hallowed, ht.exclusive, ?_⟩
  · rw [hledger]
    exact ht.chain
  · rw [hledger]
    exact ht.keeps k
  · rw [hledger]
    exact ht.taking

/-- The cells of one party are not those of the queue. -/
theorem apart (ht : Tracks t region) {k : Fin n} {a b : ℕ} (ha : a ∈ region (some k))
    (hb : b ∈ region none) : a ≠ b := by
  rintro rfl
  cases ht.regions.owner_eq _ _ a ha hb

/-- The cells of two parties differ. -/
theorem apart' (ht : Tracks t region) {i k : Fin n} (hi : i ≠ k) {a b : ℕ}
    (ha : a ∈ region (some i)) (hb : b ∈ region (some k)) : a ≠ b := by
  rintro rfl
  exact hi (Option.some.inj (ht.regions.owner_eq _ _ a ha hb))

/-- The queue has no value just if the ledger has none. -/
theorem isEmpty_iff (ht : Tracks t region) :
    t.queue.isEmpty = true ↔ (ledger t.deeds).inside = [] := by
  rw [Linked.isEmpty, decide_eq_true_iff, ht.chain.first_eq_last_iff (ht.regions.nodup none),
    List.map_eq_nil_iff]

/-- The values in the queue are those in the ledger. -/
theorem toList_eq (ht : Tracks t region) :
    t.queue.toList = (ledger t.deeds).inside.map Prod.snd :=
  ht.chain.values_eq (ht.regions.nodup none) (ht.regions.length_le none)

/-- A party without cells makes a sentinel. -/
theorem allocate (ht : Tracks t region) {k : Fin n} (hk : t.parties k = .idle) {s : Stage α}
    (hs : s = .swapping t.queue.fresh ∨ ∃ v, s = .pushing v t.queue.fresh) :
    Tracks { t with queue := t.queue.allocate.2, parties := t.turned k s }
      (Function.update region (some k) [t.queue.fresh]) := by
  have hidle := ht.keeps k
  rw [hk] at hidle
  obtain ⟨hcells, hhand⟩ := hidle
  have hregion {o : Option (Fin n)} (ho : o ≠ some k) :
      Function.update region (some k) [t.queue.fresh] o = region o := Function.update_of_ne ho _ _
  have hsame (o : Option (Fin n)) (a : ℕ) (ha : a ∈ region o) :
      t.queue.allocate.2.heap a = t.queue.heap a := by
    refine Heap.write_of_ne ?_ _
    rintro rfl
    exact ht.regions.fresh_notMem o ha
  have hkeeps : s.Keeps t.queue.allocate.2.heap [t.queue.fresh] ((ledger t.deeds).onHand k) := by
    rcases hs with rfl | ⟨v, rfl⟩
    · exact ⟨rfl, Heap.write_self _ _ _, hhand⟩
    · exact ⟨rfl, Heap.write_self _ _ _, hhand⟩
  refine ht.turn rfl (ht.regions.allocate hcells _) ?_ ?_ (fun i hi => ?_) ht.lawful ?_
    fun i hi => ht.taking i
  · rw [hregion (Option.some_ne_none k).symm]
    exact ht.chain.congr (hsame none)
  · rw [Function.update_self]
    exact hkeeps
  · exact ⟨hregion fun h => hi (Option.some.inj h), hsame (some i), rfl⟩
  · rcases hs with rfl | ⟨v, rfl⟩
    · exact Or.inl rfl
    · exact Or.inl rfl

/-- A party puts its sentinel behind the chain, and a value into the one that was the last. -/
theorem link (ht : Tracks t region) {k : Fin n} {v : α} {a : ℕ}
    (hk : t.parties k = .pushing v a) :
    Tracks
      { queue := t.queue.link v a
        parties := t.turned k .announcing
        deeds := t.deeds ++ [.pushed k v] }
      (Function.update (Function.update region none (region none ++ [a])) (some k) []) := by
  have hpushing := ht.keeps k
  rw [hk] at hpushing
  obtain ⟨hcells, hcell, hhand⟩ := hpushing
  have hown : a ∈ region (some k) := hcells ▸ List.mem_singleton_self a
  have htail : t.queue.tail ∈ region none := ht.chain.last_mem
  have hledger := ledger_concat t.deeds (.pushed k v)
  have hregions :=
    (ht.regions.write htail ⟨some v, some a⟩).give (Option.some_ne_none k).symm hcells
  refine ht.turn rfl hregions ?_ ?_ (fun i hi => ⟨?_, fun b hb => ?_, ?_⟩) ?_ ?_ ?_
  · rw [hledger, Function.update_of_ne (Option.some_ne_none k).symm, Function.update_self]
    simp only [Ledger.enter, List.map_append, List.map_cons, List.map_nil]
    exact ht.chain.snoc (ht.regions.nodup none) hcell (fun h => ht.apart hown h rfl) v
  · rw [hledger, Function.update_self]
    exact ⟨rfl, hhand⟩
  · rw [Function.update_of_ne fun h => hi (Option.some.inj h),
      Function.update_of_ne (Option.some_ne_none i)]
  · exact Heap.write_of_ne (ht.apart hb htail) _
  · rw [hledger]
    rfl
  · exact ht.lawful.concat trivial
  · exact Or.inl rfl
  · intro i hi w hw
    rw [hledger]
    exact List.append_ne_nil_of_right_ne_nil _ (List.cons_ne_nil _ _)

/-- A party that found a value gets the first one. -/
theorem take_eq (ht : Tracks t region) {k : Fin n} {w : Bool} (hk : t.parties k = .taking w) :
    ∃ e rest c cells, (ledger t.deeds).inside = e :: rest ∧ region none = t.queue.head :: cells ∧
      Chain t.queue.heap t.queue.tail c cells (rest.map Prod.snd) ∧
      t.queue.take =
        (some e.2, { t.queue with heap := t.queue.heap.free t.queue.head, head := c }) := by
  obtain ⟨e, rest, hinside⟩ := List.exists_cons_of_ne_nil (ht.taking k w hk)
  have hchain := ht.chain
  rw [hinside, List.map_cons] at hchain
  obtain ⟨c, cells, hcells, hcell, hrest⟩ := hchain.of_cons
  refine ⟨e, rest, c, cells, hinside, hcells, hrest, ?_⟩
  rw [Linked.take, hcell]

/-- A party takes the first value. -/
theorem take (ht : Tracks t region) {k : Fin n} {w : Bool} {v : α} {q : Linked α}
    (hk : t.parties k = .taking w) (htake : t.queue.take = (some v, q)) :
    ∃ cells, Tracks
      { queue := q, parties := t.turned k .idle, deeds := t.deeds ++ [.popped k v] }
      (Function.update region none cells) := by
  obtain ⟨e, rest, c, cells, hinside, hcells, hrest, htake'⟩ := ht.take_eq hk
  rw [htake'] at htake
  obtain ⟨hvalue, hqueue⟩ := Prod.mk.inj htake
  obtain rfl := Option.some.inj hvalue
  subst hqueue
  have hledger := ledger_concat t.deeds (.popped k e.2)
  have hfirst : t.queue.head ∉ cells := by
    have hnodup := ht.regions.nodup none
    rw [hcells] at hnodup
    exact (List.nodup_cons.mp hnodup).1
  have htaking := ht.keeps k
  rw [hk] at htaking
  obtain ⟨hnone, hhand⟩ := htaking
  refine ⟨cells, ht.turn rfl (ht.regions.free hcells) ?_ ?_ (fun i hi => ⟨?_, fun b hb => ?_, ?_⟩)
    ?_ ?_ ?_⟩
  · rw [hledger, Function.update_self]
    simp only [Ledger.enter, hinside, List.tail_cons]
    exact hrest.free hfirst
  · rw [hledger, Function.update_of_ne (Option.some_ne_none k)]
    exact ⟨hnone, hhand⟩
  · exact Function.update_of_ne (Option.some_ne_none i) _ _
  · exact Heap.free_of_ne (ht.apart hb ht.chain.first_mem)
  · rw [hledger]
    rfl
  · exact ht.lawful.concat ⟨e.1, rest, hinside⟩
  · exact Or.inl rfl
  · -- Nobody else holds the lock.
    intro i hi w' hw
    exact absurd (ht.exclusive i k (by rw [hw]; rfl) (by rw [hk]; rfl)) hi

/-- A party puts its sentinel in place of the chain. -/
theorem swap (ht : Tracks t region) {k : Fin n} {a : ℕ} (hk : t.parties k = .swapping a)
    (hunlocked : t.locked = false) :
    Tracks
      { queue := (t.queue.swap a).2
        parties := t.turned k (.clearing t.queue.head t.queue.tail [])
        deeds := t.deeds ++ [.swapped k] }
      (region ∘ Equiv.swap none (some k)) := by
  have hswapping := ht.keeps k
  rw [hk] at hswapping
  obtain ⟨hcells, hcell, hhand⟩ := hswapping
  have hledger := ledger_concat t.deeds (.swapped k)
  refine ht.turn rfl (ht.regions.exchange none (some k)) ?_ ?_
    (fun i hi => ⟨?_, fun b hb => rfl, ?_⟩) ?_ ?_ ?_
  · rw [hledger, Function.comp_apply, Equiv.swap_apply_left, hcells]
    exact Chain.sentinel hcell
  · rw [hledger, Function.comp_apply, Equiv.swap_apply_right]
    refine ⟨_, ht.chain, ?_⟩
    simp [Ledger.enter]
  · rw [Function.comp_apply, Equiv.swap_apply_of_ne_of_ne (Option.some_ne_none i)
      fun h => hi (Option.some.inj h)]
  · rw [hledger]
    exact Function.update_of_ne hi _ _
  · exact ht.lawful.concat hhand
  · exact Or.inl rfl
  · intro i hi w hw
    have hheld := Traffic.locked_eq_false_iff.mp hunlocked i
    rw [hw] at hheld
    cases hheld

/-- A party frees a cell of the chain that it took. -/
theorem clear (ht : Tracks t region) {k : Fin n} {cursor stop c : ℕ} {collected : List α}
    {value : Option α} (hk : t.parties k = .clearing cursor stop collected) (hne : cursor ≠ stop)
    (hcell : t.queue.heap cursor = some ⟨value, some c⟩) :
    ∃ cells, Tracks
      { t with
        queue := { t.queue with heap := t.queue.heap.free cursor }
        parties := t.turned k (.clearing c stop (collected ++ value.toList)) }
      (Function.update region (some k) cells) := by
  have hclearing := ht.keeps k
  rw [hk] at hclearing
  obtain ⟨rest, hchain, hhand⟩ := hclearing
  cases rest with
  | nil => exact absurd ((hchain.first_eq_last_iff (ht.regions.nodup _)).mpr rfl) hne
  | cons v vs =>
    obtain ⟨c', cells, hcells, hcell', hrest⟩ := hchain.of_cons
    rw [hcell] at hcell'
    obtain ⟨rfl, rfl⟩ : value = some v ∧ c = c' := by simpa using hcell'
    have hnodup := ht.regions.nodup (some k)
    rw [hcells] at hnodup
    have hown : cursor ∈ region (some k) := hchain.first_mem
    refine ⟨cells, ht.turn rfl (ht.regions.free hcells) ?_ ?_
      (fun i hi => ⟨?_, fun b hb => ?_, rfl⟩) ht.lawful ?_ fun i hi => ht.taking i⟩
    · rw [Function.update_of_ne (Option.some_ne_none k).symm]
      exact ht.chain.free fun h => ht.apart hown h rfl
    · rw [Function.update_self]
      refine ⟨vs, hrest.free (List.nodup_cons.mp hnodup).1, ?_⟩
      simpa using hhand
    · exact Function.update_of_ne (fun h => hi (Option.some.inj h)) _ _
    · exact Heap.free_of_ne (ht.apart' hi hb hown)
    · exact Or.inl rfl

/-- A party frees the last cell of the chain that it took. -/
theorem finish (ht : Tracks t region) {k : Fin n} {stop : ℕ} {collected : List α}
    (hk : t.parties k = .clearing stop stop collected) :
    Tracks
      { queue := { t.queue with heap := t.queue.heap.free stop }
        parties := t.turned k .idle
        deeds := t.deeds ++ [.drained k collected] }
      (Function.update region (some k) []) := by
  have hclearing := ht.keeps k
  rw [hk] at hclearing
  obtain ⟨rest, hchain, hhand⟩ := hclearing
  obtain rfl := (hchain.first_eq_last_iff (ht.regions.nodup _)).mp rfl
  have hcells : region (some k) = [stop] := hchain.of_nil.1
  have hledger := ledger_concat t.deeds (.drained k collected)
  have hown : stop ∈ region (some k) := hchain.last_mem
  refine ht.turn rfl (ht.regions.free hcells) ?_ ?_ (fun i hi => ⟨?_, fun b hb => ?_, ?_⟩)
    ?_ ?_ ?_
  · rw [hledger, Function.update_of_ne (Option.some_ne_none k).symm]
    exact ht.chain.free fun h => ht.apart hown h rfl
  · rw [hledger, Function.update_self]
    exact ⟨rfl, Function.update_self _ _ _⟩
  · exact Function.update_of_ne (fun h => hi (Option.some.inj h)) _ _
  · exact Heap.free_of_ne (ht.apart' hi hb hown)
  · rw [hledger]
    exact Function.update_of_ne hi _ _
  · refine ht.lawful.concat ?_
    simpa [Ledger.Allows] using hhand
  · exact Or.inl rfl
  · intro i hi
    rw [hledger]
    exact ht.taking i

/-- Each move keeps track. -/
theorem effect (ht : Tracks t region) (he : Traffic.Effect t t') :
    ∃ region', Tracks t' region' := by
  cases he with
  | nothing => exact ⟨region, ht⟩
  | @allocated k v stage => exact ⟨_, ht.allocate stage (Or.inr ⟨v, rfl⟩)⟩
  | prepared stage => exact ⟨_, ht.allocate stage (Or.inl rfl)⟩
  | linked stage => exact ⟨_, ht.link stage⟩
  | @woke k i stage unlocked sleeper other =>
    have hidle : Tracks { t with parties := t.turned k .idle } region :=
      ht.turn_only stage (fun _ _ _ h => h) (Or.inl rfl)
    have hasleep := (Traffic.turned_of_ne t other .idle).trans sleeper
    exact ⟨region, hidle.turn_only hasleep (fun _ _ _ h => h) (Or.inl rfl)⟩
  | announced stage unlocked awake =>
    exact ⟨region, ht.turn_only stage (fun _ _ _ h => h) (Or.inl rfl)⟩
  | looked stage unlocked =>
    refine ⟨region, ht.report ?_ rfl⟩
    rw [Ledger.Allows, Bool.eq_iff_iff, ht.isEmpty_iff, List.isEmpty_iff]
  | missed stage unlocked empty => exact ⟨region, ht.report (ht.isEmpty_iff.mp empty) rfl⟩
  | turnedAway stage unlocked empty =>
    have hnot (w : Bool) (h : (.vain : Stage α) = .taking w) : (ledger t.deeds).inside ≠ [] := by
      cases h
    refine ⟨region, ?_⟩
    rcases stage with stage | stage
    · exact ht.turn_only stage (fun _ _ _ h => h) (Or.inr ⟨unlocked, hnot⟩)
    · exact ht.turn_only stage (fun _ _ _ h => h) (Or.inr ⟨unlocked, hnot⟩)
  | found woken stage unlocked nonempty =>
    have hinside : (ledger t.deeds).inside ≠ [] := fun hnil => by
      rw [ht.isEmpty_iff.mpr hnil] at nonempty
      cases nonempty
    refine ⟨region, ?_⟩
    cases woken with
    | false =>
      exact ht.turn_only stage (fun _ _ _ h => h) (Or.inr ⟨unlocked, fun _ _ => hinside⟩)
    | true =>
      exact ht.turn_only stage (fun _ _ _ h => h) (Or.inr ⟨unlocked, fun _ _ => hinside⟩)
  | took stage take =>
    obtain ⟨cells, ht'⟩ := ht.take stage take
    exact ⟨_, ht'⟩
  | failed stage take =>
    obtain ⟨e, rest, c, cells, -, -, -, htake⟩ := ht.take_eq stage
    rw [htake] at take
    cases take
  | slept stage =>
    exact ⟨region, ht.turn_only stage (fun _ _ _ h => h) (Or.inl rfl)⟩
  | swapped stage unlocked => exact ⟨_, ht.swap stage unlocked⟩
  | cleared stage further cell =>
    obtain ⟨cells, ht'⟩ := ht.clear stage further cell
    exact ⟨_, ht'⟩
  | drained stage => exact ⟨_, ht.finish stage⟩

end Tracks

/-- In the beginning the queue has one cell. -/
theorem tracks_create (n : ℕ) (α : Type) : ∃ region, Tracks (Traffic.create n α) region := by
  have hnone : Regions (fun _ => none : Heap α) 0 fun _ : Option (Fin n) => [] := by
    refine ⟨fun _ => List.nodup_nil, fun _ _ a ha => absurd ha List.not_mem_nil, fun a => ?_,
      fun _ a ha => absurd ha List.not_mem_nil⟩
    simp
  refine ⟨_, hnone.allocate (o := none) rfl Linked.sentinel, ?_, fun k => ?_, Lawful.nil,
    fun _ _ h => absurd h Bool.false_ne_true, fun k w h => ?_⟩
  · rw [Function.update_self]
    exact Chain.sentinel rfl
  · rw [Function.update_of_ne (Option.some_ne_none k)]
    exact ⟨rfl, rfl⟩
  · cases h

/-- After any moves the queue is kept track of. -/
theorem tracks_after (moves : List (Move n α)) :
    ∃ region, Tracks (Traffic.after n α moves) region := by
  induction moves using List.reverseRecOn with
  | nil => exact tracks_create n α
  | append_singleton moves m ih =>
    obtain ⟨region, ht⟩ := ih
    rw [Traffic.after_concat]
    exact ht.effect (Traffic.effect_next _ m)

/-! ## What the traffic comes to -/

/-- What the parties do next to the values in the queue, and what they are told. -/
structure Serves (t : Traffic n α) : Prop where
  /-- A value that is pushed comes last. -/
  link : ∀ k v a, t.parties k = .pushing v a →
    (t.next (.link k)).queue.toList = t.queue.toList ++ [v] ∧
      (t.next (.link k)).deeds = t.deeds ++ [.pushed k v]
  /-- Whoever looks is told whether there are values. -/
  look : ∀ k, t.parties k = .idle → t.locked = false →
    (t.next (.look k)).deeds = t.deeds ++ [.saw k t.queue.toList.isEmpty]
  /-- When there are none, a party is told so unless it waits for one. -/
  miss : ∀ k, t.parties k = .idle → t.locked = false → t.queue.toList = [] →
    (t.next (.pop k false)).deeds = t.deeds ++ [.missed k] ∧
      (t.next (.pop k true)).parties k = .vain
  /-- When there are some, a party finds one. -/
  find : ∀ k waits, t.parties k = .idle → t.locked = false → t.queue.toList ≠ [] →
    (t.next (.pop k waits)).parties k = .taking false
  /-- Whoever was woken waits again, or finds one. -/
  retry : ∀ k, t.parties k = .woken → t.locked = false →
    (t.next (.retry k)).parties k = if t.queue.toList.isEmpty then .vain else .taking true
  /-- A party that has found one takes the first. -/
  take : ∀ k w, t.parties k = .taking w → ∃ v rest, t.queue.toList = v :: rest ∧
    (t.next (.take k)).queue.toList = rest ∧
      (t.next (.take k)).deeds = t.deeds ++ [.popped k v]
  /-- A party that drains the queue takes all values, and leaves none. -/
  swap : ∀ k a, t.parties k = .swapping a → t.locked = false →
    (t.next (.swap k)).queue.toList = [] ∧
      (ledger (t.next (.swap k)).deeds).onHand k = some t.queue.toList
  /-- It answers what it took, when it has taken the chain apart. -/
  clear : ∀ k cursor stop vs, t.parties k = .clearing cursor stop vs →
    ∃ count all, (ledger t.deeds).onHand k = some all ∧
      ((List.replicate count (Move.clear k)).foldl Traffic.next t).deeds =
        t.deeds ++ [.drained k all]

/-- The parties reach cells that are there, and no others. -/
structure Live (t : Traffic n α) : Prop where
  /-- Each cell that a party reaches is there. -/
  isSome : ∀ k, ∀ a ∈ (t.parties k).reaches t.queue, (t.queue.heap a).isSome = true
  /-- A move looks at no other cells: whatever is there instead, the parties do the same. -/
  congr : ∀ (m : Move n α) (h : Heap α),
    (∀ a ∈ (t.parties m.actor).reaches t.queue, h a = t.queue.heap a) →
      ∃ h', (t.withHeap h).next m = (t.next m).withHeap h'
  /-- It writes and frees no other cells, but for the next free one. -/
  frame : ∀ (m : Move n α) (a : ℕ), a ∉ (t.parties m.actor).reaches t.queue → a ≠ t.queue.fresh →
    (t.next m).queue.heap a = t.queue.heap a

/-- The queue does what a plain list would do if each operation happened at once. -/
structure Refines (t : Traffic n α) : Prop where
  /-- The cells from the head to the tail hang together, each but the last has one of the values in
  the queue, and the last is an empty sentinel. -/
  linked : ∃ cells, cells.Nodup ∧
    Chain t.queue.heap t.queue.tail t.queue.head cells t.queue.toList
  /-- Each deed is what happens at a plain list at its moment. -/
  lawful : Lawful t.deeds
  /-- That list has the values that are in the queue. -/
  inside : (ledger t.deeds).inside.map Prod.snd = t.queue.toList
  /-- What the parties do next is done to this list. -/
  serves : Serves t
  /-- A party that takes apart the chain that it drained has a chain with the rest of the values. -/
  clearing : ∀ k cursor stop vs, t.parties k = .clearing cursor stop vs →
    ∃ cells rest, cells.Nodup ∧ Chain t.queue.heap stop cursor cells rest ∧
      (ledger t.deeds).onHand k = some (vs ++ rest)
  /-- Nobody else has values in hand. -/
  emptyHanded : ∀ k, (∀ cursor stop vs, t.parties k ≠ .clearing cursor stop vs) →
    (ledger t.deeds).onHand k = none
  /-- Every value that was pushed was answered once, or is in the hands of a party that drains, or
  is in the queue. -/
  once : (((pushes t.deeds).map Prod.snd : List α) : Multiset α) =
    answers t.deeds + held (ledger t.deeds).onHand + t.queue.toList
  /-- The values that one party pushed leave the queue in the order in which it pushed them. -/
  inOrder : ∀ k, (ledger t.deeds).left.filter (fun e => e.1 = k) <+:
    (pushes t.deeds).filter fun e => e.1 = k
  /-- No cell is reached that was freed. -/
  live : Live t
  /-- The operations of the queue, each as a whole, are those of the list. -/
  listed : t.queue.Listed
  /-- They are the moves of a party that nobody interrupts. -/
  uninterrupted : t.Uninterrupted
  /-- When nobody is busy, the cells are those of the queue, and disposing of it frees each of them
  with the values that are left. -/
  disposed : (∀ k, t.parties k = .idle) →
    t.queue.dispose = (t.queue.toList, fun _ => none) ∧
      (((pushes t.deeds).map Prod.snd : List α) : Multiset α) =
        answers t.deeds + t.queue.dispose.1

namespace Tracks

variable {t : Traffic n α} {region : Option (Fin n) → List ℕ}

/-- The cells that a party reaches are there. -/
theorem isSome_of_reaches (ht : Tracks t region) {k : Fin n} {a : ℕ}
    (ha : a ∈ (t.parties k).reaches t.queue) : (t.queue.heap a).isSome = true := by
  refine (ht.regions.owned_iff a).mpr ?_
  have hkeeps := ht.keeps k
  cases hk : t.parties k with
  | idle | announcing | vain | sleeping | woken =>
    rw [hk] at ha
    cases ha
  | pushing v b =>
    rw [hk] at ha hkeeps
    rcases List.mem_pair.mp ha with rfl | rfl
    · exact ⟨none, ht.chain.last_mem⟩
    · exact ⟨some k, hkeeps.1 ▸ List.mem_singleton_self a⟩
  | taking w =>
    rw [hk] at ha
    rw [List.mem_singleton.mp ha]
    exact ⟨none, ht.chain.first_mem⟩
  | swapping b =>
    rw [hk] at ha hkeeps
    rw [List.mem_singleton.mp ha]
    exact ⟨some k, hkeeps.1 ▸ List.mem_singleton_self b⟩
  | clearing cursor stop vs =>
    rw [hk] at ha hkeeps
    obtain ⟨rest, hchain, -⟩ := hkeeps
    rcases List.mem_pair.mp ha with rfl | rfl
    · exact ⟨some k, hchain.first_mem⟩
    · exact ⟨some k, hchain.last_mem⟩

/-- The values after a move are those in the ledger of the deeds. -/
theorem toList_next (ht : Tracks t region) (m : Move n α) :
    (t.next m).queue.toList = (ledger (t.next m).deeds).inside.map Prod.snd := by
  obtain ⟨region', ht'⟩ := ht.effect (Traffic.effect_next t m)
  exact ht'.toList_eq

/-- The queue has no value just if its two ends meet. -/
theorem isEmpty_eq (ht : Tracks t region) : t.queue.isEmpty = t.queue.toList.isEmpty := by
  rw [Bool.eq_iff_iff, ht.isEmpty_iff, List.isEmpty_iff, ht.toList_eq, List.map_eq_nil_iff]

/-- Whoever is kept track of is served. -/
theorem serves (ht : Tracks t region) : Serves t := by
  constructor
  · intro k v a hk
    have hdeeds : (t.next (.link k)).deeds = t.deeds ++ [.pushed k v] := by
      simp only [Traffic.next, hk]
    refine ⟨?_, hdeeds⟩
    rw [ht.toList_next, hdeeds, ledger_concat, ht.toList_eq]
    simp only [Ledger.enter, List.map_append, List.map_cons, List.map_nil]
  · intro k hk hunlocked
    simp only [Traffic.next, hk, hunlocked, ht.isEmpty_eq]
  · intro k hk hunlocked hnil
    have hempty : t.queue.isEmpty = true := by
      rw [ht.isEmpty_eq, hnil, List.isEmpty_nil]
    refine ⟨?_, ?_⟩
    · simp only [Traffic.next, hk, hunlocked, hempty, if_true, Bool.false_eq_true, if_false]
    · simp only [Traffic.next, hk, hunlocked, hempty, if_true, Traffic.turned_self]
  · intro k waits hk hunlocked hne
    have hempty : t.queue.isEmpty = false := by
      rw [ht.isEmpty_eq, List.isEmpty_eq_false_iff]
      exact hne
    simp only [Traffic.next, hk, hunlocked, hempty, Bool.false_eq_true, if_false,
      Traffic.turned_self]
  · intro k hk hunlocked
    simp only [Traffic.next, hk, hunlocked, ht.isEmpty_eq]
    split
    · exact Traffic.turned_self t k _
    · exact Traffic.turned_self t k _
  · intro k w hk
    obtain ⟨e, rest, c, cells, hinside, -, -, htake⟩ := ht.take_eq hk
    have hdeeds : (t.next (.take k)).deeds = t.deeds ++ [.popped k e.2] := by
      simp only [Traffic.next, hk, htake]
    refine ⟨e.2, rest.map Prod.snd, ?_, ?_, hdeeds⟩
    · rw [ht.toList_eq, hinside, List.map_cons]
    · rw [ht.toList_next, hdeeds, ledger_concat]
      simp only [Ledger.enter, hinside, List.tail_cons]
  · intro k a hk hunlocked
    have hdeeds : (t.next (.swap k)).deeds = t.deeds ++ [.swapped k] := by
      simp only [Traffic.next, hk, hunlocked]
    refine ⟨?_, ?_⟩
    · rw [ht.toList_next, hdeeds, ledger_concat]
      rfl
    · rw [hdeeds, ledger_concat, ht.toList_eq]
      exact Function.update_self _ _ _
  · intro k cursor stop vs hk
    have hkeeps := ht.keeps k
    rw [hk] at hkeeps
    obtain ⟨rest, hchain, hhand⟩ := hkeeps
    refine ⟨(region (some k)).length, _, hhand, ?_⟩
    rw [Traffic.clear_eq_moves hchain (ht.regions.nodup _) t hk rfl]

/-- A party that does not take a chain apart has no values in hand. -/
theorem onHand_eq_none (ht : Tracks t region) {k : Fin n}
    (hk : ∀ cursor stop vs, t.parties k ≠ .clearing cursor stop vs) :
    (ledger t.deeds).onHand k = none := by
  have hkeeps := ht.keeps k
  cases hstage : t.parties k with
  | pushing v a | swapping a =>
    rw [hstage] at hkeeps
    exact hkeeps.2.2
  | clearing cursor stop vs => exact absurd hstage (hk cursor stop vs)
  | idle | announcing | taking w | vain | sleeping | woken =>
    rw [hstage] at hkeeps
    exact hkeeps.2

/-- When nobody is busy, all cells are those of the queue. -/
theorem dispose_eq (ht : Tracks t region) (hidle : ∀ k, t.parties k = .idle) :
    t.queue.dispose = (t.queue.toList, fun _ => none) := by
  rw [Linked.dispose, ht.chain.dispose_eq (ht.regions.nodup none) (ht.regions.length_le none),
    ht.toList_eq]
  refine Prod.ext rfl (funext fun a => ?_)
  simp only [Heap.without]
  split
  · rfl
  · rename_i ha
    rw [← Option.not_isSome_iff_eq_none, ht.regions.owned_iff]
    rintro ⟨o, ho⟩
    cases o with
    | none => exact ha ho
    | some k =>
      have hkeeps := ht.keeps k
      rw [hidle k] at hkeeps
      rw [hkeeps.1] at ho
      cases ho

/-- The moves of a party that nobody interrupts are the operations of the queue. -/
theorem uninterrupted (ht : Tracks t region) : t.Uninterrupted where
  push _ v hk hunlocked hawake := t.push_eq_moves hk hunlocked hawake v
  wake _ _ v hk hunlocked hsleeper := t.wake_eq_moves hk hunlocked hsleeper v
  pop _ hk hunlocked := t.pop_eq_moves hk hunlocked
  drain _ hk hunlocked :=
    ⟨_, t.drain_eq_moves hk hunlocked ht.chain (ht.regions.nodup none) (ht.regions.below none)⟩

/-- Whatever is kept track of is like a plain list. -/
theorem refines (ht : Tracks t region) : Refines t := by
  have honce : (((pushes t.deeds).map Prod.snd : List α) : Multiset α) =
      answers t.deeds + held (ledger t.deeds).onHand + t.queue.toList := by
    rw [pushes_eq, List.map_append, ← Multiset.coe_add, ht.lawful.accounted, ht.toList_eq]
  constructor
  · exact ⟨region none, ht.regions.nodup none, ht.toList_eq ▸ ht.chain⟩
  · exact ht.lawful
  · exact ht.toList_eq.symm
  · exact ht.serves
  · intro k cursor stop vs hk
    have hkeeps := ht.keeps k
    rw [hk] at hkeeps
    obtain ⟨rest, hchain, hhand⟩ := hkeeps
    exact ⟨_, rest, ht.regions.nodup _, hchain, hhand⟩
  · exact fun k hk => ht.onHand_eq_none hk
  · exact honce
  · exact left_isPrefix t.deeds
  · exact ⟨fun k a ha => ht.isSome_of_reaches ha, fun m h => t.next_congr m,
      fun m a => t.heap_next_of_notMem m⟩
  · exact ht.chain.listed (ht.regions.nodup none) (ht.regions.below none)
  · exact ht.uninterrupted
  · intro hidle
    refine ⟨ht.dispose_eq hidle, ?_⟩
    have hheld : held (ledger t.deeds).onHand = 0 := by
      refine Finset.sum_eq_zero fun k _ => ?_
      have hnone : (ledger t.deeds).onHand k = none := ht.onHand_eq_none fun cursor stop vs h => by
        rw [hidle k] at h
        cases h
      rw [hnone]
      rfl
    rw [honce, hheld, add_zero, ht.dispose_eq hidle]

end Tracks

/-- However the moves of some parties are mixed, the queue does what a plain list would do. -/
theorem Traffic.refines_after (n : ℕ) (α : Type) (moves : List (Move n α)) :
    Refines (Traffic.after n α moves) := by
  obtain ⟨region, ht⟩ := tracks_after moves
  exact ht.refines

/-- A value that is pushed while another party takes apart the chain that it drained. -/
example :
    let t := Traffic.after 2 ℕ [.push 0 1, .link 0, .drain 1, .announce 0 0, .push 0 2, .swap 1,
      .link 0, .clear 1, .clear 1]
    t.deeds = [.pushed 0 1, .swapped 1, .pushed 0 2, .drained 1 [1]] ∧ t.queue.toList = [2] :=
  ⟨rfl, rfl⟩

end Haulage.Queue
