import Haulage.Proofs.Refinement

/-!
# Sleepers at the queue

Nobody sleeps while there is something to take. That cannot hold at every moment, for a value is in
the queue before anybody is woken for it, and whoever is woken has to get hold of the lock first.
But each value that is in the queue while somebody sleeps has a party of its own that is on the way:
one that is going to wake a sleeper, or one that was woken and is going to look again. This is
`Traffic.watched_after`.

Values are stolen by parties that come by, and a drain takes them all. This leaves more parties on
the way than there are values, and does no harm. The invariant is kept for those as well who have
found nothing and are about to fall asleep, for values may be pushed before they do.
-/

namespace Haulage.Queue

variable {n : ℕ} {α : Type}

namespace Stage

/-- Has the party pushed a value, and is to wake somebody for that? -/
def announces : Stage α → Bool
  | .announcing => true
  | .idle | .pushing _ _ | .taking _ | .vain | .sleeping | .woken | .swapping _
  | .clearing _ _ _ => false

/-- Was the party woken, and has not got hold of the lock yet? -/
def comesBack : Stage α → Bool
  | .woken => true
  | .idle | .pushing _ _ | .announcing | .taking _ | .vain | .sleeping | .swapping _
  | .clearing _ _ _ => false

/-- Was the party woken, and has not done looking again? It has when it lets go of the lock. -/
def looksAgain : Stage α → Bool
  | .woken | .taking true => true
  | .idle | .pushing _ _ | .announcing | .taking false | .vain | .sleeping | .swapping _
  | .clearing _ _ _ => false

/-- Does the party sleep, or is to fall asleep? -/
def waits : Stage α → Bool
  | .sleeping | .vain => true
  | .idle | .pushing _ _ | .announcing | .taking _ | .woken | .swapping _
  | .clearing _ _ _ => false

end Stage

namespace Traffic

/-- The number of parties at a stage of some kind. -/
def count (t : Traffic n α) (p : Stage α → Bool) : ℕ := ∑ k, (p (t.parties k)).toNat

/-- The parties are counted anew when one of them turns to another stage. -/
theorem count_turn {t t' : Traffic n α} {k : Fin n} {s s' : Stage α} (hk : t.parties k = s)
    (hparties : t'.parties = t.turned k s') (p : Stage α → Bool) :
    t'.count p + (p s).toNat = t.count p + (p s').toNat := by
  rw [count, hparties, ← hk]
  exact sum_update_add t.parties k s' fun x => (p x).toNat

/-- Nobody is counted just if nobody is at such a stage. -/
theorem count_eq_zero {t : Traffic n α} {p : Stage α → Bool} (h : ∀ k, p (t.parties k) = false) :
    t.count p = 0 := by
  refine Finset.sum_eq_zero fun k _ => ?_
  rw [h k]
  rfl

/-- The number of values in the queue, by the deeds. -/
def load (t : Traffic n α) : ℕ := (ledger t.deeds).inside.length

/-- The load after one more deed. -/
theorem load_concat (t : Traffic n α) (q : Linked α) (parties : Fin n → Stage α) (d : Deed n α) :
    load ⟨q, parties, t.deeds ++ [d]⟩ = ((ledger t.deeds).enter d).inside.length := by
  rw [load, ledger_concat]

/-- While somebody waits, each value in the queue has a party on the way. -/
def Covered (t : Traffic n α) : Prop :=
  (∃ k, (t.parties k).waits = true) → t.load ≤ t.count Stage.announces + t.count Stage.looksAgain

/-- In the beginning nobody waits. -/
theorem covered_create (n : ℕ) (α : Type) : Covered (create n α) := by
  rintro ⟨k, hk⟩
  cases hk

/-- A party turns to another stage, and does not begin to wait. -/
theorem Covered.turn {t t' : Traffic n α} (hc : Covered t) {k : Fin n} {s s' : Stage α}
    (hk : t.parties k = s) (hparties : t'.parties = t.turned k s')
    (hwaits : s'.waits = false ∨ s.waits = true)
    (hload : t'.load + (s.announces.toNat + s.looksAgain.toNat) ≤
      t.load + (s'.announces.toNat + s'.looksAgain.toNat)) : Covered t' := by
  rintro ⟨i, hi⟩
  have hbefore : ∃ i, (t.parties i).waits = true := by
    rw [hparties] at hi
    by_cases hik : i = k
    · rw [hik, turned_self] at hi
      rcases hwaits with hnot | hwaits
      · rw [hnot] at hi
        cases hi
      · exact ⟨k, hk ▸ hwaits⟩
    · rw [turned_of_ne t hik] at hi
      exact ⟨i, hi⟩
  have hcovered := hc hbefore
  have hannounces := count_turn hk hparties Stage.announces
  have hlooks := count_turn hk hparties Stage.looksAgain
  omega

/-- Waking a sleeper leaves the values covered: there is one party less that announces, and one more
that looks again. -/
theorem Covered.wake {t : Traffic n α} (hc : Covered t) {k i : Fin n}
    (stage : t.parties k = .announcing) (sleeper : t.parties i = .sleeping) (other : i ≠ k) :
    Covered { t with parties := Function.update (t.turned k .idle) i .woken } := by
  have hbound := hc ⟨i, by rw [sleeper]; rfl⟩
  have hstill : t.turned k .idle i = .sleeping := (turned_of_ne t other _).trans sleeper
  have hidle (p : Stage α → Bool) :
      count { t with parties := t.turned k .idle } p + (p .announcing).toNat =
        t.count p + (p .idle).toNat := count_turn stage rfl p
  have hwoken (p : Stage α → Bool) :
      count { t with parties := Function.update (t.turned k .idle) i .woken } p +
          (p .sleeping).toNat =
        count { t with parties := t.turned k .idle } p + (p .woken).toNat :=
    count_turn hstill rfl p
  have hless := hidle Stage.announces
  have hless' := hwoken Stage.announces
  have hmore := hidle Stage.looksAgain
  have hmore' := hwoken Stage.looksAgain
  simp only [Stage.announces, Stage.looksAgain, Bool.toNat_true, Bool.toNat_false]
    at hless hless' hmore hmore'
  intro _
  change t.load ≤ _
  omega

/-- When nobody sleeps and nobody is about to, there is nothing to cover. -/
theorem covered_of_awake {t : Traffic n α} {k : Fin n} (unlocked : t.locked = false)
    (awake : t.asleep = false) : Covered { t with parties := t.turned k .idle } := by
  rintro ⟨i, hi⟩
  change (t.turned k .idle i).waits = true at hi
  -- Nobody sleeps, and nobody holds the lock to fall asleep.
  have hasleep := asleep_eq_false_iff.mp awake i
  have hholds := locked_eq_false_iff.mp unlocked i
  by_cases hik : i = k
  · rw [hik, turned_self] at hi
    cases hi
  · rw [turned_of_ne t hik] at hi
    cases hstage : t.parties i with
    | sleeping =>
      rw [hstage] at hasleep
      cases hasleep
    | vain =>
      rw [hstage] at hholds
      cases hholds
    | idle | pushing v a | announcing | taking w | woken | swapping a | clearing c b vs =>
      rw [hstage] at hi
      cases hi

/-- Each move leaves the values covered. -/
theorem Covered.effect {t t' : Traffic n α} {region : Option (Fin n) → List ℕ} (hc : Covered t)
    (ht : Tracks t region) (he : Effect t t') : Covered t' := by
  cases he with
  | nothing => exact hc
  | allocated stage => exact hc.turn stage rfl (Or.inl rfl) (Nat.le_refl _)
  | prepared stage => exact hc.turn stage rfl (Or.inl rfl) (Nat.le_refl _)
  | linked stage =>
    refine hc.turn stage rfl (Or.inl rfl) ?_
    rw [load_concat]
    simp [Ledger.enter, load, Stage.announces, Stage.looksAgain]
  | woke stage unlocked sleeper other => exact hc.wake stage sleeper other
  | announced stage unlocked awake => exact covered_of_awake unlocked awake
  | looked stage unlocked =>
    intro hwaits
    rw [load_concat]
    exact hc hwaits
  | missed stage unlocked empty =>
    intro hwaits
    rw [load_concat]
    exact hc hwaits
  | turnedAway stage unlocked empty =>
    intro hwaits
    have hnil := ht.isEmpty_iff.mp empty
    change (ledger t.deeds).inside.length ≤ _
    rw [hnil]
    exact Nat.zero_le _
  | found woken stage unlocked nonempty =>
    cases woken with
    | false => exact hc.turn stage rfl (Or.inl rfl) (Nat.le_refl _)
    | true => exact hc.turn stage rfl (Or.inl rfl) (Nat.le_refl _)
  | @took k w v q stage take =>
    obtain ⟨e, rest, hinside⟩ := List.exists_cons_of_ne_nil (ht.taking k w stage)
    refine hc.turn stage rfl (Or.inl rfl) ?_
    rw [load_concat, load, hinside]
    cases w with
    | false => simp [Ledger.enter, hinside, Stage.announces, Stage.looksAgain]
    | true => simp [Ledger.enter, hinside, Stage.announces, Stage.looksAgain]
  | failed stage take =>
    obtain ⟨e, rest, c, cells, -, -, -, htake⟩ := ht.take_eq stage
    rw [htake] at take
    cases take
  | slept stage => exact hc.turn stage rfl (Or.inr rfl) (Nat.le_refl _)
  | swapped stage unlocked =>
    refine hc.turn stage rfl (Or.inl rfl) ?_
    rw [load_concat]
    exact Nat.zero_le _
  | cleared stage further cell => exact hc.turn stage rfl (Or.inl rfl) (Nat.le_refl _)
  | drained stage =>
    refine hc.turn stage rfl (Or.inl rfl) ?_
    rw [load_concat]
    exact Nat.le_refl _

/-- After any moves the values are covered. -/
theorem covered_after (moves : List (Move n α)) : Covered (after n α moves) := by
  induction moves using List.reverseRecOn with
  | nil => exact covered_create n α
  | append_singleton moves m ih =>
    obtain ⟨region, ht⟩ := tracks_after moves
    rw [after_concat]
    exact ih.effect ht (effect_next _ m)

/-- There are not too many values in the queue for somebody to sleep. -/
structure Watched (t : Traffic n α) : Prop where
  /-- For each there is a party that announces a value, or one that was woken and looks again. -/
  bound : t.queue.toList.length ≤ t.count Stage.announces + t.count Stage.looksAgain
  /-- While nobody holds the lock of the head, those who look again have all yet to begin. -/
  unlocked : t.locked = false →
    t.queue.toList.length ≤ t.count Stage.announces + t.count Stage.comesBack
  /-- When there are no such parties, there are no values. -/
  quiet : (∀ k, (t.parties k).announces = false) → (∀ k, (t.parties k).looksAgain = false) →
    t.queue.toList = []
  /-- The moves of a party that nobody interrupts are the operations of the queue. -/
  uninterrupted : t.Uninterrupted

/-- Somebody sleeps only while the values in the queue have parties on the way. -/
theorem watched_after (moves : List (Move n α)) (k : Fin n)
    (hsleeps : (after n α moves).parties k = .sleeping) : Watched (after n α moves) := by
  obtain ⟨region, ht⟩ := tracks_after moves
  set t := after n α moves
  have hload : t.queue.toList.length = t.load := by
    rw [ht.toList_eq, List.length_map, load]
  have hbound : t.queue.toList.length ≤ t.count Stage.announces + t.count Stage.looksAgain := by
    rw [hload]
    exact covered_after moves ⟨k, by rw [hsleeps]; rfl⟩
  refine ⟨hbound, fun hunlocked => ?_, fun hannounces hlooks => ?_, ht.uninterrupted⟩
  · have hsame : t.count Stage.looksAgain = t.count Stage.comesBack := by
      refine Finset.sum_congr rfl fun i _ => ?_
      have hholds := locked_eq_false_iff.mp hunlocked i
      cases hstage : t.parties i with
      | taking w =>
        rw [hstage] at hholds
        cases hholds
      | idle | pushing v a | announcing | vain | sleeping | woken | swapping a
      | clearing c b vs => rfl
    rwa [hsame] at hbound
  · rw [count_eq_zero hannounces, count_eq_zero hlooks] at hbound
    exact List.length_eq_zero_iff.mp (Nat.le_zero.mp hbound)

/-- Two parties fall asleep, and one of them is woken for a value. -/
def wakingRun : List (Move 3 ℕ) :=
  [.push 2 7, .pop 0 true, .sleep 0, .pop 1 true, .sleep 1, .link 2, .announce 2 0]

/-- A sleeper with a value in the queue, for which the other one was woken. -/
theorem watched_after_wakingRun :
    (after 3 ℕ wakingRun).parties 1 = .sleeping ∧ (after 3 ℕ wakingRun).queue.toList = [7] ∧
      (after 3 ℕ wakingRun).locked = false ∧ Watched (after 3 ℕ wakingRun) :=
  ⟨rfl, rfl, rfl, watched_after wakingRun 1 rfl⟩

end Traffic

end Haulage.Queue
