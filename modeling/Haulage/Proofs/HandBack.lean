import Haulage.Proofs.Accounts
import Haulage.Proofs.Books
import Haulage.Proofs.Pursuit

/-!
# Items that are handed back

A receiver may hand an item back to the pool while the item is being delivered to it. The item needs
a tag for that, but the tag that it carried is not taken back before the delivery is over, so that
for a while two tags are needed for one item. `Workshop.handsBack_after` says when there are enough:
just when fewer than 255 jobs are in flight, the delivered one among them. With 255 jobs in flight
every item that is handed back is refused, and `Workshop.fullWorkshop_refuses` is such a run.

The same decides about the items that a transaction puts back for another attempt, which it counts
as failed when they are refused (`Site.receive_of_renewable`).
-/

namespace Haulage

/-! ## Items that a transaction puts back -/

namespace Site

variable {σ : Type} {m : StorageManager σ} {s : Site σ} {i : Item}

/-- An item that came back asks for another attempt, and there is nothing against it: it has not
been put back too often, and passes all checks with its new destination. -/
structure Renewable (m : StorageManager σ) (s : Site σ) (i : Item) : Prop where
  state : i.state.isResubmittable
  auto : i.isAuto
  resubmits_lt : i.resubmits < s.pool.settings.maxResubmits
  enlisted : ((i.reset s.ground.tree).1.enlist m s.ground.storage (i.reset s.ground.tree).2).1 =
    .ok ()

/-- A transaction puts a renewable item back if the pool takes it, and otherwise counts it as
failed. -/
theorem receive_of_renewable (h : Renewable m s i) (c : ClientId) :
    (s.receive m c i).1 = match s.pool.addItem c (renewed m s i) with
      | .ok _ => .putBack
      | .error _ => .failed 0 := by
  have hresubmit : (s.resubmit m c i).1 = match s.pool.addItem c (renewed m s i) with
      | .ok _ => true
      | .error _ => false := by
    have hgo : ¬ (!i.isAuto || decide (i.resubmits ≥ s.pool.settings.maxResubmits)) = true := by
      simpa [h.auto] using h.resubmits_lt
    have henlist : ∃ s', ({ s with ground := { s.ground with tree := (i.reset s.ground.tree).2 } } :
        Site σ).enlist m (i.reset s.ground.tree).1 = (.ok (), renewed m s i, s') ∧
        s'.pool = s.pool :=
      ⟨_, Prod.ext h.enlisted rfl, rfl⟩
    obtain ⟨s', hs', hpool⟩ := henlist
    unfold resubmit
    rw [if_neg hgo]
    simp only
    rw [hs', ← hpool]
    simp only
    split <;> rename_i hadd <;> rw [hadd]
  unfold receive
  split
  · rename_i hdone
    exact absurd h.state (by rw [hdone]; exact Bool.false_ne_true)
  · rename_i hfailed
    exact absurd h.state (by rw [hfailed]; exact Bool.false_ne_true)
  · rw [if_pos h.state]
    generalize s.resubmit m c i = r at hresubmit ⊢
    obtain ⟨answer, s'⟩ := r
    cases hadd : s.pool.addItem c (renewed m s i) with
    | ok p =>
      rw [hadd] at hresubmit
      cases hresubmit
      rfl
    | error e =>
      rw [hadd] at hresubmit
      cases hresubmit
      rfl

end Site

namespace Workshop

variable {κ σ : Type}

/-! ## Tags and jobs in flight -/

/-- As many tags are held as there are jobs in flight. -/
theorem Balanced.length_heldTags {y : Workshop κ σ} (h : y.Balanced) :
    y.pool.clients.heldTags.length = y.inFlight.card := by
  have hperm : (↑(y.pool.clients.heldTags.map some) : Multiset (Option Tag)) =
      y.inFlight.map (·.item.tag) := by
    refine (Multiset.Nodup.ext ?_ h.nodup).mpr fun t => ?_
    · exact Multiset.coe_nodup.mpr (h.nodup_heldTags.map (Option.some_injective _))
    · rw [Multiset.mem_coe, List.mem_map, Multiset.mem_map]
      constructor
      · rintro ⟨tag, htag, rfl⟩
        obtain ⟨x, hx, hheld⟩ := List.mem_flatMap.mp htag
        obtain ⟨j, hj, -, hcarried⟩ := h.carrier (Clients.find?_of_mem h.keyed hx) hheld
        exact ⟨j, hj, hcarried⟩
      · rintro ⟨j, hj, rfl⟩
        obtain ⟨a, tag, hfind, hcarried, hheld⟩ := h.held hj
        exact ⟨tag, Clients.mem_heldTags hfind hheld, hcarried.symm⟩
  have hcard := congrArg Multiset.card hperm
  rwa [Multiset.coe_card, List.length_map, Multiset.card_map] at hcard

/-- No tag that is held is zero. -/
theorem Balanced.heldTags_ne_zero {y : Workshop κ σ} (h : y.Balanced) :
    ∀ tag ∈ y.pool.clients.heldTags, tag ≠ 0 := by
  rintro tag htag rfl
  exact absurd (h.tag_range htag).1 (by decide)

/-- Tags are given out as long as not more than 255 jobs are in flight. -/
theorem Balanced.isSome_allocateTags {y : Workshop κ σ} (h : y.Balanced) (count : ℕ) :
    (y.pool.clients.allocateTags count).isSome ↔ y.inFlight.card + count ≤ 255 := by
  rw [Clients.isSome_allocateTags h.next_ne_zero h.nodup_heldTags h.heldTags_ne_zero,
    h.length_heldTags]

/-- Never more than 255 jobs are in flight. -/
theorem Balanced.card_inFlight_le {y : Workshop κ σ} (h : y.Balanced) : y.inFlight.card ≤ 255 := by
  have hfree := Clients.length_free h.next_ne_zero h.nodup_heldTags h.heldTags_ne_zero
  rw [h.length_heldTags] at hfree
  omega

/-- A client that has jobs in flight may add an item as long as there is a tag to spare. -/
theorem Balanced.addItem_of_spare {y : Workshop κ σ} (h : y.Balanced)
    (hrunning : y.pool.phase = .running)
    {c : ClientId} {a : Account κ} (hknown : y.pool.clients.find? c = some a)
    (hspare : y.inFlight.card < 255) :
    ∃ tag clients, y.pool.clients.allocateTags 1 = some ([tag], clients) ∧ ∀ i,
      y.pool.addItem c i = .ok (({ y.pool with
        clients := clients.update c (Account.oneMore tag) } : Pool κ).dispatch
          ⟨c, { i with tag := some tag }⟩) := by
  obtain ⟨⟨tags, clients⟩, halloc⟩ :=
    Option.isSome_iff_exists.mp ((h.isSome_allocateTags 1).mpr hspare)
  have hlength := (Clients.givenOut_of_allocateTags h.next_ne_zero halloc).length_eq
  obtain ⟨tag, rfl⟩ := List.length_eq_one_iff.mp hlength
  exact ⟨tag, clients, halloc, Pool.addItem_eq_ok hrunning hknown halloc⟩

/-- With 255 jobs in flight no item is added. -/
theorem Balanced.addItem_of_full {y : Workshop κ σ} (h : y.Balanced)
    (hrunning : y.pool.phase = .running)
    {c : ClientId} {a : Account κ} (hknown : y.pool.clients.find? c = some a)
    (hfull : y.inFlight.card = 255) (i : Item) :
    y.pool.addItem c i = .error .tagsExhausted := by
  refine Pool.addItem_eq_error hrunning hknown (Option.not_isSome_iff_eq_none.mp ?_) i
  rw [h.isSome_allocateTags, hfull]
  decide

/-- A pool that still runs was not dismissed. -/
theorem booked_of_running (m : StorageManager σ) (settings : Settings) (loop : EventLoop)
    (ground : Surroundings σ) (acts : List (Act κ σ))
    (hrunning : (after m settings loop ground acts).pool.phase = .running) :
    (after m settings loop ground acts).Booked := by
  rcases pursued_after m settings loop ground acts with ⟨hbooked, -⟩ | hdeserted
  · exact hbooked
  · rw [hdeserted.down] at hrunning
    cases hrunning

/-! ## Handing back -/

/-- What becomes of items that are handed back while a job of the client `c` is being delivered. -/
structure HandsBack (m : StorageManager σ) (y : Workshop Receiver σ) (c : ClientId) : Prop where
  /-- Every job in flight holds a tag, and the delivered one still does. -/
  held_eq : y.pool.clients.heldTags.length = y.inFlight.card
  card_le : y.inFlight.card ≤ 255
  /-- With a tag to spare every item that is handed back is taken on. -/
  taken : y.inFlight.card < 255 → ∀ i, ∃ p, y.pool.addItem c i = .ok p
  /-- Without one none is. -/
  refused : y.inFlight.card = 255 → ∀ i, y.pool.addItem c i = .error .tagsExhausted
  /-- So a transaction puts an item back for another attempt, or counts it as failed. -/
  counted : ∀ (s : Site σ) (i : Item), s.pool = y.pool → Site.Renewable m s i →
    (s.receive m c i).1 = if y.inFlight.card < 255 then .putBack else .failed 0
  /-- Handing back one item for the one that was delivered adds nothing to what is in flight. -/
  card_eq : y.inFlight.card < 255 → y.errands = [] → ∀ i,
    ((y.next m (.addItem c i)).next m .strike).inFlight.card = y.inFlight.card
  /-- Acts that nothing interrupts are the calls that they make up. -/
  uninterrupted : y.Uninterrupted m

/-- While a job of a running pool is being delivered, whether an item can be handed back depends
only on how many jobs are in flight. -/
theorem Booked.handsBack (m : StorageManager σ) {y : Workshop Receiver σ} (h : y.Booked)
    (hrunning : y.pool.phase = .running) {j : Job} {r : Option Receiver}
    (hdelivery : y.delivery = some ⟨j, some r⟩) : y.HandsBack m j.client := by
  obtain ⟨a, -, hknown, -⟩ := h.balanced.held (mem_inFlight_of_delivery hdelivery)
  have htaken : y.inFlight.card < 255 → ∀ i, ∃ p, y.pool.addItem j.client i = .ok p := by
    intro hlt i
    obtain ⟨tag, clients, -, hok⟩ := h.balanced.addItem_of_spare hrunning hknown hlt
    exact ⟨_, hok i⟩
  have hrefused : y.inFlight.card = 255 → ∀ i,
      y.pool.addItem j.client i = .error .tagsExhausted :=
    h.balanced.addItem_of_full hrunning hknown
  have hle := h.balanced.card_inFlight_le
  refine ⟨h.balanced.length_heldTags, hle, htaken, hrefused, ?_, ?_, y.uninterrupted m⟩
  · intro s i hpool hrenewable
    rw [Site.receive_of_renewable hrenewable, hpool]
    split_ifs with hlt
    · obtain ⟨p, hp⟩ := htaken hlt (Site.renewed m s i)
      rw [hp]
    · rw [hrefused (by omega)]
  · intro hlt hcalm i
    obtain ⟨tag, clients, halloc, hok⟩ := h.balanced.addItem_of_spare hrunning hknown hlt
    replace hok : y.pool.addItem j.client i = _ := hok i
    have hadd : y.next m (.addItem j.client i) =
        y.take (clients.update j.client (Account.oneMore tag))
          (Pool.tagging j.client [i] [tag]) [] := by
      have htagged : y.pool.tagged j.client [i] = Pool.tagging j.client [i] [tag] :=
        Pool.tagged_eq halloc j.client
      simp only [next, hcalm, hok, htagged]
      rfl
    have hmore := inFlight_take hcalm (clients.update j.client (Account.oneMore tag))
      (Pool.tagging j.client [i] [tag]) []
    rw [← hadd] at hmore
    have hdelivery' : (y.next m (.addItem j.client i)).delivery = some ⟨j, some r⟩ := by
      rw [hadd]
      exact hdelivery
    have hstrike : ((y.next m (.addItem j.client i)).next m .strike).inFlight =
        ({ y.next m (.addItem j.client i) with delivery := none } :
          Workshop Receiver σ).inFlight := by
      generalize y.next m (.addItem j.client i) = y' at hdelivery' ⊢
      simp only [next, hdelivery']
      rfl
    have hless := congrArg Multiset.card (inFlight_of_delivery hdelivery')
    rw [hmore, Multiset.card_add, Multiset.card_cons] at hless
    rw [hstrike]
    change 1 + y.inFlight.card = _ + 1 at hless
    exact (Nat.add_left_cancel (hless.trans (Nat.add_comm _ 1))).symm

/-- In every run of a workshop, while a job of its running pool is being delivered: an item that is
handed back is taken on as long as fewer than 255 jobs are in flight, the delivered one among them,
and refused otherwise. -/
theorem handsBack_after (m : StorageManager σ) (settings : Settings) (loop : EventLoop)
    (ground : Surroundings σ) (acts : List (Act Receiver σ)) {j : Job} {r : Option Receiver}
    (hrunning : (after m settings loop ground acts).pool.phase = .running)
    (hdelivery : (after m settings loop ground acts).delivery = some ⟨j, some r⟩) :
    (after m settings loop ground acts).HandsBack m j.client :=
  (booked_of_running m settings loop ground acts hrunning).handsBack m hrunning hdelivery

/-- Many items of one client whose source is missing are executed for a transaction; the first of
them is being delivered. -/
def returningRun (count : ℕ) : List (Act Receiver Shelf) :=
  let item := Item.fresh (.file ⟨"/from"⟩) (.inl ⟨"/to"⟩)
  [.start ⟨1, 0⟩ .nobody, .submit ⟨1⟩ (.transaction 0) (List.replicate count item)] ++
    List.replicate count .run ++ [.work 0, .work 0, .fetch, .address]

/-- The first of the items in such a run. -/
def returningJob : Job :=
  ⟨⟨1⟩, { Item.fresh (.file ⟨"/from"⟩) (.inl ⟨"/to"⟩) with
    state := .sourceVanished, tag := some 1 }⟩

/-- Two items of the run are in flight, so the first may be handed back. -/
theorem handsBack_after_returningRun :
    (after Shelf.manager Settings.defaults ⟨false, false, []⟩ ⟨.blank, .ofMedia [] none false⟩
        (returningRun 2)).pool.phase = .running ∧
      (after Shelf.manager Settings.defaults ⟨false, false, []⟩ ⟨.blank, .ofMedia [] none false⟩
        (returningRun 2)).HandsBack Shelf.manager ⟨1⟩ :=
  ⟨rfl, handsBack_after (j := returningJob) (r := some (.transaction 0)) _ _ _ _ _ rfl rfl⟩

/-- A workshop at the end of a run that leaves no tag free. -/
def fullWorkshop : Workshop Receiver Shelf :=
  after Shelf.manager Settings.defaults ⟨false, false, []⟩ ⟨.blank, .ofMedia [] none false⟩
    (returningRun 255)

/-- With 255 items in flight the first of them cannot be handed back. -/
theorem fullWorkshop_refuses :
    fullWorkshop.pool.phase = .running ∧ fullWorkshop.errands = [] ∧
      fullWorkshop.delivery.map (·.job.client) = some ⟨1⟩ ∧
      fullWorkshop.pool.addItem ⟨1⟩ returningJob.item = .error .tagsExhausted := by
  have hrunning : fullWorkshop.pool.phase = .running := by decide +kernel
  have hbooked : fullWorkshop.Booked := by
    unfold fullWorkshop
    refine booked_of_running _ _ _ _ _ ?_
    decide +kernel
  have hheld : fullWorkshop.pool.clients.heldTags.length = 255 := by decide +kernel
  have hknown : (fullWorkshop.pool.clients.find? ⟨1⟩).isSome := by decide +kernel
  obtain ⟨a, ha⟩ := Option.isSome_iff_exists.mp hknown
  refine ⟨hrunning, by decide +kernel, by decide +kernel, ?_⟩
  rw [hbooked.balanced.length_heldTags] at hheld
  exact hbooked.balanced.addItem_of_full hrunning ha hheld _

end Workshop

end Haulage
