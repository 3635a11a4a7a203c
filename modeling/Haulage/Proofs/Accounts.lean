import Haulage.Proofs.Logbook
import Haulage.Proofs.Operations
import Haulage.Storage.Shelf
import Mathlib.Data.List.Induction

/-!
# Accounts and jobs in flight

As long as a pool is not told to stop, its table of clients and the jobs in flight agree after every
act, whatever calls, workers, the delivering loop and the receivers it hands items to do in
between. `Workshop.agreed_after` says so for every run of a workshop.

The accounts themselves are dealt with by `Balanced` and `Recorded`. What is added here is that the
workers stay awake: none of them ends, since no signal to stop is ever sent.
-/

namespace Haulage

/-! ## Workers that stay awake -/

/-- The worker has not ended, and is told nothing that makes it end. -/
structure Worker.Awake (w : Worker) : Prop where
  not_gone : w.isGone = false
  no_stop : .signal .stop ∉ w.line
  not_told : ∀ r, w.duty = .running r → r.sawStop = false

namespace Worker.Awake

variable {σ : Type}

/-- A worker with nothing to do is awake. -/
theorem fresh : Worker.fresh.Awake :=
  ⟨rfl, List.not_mem_nil, fun r hr => by cases hr⟩

/-- Mail other than a signal to stop leaves a worker awake. -/
theorem post {w : Worker} (h : w.Awake) {m : Mail} (hm : m ≠ .signal .stop) :
    (w.post m).Awake := by
  refine ⟨h.not_gone, ?_, h.not_told⟩
  rw [Worker.line_post, List.mem_append, List.mem_singleton]
  rintro (hold | hnew)
  · exact h.no_stop hold
  · cases m with
    | job j => cases hnew
    | signal s => exact hm hnew.symm

/-- The mail that a worker takes next is in its line. -/
theorem mem_line_of_nextMail {w w' : Worker} {s : Signal}
    (h : w.nextMail = some (.signal s, w')) : .signal s ∈ w.line := by
  unfold Worker.line
  rw [Worker.queue_of_nextMail h, List.map_append, List.map_cons]
  exact List.mem_append_right _ List.mem_cons_self

/-- A worker stays awake when it takes a step. -/
theorem step {m : StorageManager σ} {buffer : BufferSize} {w : Worker} {g : Surroundings σ}
    {r : StepResult σ} (h : w.Awake) (hstep : w.step m buffer g = some r) : r.worker.Awake := by
  have hturn := Worker.turn_of_step hstep
  have hline : .signal .stop ∉ r.worker.line :=
    fun hmem => h.no_stop ((Worker.line_of_turn hturn).1.subset hmem)
  cases hturn with
  | pickUp duty next => exact ⟨rfl, hline, fun r hr => by cases hr⟩
  | @skip s w' duty next =>
    have hs : s ≠ .stop := by
      rintro rfl
      exact h.no_stop (mem_line_of_nextMail next)
    rw [if_neg hs] at hline ⊢
    exact ⟨rfl, hline, fun r hr => by cases hr⟩
  | sourceMissing duty check => exact ⟨rfl, hline, fun r hr => by cases hr⟩
  | sourceFound duty check => exact ⟨rfl, hline, fun r hr => by cases hr⟩
  | noAllocation duty failed => exact ⟨rfl, hline, fun r hr => by cases hr⟩
  | unfitDestination duty ready check => exact ⟨rfl, hline, fun r hr => by cases hr⟩
  | launch duty ready check =>
    refine ⟨rfl, hline, ?_⟩
    intro r hr
    cases hr
    rfl
  | @quiet r' duty stage next =>
    refine ⟨rfl, hline, ?_⟩
    intro r hr
    cases hr
    exact h.not_told r' duty
  | @hear r' mail w' duty stage next =>
    refine ⟨rfl, hline, ?_⟩
    intro r hr
    cases hr
    have htells : mail.tells ≠ .stop := by
      cases mail with
      | job j => exact Signal.noConfusion
      | signal s =>
        rintro rfl
        exact h.no_stop (mem_line_of_nextMail next)
    change (r'.sawStop || decide (mail.tells = .stop)) = false
    rw [h.not_told r' duty, decide_eq_false htells]
    rfl
  | @move r' duty stage =>
    refine ⟨rfl, hline, ?_⟩
    intro r hr
    cases hr
    exact h.not_told r' duty
  | @close r' duty stage =>
    obtain ⟨i, t, hclose, -, -⟩ := w.close_eq g r'
    rw [hclose] at hline ⊢
    have hsaw := h.not_told r' duty
    refine ⟨?_, hline, ?_⟩
    · simp [isGone, hsaw]
    · intro r hr
      simp [hsaw] at hr

end Worker.Awake

namespace Workshop

open Log

variable {κ σ : Type}

/-- No worker of the workshop has ended, and none will be told to. -/
structure Awake (y : Workshop κ σ) : Prop where
  workers : ∀ w ∈ y.pool.crew, w.Awake
  errands : ∀ k, .post k .stop ∉ y.errands

/-- Does the act leave the pool open? Nothing shuts it down or tells its workers to stop. -/
def Act.keepsOpen : Act κ σ → Bool
  | .stop | .dismiss | .broadcast .stop => false
  | _ => true

/-- Acts that leave the pool open leave its workers awake. -/
theorem Awake.effect {m : StorageManager σ} {y y' : Workshop κ σ} {a : Act κ σ} (h : y.Awake)
    (heffect : Effect m y a y') (hopen : Act.keepsOpen a) : y'.Awake := by
  constructor
  · refine heffect.crew h.workers Worker.Awake.fresh ?_ ?_ ?_
    · intro w hw j _
      exact (h.workers w hw).post Mail.noConfusion
    · intro w hw k s hpost
      refine (h.workers w hw).post ?_
      intro hs
      cases hs
      exact h.errands k hpost
    · intro w hw r hstep
      exact (h.workers w hw).step hstep
  · intro k hpost
    cases heffect.sent hpost with
    | before errands => exact h.errands _ errands
    | told => cases hopen
    | stopping => cases hopen

/-! ## Agreement -/

/-- The table of clients and the jobs in flight agree, and so does what was done with the jobs. -/
structure Agreed (m : StorageManager σ) (y : Workshop κ σ) : Prop where
  /-- Every job that was taken on is in flight until it is struck off. -/
  conserved : takings y.log = droppings y.log + y.inFlight
  /-- No job is in two places. -/
  once : y.inFlight.Nodup
  /-- A client has an account just as long as it has jobs in flight. -/
  account_iff : ∀ c, (y.pool.clients.find? c).isSome ↔ ∃ j ∈ y.inFlight, j.client = c
  /-- The account counts the jobs in flight and has a tag for each. -/
  outstanding_eq : ∀ c a, y.pool.clients.find? c = some a →
    a.outstanding = (y.jobsOf c).card ∧ a.outstanding = a.tags.length
  /-- The tags on an account are those of the jobs in flight. -/
  tags_eq : ∀ c a, y.pool.clients.find? c = some a →
    (↑(a.tags.map some) : Multiset (Option Tag)) = (y.jobsOf c).map (·.item.tag)
  /-- All tags on all accounts are distinct. -/
  tags_nodup : y.pool.clients.heldTags.Nodup
  tag_range : ∀ tag ∈ y.pool.clients.heldTags, 1 ≤ tag.toNat ∧ tag.toNat ≤ 255
  /-- The workers that have jobs are there to finish them. -/
  not_gone : ∀ w ∈ y.pool.crew, w.isGone = false
  /-- A job is handed over once while it is in flight, and only to the receiver with which the
  account of its client was opened, or to nobody once that was forgotten. -/
  handed : ∀ newer j receiver older, y.log = newer ++ .handed j receiver :: older →
    OnRecord older False j ∧ Backed older j.client receiver
  /-- No job is dropped because its client has no account. -/
  no_stray : ∀ j, .stray j ∉ y.log
  /-- Acts that nothing interrupts are the calls that they make up. -/
  uninterrupted : y.Uninterrupted m

/-- The tags of a balanced table are distinct. -/
theorem Balanced.nodup_heldTags {y : Workshop κ σ} (h : y.Balanced) :
    y.pool.clients.heldTags.Nodup := by
  refine List.nodup_flatMap.mpr ⟨?_, ?_⟩
  · intro x hx
    have hfits := h.fits x.1
    rw [Clients.find?_of_mem h.keyed hx] at hfits
    have hnodup : ((y.jobsOf x.1).map (·.item.tag)).Nodup :=
      Multiset.nodup_of_le (Multiset.map_le_map (Multiset.filter_le _ _)) h.nodup
    rw [← hfits.2.2, Multiset.coe_nodup] at hnodup
    exact hnodup.of_map _
  · refine (List.pairwise_map.mp h.keyed).imp_of_mem ?_
    intro x x' hx hx' hne tag htag htag'
    obtain ⟨j, hj, hclient, hcarried⟩ := h.carrier (Clients.find?_of_mem h.keyed hx) htag
    obtain ⟨j', hj', hclient', hcarried'⟩ := h.carrier (Clients.find?_of_mem h.keyed hx') htag'
    have heq : j = j' := h.eq_of_tag hj hj' (hcarried.trans hcarried'.symm)
    exact hne (hclient.symm.trans ((congrArg Job.client heq).trans hclient'))

/-- The tags of a balanced table are in range. -/
theorem Balanced.tag_range {y : Workshop κ σ} (h : y.Balanced) {tag : Tag}
    (htag : tag ∈ y.pool.clients.heldTags) : 1 ≤ tag.toNat ∧ tag.toNat ≤ 255 := by
  obtain ⟨x, hx, hheld⟩ := List.mem_flatMap.mp htag
  obtain ⟨j, hj, -, hcarried⟩ := h.carrier (Clients.find?_of_mem h.keyed hx) hheld
  have hne : tag ≠ 0 := by
    rintro rfl
    exact h.tag_ne_zero j hj hcarried
  have hpos : tag.toNat ≠ 0 := fun hzero => hne (UInt8.toNat_inj.mp hzero)
  have hlt := tag.toNat_lt
  omega

/-- A workshop whose books are in order and whose workers are awake agrees. -/
theorem agreed_of {y : Workshop κ σ} (hbooked : y.Booked) (hawake : y.Awake)
    (m : StorageManager σ) : y.Agreed m where
  conserved := hbooked.recorded.conserved
  once := Multiset.Nodup.of_map _ hbooked.balanced.nodup
  account_iff c := by
    have hfits := hbooked.balanced.fits c
    constructor
    · intro hsome
      obtain ⟨a, ha⟩ := Option.isSome_iff_exists.mp hsome
      rw [ha] at hfits
      obtain ⟨j, hj⟩ := Multiset.exists_mem_of_ne_zero hfits.1
      exact ⟨j, Multiset.mem_filter.mp hj⟩
    · rintro ⟨j, hj, rfl⟩
      obtain ⟨a, -, ha, -⟩ := hbooked.balanced.held hj
      rw [ha]
      rfl
  outstanding_eq c a ha := by
    have hfits := hbooked.balanced.fits c
    rw [ha] at hfits
    refine ⟨hfits.2.1, ?_⟩
    have hcard := congrArg Multiset.card hfits.2.2
    rw [Multiset.coe_card, List.length_map, Multiset.card_map] at hcard
    rw [hfits.2.1, hcard]
  tags_eq c a ha := by
    have hfits := hbooked.balanced.fits c
    rw [ha] at hfits
    exact hfits.2.2
  tags_nodup := hbooked.balanced.nodup_heldTags
  tag_range _ := hbooked.balanced.tag_range
  not_gone w hw := (hawake.workers w hw).not_gone
  handed newer j receiver older hsplit := hbooked.recorded.handed newer _ older hsplit
  no_stray j hmem := by
    obtain ⟨newer, older, hsplit⟩ := List.append_of_mem hmem
    exact hbooked.recorded.handed newer _ older hsplit
  uninterrupted := y.uninterrupted m

/-- In every run of a workshop whose pool is not told to stop, the table of clients and the jobs in
flight agree. -/
theorem agreed_after (m : StorageManager σ) (settings : Settings) (loop : EventLoop)
    (ground : Surroundings σ) (acts : List (Act κ σ)) (hopen : ∀ a ∈ acts, Act.keepsOpen a) :
    (after m settings loop ground acts).Agreed m := by
  suffices hinv : (after m settings loop ground acts).Booked ∧
      (after m settings loop ground acts).Awake from agreed_of hinv.1 hinv.2 m
  induction acts using List.reverseRecOn with
  | nil =>
    refine ⟨booked_create settings loop ground, ?_, ?_⟩
    · intro w hw
      cases hw
    · intro k hk
      cases hk
  | append_singleton acts a ih =>
    obtain ⟨hbooked, hawake⟩ := ih fun a' ha' => hopen a' (List.mem_append_left _ ha')
    have ha : Act.keepsOpen a := hopen a (List.mem_append_right _ (List.mem_singleton.mpr rfl))
    have hstays : a ≠ .dismiss := by
      rintro rfl
      cases ha
    have heffect := effect_next m (after m settings loop ground acts) a
    rw [after_concat]
    exact ⟨hbooked.effect heffect hstays, hawake.effect heffect ha⟩

/-- A client whose receiver adds an item while it is handed another one, which then is cancelled.
The source of both items is missing. -/
def addingRun : List (Act Unit Shelf) :=
  let item := Item.fresh (.file ⟨"/from"⟩) (.inl ⟨"/to"⟩)
  [.start ⟨1, 0⟩ .nobody, .submit ⟨1⟩ () [item, item], .run, .work 0, .run, .work 0, .fetch,
    .address, .addItem ⟨1⟩ item, .run, .strike, .cancel ⟨1⟩, .run, .work 0, .work 0, .fetch,
    .address, .detach ⟨1⟩, .strike]

/-- The table and the jobs in flight agree at the end of that run. -/
theorem agreed_after_addingRun :
    (∀ a ∈ addingRun, Act.keepsOpen a) ∧
      (after Shelf.manager Settings.defaults ⟨false, false, []⟩ ⟨.blank, .ofMedia [] none false⟩
        addingRun).Agreed Shelf.manager :=
  ⟨by decide, agreed_after _ _ _ _ _ (by decide)⟩

end Workshop

end Haulage
