import Haulage.Proofs.Workshop
import Mathlib.Data.Multiset.MapFold
import Mathlib.Data.Multiset.UnionInter

/-!
# The balance of a workshop

The table of clients agrees with the jobs in flight: each client with jobs in flight has an account
that counts them and lists their tags, nobody else has one, and no two jobs carry the same tag.

From the point of view of the books, which are the table, the jobs in flight and the log, there are
few kinds of acts. `Booking` lists them, `Balanced.booking` puts every act under one of them unless
it dismisses the pool, and `Balanced.book` says that they keep the balance. A pool that was
dismissed keeps nothing at all (`Deserted.effect`), so one of the two holds in every run.
-/

namespace Haulage

/-- Is the entry one that the books do not depend on? -/
def Entry.isAside {κ : Type} : Entry κ → Bool
  | .cancelled _ | .finished _ => true
  | .opened _ _ | .taken _ | .detached _ | .handed _ _ | .struck _ | .stray _ => false

/-- Does the entry say that the job, or one of the same manifest, was taken on? -/
def Entry.takes {κ : Type} (j : Job) : Entry κ → Bool
  | .taken j' => j'.manifest = j.manifest
  | _ => false

/-! ## Tagged jobs -/

namespace Pool

/-- The jobs made of the items of a client belong to the client. -/
theorem client_of_mem_tagging {c : ClientId} {items : List Item} {tags : List Tag} {j : Job}
    (h : j ∈ tagging c items tags) : j.client = c := by
  obtain ⟨x, -, rfl⟩ := List.mem_map.mp h
  rfl

/-- The jobs made of items are as many as the items. -/
theorem length_tagging {c : ClientId} {items : List Item} {tags : List Tag}
    (h : tags.length = items.length) : (tagging c items tags).length = items.length := by
  simp [tagging, h]

/-- The jobs made of items carry the tags given to them. -/
theorem map_tag_tagging {c : ClientId} {items : List Item} {tags : List Tag}
    (h : tags.length = items.length) :
    (tagging c items tags).map (·.item.tag) = tags.map some := by
  have hsnd : (items.zip tags).map Prod.snd = tags := List.map_snd_zip (Nat.le_of_eq h)
  unfold tagging
  rw [List.map_map]
  nth_rewrite 2 [← hsnd]
  rw [List.map_map]
  rfl

end Pool

/-- A manifest is its own manifest. -/
@[simp] theorem Job.manifest_manifest (j : Job) : j.manifest.manifest = j.manifest := rfl

/-- The account of a client fits the jobs in flight of that client, and there is none without. -/
def Account.Fits {κ : Type} (account : Option (Account κ)) (jobs : Multiset Job) : Prop :=
  match account with
  | none => jobs = 0
  | some a => jobs ≠ 0 ∧ a.outstanding = jobs.card ∧
      (↑(a.tags.map some) : Multiset (Option Tag)) = jobs.map (·.item.tag)

namespace Account.Fits

variable {κ : Type}

/-- Fitting has nothing to do with the receiver. -/
theorem detached {account : Option (Account κ)} {jobs : Multiset Job}
    (h : Account.Fits account jobs) : Account.Fits (account.bind Account.detached) jobs := by
  cases account with
  | none => exact h
  | some a => exact h

/-- The account that is opened for some jobs fits them. -/
theorem opened {c : ClientId} {items : List Item} {tags : List Tag}
    (hlength : tags.length = items.length) (hitems : items ≠ []) (receiver : κ) :
    Account.Fits (some ⟨items.length, some receiver, tags⟩)
      ↑((Pool.tagging c items tags).map Job.manifest) := by
  have hcard : ((Pool.tagging c items tags).map Job.manifest).length = items.length := by
    rw [List.length_map, Pool.length_tagging hlength]
  refine ⟨?_, ?_, ?_⟩
  · intro hzero
    rw [(Multiset.coe_eq_zero _).mp hzero] at hcard
    exact hitems (List.length_eq_zero_iff.mp hcard.symm)
  · rw [Multiset.coe_card, hcard]
  · rw [Multiset.map_coe, List.map_map, ← Pool.map_tag_tagging (c := c) hlength]
    rfl

/-- An account that one more item is added to fits one more job. -/
theorem oneMore {a : Account κ} {jobs : Multiset Job} (h : Account.Fits (some a) jobs) {tag : Tag}
    {j : Job} (htag : j.item.tag = some tag) : Account.Fits (a.oneMore tag) (j ::ₘ jobs) := by
  obtain ⟨-, hcount, htags⟩ := h
  refine ⟨Multiset.cons_ne_zero, ?_, ?_⟩
  · rw [Multiset.card_cons, ← hcount]
  · rw [List.map_append, ← Multiset.coe_add, htags, Multiset.map_cons, htag, add_comm]
    rfl

/-- An account that an item is struck off fits one job less, or is closed. -/
theorem handBack {a : Account κ} {jobs : Multiset Job} {j : Job}
    (h : Account.Fits (some a) (j ::ₘ jobs)) :
    Account.Fits (Clients.handBack j.item.tag a) jobs := by
  obtain ⟨-, hcount, htags⟩ := h
  rw [Multiset.card_cons] at hcount
  rw [Multiset.map_cons] at htags
  have hmem : j.item.tag ∈ (↑(a.tags.map some) : Multiset (Option Tag)) := by
    rw [htags]
    exact Multiset.mem_cons_self _ _
  obtain ⟨tag, hheld, heq⟩ := List.mem_map.mp (Multiset.mem_coe.mp hmem)
  unfold Clients.handBack
  split
  · rename_i hlast
    exact Multiset.card_eq_zero.mp (by omega)
  · rename_i hmore
    refine ⟨?_, ?_, ?_⟩
    · intro hzero
      rw [hzero, Multiset.card_zero] at hcount
      omega
    · simp only
      omega
    · rw [← heq] at htags ⊢
      have hperm := (Clients.withdrawTag_perm hheld).map some
      rw [List.map_cons] at hperm
      have hcons : some tag ::ₘ (↑((Clients.withdrawTag a.tags tag).map some) :
          Multiset (Option Tag)) = ↑(a.tags.map some) := Multiset.coe_eq_coe.mpr hperm
      exact (Multiset.cons_inj_right _).mp (hcons.trans htags)

end Account.Fits

namespace Workshop

variable {κ σ : Type}

/-- The manifests of the jobs in flight of a client. -/
def jobsOf (y : Workshop κ σ) (c : ClientId) : Multiset Job := y.inFlight.filter (·.client = c)

/-- There are workers as long as there is anything to send to them, and none before the pool is
started. -/
structure Manned (y : Workshop κ σ) : Prop where
  crew_ne_nil : y.pool.phase = .running ∨ y.errands ≠ [] → y.pool.crew ≠ []
  crew_eq_nil : y.pool.phase = .idle → y.pool.crew = []

/-- The table of clients agrees with the jobs in flight. -/
structure Balanced (y : Workshop κ σ) : Prop where
  keyed : y.pool.clients.Keyed
  next_ne_zero : y.pool.clients.nextTag ≠ 0
  fits : ∀ c, Account.Fits (y.pool.clients.find? c) (y.jobsOf c)
  nodup : (y.inFlight.map (·.item.tag)).Nodup
  tag_ne_zero : ∀ j ∈ y.inFlight, j.item.tag ≠ some 0

/-! ## Crews -/

/-- The crew only changes when the pool is started and when it is dismissed. -/
theorem Manned.effect {m : StorageManager σ} {y y' : Workshop κ σ} {a : Act κ σ} (h : y.Manned)
    (heffect : Effect m y a y') (hstays : a ≠ .dismiss) : y'.Manned := by
  cases heffect with
  | nothing a => exact h
  | aside stays clients crew completed phase =>
    constructor
    · rw [phase, crew]
      exact h.crew_ne_nil
    · rw [phase, crew]
      exact h.crew_eq_nil
  | started calm start =>
    obtain ⟨-, hrunning, -, -, n, hcrew⟩ := Pool.of_start start
    constructor
    · intro _
      rw [hcrew]
      exact List.cons_ne_nil _ _
    · intro hidle
      rw [hrunning] at hidle
      cases hidle
  | opened calm running unknown items_ne allocated =>
    exact ⟨fun _ => h.crew_ne_nil (Or.inl running), h.crew_eq_nil⟩
  | added calm running known allocated =>
    exact ⟨fun _ => h.crew_ne_nil (Or.inl running), h.crew_eq_nil⟩
  | cancelled calm running known =>
    exact ⟨fun _ => h.crew_ne_nil (Or.inl running), h.crew_eq_nil⟩
  | detached c => exact ⟨h.crew_ne_nil, h.crew_eq_nil⟩
  | told calm running => exact ⟨fun _ => h.crew_ne_nil (Or.inl running), h.crew_eq_nil⟩
  | stopped calm running =>
    exact ⟨fun _ => h.crew_ne_nil (Or.inl running), fun hphase => by cases hphase⟩
  | retired calm resting =>
    refine ⟨?_, fun hphase => by cases hphase⟩
    rintro (hphase | herrands)
    · cases hphase
    · exact absurd calm herrands
  | dismissed calm down gone => exact absurd rfl hstays
  | @ran e rest errands =>
    have hcrew : y.pool.crew ≠ [] := by
      refine h.crew_ne_nil (Or.inr ?_)
      rw [errands]
      exact List.cons_ne_nil _ _
    have hlength : (y.pool.run e).crew.length = y.pool.crew.length := by
      cases e with
      | dispatch j => exact List.length_modify _ _ _
      | post k s => exact List.length_modify _ _ _
    have hphase : (y.pool.run e).phase = y.pool.phase := by
      cases e <;> rfl
    constructor
    · intro _ hbare
      rw [show (y.pool.run e).crew = [] from hbare] at hlength
      exact hcrew (List.length_eq_zero_iff.mp hlength.symm)
    · intro hidle
      exact absurd (h.crew_eq_nil (hphase.symm.trans hidle)) hcrew
  | @worked k w r worker step =>
    obtain ⟨-, hset, -, hphase⟩ :=
      foldl_complete r.finished.toList { y.pool with crew := y.pool.crew.set k r.worker }
    have hlt : k < y.pool.crew.length := (List.getElem?_eq_some_iff.mp worker).1
    have hcrew : y.pool.crew ≠ [] := List.ne_nil_of_length_pos (Nat.zero_lt_of_lt hlt)
    constructor
    · intro _ hbare
      have hlength := congrArg List.length (hset.symm.trans hbare)
      rw [List.length_set] at hlength
      exact hcrew (List.length_eq_zero_iff.mp hlength)
    · intro hidle
      exact absurd (h.crew_eq_nil (hphase.symm.trans hidle)) hcrew
  | fetched free completed => exact ⟨h.crew_ne_nil, h.crew_eq_nil⟩
  | strayed delivery unknown => exact ⟨h.crew_ne_nil, h.crew_eq_nil⟩
  | handed delivery known => exact ⟨h.crew_ne_nil, h.crew_eq_nil⟩
  | struck delivery => exact ⟨h.crew_ne_nil, h.crew_eq_nil⟩

/-! ## What the balance says -/

/-- Every job in flight has its tag on the account of its client. -/
theorem Balanced.held {y : Workshop κ σ} (h : y.Balanced) {j : Job} (hj : j ∈ y.inFlight) :
    ∃ a tag, y.pool.clients.find? j.client = some a ∧ j.item.tag = some tag ∧ tag ∈ a.tags := by
  have hmem : j ∈ y.jobsOf j.client := Multiset.mem_filter.mpr ⟨hj, rfl⟩
  have hfits := h.fits j.client
  cases hfind : y.pool.clients.find? j.client with
  | none =>
    rw [hfind] at hfits
    rw [show y.jobsOf j.client = 0 from hfits] at hmem
    exact absurd hmem (Multiset.notMem_zero _)
  | some a =>
    rw [hfind] at hfits
    obtain ⟨-, -, htags⟩ := hfits
    have htag : j.item.tag ∈ (y.jobsOf j.client).map (·.item.tag) := Multiset.mem_map_of_mem _ hmem
    rw [← htags, Multiset.mem_coe] at htag
    obtain ⟨tag, hheld, heq⟩ := List.mem_map.mp htag
    exact ⟨a, tag, rfl, heq.symm, hheld⟩

/-- Every tag on an account is carried by a job in flight of its client. -/
theorem Balanced.carrier {y : Workshop κ σ} (h : y.Balanced) {c : ClientId} {a : Account κ}
    (known : y.pool.clients.find? c = some a) {tag : Tag} (hheld : tag ∈ a.tags) :
    ∃ j ∈ y.inFlight, j.client = c ∧ j.item.tag = some tag := by
  have hfits := h.fits c
  rw [known] at hfits
  obtain ⟨-, -, htags⟩ := hfits
  have hmem : some tag ∈ (y.jobsOf c).map (·.item.tag) := by
    rw [← htags]
    exact Multiset.mem_coe.mpr (List.mem_map_of_mem hheld)
  obtain ⟨j, hj, htag⟩ := Multiset.mem_map.mp hmem
  obtain ⟨hflight, hclient⟩ := Multiset.mem_filter.mp hj
  exact ⟨j, hflight, hclient, htag⟩

/-- No two jobs in flight carry the same tag. -/
theorem Balanced.eq_of_tag {y : Workshop κ σ} (h : y.Balanced) {j j' : Job} (hj : j ∈ y.inFlight)
    (hj' : j' ∈ y.inFlight) (htag : j.item.tag = j'.item.tag) : j = j' :=
  Multiset.inj_on_of_nodup_map h.nodup j hj j' hj' htag

/-- A client without an account has no job in flight. -/
theorem Balanced.client_ne {y : Workshop κ σ} (h : y.Balanced) {c : ClientId}
    (unknown : y.pool.clients.find? c = none) {j : Job} (hj : j ∈ y.inFlight) : j.client ≠ c := by
  intro hc
  obtain ⟨a, -, hfind, -⟩ := h.held hj
  rw [hc, unknown] at hfind
  cases hfind

/-- The tags given out are carried by no job in flight. -/
theorem Balanced.disjoint {y : Workshop κ σ} (h : y.Balanced) {n : ℕ} {tags : List Tag}
    {clients : Clients κ} (hout : Clients.GivenOut y.pool.clients n tags clients) :
    Disjoint (↑(tags.map some) : Multiset (Option Tag)) (y.inFlight.map (·.item.tag)) := by
  rw [Multiset.disjoint_left]
  intro t ht ht'
  rw [Multiset.mem_coe] at ht
  obtain ⟨tag, htag, rfl⟩ := List.mem_map.mp ht
  obtain ⟨j, hj, heq⟩ := Multiset.mem_map.mp ht'
  obtain ⟨a, tag', hfind, htag', hheld⟩ := h.held hj
  rw [heq] at htag'
  cases htag'
  exact hout.free _ htag (Clients.mem_heldTags hfind hheld)

/-- Taking on jobs with tags that were given out keeps the balance, if the account of the client is
changed to match. -/
theorem Balanced.take {y : Workshop κ σ} (h : y.Balanced) (calm : y.errands = []) {c : ClientId}
    {items : List Item} {tags : List Tag} {clients : Clients κ}
    (allocated : y.pool.clients.allocateTags items.length = some (tags, clients))
    {clients' : Clients κ} (keyed : clients'.Keyed) (next : clients'.nextTag = clients.nextTag)
    (others : ∀ c', c' ≠ c → clients'.find? c' = y.pool.clients.find? c')
    (own : ∀ jobs : Multiset Job, Account.Fits (y.pool.clients.find? c) jobs →
      Account.Fits (clients'.find? c)
        (↑((Pool.tagging c items tags).map Job.manifest) + jobs))
    (entries : List (Entry κ)) :
    (y.take clients' (Pool.tagging c items tags) entries).Balanced := by
  have hout := Clients.givenOut_of_allocateTags h.next_ne_zero allocated
  have hflight := inFlight_take calm clients' (Pool.tagging c items tags) entries
  have htags : (((Pool.tagging c items tags).map Job.manifest : List Job) :
      Multiset Job).map (·.item.tag) = ↑(tags.map some) := by
    rw [← Pool.map_tag_tagging (c := c) hout.length_eq, Multiset.map_coe, List.map_map]
    rfl
  have hmine : ∀ j ∈ (((Pool.tagging c items tags).map Job.manifest : List Job) : Multiset Job),
      j.client = c := by
    intro j hj
    obtain ⟨j', hj', rfl⟩ := List.mem_map.mp (Multiset.mem_coe.mp hj)
    have hclient : j'.client = c := Pool.client_of_mem_tagging hj'
    exact hclient
  refine ⟨keyed, ?_, ?_, ?_, ?_⟩
  · change clients'.nextTag ≠ 0
    rw [next]
    exact hout.next_ne_zero
  · intro c'
    change Account.Fits (clients'.find? c') _
    unfold jobsOf
    rw [hflight, Multiset.filter_add]
    by_cases hc : c' = c
    · subst hc
      rw [Multiset.filter_eq_self.mpr hmine]
      exact own _ (h.fits c')
    · have hnone : ∀ j ∈ (((Pool.tagging c items tags).map Job.manifest : List Job) :
          Multiset Job), ¬ j.client = c' := fun j hj heq => hc (heq ▸ hmine j hj)
      rw [Multiset.filter_eq_nil.mpr hnone, zero_add, others c' hc]
      exact h.fits c'
  · rw [hflight, Multiset.map_add, htags, Multiset.nodup_add]
    refine ⟨?_, h.nodup, h.disjoint hout⟩
    exact Multiset.coe_nodup.mpr (hout.nodup.map (Option.some_injective _))
  · intro j hj hzero
    rw [hflight, Multiset.mem_add] at hj
    rcases hj with hnew | hold
    · have hmem := Multiset.mem_map_of_mem (·.item.tag) hnew
      rw [htags, Multiset.mem_coe] at hmem
      obtain ⟨tag, htag, heq⟩ := List.mem_map.mp hmem
      rw [hzero] at heq
      exact hout.ne_zero tag htag (Option.some.inj heq)
    · exact h.tag_ne_zero j hold hzero

/-- Striking off the job that was handed over keeps the balance. -/
theorem Balanced.strike {y : Workshop κ σ} (h : y.Balanced) {j : Job} {r : Option (Option κ)}
    (delivery : y.delivery = some ⟨j, r⟩) (log : List (Entry κ)) :
    ({ y with pool := y.pool.strike j, delivery := none, log := log } : Workshop κ σ).Balanced := by
  have hflight := inFlight_of_delivery delivery
  have hmem : j.manifest ∈ y.inFlight := by
    rw [hflight]
    exact Multiset.mem_cons_self _ _
  obtain ⟨a, tag, hfind, -, -⟩ := h.held hmem
  change y.pool.clients.find? j.client = some a at hfind
  have hfewer : ({ y with delivery := none } : Workshop κ σ).inFlight ≤ y.inFlight := by
    rw [hflight]
    exact Multiset.le_cons_self _ _
  refine ⟨h.keyed.update _ _, h.next_ne_zero, ?_, ?_, ?_⟩
  · intro c
    change Account.Fits ((y.pool.clients.update j.client _).find? c)
      (({ y with delivery := none } : Workshop κ σ).inFlight.filter (·.client = c))
    have hfits := h.fits c
    unfold jobsOf at hfits
    rw [hflight, Multiset.filter_cons] at hfits
    rw [Clients.find?_update h.keyed]
    by_cases hc : c = j.client
    · subst hc
      rw [hfind, if_pos (show j.manifest.client = j.client from rfl),
        Multiset.singleton_add] at hfits
      rw [if_pos rfl, hfind]
      exact hfits.handBack
    · rw [if_neg (show ¬ j.manifest.client = c from fun heq => hc heq.symm), zero_add] at hfits
      rw [if_neg hc]
      exact hfits
  · exact Multiset.nodup_of_le (Multiset.map_le_map hfewer) h.nodup
  · intro j' hj'
    exact h.tag_ne_zero j' (Multiset.mem_of_le hfewer hj')

/-! ## Bookings -/

/-- Is the job the one that was handed over and is not struck off yet? -/
def IsHanded (y : Workshop κ σ) (j : Job) : Prop :=
  ∃ j' r, y.delivery = some ⟨j', some r⟩ ∧ j'.manifest = j.manifest

/-- The job in delivery is not in flight anywhere else. -/
theorem Balanced.manifest_ne_of_delivery {y : Workshop κ σ} (h : y.Balanced) {j : Job}
    {r : Option (Option κ)} (delivery : y.delivery = some ⟨j, r⟩) {j' : Job}
    (hj' : j' ∈ ({ y with delivery := none } : Workshop κ σ).inFlight) :
    ¬ j.manifest = j'.manifest := by
  intro heq
  have hnodup := h.nodup
  rw [inFlight_of_delivery delivery, Multiset.map_cons, Multiset.nodup_cons] at hnodup
  refine hnodup.1 ?_
  have htag : j.manifest.item.tag = j'.item.tag := by
    rw [heq]
    rfl
  rw [htag]
  exact Multiset.mem_map_of_mem _ hj'

/-- What an act means for the table of clients, the jobs in flight, and the log. -/
inductive Booking (y : Workshop κ σ) : Workshop κ σ → Prop
  /-- It does not concern the books. -/
  | aside {y' : Workshop κ σ} {entries : List (Entry κ)} (log : y'.log = entries ++ y.log)
      (entries_aside : ∀ e ∈ entries, e.isAside) (clients : y'.pool.clients = y.pool.clients)
      (flight : y'.inFlight = y.inFlight) (handed : ∀ j, y'.IsHanded j ↔ y.IsHanded j) :
      Booking y y'
  /-- An account is opened for the items of a client. -/
  | opened {c : ClientId} {receiver : κ} {items : List Item} {tags : List Tag}
      {clients : Clients κ} (calm : y.errands = [])
      (unknown : y.pool.clients.find? c = none) (items_ne : items ≠ [])
      (allocated : y.pool.clients.allocateTags items.length = some (tags, clients)) :
      Booking y (y.take (clients.insert c ⟨items.length, some receiver, tags⟩)
        (Pool.tagging c items tags) [.opened c receiver])
  /-- An item is added to the account of its client. -/
  | added {c : ClientId} {i : Item} {a : Account κ} {tag : Tag} {clients : Clients κ}
      (calm : y.errands = []) (known : y.pool.clients.find? c = some a)
      (allocated : y.pool.clients.allocateTags 1 = some ([tag], clients)) :
      Booking y (y.take (clients.update c (Account.oneMore tag)) (Pool.tagging c [i] [tag]) [])
  /-- The receiver of a client is forgotten. -/
  | detached (c : ClientId) :
      Booking y { y with pool := y.pool.detach c, log := .detached c :: y.log }
  /-- The job in delivery is handed over. -/
  | handed {j : Job} {a : Account κ} (delivery : y.delivery = some ⟨j, none⟩)
      (known : y.pool.clients.find? j.client = some a) :
      Booking y { y with
        delivery := some ⟨j, some a.receiver⟩, log := .handed j a.receiver :: y.log }
  /-- The job in delivery is struck off. -/
  | struck {j : Job} {r : Option κ} (delivery : y.delivery = some ⟨j, some r⟩) :
      Booking y { y with pool := y.pool.strike j, delivery := none, log := .struck j :: y.log }

/-- What leaves the log as it was does not concern the books. -/
theorem Booking.same {y y' : Workshop κ σ} (log : y'.log = y.log)
    (clients : y'.pool.clients = y.pool.clients) (flight : y'.inFlight = y.inFlight)
    (handed : ∀ j, y'.IsHanded j ↔ y.IsHanded j) : Booking y y' := by
  refine Booking.aside (show y'.log = [] ++ y.log from log) ?_ clients flight handed
  intro e he
  cases he

/-- Every act on a balanced workshop is one of the bookings, except that the pool is dismissed. -/
theorem Balanced.booking {m : StorageManager σ} {y y' : Workshop κ σ} {a : Act κ σ} (h : y.Balanced)
    (hmanned : y.Manned) (heffect : Effect m y a y') (hstays : a ≠ .dismiss) : Booking y y' := by
  cases heffect with
  | nothing a => exact Booking.same rfl rfl rfl fun j => Iff.rfl
  | aside stays clients crew completed phase =>
    refine Booking.same rfl clients ?_ fun j => Iff.rfl
    simp only [inFlight, crew, completed]
  | started calm start =>
    obtain ⟨hidle, -, hclients, hcompleted, n, hcrew⟩ := Pool.of_start start
    have hload : crewLoad (List.replicate (n + 1) Worker.fresh) = crewLoad [] := by
      simp [crewLoad, List.flatMap_replicate]
    refine Booking.same rfl hclients ?_ fun j => Iff.rfl
    simp only [inFlight, hcompleted, hcrew, hmanned.crew_eq_nil hidle, hload]
  | opened calm running unknown items_ne allocated =>
    exact Booking.opened calm unknown items_ne allocated
  | added calm running known allocated => exact Booking.added calm known allocated
  | @cancelled c a calm running known =>
    refine Booking.aside (show Entry.cancelled c :: y.log = [.cancelled c] ++ y.log from rfl) ?_ rfl
      ?_ fun j => Iff.rfl
    · intro e he
      rw [List.mem_singleton.mp he]
      rfl
    · simp only [inFlight, calm, filterMap_job?_cancellings, List.filterMap_nil]
  | detached c => exact Booking.detached c
  | told calm running =>
    refine Booking.same rfl rfl ?_ fun j => Iff.rfl
    simp only [inFlight, calm, filterMap_job?_postings, List.filterMap_nil]
  | stopped calm running =>
    refine Booking.same rfl rfl ?_ fun j => Iff.rfl
    simp only [inFlight, calm, filterMap_job?_postings, List.filterMap_nil]
  | retired calm resting => exact Booking.same rfl rfl rfl fun j => Iff.rfl
  | dismissed calm down gone => exact absurd rfl hstays
  | @ran e rest errands =>
    have hclients : (y.pool.run e).clients = y.pool.clients := by
      cases e <;> rfl
    refine Booking.same rfl hclients (inFlight_ran errands ?_) fun j => Iff.rfl
    refine hmanned.crew_ne_nil (Or.inr ?_)
    rw [errands]
    exact List.cons_ne_nil _ _
  | @worked k w r worker step =>
    obtain ⟨-, -, hclients, -⟩ :=
      foldl_complete r.finished.toList { y.pool with crew := y.pool.crew.set k r.worker }
    refine Booking.aside rfl ?_ hclients (inFlight_worked worker step) fun j => Iff.rfl
    intro e he
    obtain ⟨j, -, rfl⟩ := List.mem_map.mp he
    rfl
  | @fetched j rest free completed =>
    refine Booking.same rfl rfl (inFlight_fetched free completed) fun j' => ?_
    constructor
    · rintro ⟨j'', r, hdelivery, -⟩
      cases hdelivery
    · rintro ⟨j'', r, hdelivery, -⟩
      rw [free] at hdelivery
      cases hdelivery
  | @strayed j delivery unknown =>
    have hmem : j.manifest ∈ y.inFlight := by
      rw [inFlight_of_delivery delivery]
      exact Multiset.mem_cons_self _ _
    have hne := h.client_ne unknown hmem
    exact absurd rfl hne
  | handed delivery known => exact Booking.handed delivery known
  | struck delivery => exact Booking.struck delivery

/-- The log only grows, and what is new does not say that a job in flight was taken on again. -/
theorem Balanced.log_append {y y' : Workshop κ σ} (h : y.Balanced) (hbooking : Booking y y') :
    ∃ entries, y'.log = entries ++ y.log ∧
      ∀ j ∈ y.inFlight, ∀ e ∈ entries, e.takes j = false := by
  have htaken {c : ClientId} {items : List Item} {tags : List Tag} {clients : Clients κ}
      (allocated : y.pool.clients.allocateTags items.length = some (tags, clients)) :
      ∀ j ∈ y.inFlight, ∀ e ∈ ((Pool.tagging c items tags).map (@Entry.taken κ)).reverse,
        e.takes j = false := by
    intro j hj e he
    obtain ⟨j', hj', rfl⟩ := List.mem_map.mp (List.mem_reverse.mp he)
    obtain ⟨a, tag, hfind, htag, hheld⟩ := h.held hj
    obtain ⟨x, hx, rfl⟩ := List.mem_map.mp hj'
    have hout := Clients.givenOut_of_allocateTags h.next_ne_zero allocated
    refine decide_eq_false fun hmanifest => ?_
    have hsame : some x.2 = some tag := by
      rw [← htag]
      exact congrArg (fun j : Job => j.item.tag) hmanifest
    refine hout.free x.2 (List.of_mem_zip hx).2 ?_
    rw [Option.some.inj hsame]
    exact Clients.mem_heldTags hfind hheld
  cases hbooking with
  | @aside _ entries log entries_aside clients flight handed =>
    refine ⟨entries, log, ?_⟩
    intro j hj e he
    have haside := entries_aside e he
    cases e with
    | cancelled c => rfl
    | finished j' => rfl
    | opened c r | taken j' | detached c | handed j' r | struck j' | stray j' => cases haside
  | opened calm unknown items_ne allocated =>
    refine ⟨_, rfl, ?_⟩
    intro j hj e he
    rcases List.mem_append.mp he with hnew | hopened
    · exact htaken allocated j hj e hnew
    · rw [List.mem_singleton.mp hopened]
      rfl
  | @added c i a tag clients calm known allocated =>
    refine ⟨_, rfl, ?_⟩
    intro j hj e he
    rw [List.append_nil] at he
    exact htaken (show y.pool.clients.allocateTags [i].length = _ from allocated) j hj e he
  | detached c =>
    refine ⟨[.detached c], rfl, ?_⟩
    intro j hj e he
    rw [List.mem_singleton.mp he]
    rfl
  | @handed j' a delivery known =>
    refine ⟨[.handed j' a.receiver], rfl, ?_⟩
    intro j hj e he
    rw [List.mem_singleton.mp he]
    rfl
  | @struck j' r delivery =>
    refine ⟨[.struck j'], rfl, ?_⟩
    intro j hj e he
    rw [List.mem_singleton.mp he]
    rfl

/-- Jobs only come to be in flight by a call, which waits until the errands before it are done. -/
theorem Booking.mem_inFlight {y y' : Workshop κ σ} (h : Booking y y') (busy : y.errands ≠ [])
    {j : Job} (hj : j ∈ y'.inFlight) : j ∈ y.inFlight := by
  cases h with
  | aside log entries_aside clients flight handed => exact flight ▸ hj
  | opened calm unknown items_ne allocated => exact absurd calm busy
  | added calm known allocated => exact absurd calm busy
  | detached c => exact hj
  | handed delivery known =>
    rw [inFlight_of_delivery delivery]
    rwa [inFlight_of_delivery rfl] at hj
  | struck delivery =>
    rw [inFlight_of_delivery delivery]
    exact Multiset.mem_cons_of_mem hj

/-- Every booking keeps the balance. -/
theorem Balanced.book {y y' : Workshop κ σ} (h : y.Balanced) (hbooking : Booking y y') :
    y'.Balanced := by
  cases hbooking with
  | aside log entries_aside clients flight handed =>
    refine ⟨clients ▸ h.keyed, clients ▸ h.next_ne_zero, ?_, flight ▸ h.nodup,
      flight ▸ h.tag_ne_zero⟩
    intro c
    have hfits := h.fits c
    unfold jobsOf at hfits ⊢
    rw [flight, clients]
    exact hfits
  | @opened c receiver items tags clients calm unknown items_ne allocated =>
    have hout := Clients.givenOut_of_allocateTags h.next_ne_zero allocated
    have hunknown : clients.find? c = none := (hout.find?_eq c).trans unknown
    refine h.take calm allocated ((hout.keyed h.keyed).insert hunknown _) rfl ?_ ?_ _
    · intro c' hc
      rw [Clients.find?_insert hunknown, if_neg hc, hout.find?_eq]
    · intro jobs hjobs
      rw [unknown] at hjobs
      rw [Clients.find?_insert hunknown, if_pos rfl, show jobs = 0 from hjobs, add_zero]
      exact Account.Fits.opened hout.length_eq items_ne receiver
  | @added c i a tag clients calm known allocated =>
    have hout := Clients.givenOut_of_allocateTags h.next_ne_zero allocated
    have hkeyed : clients.Keyed := hout.keyed h.keyed
    refine h.take calm (show y.pool.clients.allocateTags [i].length = _ from allocated)
      (hkeyed.update _ _) rfl ?_ ?_ _
    · intro c' hc
      rw [Clients.find?_update hkeyed, if_neg hc, hout.find?_eq]
    · intro jobs hjobs
      rw [known] at hjobs
      rw [Clients.find?_update hkeyed, if_pos rfl, hout.find?_eq, known]
      exact hjobs.oneMore rfl
  | detached c =>
    refine ⟨h.keyed.update _ _, h.next_ne_zero, ?_, h.nodup, h.tag_ne_zero⟩
    intro c'
    change Account.Fits ((y.pool.clients.update c Account.detached).find? c') (y.jobsOf c')
    rw [Clients.find?_update h.keyed]
    split
    · rename_i hc
      rw [← hc]
      exact (h.fits c').detached
    · exact h.fits c'
  | @handed j a delivery known =>
    have hflight : ({ y with
        delivery := some ⟨j, some a.receiver⟩, log := .handed j a.receiver :: y.log } :
        Workshop κ σ).inFlight = y.inFlight := by
      simp only [inFlight, delivery, Option.toList_some, List.map_cons, List.map_nil]
    refine ⟨h.keyed, h.next_ne_zero, ?_, hflight ▸ h.nodup, hflight ▸ h.tag_ne_zero⟩
    intro c
    have hfits := h.fits c
    unfold jobsOf at hfits ⊢
    rw [hflight]
    exact hfits
  | struck delivery => exact h.strike delivery _

/-! ## Beginnings -/

/-- There is no crew before anything happens. -/
theorem manned_create (settings : Settings) (loop : EventLoop) (ground : Surroundings σ) :
    (create settings loop ground : Workshop κ σ).Manned := by
  refine ⟨?_, fun _ => rfl⟩
  rintro (hphase | herrands)
  · cases hphase
  · exact absurd rfl herrands

/-- The workshop is balanced before anything happens. -/
theorem balanced_create (settings : Settings) (loop : EventLoop) (ground : Surroundings σ) :
    (create settings loop ground : Workshop κ σ).Balanced where
  keyed := List.nodup_nil
  next_ne_zero := (by decide : (1 : Tag) ≠ 0)
  fits c := rfl
  nodup := Multiset.nodup_zero
  tag_ne_zero j hj := absurd hj (Multiset.notMem_zero j)

/-! ## Dismissed pools -/

/-- The pool was dismissed: nothing is left with it. -/
structure Deserted (y : Workshop κ σ) : Prop where
  down : y.pool.phase = .shutDown
  calm : y.errands = []
  crew_eq : y.pool.crew = []
  completed_eq : y.pool.completed = []

/-- A pool is dismissed, or it is too early for that. -/
theorem Effect.eq_or_deserted {m : StorageManager σ} {y y' : Workshop κ σ}
    (h : Effect m y .dismiss y') : y' = y ∨ y'.Deserted := by
  cases h with
  | nothing a => exact Or.inl rfl
  | aside stays clients crew completed phase => exact absurd rfl stays
  | dismissed calm down gone => exact Or.inr ⟨down, calm, rfl, rfl⟩

/-- Nothing comes back to a pool that was dismissed. -/
theorem Deserted.effect {m : StorageManager σ} {y y' : Workshop κ σ} {a : Act κ σ} (h : y.Deserted)
    (heffect : Effect m y a y') : y'.Deserted := by
  have hresting : y.pool.phase ≠ .running := by
    rw [h.down]
    exact PoolPhase.noConfusion
  cases heffect with
  | nothing a => exact h
  | aside stays clients crew completed phase =>
    exact ⟨phase.trans h.down, h.calm, crew.trans h.crew_eq, completed.trans h.completed_eq⟩
  | started calm start =>
    have hidle := (Pool.of_start start).1
    rw [h.down] at hidle
    cases hidle
  | opened calm running unknown items_ne allocated => exact absurd running hresting
  | added calm running known allocated => exact absurd running hresting
  | cancelled calm running known => exact absurd running hresting
  | detached c => exact ⟨h.down, h.calm, h.crew_eq, h.completed_eq⟩
  | told calm running => exact absurd running hresting
  | stopped calm running => exact absurd running hresting
  | retired calm resting => exact ⟨rfl, h.calm, h.crew_eq, h.completed_eq⟩
  | dismissed calm down gone => exact ⟨down, calm, rfl, rfl⟩
  | ran errands =>
    rw [h.calm] at errands
    cases errands
  | @worked k w r worker step =>
    rw [h.crew_eq] at worker
    cases worker
  | fetched free completed =>
    rw [h.completed_eq] at completed
    cases completed
  | strayed delivery unknown => exact ⟨h.down, h.calm, h.crew_eq, h.completed_eq⟩
  | handed delivery known => exact ⟨h.down, h.calm, h.crew_eq, h.completed_eq⟩
  | struck delivery => exact ⟨h.down, h.calm, h.crew_eq, h.completed_eq⟩

/-- The pool was dismissed, and nobody has an account with it any more. -/
structure Vacant (y : Workshop κ σ) : Prop extends Deserted y where
  accounts_eq : y.pool.clients.accounts = []

/-- A pool is dismissed for good, or it is too early for that. -/
theorem Effect.eq_or_vacant {m : StorageManager σ} {y y' : Workshop κ σ}
    (h : Effect m y .dismiss y') : y' = y ∨ y'.Vacant := by
  cases h with
  | nothing a => exact Or.inl rfl
  | aside stays clients crew completed phase => exact absurd rfl stays
  | dismissed calm down gone => exact Or.inr ⟨⟨down, calm, rfl, rfl⟩, rfl⟩

/-- A pool without accounts has nothing outstanding. -/
theorem Vacant.find?_eq {y : Workshop κ σ} (h : y.Vacant) (c : ClientId) :
    y.pool.clients.find? c = none := by
  unfold Clients.find?
  rw [h.accounts_eq]
  rfl

/-- No account is opened with a pool that was dismissed. -/
theorem Vacant.effect {m : StorageManager σ} {y y' : Workshop κ σ} {a : Act κ σ} (h : y.Vacant)
    (heffect : Effect m y a y') : y'.Vacant := by
  refine ⟨h.toDeserted.effect heffect, ?_⟩
  have hresting : y.pool.phase ≠ .running := by
    rw [h.down]
    exact PoolPhase.noConfusion
  have hupdate (c : ClientId) (f : Account κ → Option (Account κ)) :
      (y.pool.clients.update c f).accounts = [] := by
    simp [Clients.update, h.accounts_eq]
  cases heffect with
  | nothing a => exact h.accounts_eq
  | aside stays clients crew completed phase =>
    change _ = _
    rw [clients]
    exact h.accounts_eq
  | started calm start =>
    have hidle := (Pool.of_start start).1
    rw [h.down] at hidle
    cases hidle
  | opened calm running unknown items_ne allocated => exact absurd running hresting
  | added calm running known allocated => exact absurd running hresting
  | cancelled calm running known => exact absurd running hresting
  | detached c => exact hupdate _ _
  | told calm running => exact absurd running hresting
  | stopped calm running => exact absurd running hresting
  | retired calm resting => exact h.accounts_eq
  | dismissed calm down gone => rfl
  | ran errands =>
    rw [h.calm] at errands
    cases errands
  | @worked k w r worker step =>
    rw [h.crew_eq] at worker
    cases worker
  | fetched free completed => exact h.accounts_eq
  | strayed delivery unknown => exact h.accounts_eq
  | handed delivery known => exact h.accounts_eq
  | struck delivery => exact hupdate _ _

end Workshop

end Haulage
