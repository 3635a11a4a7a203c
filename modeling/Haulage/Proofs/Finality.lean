import Haulage.Proofs.Custody

/-!
# Cancelling a transaction is final

A call that ends a transaction does so in steps. Under the lock of the transaction its books are
closed; a call that cancels then has the pool cancel the items; and only after that the report is
told. A reporting layer is a transaction layer together with the calls that are in between these
steps, and anything else may happen meanwhile: items come back, workers go on, media come and go,
other transactions end.

`ReportingLayer.final_after` says that nothing of all this takes back a cancellation, unless the
pool is shut down: nothing but the report of the call that cancelled is ever told, what comes back
afterwards is only taken off what is outstanding, and once the call has asked the pool, every item
that a worker still has is followed by the signal to cancel it.
-/

namespace Haulage

namespace Workshop

open Log

variable {κ σ : Type} {m : StorageManager σ} {y y' : Workshop κ σ} {a : Act κ σ}

/-! ## Open workshops -/

/-- A pool is only shut down by being told to. -/
theorem Effect.phase_ne (h : Effect m y a y') (ha : a ≠ .stop) (up : y.pool.phase ≠ .shutDown) :
    y'.pool.phase ≠ .shutDown := by
  cases h with
  | nothing a => exact up
  | aside stays clients crew completed phase => exact fun hdown => up (phase.symm.trans hdown)
  | started calm start =>
    intro hdown
    rw [(Pool.of_start start).2.1] at hdown
    cases hdown
  | opened calm running unknown items_ne allocated => exact up
  | added calm running known allocated => exact up
  | cancelled calm running known => exact up
  | detached c => exact up
  | told calm running => exact up
  | stopped calm running => exact absurd rfl ha
  | retired calm resting => exact absurd rfl ha
  | dismissed calm down gone => exact absurd down up
  | @ran e rest errands => cases e <;> exact up
  | @worked k w r worker step =>
    obtain ⟨-, -, -, hphase⟩ :=
      foldl_complete r.finished.toList { y.pool with crew := y.pool.crew.set k r.worker }
    exact fun hdown => up (hphase.symm.trans hdown)
  | fetched free completed => exact up
  | strayed delivery unknown => exact up
  | handed delivery known => exact up
  | struck delivery => exact up

/-- Nobody has an account with a pool that has not been started. -/
theorem Effect.unstarted (h : Effect m y a y')
    (hnone : y.pool.phase = .idle → y.pool.clients.accounts = [])
    (hidle : y'.pool.phase = .idle) : y'.pool.clients.accounts = [] := by
  have hrunning (running : y.pool.phase = .running) (idle : y.pool.phase = .idle) :
      y'.pool.clients.accounts = [] := by
    rw [running] at idle
    cases idle
  have hupdate (idle : y.pool.phase = .idle) (c : ClientId) (f : Account κ → Option (Account κ)) :
      (y.pool.clients.update c f).accounts = [] := by
    simp [Clients.update, hnone idle]
  cases h with
  | nothing a => exact hnone hidle
  | aside stays clients crew completed phase =>
    change _ = _
    rw [clients]
    exact hnone (phase.symm.trans hidle)
  | started calm start =>
    rw [(Pool.of_start start).2.1] at hidle
    cases hidle
  | opened calm running unknown items_ne allocated => exact hrunning running hidle
  | added calm running known allocated => exact hrunning running hidle
  | cancelled calm running known => exact hnone hidle
  | detached c => exact hupdate hidle _ _
  | told calm running => exact hnone hidle
  | stopped calm running => cases hidle
  | retired calm resting => cases hidle
  | dismissed calm down gone => rfl
  | @ran e rest errands => cases e <;> exact hnone hidle
  | @worked k w r worker step =>
    obtain ⟨-, -, hclients, hphase⟩ :=
      foldl_complete r.finished.toList { y.pool with crew := y.pool.crew.set k r.worker }
    change (r.finished.toList.foldl Pool.complete _).clients.accounts = []
    rw [hclients]
    exact hnone (hphase.symm.trans hidle)
  | fetched free completed => exact hnone hidle
  | strayed delivery unknown => exact hnone hidle
  | handed delivery known => exact hnone hidle
  | struck delivery => exact hupdate hidle _ _

/-- The books are in order, and the pool was not shut down. -/
structure Open (y : Workshop κ σ) : Prop where
  booked : y.Booked
  up : y.pool.phase ≠ .shutDown
  unstarted : y.pool.phase = .idle → y.pool.clients.accounts = []

/-- A pool at which a client has an account runs. -/
theorem Open.running (h : y.Open) {c : ClientId} {account : Account κ}
    (known : y.pool.clients.find? c = some account) : y.pool.phase = .running := by
  cases hphase : y.pool.phase with
  | running => rfl
  | shutDown => exact absurd hphase h.up
  | idle =>
    unfold Clients.find? at known
    rw [h.unstarted hphase] at known
    cases known

/-- A workshop stays open until the pool is told to shut down. -/
theorem Open.next (h : y.Open) (m : StorageManager σ) (ha : a ≠ .stop) : (y.next m a).Open := by
  have heffect := effect_next m y a
  have hup := heffect.phase_ne ha h.up
  refine ⟨?_, hup, heffect.unstarted h.unstarted⟩
  by_cases hstays : a = .dismiss
  · subst hstays
    rcases heffect.eq_or_vacant with hsame | hvacant
    · rw [hsame]
      exact h.booked
    · exact absurd hvacant.down hup
  · exact h.booked.effect heffect hstays

/-- A client without an account gets none unless it submits something. -/
theorem Effect.find?_eq_none (h : Effect m y a y') (hbalanced : y.Balanced) {c : ClientId}
    (hspares : Act.spares c a) (unknown : y.pool.clients.find? c = none) :
    y'.pool.clients.find? c = none := by
  by_cases hstays : a = .dismiss
  · subst hstays
    rcases h.eq_or_vacant with hsame | hvacant
    · rw [hsame]
      exact unknown
    · exact hvacant.find?_eq c
  · rcases h.find?_of_spares hbalanced hspares hstays with hsame | ⟨j, r, -, -, -, hback⟩
    · rw [hsame]
      exact unknown
    · rw [hback, unknown]
      rfl

/-- Only a client that calls the pool on its own behalf has jobs taken on. -/
theorem Effect.taken_of_spares (h : Effect m y a y') {c : ClientId} (hspares : Act.spares c a) :
    ∃ entries, y'.log = entries ++ y.log ∧ ∀ j, .taken j ∈ entries → j.client ≠ c := by
  have hsame (hlog : y'.log = y.log) :
      ∃ entries, y'.log = entries ++ y.log ∧ ∀ j, .taken j ∈ entries → j.client ≠ c :=
    ⟨[], hlog, fun j hj => absurd hj List.not_mem_nil⟩
  have hone {e : Entry κ} (hlog : y'.log = [e] ++ y.log) (he : ∀ j, e ≠ .taken j) :
      ∃ entries, y'.log = entries ++ y.log ∧ ∀ j, .taken j ∈ entries → j.client ≠ c :=
    ⟨[e], hlog, fun j hj => absurd (List.mem_singleton.mp hj).symm (he j)⟩
  -- The jobs that are taken on are those of the client that calls.
  have htagging {c' : ClientId} (hne : c' ≠ c) {items : List Item} {tags : List Tag} {j : Job}
      (hj : .taken j ∈ ((Pool.tagging c' items tags).map (@Entry.taken κ)).reverse) :
      j.client ≠ c := by
    obtain ⟨j', hj', heq⟩ := List.mem_map.mp (List.mem_reverse.mp hj)
    cases heq
    rw [Pool.client_of_mem_tagging hj']
    exact hne
  cases h with
  | nothing a => exact hsame rfl
  | aside stays clients crew completed phase => exact hsame rfl
  | started calm start => exact hsame rfl
  | opened calm running unknown items_ne allocated =>
    refine ⟨_, rfl, fun j hj => ?_⟩
    rcases List.mem_append.mp hj with htaken | hopened
    · exact htagging (of_decide_eq_true hspares) htaken
    · cases List.mem_singleton.mp hopened
  | added calm running known allocated =>
    refine ⟨_, rfl, fun j hj => ?_⟩
    rw [List.append_nil] at hj
    exact htagging (of_decide_eq_true hspares) hj
  | cancelled calm running known => exact hone rfl fun j heq => by cases heq
  | detached c => exact hone rfl fun j heq => by cases heq
  | told calm running => exact hsame rfl
  | stopped calm running => exact hsame rfl
  | retired calm resting => exact hsame rfl
  | dismissed calm down gone => exact hsame rfl
  | ran errands => exact hsame rfl
  | @worked k w r worker step =>
    refine ⟨_, rfl, fun j hj => ?_⟩
    obtain ⟨j', -, heq⟩ := List.mem_map.mp hj
    cases heq
  | fetched free completed => exact hsame rfl
  | strayed delivery unknown => exact hone rfl fun j heq => by cases heq
  | handed delivery known => exact hone rfl fun j heq => by cases heq
  | struck delivery => exact hone rfl fun j heq => by cases heq

end Workshop

namespace TransactionLayer

open Workshop (Open)

variable {σ : Type} {m : StorageManager σ} {d d' : TransactionLayer σ} {x : Deed σ}

/-! ## Deeds as acts of the workshop -/

/-- The act leaves it to the transactions that have ended to use their clients. -/
def SparesEnded (d : TransactionLayer σ) (a : Act Receiver σ) : Prop :=
  ∀ (key : ℕ) (t : Transaction), d.transactions[key]? = some t → t.phase = .reported →
    Workshop.Act.spares t.client a

/-- Every deed consists of acts of the workshop. Unless it is such an act itself, they shut nothing
down and strike nothing off, and they spare the clients of the transactions that have ended. -/
theorem Effect.acts (h : Effect m d x d') (hsorted : d.Sorted) :
    ∃ acts : List (Act Receiver σ), d'.workshop = acts.foldl (Workshop.next m) d.workshop ∧
      ∀ a ∈ acts, x = .elsewhere a ∨ a ≠ .strike ∧ a ≠ .stop ∧ d.SparesEnded a := by
  -- The client of a transaction that ended is not that of another one.
  have hother {key key' : ℕ} {c : ClientId} {t : Transaction} (hkey' : d.owners[key']? = some c)
      (hne : key' ≠ key) (found : d.transactions[key]? = some t) : c ≠ t.client := by
    rintro rfl
    exact hne (hsorted.eq_of_client hkey' (getElem?_owners found))
  have hkeys {key key' : ℕ} {t t' : Transaction} (found : d.transactions[key]? = some t)
      (ended : t.phase = .reported) (found' : d.transactions[key']? = some t')
      (phase : t'.phase ≠ .reported) : key' ≠ key := by
    rintro rfl
    rw [found] at found'
    cases found'
    exact phase ended
  have hfree {a : Act Receiver σ} (hstrike : a ≠ .strike) (hstop : a ≠ .stop)
      (hspares : ∀ c, Workshop.Act.spares c a) :
      x = .elsewhere a ∨ a ≠ .strike ∧ a ≠ .stop ∧ d.SparesEnded a :=
    Or.inr ⟨hstrike, hstop, fun key t _ _ => hspares t.client⟩
  cases h with
  | nothing x => exact ⟨[], rfl, fun a ha => absurd ha List.not_mem_nil⟩
  | opened =>
    refine ⟨[.newClient], rfl, fun a ha => ?_⟩
    rw [List.mem_singleton.mp ha]
    exact hfree (by rintro ⟨⟩) (by rintro ⟨⟩) fun c => rfl
  | @added key items t g kept found building =>
    refine ⟨[.change g], rfl, fun a ha => ?_⟩
    rw [List.mem_singleton.mp ha]
    exact hfree (by rintro ⟨⟩) (by rintro ⟨⟩) fun c => rfl
  | @begun key' t' p found' building calm items_ne submit =>
    refine ⟨[.submit t'.client (.transaction key') t'.items], rfl, fun a ha => ?_⟩
    rw [List.mem_singleton.mp ha]
    refine Or.inr ⟨by rintro ⟨⟩, by rintro ⟨⟩, fun key t found ended => decide_eq_true ?_⟩
    refine hother (getElem?_owners found') (hkeys found ended found' ?_) found
    rw [building]
    exact TransactionPhase.noConfusion
  | failed found building same => exact ⟨[], rfl, fun a ha => absurd ha List.not_mem_nil⟩
  | cancelled found executing => exact ⟨[], rfl, fun a ha => absurd ha List.not_mem_nil⟩
  | late found phase fresh delivery => exact ⟨[], rfl, fun a ha => absurd ha List.not_mem_nil⟩
  | @counted key' t' j g a' found' executing fresh delivery arrival not_back =>
    refine ⟨[.change g], rfl, fun a ha => ?_⟩
    rw [List.mem_singleton.mp ha]
    exact hfree (by rintro ⟨⟩) (by rintro ⟨⟩) fun c => rfl
  | @putBack key' t' j g i p found' executing fresh delivery calm arrival add =>
    refine ⟨[.change g, .addItem j.client i], rfl, fun a ha => ?_⟩
    rcases List.mem_cons.mp ha with rfl | hadd
    · exact hfree (by rintro ⟨⟩) (by rintro ⟨⟩) fun c => rfl
    · rw [List.mem_singleton.mp hadd]
      refine Or.inr ⟨by rintro ⟨⟩, by rintro ⟨⟩, fun key t found ended => decide_eq_true ?_⟩
      refine hother (hsorted.filed.addressee j key' delivery) (hkeys found ended found' ?_) found
      rw [executing]
      exact TransactionPhase.noConfusion
  | @elsewhere a own not_strike =>
    refine ⟨[a], rfl, fun a' ha' => Or.inl ?_⟩
    rw [List.mem_singleton.mp ha']
  | struck ready =>
    refine ⟨[.strike], rfl, fun a' ha' => Or.inl ?_⟩
    rw [List.mem_singleton.mp ha']

/-- What every act keeps of an open workshop is kept by a deed that does not shut the pool down. -/
theorem Effect.keeps (h : Effect m d x d') (hsorted : d.Sorted) {P : Workshop Receiver σ → Prop}
    (hkeep : ∀ {y : Workshop Receiver σ} {a : Act Receiver σ}, y.Open → P y →
      x = .elsewhere a ∨ d.SparesEnded a → P (y.next m a))
    (hopen : d.workshop.Open) (hP : P d.workshop) (hx : x ≠ .elsewhere .stop) :
    d'.workshop.Open ∧ P d'.workshop := by
  obtain ⟨acts, hworkshop, hacts⟩ := h.acts hsorted
  rw [hworkshop]
  clear hworkshop
  induction acts using List.reverseRecOn with
  | nil => exact ⟨hopen, hP⟩
  | append_singleton acts a ih =>
    obtain ⟨hopen', hP'⟩ := ih fun a' ha' => hacts a' (List.mem_append_left _ ha')
    have ha := hacts a (List.mem_append_right _ (List.mem_singleton.mpr rfl))
    rw [List.foldl_concat]
    refine ⟨hopen'.next m ?_, hkeep hopen' hP' (ha.imp_right fun h => h.2.2)⟩
    rcases ha with rfl | ⟨-, hstop, -⟩
    · exact fun heq => hx (congrArg Deed.elsewhere heq)
    · exact hstop

/-- A run in which the pool is not told to shut down leaves it open, and every job is pursued that
is to be. -/
theorem open_after (m : StorageManager σ) (settings : Settings) (loop : EventLoop)
    (ground : Surroundings σ) (deeds : List (Deed σ)) (hup : .elsewhere .stop ∉ deeds) :
    (after m settings loop ground deeds).workshop.Open ∧
      (after m settings loop ground deeds).workshop.Pursued := by
  induction deeds using List.reverseRecOn with
  | nil =>
    refine ⟨⟨Workshop.booked_create settings loop ground, PoolPhase.noConfusion, fun _ => rfl⟩,
      ?_, ?_⟩
    · intro j hj
      cases hj
    · intro k w hw
      cases hw
  | append_singleton deeds x ih =>
    obtain ⟨hopen, hpursued⟩ := ih fun hmem => hup (List.mem_append_left _ hmem)
    have hsorted := sorted_after m settings loop ground deeds
    unfold after at hopen hpursued hsorted ⊢
    rw [List.foldl_concat]
    refine (effect_next m _ x).keeps hsorted ?_ hopen hpursued ?_
    · intro y a hopen' hpursued' _
      exact hpursued'.effect hopen'.booked (Workshop.effect_next m y a)
    · rintro rfl
      exact hup (List.mem_append_right _ (List.mem_singleton.mpr rfl))

/-! ## Waiting for the last items -/

/-- The pool holds so many items of a client and delivers them to its transaction. When they are
none, the client has no account. -/
def Awaits (key : ℕ) (c : ClientId) (n : ℕ) (y : Workshop Receiver σ) : Prop :=
  n = 0 ∧ y.pool.clients.find? c = none ∨ Holds key c n y

/-- The number of items awaited is that of the jobs in flight. -/
theorem Awaits.card_eq {key : ℕ} {c : ClientId} {n : ℕ} {y : Workshop Receiver σ}
    (h : Awaits key c n y) (hbalanced : y.Balanced) : (y.jobsOf c).card = n := by
  have hfits := hbalanced.fits c
  rcases h with ⟨rfl, unknown⟩ | hholds
  · rw [unknown] at hfits
    rw [show y.jobsOf c = 0 from hfits, Multiset.card_zero]
  · obtain ⟨a, hfind, -, hcount⟩ := hholds.account
    rw [hfind] at hfits
    exact hfits.2.1.symm.trans hcount

/-- A job that is being delivered is awaited by the transaction of its client. -/
theorem Awaits.holds {key : ℕ} {c : ClientId} {n : ℕ} {y : Workshop Receiver σ}
    (h : Awaits key c n y) (hbalanced : y.Balanced) {j : Job} {r : Option (Option Receiver)}
    (delivery : y.delivery = some ⟨j, r⟩) (hclient : j.client = c) : 0 < n ∧ Holds key c n y := by
  have hmem : j.manifest ∈ y.jobsOf c :=
    Multiset.mem_filter.mpr ⟨Workshop.mem_inFlight_of_delivery delivery, hclient⟩
  have hcard := h.card_eq hbalanced
  refine ⟨hcard ▸ Multiset.card_pos_iff_exists_mem.mpr ⟨_, hmem⟩, h.resolve_left ?_⟩
  rintro ⟨-, unknown⟩
  exact hbalanced.client_ne unknown (Workshop.mem_inFlight_of_delivery delivery) hclient

/-- Acts that leave the client alone leave as many items to wait for, unless one is struck off. -/
theorem Awaits.next {key : ℕ} {c : ClientId} {n : ℕ} {y : Workshop Receiver σ}
    (h : Awaits key c n y)
    (hopen : y.Open) (m : StorageManager σ) {a : Act Receiver σ} (hspares : Workshop.Act.spares c a)
    (hstrike : a ≠ .strike) (hstop : a ≠ .stop) : Awaits key c n (y.next m a) := by
  rcases h with ⟨hn, unknown⟩ | hholds
  · have heffect := Workshop.effect_next m y a
    exact Or.inl ⟨hn, heffect.find?_eq_none hopen.booked.balanced hspares unknown⟩
  · rcases hholds.next (Or.inl hopen.booked) m hspares hstrike with hvacant | hholds'
    · exact absurd hvacant.down (hopen.next m hstop).up
    · exact Or.inr hholds'

/-- An item that is struck off is one less to wait for. -/
theorem Awaits.struck {key : ℕ} {c : ClientId} {n : ℕ} {y : Workshop Receiver σ}
    (h : Awaits key c (n + 1) y) (hbooked : y.Booked) (m : StorageManager σ) {j : Job}
    {r : Option Receiver} (delivery : y.delivery = some ⟨j, some r⟩) (hclient : j.client = c) :
    Awaits key c n (y.next m .strike) := by
  obtain ⟨-, hholds⟩ := h.holds hbooked.balanced delivery hclient
  rcases Nat.eq_zero_or_pos n with rfl | hpos
  · -- The last item closes the account.
    left
    obtain ⟨a, hfind, -, hcount⟩ := hholds.account
    refine ⟨rfl, ?_⟩
    simp only [Workshop.next, delivery]
    change (y.pool.clients.update j.client _).find? c = none
    rw [Clients.find?_update hbooked.balanced.keyed, if_pos hclient.symm, hclient, hfind]
    unfold Clients.handBack
    rw [Option.bind_some, if_pos (by rw [hcount])]
  · exact Or.inr (hholds.struck hpos hbooked m delivery hclient)

/-- A transaction that ended waits for the items that the pool still holds of it. -/
structure WindsUp (d : TransactionLayer σ) (key : ℕ) (t : Transaction) : Prop where
  found : d.transactions[key]? = some t
  ended : t.phase = .reported
  awaits : Awaits key t.client (t.outstanding + owed d.returned d.workshop t.client) d.workshop

/-- Is an item about to be delivered to the transaction? -/
def Delivers (d : TransactionLayer σ) (key : ℕ) : Prop :=
  d.workshop.errands = [] ∧ d.returned = false ∧
    ∃ j, d.workshop.delivery = some ⟨j, some (some (.transaction key))⟩

/-- The layer once a transaction that ended has taken an item off what is outstanding. -/
def tookOff (d : TransactionLayer σ) (key : ℕ) (t : Transaction) : TransactionLayer σ :=
  { d with
    transactions := d.transactions.set key { t with outstanding := t.outstanding - 1 }
    returned := true }

/-- A transaction that ended only takes the item that is delivered to it off what is outstanding. -/
theorem next_giveBack_of_delivers (m : StorageManager σ) {key : ℕ} {t : Transaction}
    (found : d.transactions[key]? = some t) (phase : t.phase ≠ .executing)
    (hdelivers : d.Delivers key) : d.next m .giveBack = d.tookOff key t := by
  obtain ⟨calm, fresh, j, delivery⟩ := hdelivers
  simp only [next, calm, delivery, fresh, Bool.false_eq_true, if_false, giveBack, found]
  rw [Site.returnToTransaction_of_ne (show d.site.transactions[key]? = some t from found) phase,
    if_neg fun h => phase h.1]
  rfl

/-- Then the item is one that the pool still holds of it. -/
theorem WindsUp.tookOff {key : ℕ} {t : Transaction} (h : d.WindsUp key t) (hsorted : d.Sorted)
    (hopen : d.workshop.Open) (hdelivers : d.Delivers key) :
    0 < t.outstanding ∧
      (d.tookOff key t).WindsUp key { t with outstanding := t.outstanding - 1 } := by
  obtain ⟨-, fresh, j, delivery⟩ := hdelivers
  have hclient : j.client = t.client := by
    have howner := hsorted.filed.addressee j key delivery
    rw [getElem?_owners h.found] at howner
    exact (Option.some.inj howner).symm
  have hawaits := h.awaits
  rw [fresh, owed_false, Nat.add_zero] at hawaits
  have hpos := (hawaits.holds hopen.booked.balanced delivery hclient).1
  refine ⟨hpos, ?_, h.ended, ?_⟩
  · exact List.getElem?_set_self (List.getElem?_eq_some_iff.mp h.found).1
  · change Awaits key t.client (t.outstanding - 1 + owed true d.workshop t.client) d.workshop
    rw [owed_true delivery, if_pos hclient, Nat.sub_add_cancel hpos]
    exact hawaits

/-- Acts that spare the client of a transaction that ended change nothing for it, unless they strike
a job off. -/
theorem WindsUp.act {key : ℕ} {t : Transaction} (h : d.WindsUp key t) (hsorted : d.Sorted)
    (hopen : d.workshop.Open) (m : StorageManager σ) {a : Act Receiver σ}
    (hspares : Workshop.Act.spares t.client a) (hstrike : a ≠ .strike) (hstop : a ≠ .stop)
    {transactions : List Transaction} (hfound : transactions[key]? = some t)
    (journal : List Notice) :
    WindsUp ⟨d.workshop.next m a, transactions, d.returned, journal⟩ key t := by
  refine ⟨hfound, h.ended, ?_⟩
  change Awaits key t.client (t.outstanding + owed d.returned (d.workshop.next m a) t.client) _
  rw [hsorted.owed_next m hstrike]
  exact h.awaits.next hopen m hspares hstrike hstop

/-- An item that another transaction takes notice of changes nothing for one that ended. -/
theorem WindsUp.noticed {key : ℕ} {t : Transaction} (h : d.WindsUp key t)
    (fresh : d.returned = false) {j : Job} {r : Option (Option Receiver)}
    (delivery : d.workshop.delivery = some ⟨j, r⟩) (hclient : j.client ≠ t.client)
    {transactions : List Transaction} (hfound : transactions[key]? = some t)
    (journal : List Notice) : WindsUp ⟨d.workshop, transactions, true, journal⟩ key t := by
  refine ⟨hfound, h.ended, ?_⟩
  have howed : owed true d.workshop t.client = owed d.returned d.workshop t.client := by
    rw [owed_true delivery, if_neg hclient, fresh, owed_false]
  change Awaits key t.client (t.outstanding + owed true d.workshop t.client) _
  rw [howed]
  exact h.awaits

/-- A job that is struck off is not awaited any more. -/
theorem WindsUp.struck {key : ℕ} {t : Transaction} (h : d.WindsUp key t) (hsorted : d.Sorted)
    (hopen : d.workshop.Open) (m : StorageManager σ) (ready : d.waits = false) :
    WindsUp { d with workshop := d.workshop.next m .strike, returned := false } key t := by
  refine ⟨h.found, h.ended, ?_⟩
  change Awaits key t.client t.outstanding _
  have hawaits := h.awaits
  rcases Workshop.strike_cases m d.workshop with ⟨hsame, hnone⟩ | ⟨j, r, delivery⟩
  · -- Nothing is struck off, so nothing is owed.
    have hreturned : d.returned = false := by
      refine Bool.eq_false_iff.mpr fun hreturned => ?_
      obtain ⟨j, key', hdelivery⟩ := hsorted.returned hreturned
      exact hnone j _ hdelivery
    rw [hreturned, owed_false, Nat.add_zero] at hawaits
    rw [hsame]
    exact hawaits
  · by_cases hclient : j.client = t.client
    · -- It is the transaction's own, so the transaction has taken notice of it.
      obtain ⟨-, hholds⟩ := hawaits.holds hopen.booked.balanced delivery hclient
      have hreceiver := hholds.addressee j r delivery hclient
      subst hreceiver
      have hreturned : d.returned = true := by
        unfold waits at ready
        rw [delivery] at ready
        simpa using ready
      rw [hreturned, owed_true delivery, if_pos hclient] at hawaits
      exact hawaits.struck hopen.booked m delivery hclient
    · have howed : owed d.returned d.workshop t.client = 0 := by
        cases d.returned with
        | false => rfl
        | true => rw [owed_true delivery, if_neg hclient]
      rw [howed, Nat.add_zero] at hawaits
      rcases hawaits with ⟨hnone, unknown⟩ | hholds
      · exact Or.inl ⟨hnone, (Workshop.effect_next m d.workshop .strike).find?_eq_none
          hopen.booked.balanced rfl unknown⟩
      · exact Or.inr (hholds.struck_other hopen.booked m delivery hclient)

/-- With mail still to be sent no item is taken notice of. -/
theorem next_giveBack_of_busy (m : StorageManager σ) (busy : d.workshop.errands ≠ []) :
    d.next m .giveBack = d := by
  simp only [next]
  split
  · rename_i calm delivery
    exact absurd calm busy
  · rfl

/-- Nothing but being delivered an item happens to a transaction that ended. -/
theorem WindsUp.next {key : ℕ} {t : Transaction} (h : d.WindsUp key t) (hsorted : d.Sorted)
    (hopen : d.workshop.Open) (m : StorageManager σ) (hspares : Deed.spares t.client x)
    (hup : x ≠ .elsewhere .stop) (hother : ¬ (x = .giveBack ∧ d.Delivers key)) :
    (d.next m x).WindsUp key t := by
  have hne {key' : ℕ} {t' : Transaction} (found : d.transactions[key']? = some t')
      (phase : t'.phase ≠ .reported) : key' ≠ key := by
    rintro rfl
    rw [h.found] at found
    cases found
    exact phase h.ended
  have hclient {key' : ℕ} {c : ClientId} (howner : d.owners[key']? = some c) (hkey : key' ≠ key) :
      c ≠ t.client := by
    rintro rfl
    exact hkey (hsorted.eq_of_client howner (getElem?_owners h.found))
  have hset {key' : ℕ} {t' t'' : Transaction} (found : d.transactions[key']? = some t')
      (phase : t'.phase ≠ .reported) : (d.transactions.set key' t'')[key]? = some t :=
    (List.getElem?_set_ne (hne found phase)).trans h.found
  have hbook {key' : ℕ} {t' : Transaction} {z : Transaction × Option Report}
      (found : d.transactions[key']? = some t') (phase : t'.phase ≠ .reported) :
      (d.site.book key' z).transactions[key]? = some t := by
    rw [transactions_book]
    exact hset found phase
  have heffect := effect_next m d x
  generalize hd' : d.next m x = d' at heffect ⊢
  cases heffect with
  | nothing x => exact h
  | opened =>
    refine h.act hsorted hopen m rfl (by rintro ⟨⟩) (by rintro ⟨⟩) ?_ _
    rw [List.getElem?_append_left (List.getElem?_eq_some_iff.mp h.found).1]
    exact h.found
  | added found building =>
    refine h.act hsorted hopen m rfl (by rintro ⟨⟩) (by rintro ⟨⟩) (hset found ?_) _
    rw [building]
    exact TransactionPhase.noConfusion
  | @begun key' t' p found building calm items_ne submit =>
    have hphase : t'.phase ≠ .reported := by
      rw [building]
      exact TransactionPhase.noConfusion
    exact h.act hsorted hopen m (a := .submit t'.client (.transaction key') t'.items)
      (decide_eq_true (hclient (getElem?_owners found) (hne found hphase))) (by rintro ⟨⟩)
      (by rintro ⟨⟩) (hset found hphase) _
  | failed found building same =>
    refine ⟨hbook found ?_, h.ended, h.awaits⟩
    rw [building]
    exact TransactionPhase.noConfusion
  | cancelled found executing =>
    refine ⟨hbook found ?_, h.ended, h.awaits⟩
    rw [executing]
    exact TransactionPhase.noConfusion
  | @late key' t' j found phase fresh delivery =>
    by_cases hkey : key' = key
    · subst hkey
      by_cases calm : d.workshop.errands = []
      · exact absurd ⟨rfl, calm, fresh, j, delivery⟩ hother
      · rw [next_giveBack_of_busy m calm] at hd'
        rw [← hd']
        exact h
    · exact h.noticed fresh delivery (hclient (hsorted.filed.addressee j key' delivery) hkey)
        ((List.getElem?_set_ne hkey).trans h.found) _
  | @counted key' t' j g a found executing fresh delivery arrival not_back =>
    have hphase : t'.phase ≠ .reported := by
      rw [executing]
      exact TransactionPhase.noConfusion
    have hchanged := h.act hsorted hopen m (a := .change g) rfl (by rintro ⟨⟩) (by rintro ⟨⟩)
      h.found d.journal
    exact hchanged.noticed fresh delivery
      (hclient (hsorted.filed.addressee j key' delivery) (hne found hphase)) (hbook found hphase) _
  | @putBack key' t' j g i p found executing fresh delivery calm arrival add =>
    have hphase : t'.phase ≠ .reported := by
      rw [executing]
      exact TransactionPhase.noConfusion
    have hj := hclient (hsorted.filed.addressee j key' delivery) (hne found hphase)
    have hchanged := h.act hsorted hopen m (a := .change g) rfl (by rintro ⟨⟩) (by rintro ⟨⟩)
      h.found d.journal
    have hsorted' := hsorted.effect (Effect.elsewhere (m := m) (a := .change g)
      (by rintro c key items ⟨⟩) (by rintro ⟨⟩))
    have hopen' : (d.workshop.next m (.change g)).Open := hopen.next m (by rintro ⟨⟩)
    have hadded := hchanged.act hsorted' hopen' m (a := .addItem j.client i) (decide_eq_true hj)
      (by rintro ⟨⟩) (by rintro ⟨⟩) h.found d.journal
    refine hadded.noticed (r := some (some (.transaction key'))) fresh ?_ hj (hbook found hphase) _
    simp only [Workshop.next, calm, add]
    exact delivery
  | @elsewhere a own not_strike =>
    refine h.act hsorted hopen m hspares not_strike ?_ h.found _
    rintro rfl
    exact hup rfl
  | struck ready => exact h.struck hsorted hopen m ready

/-- A transaction that is cancelled while it executes winds up. -/
theorem Minds.windsUp {key : ℕ} {t : Transaction} (h : d.Minds key t) (hopen : d.workshop.Open)
    (found : d.transactions[key]? = some t) (executing : t.phase = .executing) :
    (d.next m (.conclude key)).WindsUp key (t.conclude .cancelled).1 := by
  have hheld := h.held.resolve_left fun hvacant => hopen.up hvacant.down
  simp only [TransactionLayer.next, found, executing, if_true]
  refine ⟨?_, rfl, Or.inr hheld⟩
  change (d.site.book key (t.conclude .cancelled)).transactions[key]? = _
  rw [transactions_book]
  exact List.getElem?_set_self (List.getElem?_eq_some_iff.mp found).1

/-- What is done while a transaction winds up spares its client. -/
theorem WindsUp.spares {key : ℕ} {t : Transaction} (h : d.WindsUp key t)
    (hspares : Deed.spares t.client x) {a : Act Receiver σ}
    (ha : x = .elsewhere a ∨ d.SparesEnded a) : Workshop.Act.spares t.client a := by
  rcases ha with rfl | ha
  · exact hspares
  · exact ha key t h.found h.ended

/-- While a transaction winds up, no job of its client is taken on. -/
theorem WindsUp.untaken {key : ℕ} {t : Transaction} (h : d.WindsUp key t) (hsorted : d.Sorted)
    (hopen : d.workshop.Open) (m : StorageManager σ) (hspares : Deed.spares t.client x)
    (hup : x ≠ .elsewhere .stop) :
    ∃ entries, (d.next m x).workshop.log = entries ++ d.workshop.log ∧
      ∀ j, .taken j ∈ entries → j.client ≠ t.client := by
  let P (y : Workshop Receiver σ) : Prop :=
    ∃ entries, y.log = entries ++ d.workshop.log ∧ ∀ j, .taken j ∈ entries → j.client ≠ t.client
  have hnone : P d.workshop := ⟨[], rfl, fun j hj => absurd hj List.not_mem_nil⟩
  refine ((effect_next m d x).keeps (P := P) hsorted ?_ hopen hnone hup).2
  rintro y a - ⟨entries, hlog, huntaken⟩ ha
  obtain ⟨entries', hlog', huntaken'⟩ :=
    (Workshop.effect_next m y a).taken_of_spares (h.spares hspares ha)
  refine ⟨entries' ++ entries, ?_, fun j hj => ?_⟩
  · rw [hlog', hlog, List.append_assoc]
  · exact (List.mem_append.mp hj).elim (huntaken' j) (huntaken j)

/-- While a transaction winds up, its client does not get an account again. -/
theorem WindsUp.unknown {key : ℕ} {t : Transaction} (h : d.WindsUp key t) (hsorted : d.Sorted)
    (hopen : d.workshop.Open) (m : StorageManager σ) (hspares : Deed.spares t.client x)
    (hup : x ≠ .elsewhere .stop) (unknown : d.workshop.pool.clients.find? t.client = none) :
    (d.next m x).workshop.pool.clients.find? t.client = none := by
  let P (y : Workshop Receiver σ) : Prop := y.pool.clients.find? t.client = none
  refine ((effect_next m d x).keeps (P := P) hsorted ?_ hopen unknown hup).2
  intro y a hopen' unknown' ha
  have heffect := Workshop.effect_next m y a
  exact heffect.find?_eq_none hopen'.booked.balanced (h.spares hspares ha) unknown'

/-! ## Calls that end a transaction -/

/-- The transaction of this number has ended. -/
def Over (d : TransactionLayer σ) (key : ℕ) : Prop :=
  ∃ t : Transaction, d.transactions[key]? = some t ∧ t.phase = .reported

/-- The transaction of this number ends. -/
structure Ends (d d' : TransactionLayer σ) (key : ℕ) : Prop where
  before : ¬ d.Over key
  after : d'.Over key

/-- A transaction that has not ended is not over. -/
theorem not_over {key : ℕ} {t : Transaction} (found : d.transactions[key]? = some t)
    (phase : t.phase ≠ .reported) : ¬ d.Over key := by
  rintro ⟨t', found', ended⟩
  rw [found] at found'
  cases found'
  exact phase ended

/-- Changing the books of a transaction writes its report, if there is one, into the journal. -/
theorem journal_book (s : Site σ) (key : ℕ) (z : Transaction × Option Report) :
    (s.book key z).journal = s.journal ++ z.2.toList.map (Notice.reported key) := by
  unfold Site.book
  cases z.2 with
  | none => exact (List.append_nil _).symm
  | some r => rfl

/-- A transaction that an item came back to has ended if there is a report. -/
theorem phase_arrive {t : Transaction} {a : Arrival} (h : (t.arrive a).2 ≠ none) :
    (t.arrive a).1.phase = .reported := by
  unfold Transaction.arrive Transaction.concludeIfSettled at h ⊢
  split
  · rename_i hmore
    rw [if_pos hmore] at h
    exact absurd rfl h
  · rfl

/-- What is in the journal stays there, and each new report is that of a transaction that ends. -/
theorem Effect.journal (h : Effect m d x d') :
    d'.journal = d.journal ∨
      ∃ key r, d'.journal = d.journal ++ [.reported key r] ∧ d.Ends d' key := by
  have hbook {key : ℕ} {t : Transaction} {z : Transaction × Option Report}
      (found : d.transactions[key]? = some t) (phase : t.phase ≠ .reported)
      (hz : z.2 ≠ none → z.1.phase = .reported)
      (htransactions : d'.transactions = (d.site.book key z).transactions)
      (hjournal : d'.journal = (d.site.book key z).journal) :
      d'.journal = d.journal ∨
        ∃ key r, d'.journal = d.journal ++ [.reported key r] ∧ d.Ends d' key := by
    rw [journal_book] at hjournal
    cases hreport : z.2 with
    | none =>
      rw [hreport] at hjournal
      exact Or.inl (hjournal.trans (List.append_nil _))
    | some r =>
      rw [hreport] at hjournal
      refine Or.inr ⟨key, r, hjournal, not_over found phase, z.1, ?_, hz ?_⟩
      · rw [htransactions]
        exact Site.getElem?_book found z
      · rw [hreport]
        exact Option.some_ne_none r
  cases h with
  | nothing x => exact Or.inl rfl
  | opened => exact Or.inl rfl
  | added found building => exact Or.inl rfl
  | begun found building calm items_ne submit => exact Or.inl rfl
  | failed found building same =>
    refine hbook found ?_ (fun _ => rfl) rfl rfl
    rw [building]
    exact TransactionPhase.noConfusion
  | cancelled found executing =>
    refine hbook found ?_ (fun _ => rfl) rfl rfl
    rw [executing]
    exact TransactionPhase.noConfusion
  | late found phase fresh delivery => exact Or.inl rfl
  | counted found executing fresh delivery arrival not_back =>
    refine hbook found ?_ phase_arrive rfl rfl
    rw [executing]
    exact TransactionPhase.noConfusion
  | putBack found executing fresh delivery calm arrival add =>
    refine hbook found ?_ phase_arrive rfl rfl
    rw [executing]
    exact TransactionPhase.noConfusion
  | elsewhere own not_strike => exact Or.inl rfl
  | struck ready => exact Or.inl rfl

/-- A transaction that has ended stays so, and one that has not keeps whom it reports to. -/
theorem Effect.transaction (h : Effect m d x d') {key : ℕ} {t : Transaction}
    (found : d.transactions[key]? = some t) :
    ∃ t', d'.transactions[key]? = some t' ∧ (t.phase = .reported → t'.phase = .reported) ∧
      (t'.phase ≠ .reported → t'.hasReporter = t.hasReporter) := by
  have hsame (htransactions : d'.transactions = d.transactions) :
      ∃ t', d'.transactions[key]? = some t' ∧ (t.phase = .reported → t'.phase = .reported) ∧
        (t'.phase ≠ .reported → t'.hasReporter = t.hasReporter) :=
    ⟨t, htransactions ▸ found, id, fun _ => rfl⟩
  have hset {key' : ℕ} {t₁ t₂ : Transaction} (found₁ : d.transactions[key']? = some t₁)
      (htransactions : d'.transactions = d.transactions.set key' t₂)
      (hstays : t₁.phase = .reported → t₂.phase = .reported)
      (hreporter : t₂.phase ≠ .reported → t₂.hasReporter = t₁.hasReporter) :
      ∃ t', d'.transactions[key]? = some t' ∧ (t.phase = .reported → t'.phase = .reported) ∧
        (t'.phase ≠ .reported → t'.hasReporter = t.hasReporter) := by
    rw [htransactions]
    by_cases hkey : key' = key
    · subst hkey
      rw [found] at found₁
      cases found₁
      exact ⟨t₂, List.getElem?_set_self (List.getElem?_eq_some_iff.mp found).1, hstays, hreporter⟩
    · exact ⟨t, (List.getElem?_set_ne hkey).trans found, id, fun _ => rfl⟩
  have harrive (t₁ : Transaction) (a : Arrival) (hphase : (t₁.arrive a).1.phase ≠ .reported) :
      (t₁.arrive a).1.hasReporter = t₁.hasReporter := by
    rcases arrive_cases t₁ a with ⟨hsame, -⟩ | ⟨hreported, -⟩
    · rw [hsame]
      cases a <;> rfl
    · exact absurd hreported hphase
  cases h with
  | nothing x => exact hsame rfl
  | opened =>
    refine ⟨t, ?_, id, fun _ => rfl⟩
    rw [List.getElem?_append_left (List.getElem?_eq_some_iff.mp found).1]
    exact found
  | added found₁ building => exact hset found₁ rfl id fun _ => rfl
  | begun found₁ building calm items_ne submit =>
    refine hset found₁ rfl (fun hreported => ?_) fun _ => rfl
    rw [building] at hreported
    cases hreported
  | failed found₁ building same =>
    exact hset found₁ (transactions_book _ _ _) (fun _ => rfl) fun hphase => absurd rfl hphase
  | cancelled found₁ executing =>
    exact hset found₁ (transactions_book _ _ _) (fun _ => rfl) fun hphase => absurd rfl hphase
  | late found₁ phase fresh delivery => exact hset found₁ rfl id fun _ => rfl
  | counted found₁ executing fresh delivery arrival not_back =>
    refine hset found₁ (transactions_book _ _ _) (fun hreported => ?_) (harrive _ _)
    rw [executing] at hreported
    cases hreported
  | putBack found₁ executing fresh delivery calm arrival add =>
    refine hset found₁ (transactions_book _ _ _) (fun hreported => ?_) (harrive _ _)
    rw [executing] at hreported
    cases hreported
  | elsewhere own not_strike => exact hsame rfl
  | struck ready => exact hsame rfl

/-- What is over stays over. -/
theorem Over.effect {key : ℕ} (h : d.Over key) (heffect : Effect m d x d') : d'.Over key := by
  obtain ⟨t, found, ended⟩ := h
  obtain ⟨t', found', hstays, -⟩ := heffect.transaction found
  exact ⟨t', found', hstays ended⟩

/-- A transaction that was not there before is new. -/
theorem Effect.eq_create (h : Effect m d x d') {key : ℕ} {t : Transaction}
    (found : d'.transactions[key]? = some t) (unknown : d.transactions[key]? = none) :
    t = .create ⟨d.workshop.pool.nextClient⟩ := by
  have hlen : d.transactions.length ≤ key := List.getElem?_eq_none_iff.mp unknown
  rcases h.owners with howners | ⟨rfl, -⟩
  · have hlength := congrArg List.length howners
    unfold TransactionLayer.owners at hlength
    rw [List.length_map, List.length_map] at hlength
    have hlt := (List.getElem?_eq_some_iff.mp found).1
    omega
  · cases h with
    | nothing x =>
      rw [unknown] at found
      cases found
    | opened =>
      rw [List.getElem?_append_right hlen] at found
      exact List.mem_singleton.mp (List.mem_of_getElem? found)

end TransactionLayer

/-! ## The reporting layer -/

/-- A call that has ended a transaction, with what it still has to do. -/
structure Closing where
  key : ℕ
  report : Option Report
  /-- The client whose items the pool is still to be asked to cancel. -/
  asks : Option ClientId
  /-- Has the report been told? -/
  told : Bool
  deriving Repr, DecidableEq

/-- The call that an entry of the journal is about, if it ended a transaction. -/
def Closing.ofNotice : Notice → Option Closing
  | .reported key r => some ⟨key, some r, none, false⟩
  | .delivered _ _ _ => none

/-- The calls that a deed belongs to and that have ended a transaction by it. Only a call that
cancels asks for anything more than being told. -/
def TransactionLayer.closings {σ : Type} (m : StorageManager σ) (d : TransactionLayer σ) :
    Deed σ → List Closing
  | .conclude key => match d.transactions[key]? with
    | none => []
    | some t =>
      if t.phase = .executing then [⟨key, (t.conclude .cancelled).2, some t.client, false⟩] else []
  | x => ((d.next m x).journal.drop d.journal.length).filterMap Closing.ofNotice

/-- A transaction layer with the calls that have ended a transaction. -/
structure ReportingLayer (σ : Type) where
  layer : TransactionLayer σ
  closings : List Closing
  /-- The reports that were told, with the numbers of their transactions, oldest first. -/
  told : List (ℕ × Report)
  deriving Repr

namespace ReportingLayer

/-- What may be done at once at a reporting layer. -/
inductive Step (σ : Type) where
  | deed (x : Deed σ)
  /-- The call of this number asks the pool to cancel the items of its client. -/
  | ask (n : ℕ)
  /-- The call of this number tells its report. -/
  | tell (n : ℕ)

variable {σ : Type} {m : StorageManager σ} {y : ReportingLayer σ}

/-- The reporting layer before anything happens. -/
def create (settings : Settings) (loop : EventLoop) (ground : Surroundings σ) : ReportingLayer σ :=
  ⟨.create settings loop ground, [], []⟩

/-- The reporting layer after a step. A call asks the pool before it tells its report. -/
def next (m : StorageManager σ) (y : ReportingLayer σ) : Step σ → ReportingLayer σ
  | .deed x =>
    { y with layer := y.layer.next m x, closings := y.closings ++ y.layer.closings m x }
  | .ask n => match y.layer.workshop.errands, y.closings[n]? with
    | [], some ⟨key, r, some c, told⟩ =>
      { y with
        layer := y.layer.next m (.elsewhere (.cancel c))
        closings := y.closings.set n ⟨key, r, none, told⟩ }
    | _, _ => y
  | .tell n => match y.closings[n]? with
    | some ⟨key, r, none, false⟩ =>
      { y with
        closings := y.closings.set n ⟨key, r, none, true⟩
        told := y.told ++ r.toList.map (key, ·) }
    | _ => y

/-- The reporting layer after some steps. -/
def after (m : StorageManager σ) (settings : Settings) (loop : EventLoop)
    (ground : Surroundings σ) (steps : List (Step σ)) : ReportingLayer σ :=
  steps.foldl (next m) (create settings loop ground)

/-- Is the step one that leaves it to the transaction to use its client? -/
def Step.spares (c : ClientId) : Step σ → Bool
  | .deed x => TransactionLayer.Deed.spares c x
  | .ask _ | .tell _ => true

/-- The calls that have ended this transaction. -/
def callsOf (y : ReportingLayer σ) (key : ℕ) : List Closing := y.closings.filter (·.key = key)

/-- What this transaction has reported, oldest first. -/
def reports (y : ReportingLayer σ) (key : ℕ) : List Report :=
  y.told.filterMap fun x => if x.1 = key then some x.2 else none

/-! ## Steps and deeds -/

/-- Every step is a deed at most. -/
theorem layer_next (m : StorageManager σ) (y : ReportingLayer σ) (s : Step σ) :
    (y.next m s).layer = y.layer ∨ ∃ x, (y.next m s).layer = y.layer.next m x ∧
      (s = .deed x ∨ ∃ c, x = .elsewhere (.cancel c)) := by
  cases s with
  | deed x => exact Or.inr ⟨x, rfl, Or.inl rfl⟩
  | ask n =>
    simp only [next]
    split
    · exact Or.inr ⟨_, rfl, Or.inr ⟨_, rfl⟩⟩
    · exact Or.inl rfl
  | tell n =>
    simp only [next]
    split <;> exact Or.inl rfl

/-- The layer of a reporting layer is one after some deeds. -/
theorem layer_after (m : StorageManager σ) (settings : Settings) (loop : EventLoop)
    (ground : Surroundings σ) (steps : List (Step σ)) :
    ∃ deeds,
      (after m settings loop ground steps).layer =
        TransactionLayer.after m settings loop ground deeds ∧
      ∀ x ∈ deeds, .deed x ∈ steps ∨ ∃ c, x = .elsewhere (.cancel c) := by
  induction steps using List.reverseRecOn with
  | nil => exact ⟨[], rfl, fun x hx => absurd hx List.not_mem_nil⟩
  | append_singleton steps s ih =>
    obtain ⟨deeds, hlayer, hdeeds⟩ := ih
    have hold (x : Deed σ) (hx : x ∈ deeds) :
        .deed x ∈ steps ++ [s] ∨ ∃ c, x = .elsewhere (.cancel c) :=
      (hdeeds x hx).imp_left fun hmem => List.mem_append_left _ hmem
    unfold after at hlayer ⊢
    rw [List.foldl_concat]
    rcases layer_next m (steps.foldl (next m) (create settings loop ground)) s with
      hsame | ⟨x, hnext, hx⟩
    · exact ⟨deeds, hsame.trans hlayer, hold⟩
    · refine ⟨deeds ++ [x], ?_, fun x' hx' => ?_⟩
      · rw [hnext, hlayer]
        exact (List.foldl_concat _ _ _ _).symm
      · rcases List.mem_append.mp hx' with hmem | hmem
        · exact hold x' hmem
        · rw [List.mem_singleton.mp hmem]
          rcases hx with rfl | hcancel
          · exact Or.inl (List.mem_append_right _ (List.mem_singleton.mpr rfl))
          · exact Or.inr hcancel

/-! ## Calls that nothing interrupts -/

/-- The reporting layer once all mail of the call under way is sent. -/
def sent (m : StorageManager σ) (y : ReportingLayer σ) : ReportingLayer σ :=
  (List.replicate y.layer.workshop.errands.length (.deed (.elsewhere .run))).foldl (next m) y

/-- The reporting layer after the call that cancels this transaction. -/
def cancelled (m : StorageManager σ) (y : ReportingLayer σ) (key : ℕ) : ReportingLayer σ :=
  (((y.next m (.deed (.conclude key))).next m (.ask y.closings.length)).sent m).next m
    (.tell y.closings.length)

/-- Without interruption the calls of a site are steps of the reporting layer. -/
structure Uninterrupted (m : StorageManager σ) (y : ReportingLayer σ) : Prop where
  /-- The transactions and the workshop are called. -/
  layer : y.layer.Uninterrupted m
  /-- A transaction that executes is cancelled, and reports so. -/
  cancel : y.layer.workshop.errands = [] → ∀ key t, y.layer.transactions[key]? = some t →
    t.phase = .executing →
    (y.cancelled m key).layer.site = (y.layer.site.cancelTransaction key).2 ∧
      (y.cancelled m key).told = y.told ++ (t.conclude .cancelled).2.toList.map (key, ·)

/-- Sending all mail concerns the layer only. -/
theorem sent_eq (m : StorageManager σ) (y : ReportingLayer σ) :
    y.sent m = { y with layer := y.layer.sent m } := by
  have hrun (y : ReportingLayer σ) : y.next m (.deed (.elsewhere .run)) =
      { y with layer := y.layer.next m (.elsewhere .run) } := by
    have hnone : y.layer.closings m (.elsewhere .run) = [] := by
      have hjournal : (y.layer.next m (.elsewhere .run)).journal = y.layer.journal := rfl
      simp only [TransactionLayer.closings, hjournal, List.drop_length, List.filterMap_nil]
    simp only [next, hnone, List.append_nil]
  have hruns (n : ℕ) (y : ReportingLayer σ) :
      (List.replicate n (.deed (.elsewhere .run))).foldl (next m) y =
        { y with layer :=
          (List.replicate n (.elsewhere .run)).foldl (TransactionLayer.next m) y.layer } := by
    induction n generalizing y with
    | zero => rfl
    | succ n ih =>
      rw [List.replicate_succ, List.foldl_cons, hrun, ih]
      rfl
  exact hruns _ y

/-- Ending a transaction as cancelled, asking the pool, sending its mail and telling the report is
the call that cancels it. -/
theorem cancelled_eq (m : StorageManager σ) (calm : y.layer.workshop.errands = []) {key : ℕ}
    {t : Transaction} (found : y.layer.transactions[key]? = some t)
    (executing : t.phase = .executing) :
    (y.cancelled m key).layer.site = (y.layer.site.cancelTransaction key).2 ∧
      (y.cancelled m key).told = y.told ++ (t.conclude .cancelled).2.toList.map (key, ·) := by
  have hclosings : y.layer.closings m (.conclude key) =
      [⟨key, (t.conclude .cancelled).2, some t.client, false⟩] := by
    simp only [TransactionLayer.closings, found, executing, if_true]
  have hcalm : (y.layer.next m (.conclude key)).workshop.errands = [] := by
    simp only [TransactionLayer.next, found, executing, if_true]
    exact calm
  have hcall : (y.closings ++ y.layer.closings m (.conclude key))[y.closings.length]? =
      some ⟨key, (t.conclude .cancelled).2, some t.client, false⟩ := by
    rw [hclosings, List.getElem?_append_right (Nat.le_refl _), Nat.sub_self]
    rfl
  have hlength : y.closings.length < (y.closings ++ y.layer.closings m (.conclude key)).length :=
    (List.getElem?_eq_some_iff.mp hcall).1
  have hasked : (y.next m (.deed (.conclude key))).next m (.ask y.closings.length) =
      { y with
        layer := (y.layer.next m (.conclude key)).next m (.elsewhere (.cancel t.client))
        closings := (y.closings ++ y.layer.closings m (.conclude key)).set y.closings.length
          ⟨key, (t.conclude .cancelled).2, none, false⟩ } := by
    simp only [next, hcalm, hcall]
  have hcalled : ((y.closings ++ y.layer.closings m (.conclude key)).set y.closings.length
      ⟨key, (t.conclude .cancelled).2, none, false⟩)[y.closings.length]? =
        some ⟨key, (t.conclude .cancelled).2, none, false⟩ := List.getElem?_set_self hlength
  unfold cancelled
  rw [hasked, sent_eq]
  simp only [next, hcalled]
  exact ⟨TransactionLayer.sent_conclude m calm found executing, trivial⟩

/-- Whatever state a reporting layer is in, its steps are the calls of its site. -/
theorem uninterrupted (m : StorageManager σ) (y : ReportingLayer σ) : y.Uninterrupted m where
  layer := y.layer.uninterrupted m
  cancel calm _ _ := cancelled_eq m calm

/-! ## Calls -/

/-- The calls that a deed leaves behind have ended their transactions by it. -/
theorem ends_of_mem_closings {d : TransactionLayer σ} {x : Deed σ} {c : Closing}
    (h : c ∈ d.closings m x) : d.Ends (d.next m x) c.key := by
  have hnew (hc : c ∈ ((d.next m x).journal.drop d.journal.length).filterMap Closing.ofNotice) :
      d.Ends (d.next m x) c.key := by
    rcases (TransactionLayer.effect_next m d x).journal with hsame | ⟨key, r, hjournal, hends⟩
    · rw [hsame, List.drop_length] at hc
      cases hc
    · rw [hjournal, List.drop_left] at hc
      obtain ⟨e, he, hcall⟩ := List.mem_filterMap.mp hc
      rw [List.mem_singleton.mp he] at hcall
      cases hcall
      exact hends
  cases x with
  | conclude key =>
    simp only [TransactionLayer.closings] at h
    split at h
    · cases h
    · rename_i t found
      split at h
      · rename_i executing
        rw [List.mem_singleton.mp h]
        refine ⟨TransactionLayer.not_over found ?_, (t.conclude .cancelled).1, ?_, rfl⟩
        · rw [executing]
          exact TransactionPhase.noConfusion
        · simp only [TransactionLayer.next, found, executing, if_true]
          exact Site.getElem?_book (s := d.site) found _
      · cases h
  | openTransaction => exact hnew h
  | add key items => exact hnew h
  | execute key => exact hnew h
  | giveBack => exact hnew h
  | elsewhere a => exact hnew h

/-- A transaction that has not ended has somebody to report to and no call that ended it, and what
was told is about transactions that have ended. -/
structure Registered (y : ReportingLayer σ) : Prop where
  reporter : ∀ (key : ℕ) (t : Transaction), y.layer.transactions[key]? = some t →
    t.phase ≠ .reported → t.hasReporter = true
  closed : ∀ c ∈ y.closings, y.layer.Over c.key
  told : ∀ x ∈ y.told, y.layer.Over x.1

/-- Every step keeps the register. -/
theorem Registered.next (h : y.Registered) (m : StorageManager σ) (s : Step σ) :
    (y.next m s).Registered := by
  have hover {x : Deed σ} {key : ℕ} (hkey : y.layer.Over key) : (y.layer.next m x).Over key :=
    hkey.effect (TransactionLayer.effect_next m y.layer x)
  have hreporter {x : Deed σ} (key : ℕ) (t' : Transaction)
      (found' : (y.layer.next m x).transactions[key]? = some t') (phase : t'.phase ≠ .reported) :
      t'.hasReporter = true := by
    have heffect := TransactionLayer.effect_next m y.layer x
    cases found : y.layer.transactions[key]? with
    | none =>
      rw [heffect.eq_create found' found]
      rfl
    | some t =>
      obtain ⟨t'', found'', hstays, hsame⟩ := heffect.transaction found
      rw [found'] at found''
      cases found''
      rw [hsame phase]
      exact h.reporter key t found fun ended => phase (hstays ended)
  cases s with
  | deed x =>
    refine ⟨hreporter, fun c hc => ?_, fun x' hx' => hover (h.told x' hx')⟩
    rcases List.mem_append.mp hc with hold | hnew
    · exact hover (h.closed c hold)
    · exact (ends_of_mem_closings hnew).after
  | ask n =>
    simp only [ReportingLayer.next]
    split
    · rename_i key r c told calm hcall
      have hkey : y.layer.Over key := h.closed _ (List.mem_of_getElem? hcall)
      refine ⟨hreporter, fun c' hc' => ?_, fun x' hx' => hover (h.told x' hx')⟩
      rcases List.mem_or_eq_of_mem_set hc' with hold | rfl
      · exact hover (h.closed c' hold)
      · exact hover hkey
    · exact h
  | tell n =>
    simp only [ReportingLayer.next]
    split
    · rename_i key r hcall
      have hkey := h.closed _ (List.mem_of_getElem? hcall)
      refine ⟨h.reporter, fun c' hc' => ?_, fun x' hx' => ?_⟩
      · rcases List.mem_or_eq_of_mem_set hc' with hold | rfl
        · exact h.closed c' hold
        · exact hkey
      · rcases List.mem_append.mp hx' with hold | hnew
        · exact h.told x' hold
        · obtain ⟨r', -, rfl⟩ := List.mem_map.mp hnew
          exact hkey
    · exact h

/-- The register is right at every reporting layer. -/
theorem registered_after (m : StorageManager σ) (settings : Settings) (loop : EventLoop)
    (ground : Surroundings σ) (steps : List (Step σ)) :
    (after m settings loop ground steps).Registered := by
  induction steps using List.reverseRecOn with
  | nil =>
    refine ⟨fun key t found => ?_, fun c hc => ?_, fun x hx => ?_⟩
    · cases found
    · cases hc
    · cases hx
  | append_singleton steps s ih =>
    unfold after at ih ⊢
    rw [List.foldl_concat]
    exact ih.next m s

/-- Nothing was told of a transaction that has not ended, and no call has ended it. -/
theorem Registered.silent (h : y.Registered) {key : ℕ} {t : Transaction}
    (found : y.layer.transactions[key]? = some t) (phase : t.phase ≠ .reported) :
    y.callsOf key = [] ∧ y.reports key = [] := by
  have hne {key' : ℕ} (hkey : y.layer.Over key') : key' ≠ key := by
    rintro rfl
    exact TransactionLayer.not_over found phase hkey
  constructor
  · refine List.filter_eq_nil_iff.mpr fun c hc => ?_
    simpa using hne (h.closed c hc)
  · refine List.filterMap_eq_nil_iff.mpr fun x hx => ?_
    exact if_neg (hne (h.told x hx))

/-- Changing a call of another transaction leaves the calls of this one as they are. -/
theorem callsOf_set_of_ne {n : ℕ} {c d : Closing} (hcall : y.closings[n]? = some c)
    (hsame : d.key = c.key) {key : ℕ} (hkey : c.key ≠ key) :
    (y.closings.set n d).filter (·.key = key) = y.callsOf key := by
  have hkey' : d.key ≠ key := hsame ▸ hkey
  obtain ⟨hlt, hget⟩ := List.getElem?_eq_some_iff.mp hcall
  have hsplit : y.closings = y.closings.take n ++ c :: y.closings.drop (n + 1) := by
    rw [← hget, List.getElem_cons_drop, List.take_append_drop]
  unfold callsOf
  rw [List.set_eq_take_append_cons_drop, if_pos hlt]
  nth_rewrite 3 [hsplit]
  rw [List.filter_append, List.filter_append, List.filter_cons_of_neg (by simpa using hkey'),
    List.filter_cons_of_neg (by simpa using hkey)]

/-- Changing the only call of a transaction changes its calls to the new one. -/
theorem callsOf_set {n : ℕ} {c d : Closing} (hcall : y.closings[n]? = some c)
    (hsame : d.key = c.key) {only : Closing} (hcalls : y.callsOf c.key = [only]) :
    only = c ∧ (y.closings.set n d).filter (·.key = c.key) = [d] := by
  obtain ⟨hlt, hget⟩ := List.getElem?_eq_some_iff.mp hcall
  have hsplit : y.closings = y.closings.take n ++ c :: y.closings.drop (n + 1) := by
    rw [← hget, List.getElem_cons_drop, List.take_append_drop]
  unfold callsOf at hcalls
  rw [hsplit, List.filter_append, List.filter_cons_of_pos (by simp)] at hcalls
  obtain ⟨hbefore, honly⟩ | ⟨-, hnone⟩ := List.append_eq_singleton_iff.mp hcalls
  · obtain ⟨rfl, hafter⟩ := List.cons.inj honly
    refine ⟨rfl, ?_⟩
    rw [List.set_eq_take_append_cons_drop, if_pos hlt, List.filter_append,
      List.filter_cons_of_pos (by simp [hsame]), hbefore, hafter]
    rfl
  · cases hnone

/-! ## Finality -/

/-- What there is after a transaction was cancelled, with the entries that were logged since. -/
structure Aftermath (key : ℕ) (t : Transaction) (log newer : List (Entry Receiver))
    (y : ReportingLayer σ) : Prop where
  windsUp : ∃ n, y.layer.WindsUp key { (t.conclude .cancelled).1 with outstanding := n }
  log_eq : y.layer.workshop.log = newer ++ log
  untaken : ∀ j, .taken j ∈ newer → j.client ≠ t.client
  /-- The call that cancelled the transaction still has to ask the pool, or has asked it and was
  refused only if the client had nothing left with it. -/
  call : ∃ asks told, y.callsOf key = [⟨key, some ⟨.cancelled, t.summary⟩, asks, told⟩] ∧
    y.reports key = (if told then [⟨.cancelled, t.summary⟩] else []) ∧
    (asks = some t.client ∨ asks = none ∧
      (.cancelled t.client ∈ newer ∨ y.layer.workshop.pool.clients.find? t.client = none))

/-- A deed that spares the client of a cancelled transaction leaves it winding up, logs no job of
its client as taken on, and leaves a client without an account without one. -/
theorem Aftermath.deed {key : ℕ} {t : Transaction} {log newer : List (Entry Receiver)}
    (h : Aftermath key t log newer y) (hsorted : y.layer.Sorted) (hopen : y.layer.workshop.Open)
    (m : StorageManager σ) {x : Deed σ} (hspares : TransactionLayer.Deed.spares t.client x)
    (hup : x ≠ .elsewhere .stop) :
    (∃ n, (y.layer.next m x).WindsUp key { (t.conclude .cancelled).1 with outstanding := n }) ∧
      ∃ entries, (y.layer.next m x).workshop.log = entries ++ newer ++ log ∧
        (∀ j, .taken j ∈ entries ++ newer → j.client ≠ t.client) ∧
        (.cancelled t.client ∈ newer ∨ y.layer.workshop.pool.clients.find? t.client = none →
          .cancelled t.client ∈ entries ++ newer ∨
            (y.layer.next m x).workshop.pool.clients.find? t.client = none) := by
  obtain ⟨n, hwinds⟩ := h.windsUp
  constructor
  · by_cases hdelivers : x = .giveBack ∧ y.layer.Delivers key
    · obtain ⟨rfl, hdelivers⟩ := hdelivers
      rw [TransactionLayer.next_giveBack_of_delivers m hwinds.found TransactionPhase.noConfusion
        hdelivers]
      exact ⟨_, (hwinds.tookOff hsorted hopen hdelivers).2⟩
    · exact ⟨n, hwinds.next hsorted hopen m hspares hup hdelivers⟩
  · obtain ⟨entries, hlog, huntaken⟩ := hwinds.untaken hsorted hopen m hspares hup
    refine ⟨entries, ?_, fun j hj => ?_, fun hasked => ?_⟩
    · rw [hlog, h.log_eq, List.append_assoc]
    · exact (List.mem_append.mp hj).elim (huntaken j) (h.untaken j)
    · exact hasked.imp (List.mem_append_right _)
        (hwinds.unknown hsorted hopen m hspares hup)

/-- Every step leaves a cancelled transaction as it is, apart from the items that are delivered to
it and from what the call that cancelled it still has to do. -/
theorem Aftermath.next {key : ℕ} {t : Transaction} {log newer : List (Entry Receiver)}
    (h : Aftermath key t log newer y) (hsorted : y.layer.Sorted) (hopen : y.layer.workshop.Open)
    (m : StorageManager σ) {s : Step σ} (hspares : s.spares t.client)
    (hup : s ≠ .deed (.elsewhere .stop)) : ∃ newer', Aftermath key t log newer' (y.next m s) := by
  obtain ⟨asks, told, hcalls, hreports, hasked⟩ := h.call
  cases s with
  | deed x =>
    obtain ⟨hwinds, entries, hlog, huntaken, hstays⟩ :=
      h.deed hsorted hopen m hspares fun heq => hup (congrArg Step.deed heq)
    refine ⟨entries ++ newer, hwinds, hlog, huntaken, asks, told, ?_, hreports,
      hasked.imp_right fun hasked => ⟨hasked.1, hstays hasked.2⟩⟩
    have hnew : (y.layer.closings m x).filter (·.key = key) = [] := by
      refine List.filter_eq_nil_iff.mpr fun c hc => ?_
      have hends := ends_of_mem_closings hc
      obtain ⟨n, hw⟩ := h.windsUp
      have hne : c.key ≠ key := by
        rintro rfl
        exact hends.before ⟨_, hw.found, hw.ended⟩
      simpa using hne
    change (y.closings ++ y.layer.closings m x).filter _ = _
    rw [List.filter_append, hnew, List.append_nil]
    exact hcalls
  | ask n =>
    simp only [ReportingLayer.next]
    split
    · rename_i key' r c told' calm hcall
      obtain ⟨hwinds, entries, hlog, huntaken, hstays⟩ :=
        h.deed hsorted hopen m (x := .elsewhere (.cancel c)) rfl (by rintro ⟨⟩)
      refine ⟨entries ++ newer, hwinds, hlog, huntaken, ?_⟩
      by_cases hkey : key' = key
      · subst hkey
        obtain ⟨honly, hset⟩ := callsOf_set hcall (d := ⟨key', r, none, told'⟩) rfl hcalls
        cases honly
        cases hasked.resolve_right fun hnone => by cases hnone.1
        refine ⟨none, told, hset, hreports, Or.inr ⟨rfl, ?_⟩⟩
        -- The call is refused only if the client has no account.
        cases hfind : y.layer.workshop.pool.clients.find? t.client with
        | none => exact hstays (Or.inr hfind)
        | some a =>
          have hlogged : (y.layer.next m (.elsewhere (.cancel t.client))).workshop.log =
              .cancelled t.client :: y.layer.workshop.log := by
            have hrunning : y.layer.workshop.pool.checkRunning = .ok () := by
              unfold Pool.checkRunning
              rw [hopen.running hfind]
            simp only [TransactionLayer.next, TransactionLayer.act, Workshop.next, calm, hfind,
              Pool.cancel, hrunning]
          rw [hlog, List.append_assoc, h.log_eq, ← List.append_assoc] at hlogged
          have hentries : entries ++ newer = .cancelled t.client :: newer :=
            List.append_cancel_right (hlogged.trans (List.cons_append ..).symm)
          left
          rw [hentries]
          exact List.mem_cons_self
      · refine ⟨asks, told, ?_, hreports,
          hasked.imp_right fun hasked => ⟨hasked.1, hstays hasked.2⟩⟩
        exact (callsOf_set_of_ne hcall (d := ⟨key', r, none, told'⟩) rfl hkey).trans hcalls
    · exact ⟨newer, h⟩
  | tell n =>
    simp only [ReportingLayer.next]
    split
    · rename_i key' r hcall
      refine ⟨newer, h.windsUp, h.log_eq, h.untaken, ?_⟩
      by_cases hkey : key' = key
      · subst hkey
        obtain ⟨honly, hset⟩ := callsOf_set hcall (d := ⟨key', r, none, true⟩) rfl hcalls
        cases honly
        refine ⟨none, true, hset, ?_, hasked⟩
        have hnone : y.reports key' = [] := hreports
        change (y.told ++ [(key', _)]).filterMap _ = _
        rw [List.filterMap_append, show y.told.filterMap _ = [] from hnone]
        simp
      · have hsame := callsOf_set_of_ne hcall (d := ⟨key', r, none, true⟩) rfl hkey
        refine ⟨asks, told, hsame.trans hcalls, ?_, hasked⟩
        rw [← hreports]
        have hnew : (r.toList.map (key', ·)).filterMap
            (fun x => if x.1 = key then some x.2 else none) = ([] : List Report) := by
          refine List.filterMap_eq_nil_iff.mpr fun x hx => ?_
          obtain ⟨r', -, rfl⟩ := List.mem_map.mp hx
          exact if_neg hkey
        change (y.told ++ r.toList.map (key', ·)).filterMap _ = _
        rw [List.filterMap_append, hnew, List.append_nil]
        rfl
    · exact ⟨newer, h⟩

/-- What a reporting layer keeps to at any time after a transaction was cancelled: `t` is the
transaction as it was cancelled and `t'` the transaction now, and `log` is the log of the workshop
at that time. -/
structure Final (m : StorageManager σ) (key : ℕ) (t t' : Transaction)
    (log : List (Entry Receiver)) (y : ReportingLayer σ) : Prop where
  /-- The transaction is over, with the outcome and the counters that it was cancelled with. -/
  ended_eq : t' = { (t.conclude .cancelled).1 with outstanding := t'.outstanding }
  /-- There is one report of it at most, by the call that cancelled it. -/
  reported : ∃ asks told, y.callsOf key = [⟨key, some ⟨.cancelled, t.summary⟩, asks, told⟩] ∧
    y.reports key = if told then [⟨.cancelled, t.summary⟩] else []
  /-- No item of it was taken on since. -/
  untaken : ∃ newer, y.layer.workshop.log = newer ++ log ∧
    ∀ j, .taken j ∈ newer → j.client ≠ t.client
  /-- It waits for the items that the pool holds of it, apart from one that has been delivered to it
  and is yet to be struck off. -/
  waits : t'.outstanding + TransactionLayer.owed y.layer.returned y.layer.workshop t.client =
    (y.layer.workshop.jobsOf t.client).card
  /-- An item that is delivered is taken off what is outstanding. Nothing else is done: the pool and
  the file tree are as before. -/
  delivered : y.layer.Delivers key →
    0 < t'.outstanding ∧ y.layer.next m .giveBack = y.layer.tookOff key t'
  /-- Nothing else changes the transaction. -/
  others : ∀ s : Step σ, s.spares t.client → s ≠ .deed (.elsewhere .stop) →
    ¬ (s = .deed .giveBack ∧ y.layer.Delivers key) →
      (y.next m s).layer.transactions[key]? = some t'
  /-- Once the call that cancelled it has asked the pool, no item of it is still to be dispatched,
  and the items that the workers have are followed by the signal to cancel them, or the signal is
  just being sent. -/
  pursued : (∀ c ∈ y.callsOf key, c.asks = none) →
    (∀ j, .dispatch j ∈ y.layer.workshop.errands → j.client ≠ t.client) ∧
      ∀ (k : ℕ) (w : Worker), y.layer.workshop.pool.crew[k]? = some w → ∀ j mail, w.Owes j mail →
        j.client = t.client → ∃ tag, j.item.tag = some tag ∧
          (.signal (.cancel tag) ∈ mail ∨ .post k (.cancel tag) ∈ y.layer.workshop.errands)
  /-- Steps that nothing interrupts are the calls that they make up, that of cancelling among them.
  -/
  uninterrupted : y.Uninterrupted m

/-- Jobs of a client that had its items cancelled were asked to be cancelled, if none of them was
taken on since. -/
theorem asked_of_untaken {newer log : List (Entry Receiver)} {c : ClientId}
    (hasked : .cancelled c ∈ newer) (huntaken : ∀ j, .taken j ∈ newer → j.client ≠ c) {j : Job}
    (hclient : j.client = c) : Log.Asked (newer ++ log) j := by
  have hnone : ∀ e ∈ newer, e.takes j = false := by
    intro e he
    cases e with
    | taken j' =>
      refine decide_eq_false fun hmanifest => huntaken j' he ?_
      exact (Job.mk.inj hmanifest).1.trans hclient
    | opened c r | cancelled c | detached c | finished j | handed j r | struck j | stray j => rfl
  unfold Log.Asked
  rw [Log.since_append hnone, hclient]
  exact List.mem_append_left _ hasked

/-- What there is after a transaction was cancelled is final. -/
theorem Aftermath.final {key : ℕ} {t : Transaction} {log newer : List (Entry Receiver)}
    (h : Aftermath key t log newer y) (hsorted : y.layer.Sorted) (hopen : y.layer.workshop.Open)
    (hpursued : y.layer.workshop.Pursued) (m : StorageManager σ) :
    ∃ t', y.layer.transactions[key]? = some t' ∧ Final m key t t' log y := by
  obtain ⟨n, hwinds⟩ := h.windsUp
  obtain ⟨asks, told, hcalls, hreports, hasked⟩ := h.call
  refine ⟨_, hwinds.found, rfl, ⟨asks, told, hcalls, hreports⟩, ⟨newer, h.log_eq, h.untaken⟩,
    ?_, ?_, ?_, ?_, uninterrupted m y⟩
  · exact (hwinds.awaits.card_eq hopen.booked.balanced).symm
  · intro hdelivers
    exact ⟨(hwinds.tookOff hsorted hopen hdelivers).1,
      TransactionLayer.next_giveBack_of_delivers m hwinds.found TransactionPhase.noConfusion
        hdelivers⟩
  · intro s hspares hup hother
    rcases layer_next m y s with hsame | ⟨x, hnext, hx⟩
    · rw [hsame]
      exact hwinds.found
    · rw [hnext]
      refine (hwinds.next hsorted hopen m ?_ ?_ ?_).found
      · rcases hx with rfl | ⟨c, rfl⟩
        · exact hspares
        · rfl
      · rcases hx with rfl | ⟨c, rfl⟩
        · exact fun heq => hup (congrArg Step.deed heq)
        · rintro ⟨⟩
      · rintro ⟨rfl, hdelivers⟩
        rcases hx with rfl | ⟨c, heq⟩
        · exact hother ⟨rfl, hdelivers⟩
        · cases heq
  · intro hdone
    have hnone : asks = none := hdone ⟨_, _, asks, told⟩ (hcalls ▸ List.mem_singleton.mpr rfl)
    obtain ⟨-, hasked⟩ := hasked.resolve_left fun heq => by
      rw [hnone] at heq
      cases heq
    -- Either the pool was asked, or the client had nothing left with it.
    have hjob {j : Job} (hflight : j.manifest ∈ y.layer.workshop.inFlight)
        (hclient : j.client = t.client) : Log.Asked y.layer.workshop.log j := by
      rcases hasked with hasked | unknown
      · rw [h.log_eq]
        exact asked_of_untaken hasked h.untaken hclient
      · exact absurd hclient (hopen.booked.balanced.client_ne (j := j.manifest) unknown hflight)
    constructor
    · intro j hj hclient
      refine hpursued.unasked j hj (hjob ?_ hclient)
      unfold Workshop.inFlight
      rw [Multiset.mem_add, Multiset.mem_add, Multiset.mem_add]
      refine Or.inl (Or.inl (Or.inl (Multiset.mem_coe.mpr (List.mem_map_of_mem ?_))))
      exact List.mem_filterMap.mpr ⟨_, hj, rfl⟩
    · intro k w hw j mail howes hclient
      have hflight := Workshop.mem_inFlight_of_line (List.mem_of_getElem? hw) howes.mem_line
      obtain ⟨-, tag, -, htag, -⟩ := hopen.booked.balanced.held hflight
      exact ⟨tag, htag, hpursued.pursued k w hw j mail howes (hjob hflight hclient) tag htag⟩

/-- Nobody but the transaction uses its client, and the pool is not shut down. -/
structure Undisturbed (c : ClientId) (steps : List (Step σ)) : Prop where
  spares : ∀ s ∈ steps, s.spares c
  up : .deed (.elsewhere .stop) ∉ steps

/-- Fewer steps disturb less. -/
theorem Undisturbed.mono {c : ClientId} {steps steps' : List (Step σ)} (h : Undisturbed c steps)
    (hsub : ∀ s ∈ steps', s ∈ steps) : Undisturbed c steps' :=
  ⟨fun s hs => h.spares s (hsub s hs), fun hmem => h.up (hsub _ hmem)⟩

/-- Cancelling a transaction disturbs nothing. -/
theorem Undisturbed.conclude {c : ClientId} {before later : List (Step σ)}
    (h : Undisturbed c (before ++ later)) (key : ℕ) :
    Undisturbed c (before ++ [.deed (.conclude key)] ++ later) := by
  have hmem {s : Step σ} (hs : s ∈ before ++ [.deed (.conclude key)] ++ later) :
      s ∈ before ++ later ∨ s = .deed (.conclude key) := by
    simp only [List.mem_append, List.mem_singleton] at hs ⊢
    tauto
  constructor
  · intro s hs
    rcases hmem hs with hold | rfl
    · exact h.spares s hold
    · rfl
  · intro hstop
    rcases hmem hstop with hold | heq
    · exact h.up hold
    · cases heq

/-- What holds at every reporting layer after a run that was not disturbed. -/
structure Sane (c : ClientId) (y : ReportingLayer σ) : Prop where
  sorted : y.layer.Sorted
  isOpen : y.layer.workshop.Open
  pursued : y.layer.workshop.Pursued
  minded : ∀ key, y.layer.owners[key]? = some c → y.layer.Minded key

/-- A run that is not disturbed keeps everything sane. -/
theorem sane_after (m : StorageManager σ) (settings : Settings) (loop : EventLoop)
    (ground : Surroundings σ) {c : ClientId} {steps : List (Step σ)}
    (h : Undisturbed c steps) : Sane c (after m settings loop ground steps) := by
  obtain ⟨deeds, hlayer, hdeeds⟩ := layer_after m settings loop ground steps
  have hopen := TransactionLayer.open_after m settings loop ground deeds fun hstop => by
    rcases hdeeds _ hstop with hstep | ⟨c, heq⟩
    · exact h.up hstep
    · cases heq
  refine ⟨?_, ?_, ?_, ?_⟩
  · rw [hlayer]
    exact TransactionLayer.sorted_after m settings loop ground deeds
  · rw [hlayer]
    exact hopen.1
  · rw [hlayer]
    exact hopen.2
  · rw [hlayer]
    intro key howner
    refine TransactionLayer.minded_after m settings loop ground deeds howner fun x hx => ?_
    rcases hdeeds x hx with hstep | ⟨c', rfl⟩
    · exact h.spares _ hstep
    · rfl

/-- Cancelling a transaction that executes is the beginning of its aftermath. -/
theorem Sane.aftermath {key : ℕ} {t : Transaction} (h : Sane t.client y)
    (hregistered : y.Registered) (m : StorageManager σ)
    (found : y.layer.transactions[key]? = some t) (executing : t.phase = .executing) :
    Aftermath key t y.layer.workshop.log [] (y.next m (.deed (.conclude key))) := by
  have hphase : t.phase ≠ .reported := by
    rw [executing]
    exact TransactionPhase.noConfusion
  obtain ⟨hcalls, hreports⟩ := hregistered.silent found hphase
  have hreporter := hregistered.reporter key t found hphase
  have hminds := h.minded key (TransactionLayer.getElem?_owners found) t found executing
  refine ⟨⟨t.outstanding, hminds.windsUp (m := m) h.isOpen found executing⟩, ?_,
    fun j hj => absurd hj List.not_mem_nil, some t.client, false, ?_, hreports, Or.inl rfl⟩
  · change (y.layer.next m (.conclude key)).workshop.log = _
    simp only [TransactionLayer.next, found, executing, if_true]
    rfl
  · change (y.closings ++ y.layer.closings m (.conclude key)).filter _ = _
    rw [List.filter_append, show y.closings.filter (·.key = key) = [] from hcalls]
    simp only [TransactionLayer.closings, found, executing, if_true, Transaction.conclude,
      hreporter]
    simp

/-- Whatever comes later belongs to the aftermath. -/
theorem aftermath_after (m : StorageManager σ) (settings : Settings) (loop : EventLoop)
    (ground : Surroundings σ) (before later : List (Step σ)) {key : ℕ} {t : Transaction}
    (found : (after m settings loop ground before).layer.transactions[key]? = some t)
    (executing : t.phase = .executing) (hsteps : Undisturbed t.client (before ++ later)) :
    ∃ newer, Aftermath key t (after m settings loop ground before).layer.workshop.log newer
      (after m settings loop ground (before ++ [.deed (.conclude key)] ++ later)) := by
  have hconcat (steps : List (Step σ)) (s : Step σ) : after m settings loop ground (steps ++ [s]) =
      (after m settings loop ground steps).next m s := List.foldl_concat _ _ _ _
  induction later using List.reverseRecOn with
  | nil =>
    have hsane := sane_after m settings loop ground
      (hsteps.mono fun s hs => List.mem_append_left _ hs)
    rw [List.append_nil, hconcat]
    exact ⟨[], hsane.aftermath (registered_after m settings loop ground before) m found executing⟩
  | append_singleton later s ih =>
    rw [← List.append_assoc] at hsteps
    have hearlier := hsteps.mono fun s' hs' => List.mem_append_left [s] hs'
    have hlast : s ∈ before ++ later ++ [s] :=
      List.mem_append_right _ (List.mem_singleton.mpr rfl)
    have hsane := sane_after m settings loop ground (hearlier.conclude key)
    obtain ⟨newer, haftermath⟩ := ih hearlier
    rw [← List.append_assoc, hconcat]
    exact haftermath.next hsane.sorted hsane.isOpen m (hsteps.spares s hlast)
      fun heq => hsteps.up (heq ▸ hlast)

/-- In every run in which nobody else uses the client of a transaction and the pool is not shut
down: cancelling the transaction while it executes is final, whatever is done between the steps of
the call and afterwards. -/
theorem final_after (m : StorageManager σ) (settings : Settings) (loop : EventLoop)
    (ground : Surroundings σ) (before later : List (Step σ)) {key : ℕ} {t : Transaction}
    (found : (after m settings loop ground before).layer.transactions[key]? = some t)
    (executing : t.phase = .executing) (hsteps : Undisturbed t.client (before ++ later)) :
    ∃ t', (after m settings loop ground
        (before ++ [.deed (.conclude key)] ++ later)).layer.transactions[key]? = some t' ∧
      Final m key t t' (after m settings loop ground before).layer.workshop.log
        (after m settings loop ground (before ++ [.deed (.conclude key)] ++ later)) := by
  obtain ⟨newer, haftermath⟩ :=
    aftermath_after m settings loop ground before later found executing hsteps
  have hsane := sane_after m settings loop ground (hsteps.conclude key)
  exact haftermath.final hsane.sorted hsane.isOpen hsane.pursued m

/-- A transaction with two items is executed, and a worker begins with the first. -/
def executedRun : List (Step Shelf) :=
  let item := Item.fresh (.buffer ⟨#[120]⟩) (.inl ⟨"/to"⟩)
  [.deed (.elsewhere (.start ⟨1, 0⟩ .nobody)), .deed .openTransaction,
    .deed (.add 0 [item, item]), .deed (.execute 0), .deed (.elsewhere .run),
    .deed (.elsewhere .run), .deed (.elsewhere (.work 0))]

/-- The first item is finished and comes back before the pool is asked to cancel the second, and the
report is told last. -/
def closingRun : List (Step Shelf) :=
  List.replicate 9 (.deed (.elsewhere (.work 0))) ++
    [.deed (.elsewhere .fetch), .deed (.elsewhere .address), .deed .giveBack, .ask 0,
      .deed (.elsewhere .strike), .deed (.elsewhere .run), .deed (.elsewhere .run), .tell 0]

/-- The transaction of these runs when it is cancelled. -/
def executedTransaction : Transaction :=
  ⟨⟨1⟩, .executing, [], 2, ⟨2, 0, 0, 0, 0⟩, none, true⟩

/-- The reporting layer after such a run. -/
def shelfReporting (steps : List (Step Shelf)) : ReportingLayer Shelf :=
  after Shelf.manager Settings.defaults ⟨false, false, []⟩ ⟨.blank, .ofMedia [] none false⟩ steps

/-- The transaction stays cancelled though one of its items was done. -/
theorem final_after_closingRun :
    (shelfReporting executedRun).layer.transactions[0]? = some executedTransaction ∧
      executedTransaction.phase = .executing ∧
      Undisturbed executedTransaction.client (executedRun ++ closingRun) ∧
      (∃ t',
        (shelfReporting (executedRun ++ [.deed (.conclude 0)] ++ closingRun)).layer.transactions[0]?
          = some t' ∧
        Final Shelf.manager 0 executedTransaction t' (shelfReporting executedRun).layer.workshop.log
          (shelfReporting (executedRun ++ [.deed (.conclude 0)] ++ closingRun))) ∧
      (shelfReporting (executedRun ++ [.deed (.conclude 0)] ++ closingRun)).told =
        [(0, ⟨.cancelled, ⟨2, 0, 0, 0, 0⟩⟩)] := by
  have hfound : (shelfReporting executedRun).layer.transactions[0]? = some executedTransaction := by
    decide +kernel
  have hsteps : Undisturbed executedTransaction.client (executedRun ++ closingRun) :=
    ⟨by decide, by simp [executedRun, closingRun]⟩
  exact ⟨hfound, rfl, hsteps, final_after _ _ _ _ executedRun closingRun hfound rfl hsteps,
    by decide +kernel⟩

end ReportingLayer

end Haulage
