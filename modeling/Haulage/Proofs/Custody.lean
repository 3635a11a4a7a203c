import Haulage.Proofs.TransactionLayer
import Haulage.Storage.Shelf

/-!
# Transactions and what the pool holds for them

As long as the pool was not shut down, a transaction that was executed and has not reported has
items with the pool: what the transaction counts as outstanding and what the account of its client
does are the same number, apart from an item that the transaction has taken notice of and the loop
has not yet struck off (`TransactionLayer.Holds`).

Shutting the pool down drops whatever is left. A transaction that has not reported by then never
does of itself; only cancelling it ends it. `TransactionLayer.inCustody_after` says both.
-/

namespace Haulage

namespace TransactionLayer

open Workshop (Ordered)

variable {σ : Type} {m : StorageManager σ}

/-! ## Transactions and their clients -/

/-- The clients of the transactions. -/
def owners (d : TransactionLayer σ) : List ClientId := d.transactions.map (·.client)

/-- A workshop fits the clients of the transactions: their numbers were given out, and the items of
a client go to the transaction of this client only. -/
structure Filed (owners : List ClientId) (y : Workshop Receiver σ) : Prop where
  ordered : y.Ordered
  fresh : ∀ c ∈ owners, c.number < y.pool.nextClient
  receiver : ∀ c a key, y.pool.clients.find? c = some a →
    a.receiver = some (.transaction key) → owners[key]? = some c
  addressee : ∀ j key, y.delivery = some ⟨j, some (some (.transaction key))⟩ →
    owners[key]? = some j.client

/-- Every act keeps it so, if items are submitted for a transaction only by its client. -/
theorem Filed.next {owners : List ClientId} {y : Workshop Receiver σ} (h : Filed owners y)
    (m : StorageManager σ) (a : Act Receiver σ)
    (hown : ∀ c key items, a = .submit c (.transaction key) items → owners[key]? = some c) :
    Filed owners (y.next m a) := by
  have heffect := Workshop.effect_next m y a
  refine ⟨h.ordered.next m a, ?_, ?_, ?_⟩
  · intro c hc
    exact Nat.lt_of_lt_of_le (h.fresh c hc) (Workshop.nextClient_le m y a)
  · intro c account key hfind hreceiver
    rcases h.ordered with hbooked | hvacant
    · rcases heffect.receiver hbooked.balanced hfind hreceiver with
        ⟨account', hfind', hreceiver'⟩ | ⟨items, ha⟩
      · exact h.receiver c account' key hfind' hreceiver'
      · exact hown c key items ha
    · rw [(hvacant.effect heffect).find?_eq] at hfind
      cases hfind
  · intro j key hdelivery
    rcases heffect.addressed hdelivery with hbefore | ⟨-, -, account, hfind, hreceiver⟩
    · exact h.addressee j key hbefore
    · exact h.receiver j.client account key hfind hreceiver

/-- One more transaction changes nothing for the others. -/
theorem Filed.concat {owners : List ClientId} {y : Workshop Receiver σ} (h : Filed owners y)
    {c : ClientId} (hc : c.number < y.pool.nextClient) : Filed (owners ++ [c]) y := by
  have hmore {key : ℕ} {c' : ClientId} (hkey : owners[key]? = some c') :
      (owners ++ [c])[key]? = some c' := by
    rw [List.getElem?_append_left (List.getElem?_eq_some_iff.mp hkey).1]
    exact hkey
  refine ⟨h.ordered, ?_, ?_, ?_⟩
  · intro c' hc'
    rcases List.mem_append.mp hc' with hold | hnew
    · exact h.fresh c' hold
    · rw [List.mem_singleton.mp hnew]
      exact hc
  · intro c' account key hfind hreceiver
    exact hmore (h.receiver c' account key hfind hreceiver)
  · intro j key hdelivery
    exact hmore (h.addressee j key hdelivery)

/-- The transactions of a layer are told apart by their clients, and deliveries find them. -/
structure Sorted (d : TransactionLayer σ) : Prop where
  filed : Filed d.owners d.workshop
  nodup : d.owners.Nodup
  /-- A transaction takes notice of an item only while it is delivered to it. -/
  returned : d.returned = true →
    ∃ j key, d.workshop.delivery = some ⟨j, some (some (.transaction key))⟩
  /-- A transaction that reported has an outcome. -/
  concluded : ∀ t ∈ d.transactions, t.phase = .reported → t.outcome ≠ none

/-- Replacing a transaction by one of the same client leaves the clients as they are. -/
theorem map_client_set {transactions : List Transaction} {key : ℕ} {t t' : Transaction}
    (found : transactions[key]? = some t) (hclient : t'.client = t.client) :
    (transactions.set key t').map (·.client) = transactions.map (·.client) := by
  rw [List.map_set, hclient]
  refine List.ext_getElem? fun k => ?_
  by_cases hk : key = k
  · subst hk
    rw [List.getElem?_set_self (by
      rw [List.length_map]
      exact (List.getElem?_eq_some_iff.mp found).1), List.getElem?_map, found]
    rfl
  · rw [List.getElem?_set_ne hk]

/-- The clients of two transactions differ. -/
theorem Sorted.eq_of_client {d : TransactionLayer σ} (h : d.Sorted) {key key' : ℕ} {c : ClientId}
    (hkey : d.owners[key]? = some c) (hkey' : d.owners[key']? = some c) : key = key' := by
  obtain ⟨hlt, hget⟩ := List.getElem?_eq_some_iff.mp hkey
  obtain ⟨hlt', hget'⟩ := List.getElem?_eq_some_iff.mp hkey'
  exact (List.Nodup.getElem_inj_iff h.nodup).mp (hget.trans hget'.symm)

/-- The client of a transaction that is found. -/
theorem getElem?_owners {d : TransactionLayer σ} {key : ℕ} {t : Transaction}
    (found : d.transactions[key]? = some t) : d.owners[key]? = some t.client := by
  unfold owners
  rw [List.getElem?_map, found]
  rfl

/-- The client of a transaction stays the same through everything that is kept in its books. -/
@[simp] theorem client_arrive (t : Transaction) (a : Arrival) :
    (t.arrive a).1.client = t.client := by
  unfold Transaction.arrive Transaction.concludeIfSettled
  split <;> cases a <;> rfl

/-- A transaction that an item came back to goes on while something is outstanding, and has an
outcome otherwise. -/
theorem arrive_cases (t : Transaction) (a : Arrival) :
    ((t.arrive a).1 = t.count a ∧ 0 < (t.count a).outstanding) ∨
      ((t.arrive a).1.phase = .reported ∧ (t.arrive a).1.outcome ≠ none) := by
  unfold Transaction.arrive Transaction.concludeIfSettled
  split
  · rename_i hmore
    exact Or.inl ⟨rfl, hmore⟩
  · refine Or.inr ⟨rfl, ?_⟩
    intro hnone
    cases hnone

/-- Deeds leave the clients of the transactions as they are, and add new ones at the end. -/
theorem Effect.owners {d d' : TransactionLayer σ} {x : Deed σ} (h : Effect m d x d') :
    d'.owners = d.owners ∨
      x = .openTransaction ∧ d'.owners = d.owners ++ [⟨d.workshop.pool.nextClient⟩] := by
  have hset {key : ℕ} {t t' : Transaction}
      (htransactions : d'.transactions = d.transactions.set key t')
      (found : d.transactions[key]? = some t) (hclient : t'.client = t.client) :
      d'.owners = d.owners := by
    unfold TransactionLayer.owners
    rw [htransactions]
    exact map_client_set found hclient
  cases h with
  | nothing x => exact Or.inl rfl
  | opened =>
    refine Or.inr ⟨rfl, ?_⟩
    unfold TransactionLayer.owners
    rw [List.map_append]
    rfl
  | added found building => exact Or.inl (hset rfl found rfl)
  | begun found building calm items_ne submit => exact Or.inl (hset rfl found rfl)
  | failed found building same =>
    refine Or.inl (hset (transactions_book _ _ _) found ?_)
    rcases same with rfl | rfl <;> rfl
  | cancelled found executing => exact Or.inl (hset (transactions_book _ _ _) found rfl)
  | late found phase fresh delivery => exact Or.inl (hset rfl found rfl)
  | counted found executing fresh delivery arrival not_back =>
    exact Or.inl (hset (transactions_book _ _ _) found (client_arrive _ _))
  | putBack found executing fresh delivery calm arrival add =>
    exact Or.inl (hset (transactions_book _ _ _) found (client_arrive _ _))
  | elsewhere own not_strike => exact Or.inl rfl
  | struck ready => exact Or.inl rfl

/-- The workshop of a layer makes one act after the other, and stays in order. -/
theorem Sorted.filed_effect {d d' : TransactionLayer σ} {x : Deed σ} (h : d.Sorted)
    (heffect : Effect m d x d') : Filed d'.owners d'.workshop := by
  have hother (a : Act Receiver σ) (ha : ∀ c r items, a ≠ .submit c r items) :
      Filed d.owners (d.workshop.next m a) :=
    h.filed.next m a fun c key items heq => absurd heq (ha c _ items)
  rcases heffect.owners with howners | ⟨rfl, howners⟩
  · rw [howners]
    cases heffect with
    | nothing x => exact h.filed
    | opened => exact hother .newClient (by rintro c r items ⟨⟩)
    | @added key items t g kept found building => exact hother (.change g) (by rintro c r items ⟨⟩)
    | @begun key t p found building calm items_ne submit =>
      refine h.filed.next m (.submit t.client (.transaction key) t.items) fun c key' items heq => ?_
      cases heq
      exact getElem?_owners found
    | failed found building same => exact h.filed
    | cancelled found executing => exact h.filed
    | late found phase fresh delivery => exact h.filed
    | @counted key t j g a found executing fresh delivery arrival not_back =>
      exact hother (.change g) (by rintro c r items ⟨⟩)
    | @putBack key t j g i p found executing fresh delivery calm arrival add =>
      exact (hother (.change g) (by rintro c r items ⟨⟩)).next m (.addItem j.client i)
        (by rintro c key items ⟨⟩)
    | @elsewhere a own not_strike =>
      exact h.filed.next m a fun c key items heq => absurd heq (own c key items)
    | struck ready => exact hother .strike (by rintro c r items ⟨⟩)
  · rw [howners]
    cases heffect with
    | nothing x => exact absurd (congrArg List.length howners) (by simp)
    | opened =>
      exact (hother .newClient (by rintro c r items ⟨⟩)).concat (Nat.lt_succ_self _)

/-- Deeds keep a layer sorted. -/
theorem Sorted.effect {d d' : TransactionLayer σ} {x : Deed σ} (h : d.Sorted)
    (heffect : Effect m d x d') : d'.Sorted := by
  have hset {key : ℕ} {t' : Transaction} (ht' : t'.phase = .reported → t'.outcome ≠ none)
      {t : Transaction} (ht : t ∈ d.transactions.set key t') (hreported : t.phase = .reported) :
      t.outcome ≠ none := by
    rcases List.mem_or_eq_of_mem_set ht with hold | rfl
    · exact h.concluded t hold hreported
    · exact ht' hreported
  have hbook {key : ℕ} {x : Transaction × Option Report}
      (hx : x.1.phase = .reported → x.1.outcome ≠ none) {t : Transaction}
      (ht : t ∈ (d.site.book key x).transactions) (hreported : t.phase = .reported) :
      t.outcome ≠ none := by
    rw [transactions_book] at ht
    exact hset hx ht hreported
  have hstay (a : Act Receiver σ) (ha : a ≠ .strike) (hreturned : d.returned = true) :
      ∃ j key, (d.workshop.next m a).delivery = some ⟨j, some (some (.transaction key))⟩ := by
    obtain ⟨j, key, hdelivery⟩ := h.returned hreturned
    exact ⟨j, key, (Workshop.effect_next m d.workshop a).delivery_eq ha hdelivery⟩
  have hfiled := h.filed_effect heffect
  have hnodup : d'.owners.Nodup := by
    rcases heffect.owners with howners | ⟨-, howners⟩
    · rw [howners]
      exact h.nodup
    · rw [howners]
      rw [← List.concat_eq_append]
      refine List.Nodup.concat (fun hmem => ?_) h.nodup
      exact Nat.lt_irrefl _ (h.filed.fresh _ hmem)
  refine ⟨hfiled, hnodup, ?_, ?_⟩
  · cases heffect with
    | nothing x => exact h.returned
    | opened => exact hstay _ (by rintro ⟨⟩)
    | added found building => exact hstay _ (by rintro ⟨⟩)
    | begun found building calm items_ne submit => exact hstay _ (by rintro ⟨⟩)
    | failed found building same => exact h.returned
    | cancelled found executing => exact h.returned
    | late found phase fresh delivery => exact fun _ => ⟨_, _, delivery⟩
    | counted found executing fresh delivery arrival not_back => exact fun _ => ⟨_, _, delivery⟩
    | putBack found executing fresh delivery calm arrival add =>
      exact fun _ => ⟨_, _, (Workshop.effect_next m _ _).delivery_eq (by rintro ⟨⟩)
        ((Workshop.effect_next m _ _).delivery_eq (by rintro ⟨⟩) delivery)⟩
    | elsewhere own not_strike => exact hstay _ not_strike
    | struck ready => exact fun hreturned => Bool.noConfusion hreturned
  · cases heffect with
    | nothing x => exact h.concluded
    | opened =>
      intro t ht hreported
      rcases List.mem_append.mp ht with hold | hnew
      · exact h.concluded t hold hreported
      · rw [List.mem_singleton.mp hnew] at hreported
        cases hreported
    | added found building =>
      refine fun t ht => hset (fun hreported => ?_) ht
      rw [show _ = TransactionPhase.building from building] at hreported
      cases hreported
    | begun found building calm items_ne submit =>
      exact fun t ht => hset (fun hreported => by cases hreported) ht
    | failed found building same =>
      exact fun t ht => hbook (fun _ hnone => by cases hnone) ht
    | cancelled found executing => exact fun t ht => hbook (fun _ hnone => by cases hnone) ht
    | @late key t j found phase fresh delivery =>
      refine fun t' ht' => hset ?_ ht'
      exact h.concluded t (List.mem_of_getElem? found)
    | @counted key t j g a found executing fresh delivery arrival not_back =>
      refine fun t' ht' => hbook (fun hreported => ?_) ht'
      rcases arrive_cases t a with ⟨heq, -⟩ | ⟨-, houtcome⟩
      · rw [heq] at hreported
        have hphase : (t.count a).phase = t.phase := by cases a <;> rfl
        rw [hphase, executing] at hreported
        cases hreported
      · exact houtcome
    | @putBack key t j g i p found executing fresh delivery calm arrival add =>
      refine fun t' ht' => hbook (fun hreported => ?_) ht'
      rcases arrive_cases t .putBack with ⟨heq, -⟩ | ⟨-, houtcome⟩
      · rw [heq, show (t.count .putBack).phase = t.phase from rfl, executing] at hreported
        cases hreported
      · exact houtcome
    | elsewhere own not_strike => exact h.concluded
    | struck ready => exact h.concluded

/-- Nothing is there before anything happens. -/
theorem sorted_create (settings : Settings) (loop : EventLoop) (ground : Surroundings σ) :
    (create settings loop ground).Sorted where
  filed := {
    ordered := Or.inl (Workshop.booked_create settings loop ground)
    fresh := fun c hc => by cases hc
    receiver := fun c a key hfind => by cases hfind
    addressee := fun j key hdelivery => by cases hdelivery }
  nodup := List.nodup_nil
  returned := fun hreturned => by cases hreturned
  concluded := fun t ht => by cases ht

/-! ## What the pool holds -/

/-- How many items of a client its transaction has taken notice of that are not yet struck off. -/
def owed (returned : Bool) (y : Workshop Receiver σ) (c : ClientId) : ℕ :=
  match returned, y.delivery with
  | true, some x => if x.job.client = c then 1 else 0
  | _, _ => 0

/-- The pool holds so many items of the client of a transaction, and delivers them to it. -/
structure Holds (key : ℕ) (c : ClientId) (n : ℕ) (y : Workshop Receiver σ) : Prop where
  account : ∃ a, y.pool.clients.find? c = some a ∧ a.receiver = some (.transaction key) ∧
    a.outstanding = n
  addressee : ∀ j r, y.delivery = some ⟨j, some r⟩ → j.client = c → r = some (.transaction key)

/-- A transaction that executes waits for something, and as long as the pool was not dismissed the
pool holds what it waits for. -/
structure Minds (d : TransactionLayer σ) (key : ℕ) (t : Transaction) : Prop where
  outstanding_pos : 0 < t.outstanding
  held : d.workshop.Vacant ∨
    Holds key t.client (t.outstanding + owed d.returned d.workshop t.client) d.workshop

/-- Nothing is owed before a transaction has taken notice. -/
theorem owed_false (y : Workshop Receiver σ) (c : ClientId) : owed false y c = 0 := rfl

/-- The item that a transaction has taken notice of is owed by its client only. -/
theorem owed_true {y : Workshop Receiver σ} {j : Job} {r : Option (Option Receiver)}
    (delivery : y.delivery = some ⟨j, r⟩) (c : ClientId) :
    owed true y c = if j.client = c then 1 else 0 := by
  unfold owed
  rw [delivery]

/-- What is owed stays so until it is struck off. -/
theorem Sorted.owed_next {d : TransactionLayer σ} (h : d.Sorted) (m : StorageManager σ)
    {a : Act Receiver σ} (ha : a ≠ .strike) (c : ClientId) :
    owed d.returned (d.workshop.next m a) c = owed d.returned d.workshop c := by
  cases hreturned : d.returned with
  | false => rfl
  | true =>
    obtain ⟨j, key, hdelivery⟩ := h.returned hreturned
    rw [owed_true hdelivery,
      owed_true ((Workshop.effect_next m d.workshop a).delivery_eq ha hdelivery)]

/-- Acts that leave the client alone leave what the pool holds of it, unless the pool is dismissed
or a job is struck off. -/
theorem Holds.next {key : ℕ} {c : ClientId} {n : ℕ} {y : Workshop Receiver σ} (h : Holds key c n y)
    (hordered : y.Ordered) (m : StorageManager σ) {a : Act Receiver σ}
    (hspares : Workshop.Act.spares c a) (ha : a ≠ .strike) :
    (y.next m a).Vacant ∨ Holds key c n (y.next m a) := by
  have heffect := Workshop.effect_next m y a
  rcases hordered with hbooked | hvacant
  · by_cases hstays : a = .dismiss
    · subst hstays
      rcases heffect.eq_or_vacant with hsame | hvacant
      · rw [hsame]
        exact Or.inr h
      · exact Or.inl hvacant
    · right
      have hfind : (y.next m a).pool.clients.find? c = y.pool.clients.find? c := by
        rcases heffect.find?_of_spares hbooked.balanced hspares hstays with
          hsame | ⟨j, r, hstrike, -⟩
        · exact hsame
        · exact absurd hstrike ha
      constructor
      · rw [hfind]
        exact h.account
      · intro j r hdelivery hclient
        rcases heffect.addressed hdelivery with hbefore | ⟨-, -, account, hknown, hreceiver⟩
        · exact h.addressee j r hbefore hclient
        · obtain ⟨account', hfind', hreceiver', -⟩ := h.account
          rw [hclient, hfind'] at hknown
          cases hknown
          exact hreceiver.symm.trans hreceiver'
  · exact Or.inl (hvacant.effect heffect)

/-- A transaction minds acts that leave its client alone as little as the pool does. -/
theorem Minds.next {d : TransactionLayer σ} {key : ℕ} {t : Transaction} (h : d.Minds key t)
    (hsorted : d.Sorted)
    (m : StorageManager σ) {a : Act Receiver σ} (hspares : Workshop.Act.spares t.client a)
    (ha : a ≠ .strike) (transactions : List Transaction) :
    Minds { d with workshop := d.workshop.next m a, transactions := transactions } key t := by
  refine ⟨h.outstanding_pos, ?_⟩
  change _ ∨ Holds key t.client (t.outstanding + owed d.returned (d.workshop.next m a) t.client) _
  rw [hsorted.owed_next m ha]
  rcases h.held with hvacant | hholds
  · exact Or.inl (hvacant.next m a)
  · exact hholds.next hsorted.filed.ordered m hspares ha

/-- Is the deed one that leaves it to the transaction to use its client? -/
def Deed.spares (c : ClientId) : Deed σ → Bool
  | .elsewhere a => Workshop.Act.spares c a
  | _ => true

/-- Each transaction that executes minds its items. -/
def Minded (d : TransactionLayer σ) (key : ℕ) : Prop :=
  ∀ t, d.transactions[key]? = some t → t.phase = .executing → d.Minds key t

/-- A job of another client that a transaction takes notice of is none of this one's business. -/
theorem Minds.returned {d : TransactionLayer σ} {key : ℕ} {t : Transaction} (h : d.Minds key t)
    (fresh : d.returned = false) {j : Job} {r : Option (Option Receiver)}
    (delivery : d.workshop.delivery = some ⟨j, r⟩) (hne : j.client ≠ t.client)
    (transactions : List Transaction) (journal : List Notice) :
    Minds ⟨d.workshop, transactions, true, journal⟩ key t := by
  refine ⟨h.outstanding_pos, ?_⟩
  have howed : owed true d.workshop t.client = owed d.returned d.workshop t.client := by
    rw [owed_true delivery, if_neg hne, fresh, owed_false]
  change _ ∨ Holds key t.client (t.outstanding + owed true d.workshop t.client) _
  rw [howed]
  exact h.held

/-- A transaction that is found after one was replaced is the new one, or was there before. -/
theorem of_getElem?_set {transactions : List Transaction} {key key' : ℕ} {t t' : Transaction}
    (h : (transactions.set key' t')[key]? = some t) :
    key' = key ∧ t = t' ∨ key' ≠ key ∧ transactions[key]? = some t := by
  by_cases hkey : key' = key
  · subst hkey
    rw [List.getElem?_set_self'] at h
    obtain ⟨t'', -, rfl⟩ := Option.map_eq_some_iff.mp h
    exact Or.inl ⟨rfl, rfl⟩
  · rw [List.getElem?_set_ne hkey] at h
    exact Or.inr ⟨hkey, h⟩

/-- When a transaction begins, the pool takes on all of its items. -/
theorem Minds.begun {d : TransactionLayer σ} (hsorted : d.Sorted) (m : StorageManager σ) {key : ℕ}
    {t : Transaction} {p : Pool Receiver} (calm : d.workshop.errands = []) (items_ne : t.items ≠ [])
    (submit : d.workshop.pool.submit t.client (.transaction key) t.items = .ok p)
    (transactions : List Transaction) :
    Minds { d with
      workshop := d.workshop.next m (.submit t.client (.transaction key) t.items)
      transactions := transactions } key t.begin.2 := by
  refine ⟨List.length_pos_iff.mpr items_ne, ?_⟩
  obtain ⟨unknown, running, tags, clients, halloc, rfl⟩ := Pool.of_submit submit items_ne
  rcases hsorted.filed.ordered with hbooked | hvacant
  · right
    have hout := Clients.givenOut_of_allocateTags hbooked.balanced.next_ne_zero halloc
    have hnext : (d.workshop.next m (.submit t.client (.transaction key) t.items)).pool.clients =
        clients.insert t.client ⟨t.items.length, some (.transaction key), tags⟩ := by
      simp only [Workshop.next, calm, submit]
      rw [if_neg fun hempty => items_ne (List.isEmpty_iff.mp hempty)]
      exact Pool.clients_dispatchAll _ _ _
    -- The client had no account, so no item of it is being delivered.
    have hnone (j : Job) (r : Option (Option Receiver))
        (hdelivery : d.workshop.delivery = some ⟨j, r⟩) :
        j.client ≠ t.client :=
      hbooked.balanced.client_ne (j := j.manifest) unknown
        (Workshop.mem_inFlight_of_delivery hdelivery)
    have howed : owed d.returned d.workshop t.client = 0 := by
      cases hreturned : d.returned with
      | false => rfl
      | true =>
        obtain ⟨j, key', hdelivery⟩ := hsorted.returned hreturned
        rw [owed_true hdelivery, if_neg (hnone j _ hdelivery)]
    constructor
    · refine ⟨⟨t.items.length, some (.transaction key), tags⟩, ?_, rfl, ?_⟩
      · rw [hnext, show t.begin.2.client = t.client from rfl,
          Clients.find?_insert ((hout.find?_eq _).trans unknown), if_pos rfl]
      · change t.items.length = t.items.length + owed d.returned (d.workshop.next m _) t.client
        rw [hsorted.owed_next m (by rintro ⟨⟩), howed, Nat.add_zero]
    · intro j r hdelivery hclient
      rcases (Workshop.effect_next m d.workshop _).addressed hdelivery with hbefore | ⟨heq, -⟩
      · exact absurd hclient (hnone j _ hbefore)
      · cases heq
  · rw [hvacant.down] at running
    cases running

/-- An item that is added to the account of a client is one more. -/
theorem Holds.added {key : ℕ} {c : ClientId} {n : ℕ} {y : Workshop Receiver σ} (h : Holds key c n y)
    (hbooked : y.Booked) (m : StorageManager σ) (calm : y.errands = []) {i : Item}
    {p : Pool Receiver} (add : y.pool.addItem c i = .ok p) :
    Holds key c (n + 1) (y.next m (.addItem c i)) := by
  obtain ⟨-, -, tag, clients, halloc, rfl⟩ := Pool.of_addItem add
  have hout := Clients.givenOut_of_allocateTags hbooked.balanced.next_ne_zero halloc
  have hnext : (y.next m (.addItem c i)).pool.clients = clients.update c (Account.oneMore tag) := by
    simp only [Workshop.next, calm, add]
    rfl
  constructor
  · obtain ⟨a, hfind, hreceiver, hcount⟩ := h.account
    refine ⟨{ a with outstanding := a.outstanding + 1, tags := a.tags ++ [tag] }, ?_, hreceiver,
      congrArg (· + 1) hcount⟩
    rw [hnext, Clients.find?_update (hout.keyed hbooked.balanced.keyed), if_pos rfl, hout.find?_eq,
      hfind]
    rfl
  · intro j r hdelivery hclient
    rcases (Workshop.effect_next m y _).addressed hdelivery with hbefore | ⟨heq, -⟩
    · exact h.addressee j r hbefore hclient
    · cases heq

/-- A job of the client that is struck off is one less, as long as it is not the last one. -/
theorem Holds.struck {key : ℕ} {c : ClientId} {n : ℕ} {y : Workshop Receiver σ}
    (h : Holds key c (n + 1) y) (hn : 0 < n) (hbooked : y.Booked) (m : StorageManager σ) {j : Job}
    {r : Option Receiver} (delivery : y.delivery = some ⟨j, some r⟩) (hclient : j.client = c) :
    Holds key c n (y.next m .strike) := by
  have hnext : y.next m .strike =
      { y with pool := y.pool.strike j, delivery := none, log := .struck j :: y.log } := by
    simp only [Workshop.next, delivery]
  rw [hnext]
  constructor
  · obtain ⟨a, hfind, hreceiver, hcount⟩ := h.account
    obtain ⟨a', hback, hreceiver', hless⟩ :=
      Clients.handBack_of_lt (a := a) (by omega) j.item.tag
    refine ⟨a', ?_, hreceiver'.trans hreceiver, by omega⟩
    change (y.pool.clients.update j.client _).find? c = _
    rw [Clients.find?_update hbooked.balanced.keyed, if_pos hclient.symm, hclient, hfind]
    exact hback
  · intro j' r' hdelivery
    cases hdelivery

/-- A job of another client that is struck off leaves the account as it is. -/
theorem Holds.struck_other {key : ℕ} {c : ClientId} {n : ℕ} {y : Workshop Receiver σ}
    (h : Holds key c n y) (hbooked : y.Booked) (m : StorageManager σ) {j : Job}
    {r : Option Receiver} (delivery : y.delivery = some ⟨j, some r⟩) (hclient : j.client ≠ c) :
    Holds key c n (y.next m .strike) := by
  have hnext : y.next m .strike =
      { y with pool := y.pool.strike j, delivery := none, log := .struck j :: y.log } := by
    simp only [Workshop.next, delivery]
  rw [hnext]
  constructor
  · obtain ⟨a, hfind, hreceiver, hcount⟩ := h.account
    refine ⟨a, ?_, hreceiver, hcount⟩
    change (y.pool.clients.update j.client _).find? c = _
    rw [Clients.find?_update hbooked.balanced.keyed, if_neg hclient.symm, hfind]
  · intro j' r' hdelivery
    cases hdelivery

/-- An item that a transaction counts is one less to wait for, and is owed until it is struck
off. -/
theorem Minds.counted {d : TransactionLayer σ} {key : ℕ} {t t' : Transaction} (h : d.Minds key t)
    (hsorted : d.Sorted) (m : StorageManager σ) (fresh : d.returned = false) {j : Job}
    {r : Option (Option Receiver)} (delivery : d.workshop.delivery = some ⟨j, r⟩)
    (hclient : j.client = t.client) (hsame : t'.client = t.client)
    (hcount : t'.outstanding + 1 = t.outstanding) (hpos : 0 < t'.outstanding) (g : Surroundings σ)
    (transactions : List Transaction) (journal : List Notice) :
    Minds ⟨d.workshop.next m (.change g), transactions, true, journal⟩ key t' := by
  refine ⟨hpos, ?_⟩
  have howed : owed true (d.workshop.next m (.change g)) t'.client = 1 := by
    rw [owed_true (show (d.workshop.next m (.change g)).delivery = some ⟨j, r⟩ from delivery),
      if_pos (hclient.trans hsame.symm)]
  change _ ∨ Holds key t'.client (t'.outstanding + owed true _ t'.client) _
  rw [howed, hcount, hsame]
  rcases h.held with hvacant | hholds
  · exact Or.inl (hvacant.next m (.change g))
  · rw [fresh, owed_false] at hholds
    exact hholds.next hsorted.filed.ordered m (a := .change g) rfl (by rintro ⟨⟩)

/-- An item that a transaction puts back is as much to wait for as before, and is owed until it is
struck off. -/
theorem Minds.putBack {d : TransactionLayer σ} {key : ℕ} {t t' : Transaction} (h : d.Minds key t)
    (hsorted : d.Sorted) (m : StorageManager σ) (fresh : d.returned = false) {j : Job}
    {r : Option (Option Receiver)} (delivery : d.workshop.delivery = some ⟨j, r⟩)
    (hclient : j.client = t.client) (hsame : t'.client = t.client)
    (hcount : t'.outstanding = t.outstanding) (calm : d.workshop.errands = []) {i : Item}
    {p : Pool Receiver} (add : d.workshop.pool.addItem j.client i = .ok p) (g : Surroundings σ)
    (transactions : List Transaction) (journal : List Notice) :
    Minds
      ⟨(d.workshop.next m (.change g)).next m (.addItem j.client i), transactions, true, journal⟩
      key t' := by
  refine ⟨hcount ▸ h.outstanding_pos, ?_⟩
  have hdelivery : ((d.workshop.next m (.change g)).next m (.addItem j.client i)).delivery =
      some ⟨j, r⟩ := by
    simp only [Workshop.next, calm, add]
    exact delivery
  change _ ∨ Holds key t'.client (t'.outstanding + owed true _ t'.client) _
  rw [owed_true hdelivery, if_pos (hclient.trans hsame.symm), hcount, hsame]
  have hvacates (hvacant : (d.workshop.next m (.change g)).Vacant) :
      ((d.workshop.next m (.change g)).next m (.addItem j.client i)).Vacant :=
    hvacant.next m _
  rcases h.held with hvacant | hholds
  · exact Or.inl (hvacates (hvacant.next m _))
  · rw [fresh, owed_false, Nat.add_zero] at hholds
    rcases hsorted.filed.ordered.next m (.change g) with hbooked | hvacant
    · rcases hholds.next hsorted.filed.ordered m (a := .change g) rfl (by rintro ⟨⟩) with
        hvacant | hholds'
      · exact Or.inl (hvacates hvacant)
      · rw [hclient] at add ⊢
        exact Or.inr (hholds'.added hbooked m calm add)
    · exact Or.inl (hvacates hvacant)

/-- A job that is struck off was either noticed by the transaction, or is another's. -/
theorem Minds.struck {d : TransactionLayer σ} {key : ℕ} {t : Transaction} (h : d.Minds key t)
    (hsorted : d.Sorted) (m : StorageManager σ) (ready : d.waits = false) :
    Minds { d with workshop := d.workshop.next m .strike, returned := false } key t := by
  refine ⟨h.outstanding_pos, ?_⟩
  change _ ∨ Holds key t.client t.outstanding _
  rcases h.held with hvacant | hholds
  · exact Or.inl (hvacant.next m .strike)
  · rcases hsorted.filed.ordered with hbooked | hvacant
    · right
      rcases Workshop.strike_cases m d.workshop with ⟨hsame, hnone⟩ | ⟨j, r, hdelivery⟩
      · -- Nothing is struck off, so nothing is owed.
        have hreturned : d.returned = false := by
          refine Bool.eq_false_iff.mpr fun hreturned => ?_
          obtain ⟨j, key', hdelivery⟩ := hsorted.returned hreturned
          exact hnone j _ hdelivery
        rw [hreturned, owed_false, Nat.add_zero] at hholds
        rw [hsame]
        exact hholds
      · by_cases hclient : j.client = t.client
        · -- It is the transaction's own, so the transaction has taken notice of it.
          have hreceiver := hholds.addressee j r hdelivery hclient
          subst hreceiver
          have hreturned : d.returned = true := by
            unfold waits at ready
            rw [hdelivery] at ready
            simpa using ready
          rw [hreturned, owed_true hdelivery, if_pos hclient] at hholds
          exact hholds.struck h.outstanding_pos hbooked m hdelivery hclient
        · have howed : owed d.returned d.workshop t.client = 0 := by
            cases d.returned with
            | false => rfl
            | true => rw [owed_true hdelivery, if_neg hclient]
          rw [howed, Nat.add_zero] at hholds
          exact hholds.struck_other hbooked m hdelivery hclient
    · exact Or.inl (hvacant.next m .strike)

/-- Deeds that leave it to the transaction to use its client keep its items minded. -/
theorem Minded.effect {d d' : TransactionLayer σ} {x : Deed σ} {key : ℕ} (h : d.Minded key)
    (hsorted : d.Sorted) (heffect : Effect m d x d')
    (hspares : ∀ c, d.owners[key]? = some c → Deed.spares c x) : d'.Minded key := by
  intro t found executing
  -- The client of the transaction is not that of another one.
  have hother {key' : ℕ} {c : ClientId} (hkey' : d.owners[key']? = some c) (hne : key' ≠ key)
      (hold : d.transactions[key]? = some t) : c ≠ t.client := by
    rintro rfl
    exact hne (hsorted.eq_of_client hkey' (getElem?_owners hold))
  cases heffect with
  | nothing x => exact h t found executing
  | opened =>
    rcases Nat.lt_or_ge key d.transactions.length with hlt | hge
    · rw [List.getElem?_append_left hlt] at found
      exact (h t found executing).next hsorted m (a := .newClient) rfl (by rintro ⟨⟩) _
    · rw [List.getElem?_append_right hge] at found
      rw [List.mem_singleton.mp (List.mem_of_getElem? found)] at executing
      cases executing
  | @added key' items t' g kept found' building =>
    rcases of_getElem?_set found with ⟨-, rfl⟩ | ⟨-, hold⟩
    · rw [show _ = TransactionPhase.building from building] at executing
      cases executing
    · exact (h t hold executing).next hsorted m (a := .change g) rfl (by rintro ⟨⟩) _
  | @begun key' t' p found' building calm items_ne submit =>
    rcases of_getElem?_set found with ⟨rfl, rfl⟩ | ⟨hne, hold⟩
    · exact Minds.begun hsorted m calm items_ne submit _
    · exact (h t hold executing).next hsorted m
        (a := .submit t'.client (.transaction key') t'.items)
        (decide_eq_true (hother (getElem?_owners found') hne hold)) (by rintro ⟨⟩) _
  | failed found' building same =>
    change (d.site.book _ _).transactions[key]? = _ at found
    rw [transactions_book] at found
    rcases of_getElem?_set found with ⟨-, rfl⟩ | ⟨-, hold⟩
    · cases executing
    · exact ⟨(h t hold executing).outstanding_pos, (h t hold executing).held⟩
  | cancelled found' executing' =>
    change (d.site.book _ _).transactions[key]? = _ at found
    rw [transactions_book] at found
    rcases of_getElem?_set found with ⟨-, rfl⟩ | ⟨-, hold⟩
    · cases executing
    · exact ⟨(h t hold executing).outstanding_pos, (h t hold executing).held⟩
  | @late key' t' j found' phase fresh delivery =>
    rcases of_getElem?_set found with ⟨-, rfl⟩ | ⟨hne, hold⟩
    · exact absurd executing phase
    · exact (h t hold executing).returned fresh delivery
        (hother (hsorted.filed.addressee j key' delivery) hne hold) _ _
  | @counted key' t' j g a found' executing' fresh delivery arrival not_back =>
    change (d.site.book _ _).transactions[key]? = _ at found
    rw [transactions_book] at found
    have howner := hsorted.filed.addressee j key' delivery
    rcases of_getElem?_set found with ⟨rfl, rfl⟩ | ⟨hne, hold⟩
    · rcases arrive_cases t' a with ⟨heq, hmore⟩ | ⟨hreported, -⟩
      · have hclient : j.client = t'.client := by
          rw [getElem?_owners found'] at howner
          exact (Option.some.inj howner).symm
        have hminds := h t' found' executing'
        have hcount : (t'.count a).outstanding = t'.outstanding - 1 := by
          cases a with
          | done bytes => rfl
          | failed bytes => rfl
          | putBack => exact absurd rfl not_back
        refine hminds.counted hsorted m fresh delivery hclient (client_arrive t' a) ?_ ?_ g _ _
        · rw [heq, hcount]
          exact Nat.sub_add_cancel hminds.outstanding_pos
        · rw [heq]
          exact hmore
      · rw [hreported] at executing
        cases executing
    · exact ((h t hold executing).next hsorted m (a := .change g) rfl (by rintro ⟨⟩)
        d.transactions).returned fresh delivery (hother howner hne hold) _ _
  | @putBack key' t' j g i p found' executing' fresh delivery calm arrival add =>
    change (d.site.book _ _).transactions[key]? = _ at found
    rw [transactions_book] at found
    have howner := hsorted.filed.addressee j key' delivery
    rcases of_getElem?_set found with ⟨rfl, rfl⟩ | ⟨hne, hold⟩
    · rcases arrive_cases t' .putBack with ⟨heq, hmore⟩ | ⟨hreported, -⟩
      · have hclient : j.client = t'.client := by
          rw [getElem?_owners found'] at howner
          exact (Option.some.inj howner).symm
        have hminds := h t' found' executing'
        refine hminds.putBack hsorted m fresh delivery hclient (client_arrive t' .putBack) ?_ calm
          add g _ _
        rw [heq]
        exact Nat.sub_add_cancel hminds.outstanding_pos
      · rw [hreported] at executing
        cases executing
    · have hsorted' := hsorted.effect (Effect.elsewhere (m := m) (a := .change g)
        (by rintro c key items ⟨⟩) (by rintro ⟨⟩))
      have hminds := (h t hold executing).next hsorted m (a := .change g) rfl (by rintro ⟨⟩)
        d.transactions
      have hne' := hother howner hne hold
      refine (hminds.next hsorted' m (a := .addItem j.client i) (decide_eq_true hne')
        (by rintro ⟨⟩) d.transactions).returned (r := some (some (.transaction key'))) fresh ?_
        hne' _ _
      simp only [Workshop.next, calm, add]
      exact delivery
  | elsewhere own not_strike =>
    exact (h t found executing).next hsorted m (hspares t.client (getElem?_owners found))
      not_strike _
  | struck ready => exact (h t found executing).struck hsorted m ready

/-! ## Runs -/

/-- Every layer is sorted. -/
theorem sorted_after (m : StorageManager σ) (settings : Settings) (loop : EventLoop)
    (ground : Surroundings σ) (deeds : List (Deed σ)) :
    (after m settings loop ground deeds).Sorted := by
  induction deeds using List.reverseRecOn with
  | nil => exact sorted_create settings loop ground
  | append_singleton deeds x ih =>
    unfold after at ih ⊢
    rw [List.foldl_concat]
    exact ih.effect (effect_next m _ x)

/-- The client of a transaction stays the same. -/
theorem Effect.owner {d d' : TransactionLayer σ} {x : Deed σ} (h : Effect m d x d') {key : ℕ}
    {c : ClientId} (hkey : d.owners[key]? = some c) : d'.owners[key]? = some c := by
  rcases h.owners with howners | ⟨-, howners⟩
  · rw [howners]
    exact hkey
  · rw [howners, List.getElem?_append_left (List.getElem?_eq_some_iff.mp hkey).1]
    exact hkey

/-- A transaction minds its items in every run in which nobody else uses its client. -/
theorem minded_after (m : StorageManager σ) (settings : Settings) (loop : EventLoop)
    (ground : Surroundings σ) (deeds : List (Deed σ)) {key : ℕ} {c : ClientId}
    (hkey : (after m settings loop ground deeds).owners[key]? = some c)
    (hown : ∀ x ∈ deeds, Deed.spares c x) : (after m settings loop ground deeds).Minded key := by
  induction deeds using List.reverseRecOn with
  | nil =>
    intro t found
    cases found
  | append_singleton deeds x ih =>
    have hsorted := sorted_after m settings loop ground deeds
    unfold after at hkey ih hsorted ⊢
    rw [List.foldl_concat] at hkey ⊢
    set d := deeds.foldl (next m) (create settings loop ground)
    have heffect := effect_next m d x
    have hsame (c' : ClientId) (hc' : d.owners[key]? = some c') : c' = c :=
      Option.some.inj ((heffect.owner hc').symm.trans hkey)
    have hminded : d.Minded key := by
      cases hbefore : d.owners[key]? with
      | none =>
        intro t found
        rw [getElem?_owners found] at hbefore
        cases hbefore
      | some c' =>
        cases hsame c' hbefore
        exact ih hbefore fun x' hx' => hown x' (List.mem_append_left _ hx')
    refine hminded.effect hsorted heffect fun c' hc' => ?_
    rw [hsame c' hc']
    exact hown x (List.mem_append_right _ (List.mem_singleton.mpr rfl))

/-- No operation is under way: all mail of the calls is sent, nothing is being delivered, and if the
pool was shut down, that is over. -/
structure Quiet (d : TransactionLayer σ) : Prop where
  calm : d.workshop.errands = []
  free : d.workshop.delivery = none
  ended : d.workshop.pool.phase = .shutDown →
    d.workshop.pool.crew = [] ∧ d.workshop.pool.completed = []

/-- A quiet pool that was shut down holds nothing. -/
theorem Quiet.inFlight_eq {d : TransactionLayer σ} (h : d.Quiet)
    (hdown : d.workshop.pool.phase = .shutDown) : d.workshop.inFlight = 0 := by
  obtain ⟨hcrew, hcompleted⟩ := h.ended hdown
  unfold Workshop.inFlight Workshop.crewLoad
  rw [h.calm, h.free, hcrew, hcompleted]
  rfl

/-- The pool was dismissed while a transaction was executing. -/
structure Forsaken (d : TransactionLayer σ) (key : ℕ) (t : Transaction) : Prop where
  vacant : d.workshop.Vacant
  free : d.workshop.delivery = none
  found : d.transactions[key]? = some t
  executing : t.phase = .executing

/-- Nothing but being cancelled happens to a transaction whose pool was dismissed. -/
theorem Forsaken.effect {d d' : TransactionLayer σ} {x : Deed σ} {key : ℕ} {t : Transaction}
    (h : d.Forsaken key t) (heffect : Effect m d x d') (hx : x ≠ .conclude key) :
    d'.Forsaken key t := by
  have hworkshop (a : Act Receiver σ) : (d.workshop.next m a).delivery = none := by
    cases hdelivery : (d.workshop.next m a).delivery with
    | none => rfl
    | some x =>
      rcases (Workshop.effect_next m d.workshop a).delivery hdelivery with
        ⟨receiver, hbefore⟩ | hbefore
      · rw [h.free] at hbefore
        cases hbefore
      · rw [h.vacant.completed_eq] at hbefore
        cases hbefore
  have hnext (a : Act Receiver σ) {transactions : List Transaction} (returned : Bool)
      (hfound : transactions[key]? = some t) :
      Forsaken ⟨d.workshop.next m a, transactions, returned, d.journal⟩ key t :=
    ⟨h.vacant.next m a, hworkshop a, hfound, h.executing⟩
  have hset {key' : ℕ} {t₁ : Transaction} (t₂ : Transaction)
      (hfound : d.transactions[key']? = some t₁) (hphase : t₁.phase = .building) :
      (d.transactions.set key' t₂)[key]? = some t := by
    rw [List.getElem?_set_ne, h.found]
    rintro rfl
    rw [h.found] at hfound
    cases hfound
    rw [h.executing] at hphase
    cases hphase
  cases heffect with
  | nothing x => exact h
  | opened =>
    refine hnext .newClient _ ?_
    rw [List.getElem?_append_left (List.getElem?_eq_some_iff.mp h.found).1]
    exact h.found
  | @added key' items t' g kept found building => exact hnext (.change g) _ (hset _ found building)
  | @begun key' t' p found building calm items_ne submit =>
    exact hnext (.submit t'.client (.transaction key') t'.items) _ (hset _ found building)
  | failed found building same =>
    refine ⟨h.vacant, h.free, ?_, h.executing⟩
    change (d.site.book _ _).transactions[key]? = _
    rw [transactions_book]
    exact hset _ found building
  | @cancelled key' t' found executing =>
    refine ⟨h.vacant, h.free, ?_, h.executing⟩
    change (d.site.book _ _).transactions[key]? = _
    rw [transactions_book]
    have hne : key' ≠ key := fun heq => hx (heq ▸ rfl)
    exact (List.getElem?_set_ne hne).trans h.found
  | late found phase fresh delivery =>
    rw [h.free] at delivery
    cases delivery
  | counted found executing fresh delivery arrival not_back =>
    rw [h.free] at delivery
    cases delivery
  | putBack found executing fresh delivery calm arrival add =>
    rw [h.free] at delivery
    cases delivery
  | @elsewhere a own not_strike => exact hnext a _ h.found
  | struck ready => exact hnext .strike _ h.found

/-- So it stays through any deeds that do not cancel it. -/
theorem Forsaken.foldl (m : StorageManager σ) {d : TransactionLayer σ} {key : ℕ} {t : Transaction}
    (h : d.Forsaken key t) (deeds : List (Deed σ)) (hdeeds : .conclude key ∉ deeds) :
    (deeds.foldl (next m) d).Forsaken key t := by
  induction deeds generalizing d with
  | nil => exact h
  | cons x rest ih =>
    obtain ⟨hx, hrest⟩ := not_or.mp (fun hmem => hdeeds (List.mem_cons.mpr hmem))
    exact ih (h.effect (effect_next m d x) fun heq => hx heq.symm) hrest

/-- What becomes of a transaction that was executed and has not reported. -/
structure InCustody (m : StorageManager σ) (d : TransactionLayer σ) (key : ℕ) (t : Transaction) :
    Prop where
  outstanding_pos : 1 ≤ t.outstanding
  /-- Unless the pool was shut down, it holds as many items of the transaction as the transaction
  waits for. -/
  held : d.workshop.pool.phase ≠ .shutDown →
    d.workshop.pool.outstanding t.client = t.outstanding ∧
      (d.workshop.jobsOf t.client).card = t.outstanding
  /-- A pool that was shut down has dropped everything, and whatever is done, the transaction does
  not go on unless it is cancelled. -/
  dropped : d.workshop.pool.phase = .shutDown →
    (∀ c, d.workshop.pool.outstanding c = 0) ∧
      ∀ deeds : List (Deed σ), .conclude key ∉ deeds →
        (deeds.foldl (next m) d).transactions[key]? = some t
  /-- Deeds that nothing interrupts are the calls that they make up. -/
  uninterrupted : d.Uninterrupted m

/-- In every run in which nobody else uses the client of a transaction: when no operation is under
way and the transaction was executed and has not reported, it waits for at least one item. As long
as the pool was not shut down, it holds just the items that the transaction waits for. Afterwards it
holds nothing, and the transaction stays as it is until it is cancelled. -/
theorem inCustody_after (m : StorageManager σ) (settings : Settings) (loop : EventLoop)
    (ground : Surroundings σ) (deeds : List (Deed σ)) {key : ℕ} {t : Transaction}
    (found : (after m settings loop ground deeds).transactions[key]? = some t)
    (hown : ∀ x ∈ deeds, Deed.spares t.client x)
    (hquiet : (after m settings loop ground deeds).Quiet) (started : t.phase ≠ .building)
    (silent : t.outcome = none) : InCustody m (after m settings loop ground deeds) key t := by
  have hsorted := sorted_after m settings loop ground deeds
  have hminded := minded_after m settings loop ground deeds (getElem?_owners found) hown
  set d := after m settings loop ground deeds
  have executing : t.phase = .executing := by
    have hconcluded := hsorted.concluded t (List.mem_of_getElem? found)
    cases hphase : t.phase with
    | building => exact absurd hphase started
    | executing => rfl
    | reported => exact absurd silent (hconcluded hphase)
  have hminds := hminded t found executing
  have howed : owed d.returned d.workshop t.client = 0 := by
    unfold owed
    rw [hquiet.free]
    cases d.returned <;> rfl
  refine ⟨hminds.outstanding_pos, ?_, ?_, d.uninterrupted m⟩
  · intro hup
    rcases hsorted.filed.ordered with hbooked | hvacant
    · rcases hminds.held with hvacant | hholds
      · exact absurd hvacant.down hup
      · obtain ⟨a, hfind, -, hcount⟩ := hholds.account
        rw [howed, Nat.add_zero] at hcount
        have hfits := hbooked.balanced.fits t.client
        rw [hfind] at hfits
        refine ⟨?_, hfits.2.1.symm.trans hcount⟩
        unfold Pool.outstanding
        rw [hfind]
        exact hcount
    · exact absurd hvacant.down hup
  · intro hdown
    have hvacant : d.workshop.Vacant := by
      rcases hsorted.filed.ordered with hbooked | hvacant
      · rcases hminds.held with hvacant | hholds
        · exact hvacant
        · -- A pool that is not dismissed would hold the items that it has an account for.
          obtain ⟨a, hfind, -⟩ := hholds.account
          have hfits := hbooked.balanced.fits t.client
          rw [hfind] at hfits
          refine absurd ?_ hfits.1
          unfold Workshop.jobsOf
          rw [hquiet.inFlight_eq hdown]
          rfl
      · exact hvacant
    constructor
    · intro c
      unfold Pool.outstanding
      rw [hvacant.find?_eq]
    · intro further hfurther
      have hforsaken : d.Forsaken key t := ⟨hvacant, hquiet.free, found, executing⟩
      exact (hforsaken.foldl m further hfurther).found

/-- A transaction with one item is executed. -/
def heldRun : List (Deed Shelf) :=
  [.elsewhere (.start ⟨1, 0⟩ .nobody), .openTransaction,
    .add 0 [Item.fresh (.buffer ⟨#[120]⟩) (.inl ⟨"/to"⟩)], .execute 0, .elsewhere .run]

/-- The pool is shut down after the worker has opened the item. -/
def droppedRun : List (Deed Shelf) :=
  heldRun ++ [.elsewhere .stop, .elsewhere .run] ++ List.replicate 5 (.elsewhere (.work 0)) ++
    [.elsewhere .dismiss]

/-- The transaction of these runs, which waits for its item. -/
def waitingTransaction : Transaction :=
  ⟨⟨1⟩, .executing, [], 1, ⟨1, 0, 0, 0, 0⟩, none, true⟩

/-- The layer after such a run. -/
def shelfAfter (deeds : List (Deed Shelf)) : TransactionLayer Shelf :=
  after Shelf.manager Settings.defaults ⟨false, false, []⟩ ⟨.blank, .ofMedia [] none false⟩ deeds

/-- The layers after these runs are quiet. -/
theorem quiet_of_shelfAfter {deeds : List (Deed Shelf)}
    (h : ((shelfAfter deeds).workshop.errands.isEmpty &&
      (shelfAfter deeds).workshop.delivery.isNone &&
      ((shelfAfter deeds).workshop.pool.phase ≠ .shutDown ||
        (shelfAfter deeds).workshop.pool.crew.isEmpty &&
          (shelfAfter deeds).workshop.pool.completed.isEmpty)) = true) :
    (shelfAfter deeds).Quiet := by
  simp only [Bool.and_eq_true, Bool.or_eq_true, List.isEmpty_iff, Option.isNone_iff_eq_none,
    decide_eq_true_eq] at h
  obtain ⟨⟨hcalm, hfree⟩, hended⟩ := h
  exact ⟨hcalm, hfree, fun hdown => hended.resolve_left fun hup => hup hdown⟩

/-- The pool holds the item of the transaction that was executed. -/
theorem inCustody_after_heldRun :
    (shelfAfter heldRun).transactions[0]? = some waitingTransaction ∧
      (shelfAfter heldRun).workshop.pool.phase = .running ∧
      InCustody Shelf.manager (shelfAfter heldRun) 0 waitingTransaction :=
  ⟨by decide +kernel, by decide +kernel,
    inCustody_after _ _ _ _ heldRun (by decide +kernel) (by decide)
      (quiet_of_shelfAfter (by decide +kernel)) (by decide) (by decide)⟩

/-- A transaction is left waiting for an item that the pool has dropped. -/
theorem droppedRun_forsakes :
    (∀ x ∈ droppedRun, Deed.spares waitingTransaction.client x) ∧ (shelfAfter droppedRun).Quiet ∧
      (shelfAfter droppedRun).transactions[0]? = some waitingTransaction ∧
      waitingTransaction.phase ≠ .building ∧ waitingTransaction.outcome = none ∧
      waitingTransaction.outstanding = 1 ∧
      (shelfAfter droppedRun).workshop.pool.outstanding waitingTransaction.client = 0 :=
  ⟨by decide, quiet_of_shelfAfter (by decide +kernel), by decide +kernel, by decide, rfl, rfl,
    by decide +kernel⟩

end TransactionLayer

end Haulage
