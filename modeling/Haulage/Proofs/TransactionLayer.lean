import Haulage.Proofs.Books
import Haulage.Proofs.Operations
import Haulage.Proofs.Pursuit
import Haulage.Site.Delivery

/-!
# The transaction layer

A transaction layer is a workshop together with the transactions that use it. The calls of a
transaction are cut into deeds: what happens under the lock of the transaction is one deed, and
everything else, such as the mail that a call still has to send, the workers, and the steps of a
delivery, are acts of the workshop, which come in between as they like.

`TransactionLayer.Effect` says what a deed can do, one constructor for each kind of effect. The
deeds that belong to a call of a site, carried out without anything in between, do what that call
does (`TransactionLayer.uninterrupted`).
-/

namespace Haulage

namespace Workshop

variable {κ σ : Type} {m : StorageManager σ} {y y' : Workshop κ σ} {a : Act κ σ}

/-! ## What acts do to one account -/

/-- Does the act leave it to the client to call the pool on its own behalf? -/
def Act.spares (c : ClientId) : Act κ σ → Bool
  | .submit c' _ _ | .addItem c' _ | .detach c' => c' ≠ c
  | _ => true

/-- Numbers of clients are given out once. -/
theorem nextClient_le (m : StorageManager σ) (y : Workshop κ σ) (a : Act κ σ) :
    y.pool.nextClient ≤ (y.next m a).pool.nextClient := by
  have hfoldl (jobs : List Job) (p : Pool κ) :
      (jobs.foldl Pool.complete p).nextClient = p.nextClient := by
    induction jobs generalizing p with
    | nil => rfl
    | cons j rest ih => exact ih _
  cases a with
  | newClient => exact Nat.le_succ _
  | start machine watcher =>
    simp only [next]
    split
    · rename_i p hcalm hstart
      refine Nat.le_of_eq ?_
      unfold Pool.start at hstart
      split at hstart
      · cases hstart
      · cases hstart
      · split at hstart
        · cases hstart
          rfl
        · split at hstart
          · cases hstart
          · cases hstart
            rfl
    · exact Nat.le_refl _
  | work k =>
    simp only [next]
    split
    · exact Nat.le_refl _
    · split
      · exact Nat.le_refl _
      · rename_i r hstep
        change _ ≤ (r.finished.toList.foldl Pool.complete _).nextClient
        rw [hfoldl]
  | run =>
    simp only [next]
    split
    · exact Nat.le_refl _
    · rename_i e rest herrands
      cases e <;> exact Nat.le_refl _
  | fetch =>
    simp only [next, Pool.takeCompleted]
    split
    · rename_i j p hfree htake
      split at htake
      · cases htake
      · cases htake
        exact Nat.le_refl _
    · exact Nat.le_refl _
  | submit c receiver items =>
    simp only [next]
    split
    · split <;> exact Nat.le_refl _
    · exact Nat.le_refl _
  | stop =>
    simp only [next]
    split <;> exact Nat.le_refl _
  | dismiss =>
    simp only [next]
    split
    · split <;> exact Nat.le_refl _
    · exact Nat.le_refl _
  | addItem c i =>
    simp only [next]
    split <;> exact Nat.le_refl _
  | cancel c =>
    simp only [next]
    split <;> exact Nat.le_refl _
  | broadcast s =>
    simp only [next]
    split <;> exact Nat.le_refl _
  | address =>
    simp only [next]
    split
    · split <;> exact Nat.le_refl _
    · exact Nat.le_refl _
  | strike =>
    simp only [next]
    split <;> exact Nat.le_refl _
  | detach c => exact Nat.le_refl _
  | change g => exact Nat.le_refl _
  | acknowledge => exact Nat.le_refl _

/-- The account of a client that makes its own calls changes only when a job of the client is struck
off. -/
theorem Effect.find?_of_spares (h : Effect m y a y') (hbalanced : y.Balanced) {c : ClientId}
    (hspares : Act.spares c a) (hstays : a ≠ .dismiss) :
    y'.pool.clients.find? c = y.pool.clients.find? c ∨
      ∃ j r, a = .strike ∧ y.delivery = some ⟨j, some r⟩ ∧ j.client = c ∧
        y'.pool.clients.find? c =
          (y.pool.clients.find? c).bind (Clients.handBack j.item.tag) := by
  cases h with
  | nothing a => exact Or.inl rfl
  | aside stays clients crew completed phase =>
    left
    rw [clients]
  | started calm start =>
    left
    rw [(Pool.of_start start).2.2.1]
  | @opened c' receiver items tags clients calm running unknown items_ne allocated =>
    left
    have hout := Clients.givenOut_of_allocateTags hbalanced.next_ne_zero allocated
    have hne : c ≠ c' := fun heq => of_decide_eq_true hspares heq.symm
    change (clients.insert c' _).find? c = _
    rw [Clients.find?_insert ((hout.find?_eq c').trans unknown), if_neg hne, hout.find?_eq]
  | @added c' i account tag clients calm running known allocated =>
    left
    have hout := Clients.givenOut_of_allocateTags hbalanced.next_ne_zero allocated
    have hne : c ≠ c' := fun heq => of_decide_eq_true hspares heq.symm
    change (clients.update c' _).find? c = _
    rw [Clients.find?_update (hout.keyed hbalanced.keyed), if_neg hne, hout.find?_eq]
  | cancelled calm running known => exact Or.inl rfl
  | detached c' =>
    left
    have hne : c ≠ c' := fun heq => of_decide_eq_true hspares heq.symm
    change (y.pool.clients.update c' _).find? c = _
    rw [Clients.find?_update hbalanced.keyed, if_neg hne]
  | told calm running => exact Or.inl rfl
  | stopped calm running => exact Or.inl rfl
  | retired calm resting => exact Or.inl rfl
  | dismissed calm down gone => exact absurd rfl hstays
  | @ran e rest errands =>
    left
    cases e <;> rfl
  | @worked k w r worker step =>
    left
    obtain ⟨-, -, hclients, -⟩ :=
      foldl_complete r.finished.toList { y.pool with crew := y.pool.crew.set k r.worker }
    change (r.finished.toList.foldl Pool.complete _).clients.find? c = _
    rw [hclients]
  | fetched free completed => exact Or.inl rfl
  | strayed delivery unknown => exact Or.inl rfl
  | handed delivery known => exact Or.inl rfl
  | @struck j r delivery =>
    by_cases hc : c = j.client
    · refine Or.inr ⟨j, r, rfl, delivery, hc.symm, ?_⟩
      change (y.pool.clients.update j.client _).find? c = _
      rw [Clients.find?_update hbalanced.keyed, if_pos hc, hc]
    · left
      change (y.pool.clients.update j.client _).find? c = _
      rw [Clients.find?_update hbalanced.keyed, if_neg hc]

/-- Where an account has its receiver from. -/
theorem Effect.receiver (h : Effect m y a y') (hbalanced : y.Balanced) {c : ClientId}
    {account : Account κ} (hfind : y'.pool.clients.find? c = some account) {receiver : κ}
    (hreceiver : account.receiver = some receiver) :
    (∃ account', y.pool.clients.find? c = some account' ∧ account'.receiver = some receiver) ∨
      ∃ items, a = .submit c receiver items := by
  have hsame (hclients : y'.pool.clients = y.pool.clients) :
      ∃ account', y.pool.clients.find? c = some account' ∧ account'.receiver = some receiver :=
    ⟨account, hclients ▸ hfind, hreceiver⟩
  -- A change of an account that keeps its receiver.
  have hkept (cs : Clients κ) (hkeyed : cs.Keyed) (hcs : cs.find? c = y.pool.clients.find? c)
      (c' : ClientId) (f : Account κ → Option (Account κ))
      (hf : ∀ x x', f x = some x' → x'.receiver = some receiver → x.receiver = some receiver)
      (hclients : y'.pool.clients = cs.update c' f) :
      ∃ account', y.pool.clients.find? c = some account' ∧
        account'.receiver = some receiver := by
    rw [hclients, Clients.find?_update hkeyed] at hfind
    split at hfind
    · rename_i hc
      obtain ⟨x, hx, hfx⟩ := Option.bind_eq_some_iff.mp hfind
      refine ⟨x, ?_, hf x account hfx hreceiver⟩
      rw [← hcs, hc]
      exact hx
    · exact ⟨account, hcs ▸ hfind, hreceiver⟩
  cases h with
  | nothing a => exact Or.inl (hsame rfl)
  | aside stays clients crew completed phase => exact Or.inl (hsame clients)
  | started calm start => exact Or.inl (hsame (Pool.of_start start).2.2.1)
  | @opened c' receiver' items tags clients calm running unknown items_ne allocated =>
    have hout := Clients.givenOut_of_allocateTags hbalanced.next_ne_zero allocated
    change (clients.insert c' _).find? c = _ at hfind
    rw [Clients.find?_insert ((hout.find?_eq c').trans unknown)] at hfind
    split at hfind
    · rename_i hc
      cases hfind
      cases hreceiver
      exact Or.inr ⟨items, by rw [hc]⟩
    · rw [hout.find?_eq] at hfind
      exact Or.inl ⟨account, hfind, hreceiver⟩
  | @added c' i x tag clients calm running known allocated =>
    have hout := Clients.givenOut_of_allocateTags hbalanced.next_ne_zero allocated
    refine Or.inl (hkept clients (hout.keyed hbalanced.keyed) (hout.find?_eq c) c'
      (Account.oneMore tag) ?_ rfl)
    rintro x x' hx hx'
    cases hx
    exact hx'
  | cancelled calm running known => exact Or.inl (hsame rfl)
  | detached c' =>
    refine Or.inl (hkept _ hbalanced.keyed rfl c' Account.detached ?_ rfl)
    rintro x x' hx hx'
    cases hx
    cases hx'
  | told calm running => exact Or.inl (hsame rfl)
  | stopped calm running => exact Or.inl (hsame rfl)
  | retired calm resting => exact Or.inl (hsame rfl)
  | dismissed calm down gone => cases hfind
  | @ran e rest errands =>
    refine Or.inl (hsame ?_)
    cases e <;> rfl
  | @worked k w r worker step =>
    obtain ⟨-, -, hclients, -⟩ :=
      foldl_complete r.finished.toList { y.pool with crew := y.pool.crew.set k r.worker }
    exact Or.inl (hsame hclients)
  | fetched free completed => exact Or.inl (hsame rfl)
  | strayed delivery unknown => exact Or.inl (hsame rfl)
  | handed delivery known => exact Or.inl (hsame rfl)
  | @struck j r delivery =>
    refine Or.inl (hkept _ hbalanced.keyed rfl j.client (Clients.handBack j.item.tag) ?_ rfl)
    intro x x' hx hx'
    unfold Clients.handBack at hx
    split at hx
    · cases hx
    · cases hx
      exact hx'

/-- A job that is being delivered was addressed before, or has just been. -/
theorem Effect.addressed (h : Effect m y a y') {j : Job} {r : Option κ}
    (hdelivery : y'.delivery = some ⟨j, some r⟩) :
    y.delivery = some ⟨j, some r⟩ ∨
      a = .address ∧ y.delivery = some ⟨j, none⟩ ∧
        ∃ account, y.pool.clients.find? j.client = some account ∧ account.receiver = r := by
  cases h with
  | nothing a => exact Or.inl hdelivery
  | aside stays clients crew completed phase => exact Or.inl hdelivery
  | started calm start => exact Or.inl hdelivery
  | opened calm running unknown items_ne allocated => exact Or.inl hdelivery
  | added calm running known allocated => exact Or.inl hdelivery
  | cancelled calm running known => exact Or.inl hdelivery
  | detached c => exact Or.inl hdelivery
  | told calm running => exact Or.inl hdelivery
  | stopped calm running => exact Or.inl hdelivery
  | retired calm resting => exact Or.inl hdelivery
  | dismissed calm down gone => exact Or.inl hdelivery
  | ran errands => exact Or.inl hdelivery
  | worked worker step => exact Or.inl hdelivery
  | fetched free completed => cases hdelivery
  | strayed delivery unknown => cases hdelivery
  | @handed j' account delivery known =>
    cases hdelivery
    exact Or.inr ⟨rfl, delivery, account, known, rfl⟩
  | struck delivery => cases hdelivery

/-- A job that was addressed stays in delivery until it is struck off. -/
theorem Effect.delivery_eq (h : Effect m y a y') (ha : a ≠ .strike) {j : Job} {r : Option κ}
    (hdelivery : y.delivery = some ⟨j, some r⟩) : y'.delivery = some ⟨j, some r⟩ := by
  cases h with
  | nothing a => exact hdelivery
  | aside stays clients crew completed phase => exact hdelivery
  | started calm start => exact hdelivery
  | opened calm running unknown items_ne allocated => exact hdelivery
  | added calm running known allocated => exact hdelivery
  | cancelled calm running known => exact hdelivery
  | detached c => exact hdelivery
  | told calm running => exact hdelivery
  | stopped calm running => exact hdelivery
  | retired calm resting => exact hdelivery
  | dismissed calm down gone => exact hdelivery
  | ran errands => exact hdelivery
  | worked worker step => exact hdelivery
  | fetched free completed =>
    rw [free] at hdelivery
    cases hdelivery
  | strayed delivery unknown =>
    rw [delivery] at hdelivery
    cases hdelivery
  | handed delivery known =>
    rw [delivery] at hdelivery
    cases hdelivery
  | struck delivery => exact absurd rfl ha

/-- A job is struck off only after it was addressed. -/
theorem strike_cases (m : StorageManager σ) (y : Workshop κ σ) :
    (y.next m .strike = y ∧ ∀ j r, y.delivery ≠ some ⟨j, some r⟩) ∨
      ∃ j r, y.delivery = some ⟨j, some r⟩ := by
  simp only [next]
  split
  · rename_i j r hdelivery
    exact Or.inr ⟨j, r, hdelivery⟩
  · rename_i hnone
    exact Or.inl ⟨rfl, hnone⟩

/-! ## Books -/

/-- The books are in order, or the pool was dismissed. -/
def Ordered (y : Workshop κ σ) : Prop := y.Booked ∨ y.Vacant

/-- A pool that was dismissed stays so. -/
theorem Vacant.next (h : y.Vacant) (m : StorageManager σ) (a : Act κ σ) : (y.next m a).Vacant :=
  h.effect (effect_next m y a)

/-- Every act keeps the books in order. -/
theorem Ordered.next (h : y.Ordered) (m : StorageManager σ) (a : Act κ σ) :
    (y.next m a).Ordered := by
  have heffect := effect_next m y a
  rcases h with hbooked | hvacant
  · by_cases hstays : a = .dismiss
    · subst hstays
      rcases heffect.eq_or_vacant with hsame | hvacant
      · rw [hsame]
        exact Or.inl hbooked
      · exact Or.inr hvacant
    · exact Or.inl (hbooked.effect heffect hstays)
  · exact Or.inr (hvacant.next m a)

end Workshop

/-! ## The transaction layer and its deeds -/

/-- A workshop with the transactions that use it. -/
structure TransactionLayer (σ : Type) where
  workshop : Workshop Receiver σ
  transactions : List Transaction
  /-- Has the transaction taken notice of the item that is being delivered to it? -/
  returned : Bool
  journal : List Notice
  deriving Repr

/-- What may be done at once. A deed for which it is too early or too late changes nothing. -/
inductive Deed (σ : Type) where
  | openTransaction
  /-- Items are added to the transaction of this number. -/
  | add (key : Nat) (items : List Item)
  /-- The transaction is executed. The mail to the workers goes out later. -/
  | execute (key : Nat)
  /-- The transaction is cancelled. Its items are asked to be cancelled by an act of the workshop.
  -/
  | conclude (key : Nat)
  /-- The transaction takes notice of the item that is being delivered to it. -/
  | giveBack
  /-- An act of the workshop. -/
  | elsewhere (a : Act Receiver σ)

namespace TransactionLayer

open Site (Counted)

variable {σ : Type}

/-- The layer before anything happens. -/
def create (settings : Settings) (loop : EventLoop) (ground : Surroundings σ) :
    TransactionLayer σ :=
  ⟨.create settings loop ground, [], false, []⟩

/-- The site that a layer is, apart from what is under way. -/
def site (d : TransactionLayer σ) : Site σ :=
    ⟨d.workshop.ground, d.workshop.pool, d.transactions, [], d.journal⟩

/-- The layer with the books of a site, and with another workshop. -/
def keep (d : TransactionLayer σ) (s : Site σ) (y : Workshop Receiver σ) : TransactionLayer σ :=
  { d with workshop := y, transactions := s.transactions, journal := s.journal }

/-- Does the loop wait for a transaction to take notice of the item that is being delivered? -/
def waits (d : TransactionLayer σ) : Bool :=
  match d.workshop.delivery with
  | some ⟨_, some (some (.transaction _))⟩ => !d.returned
  | _ => false

/-- The layer after an act of the workshop. Only a transaction submits its items as its own, and the
loop does not go on before the receiver of an item has returned. -/
def act (m : StorageManager σ) (d : TransactionLayer σ) (a : Act Receiver σ) : TransactionLayer σ :=
  match a with
  | .submit _ (.transaction _) _ => d
  | .strike =>
    if d.waits then d
    else { d with workshop := d.workshop.next m .strike, returned := false }
  | a => { d with workshop := d.workshop.next m a }

/-- The layer after the item that is being delivered came back to its transaction. One that is put
back for another attempt is added to the pool again. -/
def giveBack (m : StorageManager σ) (d : TransactionLayer σ) (key : Nat) (j : Job) :
    TransactionLayer σ :=
  match d.transactions[key]? with
  | none => d
  | some t =>
    let s := d.site.returnToTransaction m key j.client j.item
    let y := d.workshop.next m (.change s.ground)
    let y' := if t.phase = .executing ∧ (d.site.receive m j.client j.item).1 = .putBack then
      y.next m (.addItem j.client (Site.renewed m d.site j.item)) else y
    { d.keep s y' with returned := true }

/-- The layer after a deed. A call that sends mail waits until the mail of the one before it is
sent. -/
def next (m : StorageManager σ) (d : TransactionLayer σ) : Deed σ → TransactionLayer σ
  | .openTransaction => d.keep d.site.openTransaction.2.2 (d.workshop.next m .newClient)
  | .add key items =>
    let s := (d.site.addToTransaction m key items).2
    d.keep s (d.workshop.next m (.change s.ground))
  | .execute key => match d.workshop.errands, d.transactions[key]? with
    | [], some t => d.keep (d.site.execute key).2 (if t.phase = .building then
        d.workshop.next m (.submit t.client (.transaction key) t.items) else d.workshop)
    | _, _ => d
  | .conclude key => match d.transactions[key]? with
    | none => d
    | some t =>
      if t.phase = .executing then d.keep (d.site.book key (t.conclude .cancelled)) d.workshop
      else d
  | .giveBack => match d.workshop.errands, d.workshop.delivery with
    | [], some ⟨j, some (some (.transaction key))⟩ =>
      if d.returned then d else d.giveBack m key j
    | _, _ => d
  | .elsewhere a => d.act m a

/-- The layer after some deeds. -/
def after (m : StorageManager σ) (settings : Settings) (loop : EventLoop)
    (ground : Surroundings σ) (deeds : List (Deed σ)) : TransactionLayer σ :=
  deeds.foldl (next m) (create settings loop ground)

/-! ## Effects of deeds -/

/-- What a deed does to a layer. -/
inductive Effect (m : StorageManager σ) (d : TransactionLayer σ) :
    Deed σ → TransactionLayer σ → Prop
  /-- The deed is refused, or it is too early or too late for it. -/
  | nothing (x : Deed σ) : Effect m d x d
  /-- A transaction is opened for a client that nobody has been before. -/
  | opened : Effect m d .openTransaction { d with
      workshop := d.workshop.next m .newClient
      transactions := d.transactions ++ [.create ⟨d.workshop.pool.nextClient⟩] }
  /-- Items are added to a transaction that has not started. -/
  | added {key : ℕ} {items : List Item} {t : Transaction} {g : Surroundings σ} {kept : List Item}
      (found : d.transactions[key]? = some t) (building : t.phase = .building) :
      Effect m d (.add key items) { d with
        workshop := d.workshop.next m (.change g)
        transactions := d.transactions.set key { t with items := t.items ++ kept } }
  /-- A transaction begins, and the pool takes its items on. -/
  | begun {key : ℕ} {t : Transaction} {p : Pool Receiver}
      (found : d.transactions[key]? = some t) (building : t.phase = .building)
      (calm : d.workshop.errands = []) (items_ne : t.items ≠ [])
      (submit : d.workshop.pool.submit t.client (.transaction key) t.items = .ok p) :
      Effect m d (.execute key) { d with
        workshop := d.workshop.next m (.submit t.client (.transaction key) t.items)
        transactions := d.transactions.set key t.begin.2 }
  /-- A transaction ends because no item of it is taken on. -/
  | failed {key : ℕ} {t t' : Transaction} (found : d.transactions[key]? = some t)
      (building : t.phase = .building) (same : t' = t ∨ t' = t.begin.2) :
      Effect m d (.execute key) (d.keep (d.site.book key (t'.conclude .failure)) d.workshop)
  /-- A transaction that executes is cancelled. -/
  | cancelled {key : ℕ} {t : Transaction} (found : d.transactions[key]? = some t)
      (executing : t.phase = .executing) :
      Effect m d (.conclude key) (d.keep (d.site.book key (t.conclude .cancelled)) d.workshop)
  /-- An item comes back to a transaction that does not execute any more. -/
  | late {key : ℕ} {t : Transaction} {j : Job} (found : d.transactions[key]? = some t)
      (phase : t.phase ≠ .executing) (fresh : d.returned = false)
      (delivery : d.workshop.delivery = some ⟨j, some (some (.transaction key))⟩) :
      Effect m d .giveBack { d with
        transactions := d.transactions.set key { t with outstanding := t.outstanding - 1 }
        returned := true }
  /-- An item comes back and is counted. -/
  | counted {key : ℕ} {t : Transaction} {j : Job} {g : Surroundings σ} {a : Arrival}
      (found : d.transactions[key]? = some t) (executing : t.phase = .executing)
      (fresh : d.returned = false)
      (delivery : d.workshop.delivery = some ⟨j, some (some (.transaction key))⟩)
      (arrival : Counted j.item a) (not_back : a ≠ .putBack) :
      Effect m d .giveBack
        { d.keep (d.site.book key (t.arrive a)) (d.workshop.next m (.change g)) with
          returned := true }
  /-- An item comes back and is put back for another attempt. -/
  | putBack {key : ℕ} {t : Transaction} {j : Job} {g : Surroundings σ} {i : Item}
      {p : Pool Receiver} (found : d.transactions[key]? = some t)
      (executing : t.phase = .executing) (fresh : d.returned = false)
      (delivery : d.workshop.delivery = some ⟨j, some (some (.transaction key))⟩)
      (calm : d.workshop.errands = []) (arrival : Counted j.item .putBack)
      (add : d.workshop.pool.addItem j.client i = .ok p) :
      Effect m d .giveBack { d.keep (d.site.book key (t.arrive .putBack))
        ((d.workshop.next m (.change g)).next m (.addItem j.client i)) with returned := true }
  /-- Something happens in the workshop. -/
  | elsewhere {a : Act Receiver σ} (own : ∀ c key items, a ≠ .submit c (.transaction key) items)
      (not_strike : a ≠ .strike) :
      Effect m d (.elsewhere a) { d with workshop := d.workshop.next m a }
  /-- The job that was delivered is struck off. -/
  | struck (ready : d.waits = false) : Effect m d (.elsewhere .strike)
      { d with workshop := d.workshop.next m .strike, returned := false }

/-- Changing the books of a transaction replaces it. -/
@[simp] theorem transactions_book (s : Site σ) (key : ℕ) (x : Transaction × Option Report) :
    (s.book key x).transactions = s.transactions.set key x.1 := by
  unfold Site.book
  split <;> rfl

/-- Changing the books of a transaction leaves the ground alone. -/
@[simp] theorem ground_book (s : Site σ) (key : ℕ) (x : Transaction × Option Report) :
    (s.book key x).ground = s.ground := by
  unfold Site.book
  split <;> rfl

/-- Changing the books of a transaction leaves the pool and the scripts alone. -/
theorem pool_book (s : Site σ) (key : ℕ) (x : Transaction × Option Report) :
    (s.book key x).pool = s.pool ∧ (s.book key x).scripts = s.scripts := by
  refine ⟨s.pool_book key x, ?_⟩
  unfold Site.book
  split <;> rfl

/-- What is kept of a site whose books were changed has nothing to do with its pool and its
ground. -/
theorem keep_book (d : TransactionLayer σ) (p : Pool Receiver) (g : Surroundings σ) (key : ℕ)
    (x : Transaction × Option Report) (y : Workshop Receiver σ) :
    d.keep (({ d.site with pool := p, ground := g } : Site σ).book key x) y =
      d.keep (d.site.book key x) y := by
  unfold Site.book
  split <;> rfl

/-- A transaction that is executed begins, or ends at once. -/
theorem effect_execute (m : StorageManager σ) {d : TransactionLayer σ} {key : ℕ} {t : Transaction}
    (calm : d.workshop.errands = []) (found : d.transactions[key]? = some t)
    (building : t.phase = .building) :
    Effect m d (.execute key) (d.keep (d.site.execute key).2
      (d.workshop.next m (.submit t.client (.transaction key) t.items))) := by
  have hfound : d.site.transactions[key]? = some t := found
  obtain ⟨hitems, hexecute⟩ | ⟨hitems, p, hsubmit, hexecute⟩ | ⟨-, e, hsubmit, hexecute⟩ :=
    Site.execute_eq hfound building
  · rw [hexecute, Workshop.next_submit_nil m d.workshop _ _ hitems]
    exact Effect.failed found building (Or.inl rfl)
  · rw [hexecute]
    exact Effect.begun found building calm hitems hsubmit
  · rw [hexecute, Workshop.next_submit_error m _ hsubmit]
    exact Effect.failed found building (Or.inr rfl)

/-- An item that comes back is counted, or put back for another attempt. -/
theorem effect_giveBack (m : StorageManager σ) {d : TransactionLayer σ} {key : ℕ} {j : Job}
    (calm : d.workshop.errands = []) (fresh : d.returned = false)
    (delivery : d.workshop.delivery = some ⟨j, some (some (.transaction key))⟩) :
    Effect m d .giveBack (d.giveBack m key j) := by
  unfold giveBack
  cases found : d.transactions[key]? with
  | none => exact Effect.nothing _
  | some t =>
    have hfound : d.site.transactions[key]? = some t := found
    simp only
    by_cases hphase : t.phase = .executing
    · obtain ⟨p, g, hreceive⟩ := Site.receive_eq m d.site j.client j.item
      have hcounted := Site.counted_receive m d.site j.client j.item
      rw [Site.returnToTransaction_of_executing hfound hphase, hreceive]
      rw [keep_book, ground_book]
      obtain ⟨hback, hadd⟩ | ⟨hback, -⟩ := Site.pool_receive m d.site j.client j.item
      · rw [if_pos ⟨hphase, hback⟩]
        rw [hback] at hcounted ⊢
        exact Effect.putBack found hphase fresh delivery calm hcounted hadd
      · rw [if_neg fun h => hback h.2]
        exact Effect.counted found hphase fresh delivery hcounted hback
    · rw [Site.returnToTransaction_of_ne hfound hphase, if_neg fun h => hphase h.1]
      exact Effect.late found hphase fresh delivery

/-- Every deed has one of the effects. -/
theorem effect_next (m : StorageManager σ) (d : TransactionLayer σ) (x : Deed σ) :
    Effect m d x (d.next m x) := by
  cases x with
  | openTransaction => exact Effect.opened
  | add key items =>
    simp only [next]
    cases found : d.transactions[key]? with
    | none =>
      rw [Site.addToTransaction_of_none (show d.site.transactions[key]? = none from found)]
      exact Effect.nothing _
    | some t =>
      have hfound : d.site.transactions[key]? = some t := found
      by_cases hphase : t.phase = .building
      · obtain ⟨g, kept, hadd⟩ :=
          Site.addToTransaction_of_building (m := m) hfound hphase items
        rw [hadd]
        exact Effect.added found hphase
      · rw [Site.addToTransaction_of_ne hfound hphase]
        exact Effect.nothing _
  | execute key =>
    simp only [next]
    split
    · rename_i t calm found
      split
      · rename_i hphase
        exact effect_execute m calm found hphase
      · rename_i hphase
        rw [Site.execute_of_ne (show d.site.transactions[key]? = some t from found) hphase]
        exact Effect.nothing _
    · exact Effect.nothing _
  | conclude key =>
    simp only [next]
    split
    · exact Effect.nothing _
    · rename_i t found
      split
      · rename_i hphase
        exact Effect.cancelled found hphase
      · exact Effect.nothing _
  | giveBack =>
    simp only [next]
    split
    · rename_i j key calm delivery
      split
      · exact Effect.nothing _
      · rename_i hfresh
        exact effect_giveBack m calm (Bool.not_eq_true _ |>.mp hfresh) delivery
    · exact Effect.nothing _
  | elsewhere a =>
    simp only [next, act]
    split
    · exact Effect.nothing _
    · split
      · exact Effect.nothing _
      · rename_i hready
        exact Effect.struck (Bool.not_eq_true _ |>.mp hready)
    · rename_i hsubmit hstrike
      refine Effect.elsewhere ?_ fun heq => hstrike heq
      exact fun c key items heq => hsubmit c key items heq

/-! ## Calls that nothing interrupts -/

/-- The layer once all mail of the call under way is sent. -/
def sent (m : StorageManager σ) (d : TransactionLayer σ) : TransactionLayer σ :=
  (List.replicate d.workshop.errands.length (.elsewhere .run)).foldl (next m) d

/-- The layer once the receiver of the item that is being delivered has returned, and its job is
struck off. -/
def struckOff (m : StorageManager σ) (d : TransactionLayer σ) : TransactionLayer σ :=
  ((d.next m .giveBack).sent m).next m (.elsewhere .strike)

/-- The layer once the oldest finished job is delivered. -/
def delivered (m : StorageManager σ) (d : TransactionLayer σ) : TransactionLayer σ :=
  ((d.next m (.elsewhere .fetch)).next m (.elsewhere .address)).struckOff m

/-- Without interruption the calls of a site are deeds of the layer. -/
structure Uninterrupted (m : StorageManager σ) (d : TransactionLayer σ) : Prop where
  /-- The workshop is called. -/
  workshop : d.workshop.Uninterrupted m
  /-- A transaction is opened. -/
  openTransaction : (d.next m .openTransaction).site = d.site.openTransaction.2.2
  /-- Items are added to a transaction. -/
  add : ∀ key items, (d.next m (.add key items)).site = (d.site.addToTransaction m key items).2
  /-- A transaction is executed. -/
  execute : d.workshop.errands = [] → ∀ key,
    ((d.next m (.execute key)).sent m).site = (d.site.execute key).2
  /-- A transaction that executes is cancelled. -/
  cancel : d.workshop.errands = [] → ∀ key t, d.transactions[key]? = some t →
    t.phase = .executing →
    (((d.next m (.conclude key)).next m (.elsewhere (.cancel t.client))).sent m).site =
      (d.site.cancelTransaction key).2
  /-- A transaction that does not execute refuses to be cancelled. -/
  refuse : ∀ key, (∀ t, d.transactions[key]? = some t → t.phase ≠ .executing) →
    (d.next m (.conclude key)).site = (d.site.cancelTransaction key).2
  /-- An item comes back to its transaction. -/
  giveBack : d.workshop.errands = [] → d.returned = false → ∀ j key,
    d.workshop.delivery = some ⟨j, some (some (.transaction key))⟩ →
    ((d.next m .giveBack).sent m).site = d.site.returnToTransaction m key j.client j.item
  /-- The oldest finished job is delivered. A transaction that it goes to has to be there. -/
  deliver : d.workshop.errands = [] → d.workshop.delivery = none → d.returned = false →
    (∀ j rest key, d.workshop.pool.completed = j :: rest →
      d.workshop.pool.receiver? j.client = some (some (.transaction key)) →
      key < d.transactions.length) →
    (d.delivered m).site = d.site.deliver m

/-- Sending all mail concerns the workshop only. -/
theorem sent_eq (m : StorageManager σ) (d : TransactionLayer σ) :
    d.sent m = { d with workshop := d.workshop.sent m } := by
  have hruns (n : ℕ) (d : TransactionLayer σ) :
      (List.replicate n (.elsewhere .run)).foldl (next m) d =
        { d with workshop := (List.replicate n .run).foldl (Workshop.next m) d.workshop } := by
    induction n generalizing d with
    | zero => rfl
    | succ n ih => exact ih _
  exact hruns _ d

/-- With no mail to send the layer stays as it is. -/
theorem sent_of_calm (m : StorageManager σ) {d : TransactionLayer σ}
    (calm : d.workshop.errands = []) : d.sent m = d := by
  rw [sent_eq, Workshop.sent_of_calm m calm]

/-- A layer whose workshop comes to have the ground and the pool of a site is this site once the
mail is sent. -/
theorem site_sent_keep (m : StorageManager σ) (d : TransactionLayer σ) {s : Site σ}
    {y y' : Workshop Receiver σ} (hsent : y.sent m = y') (hscripts : s.scripts = [])
    (hground : y'.ground = s.ground) (hpool : y'.pool = s.pool) :
    ((d.keep s y).sent m).site = s := by
  obtain ⟨ground, pool, transactions, scripts, journal⟩ := s
  cases hscripts
  cases hground
  cases hpool
  rw [sent_eq, ← hsent]
  rfl

/-- Ending a transaction sends no mail. -/
theorem site_sent_keep_book (m : StorageManager σ) {d : TransactionLayer σ}
    (calm : d.workshop.errands = []) (key : ℕ) (x : Transaction × Option Report) :
    ((d.keep (d.site.book key x) d.workshop).sent m).site = d.site.book key x := by
  obtain ⟨hpool, hscripts⟩ := pool_book d.site key x
  exact site_sent_keep m d (Workshop.sent_of_calm m calm) hscripts (ground_book d.site key x).symm
    hpool.symm

/-- Executing a transaction and sending its mail is the call that executes it. -/
theorem sent_execute (m : StorageManager σ) {d : TransactionLayer σ}
    (calm : d.workshop.errands = []) (key : ℕ) :
    ((d.next m (.execute key)).sent m).site = (d.site.execute key).2 := by
  simp only [next, calm]
  cases found : d.transactions[key]? with
  | none =>
    rw [Site.execute_of_none (show d.site.transactions[key]? = none from found),
      sent_of_calm m calm]
  | some t =>
    have hfound : d.site.transactions[key]? = some t := found
    by_cases building : t.phase = .building
    · simp only [building, if_true]
      obtain ⟨hitems, hexecute⟩ | ⟨hitems, p, hsubmit, hexecute⟩ | ⟨-, e, hsubmit, hexecute⟩ :=
        Site.execute_eq hfound building
      · rw [hexecute, Workshop.next_submit_nil m d.workshop _ _ hitems]
        exact site_sent_keep_book m calm key _
      · have hanswered := Workshop.sent_submit m calm t.client (.transaction key) t.items
        rw [show d.workshop.pool.submit t.client (.transaction key) t.items = .ok p from hsubmit]
          at hanswered
        obtain ⟨log, hsent⟩ := hanswered
        rw [hexecute]
        exact site_sent_keep m d hsent rfl rfl rfl
      · rw [hexecute, Workshop.next_submit_error m _ hsubmit]
        exact site_sent_keep_book m calm key _
    · simp only [building, if_false]
      rw [Site.execute_of_ne hfound building]
      exact congrArg site (sent_of_calm m calm)

/-- A transaction's taking notice of an item and sending its mail is the call that returns the item
to the transaction. -/
theorem sent_giveBack (m : StorageManager σ) {d : TransactionLayer σ}
    (calm : d.workshop.errands = []) (fresh : d.returned = false) {key : ℕ} {j : Job}
    (delivery : d.workshop.delivery = some ⟨j, some (some (.transaction key))⟩) :
    ((d.next m .giveBack).sent m).site = d.site.returnToTransaction m key j.client j.item := by
  simp only [next, calm, delivery, fresh, Bool.false_eq_true, if_false, giveBack]
  cases found : d.transactions[key]? with
  | none =>
    unfold Site.returnToTransaction
    rw [show d.site.transactions[key]? = none from found]
    exact congrArg site (sent_of_calm m calm)
  | some t =>
    have hfound : d.site.transactions[key]? = some t := found
    simp only
    by_cases hphase : t.phase = .executing
    · obtain ⟨p, g, hreceive⟩ := Site.receive_eq m d.site j.client j.item
      have hpool := Site.pool_receive m d.site j.client j.item
      rw [Site.returnToTransaction_of_executing hfound hphase]
      generalize (d.site.receive m j.client j.item).1 = arrival at hpool ⊢
      rw [hreceive] at hpool ⊢
      obtain ⟨hpool', hscripts⟩ :=
        pool_book ({ d.site with pool := p, ground := g } : Site σ) key (t.arrive arrival)
      have hground := ground_book ({ d.site with pool := p, ground := g } : Site σ) key
        (t.arrive arrival)
      obtain ⟨rfl, hadd⟩ | ⟨hback, hsame⟩ := hpool
      · rw [if_pos ⟨hphase, rfl⟩]
        have hcalm : (d.workshop.next m (.change g)).errands = [] := calm
        have hanswered := Workshop.sent_addItem m hcalm j.client (Site.renewed m d.site j.item)
        rw [show (d.workshop.next m (.change g)).pool.addItem j.client
          (Site.renewed m d.site j.item) = .ok p from hadd] at hanswered
        obtain ⟨log, hsent⟩ := hanswered
        rw [hground]
        exact site_sent_keep m { d with returned := true } hsent hscripts hground.symm hpool'.symm
      · rw [if_neg fun h => hback h.2, hground]
        have hcalm : (d.workshop.next m (.change g)).errands = [] := calm
        refine site_sent_keep m { d with returned := true } (Workshop.sent_of_calm m hcalm)
          hscripts hground.symm ?_
        rw [hpool', hsame]
        rfl
    · rw [Site.returnToTransaction_of_ne hfound hphase, if_neg fun h => hphase h.1]
      exact congrArg site (sent_of_calm m (d := { d.keep _ _ with returned := true }) calm)

/-- Ending a transaction as cancelled, having its items cancelled, and sending the mail is the call
that cancels it. -/
theorem sent_conclude (m : StorageManager σ) {d : TransactionLayer σ}
    (calm : d.workshop.errands = []) {key : ℕ}
    {t : Transaction} (found : d.transactions[key]? = some t) (executing : t.phase = .executing) :
    (((d.next m (.conclude key)).next m (.elsewhere (.cancel t.client))).sent m).site =
      (d.site.cancelTransaction key).2 := by
  have hfound : d.site.transactions[key]? = some t := found
  have hanswered := Workshop.sent_cancel m calm t.client
  have hnext : (d.next m (.conclude key)).next m (.elsewhere (.cancel t.client)) =
      d.keep (d.site.book key (t.conclude .cancelled))
        (d.workshop.next m (.cancel t.client)) := by
    simp only [next, found, executing, if_true, act]
    rfl
  simp only [hnext, Site.cancelTransaction, hfound, executing, ne_eq, not_true_eq_false, if_false]
  cases hcancel : d.workshop.pool.cancel t.client with
  | error e =>
    rw [hcancel] at hanswered
    obtain ⟨hpool, hscripts⟩ := pool_book d.site key (t.conclude .cancelled)
    rw [show d.site.pool.cancel t.client = .error e from hcancel]
    exact site_sent_keep m d hanswered hscripts (ground_book d.site key _).symm hpool.symm
  | ok p =>
    rw [hcancel] at hanswered
    obtain ⟨log, hsent⟩ := hanswered
    obtain ⟨hpool, hscripts⟩ :=
      pool_book ({ d.site with pool := p } : Site σ) key (t.conclude .cancelled)
    have hground := ground_book ({ d.site with pool := p } : Site σ) key (t.conclude .cancelled)
    rw [show d.site.pool.cancel t.client = .ok p from hcancel,
      ← keep_book d p d.workshop.ground key]
    exact site_sent_keep m d hsent hscripts hground.symm hpool.symm

/-- A transaction that does not execute is not cancelled. -/
theorem site_conclude (m : StorageManager σ) {d : TransactionLayer σ} {key : ℕ}
    (hidle : ∀ t, d.transactions[key]? = some t → t.phase ≠ .executing) :
    (d.next m (.conclude key)).site = (d.site.cancelTransaction key).2 := by
  unfold Site.cancelTransaction
  simp only [next, show d.site.transactions[key]? = d.transactions[key]? from rfl]
  cases found : d.transactions[key]? with
  | none => rfl
  | some t => simp [hidle t found]

/-- Adding items to a transaction sends no mail. -/
theorem site_add (m : StorageManager σ) (d : TransactionLayer σ) (key : ℕ) (items : List Item) :
    (d.next m (.add key items)).site = (d.site.addToTransaction m key items).2 := by
  simp only [next]
  cases found : d.transactions[key]? with
  | none =>
    rw [Site.addToTransaction_of_none (show d.site.transactions[key]? = none from found)]
    rfl
  | some t =>
    have hfound : d.site.transactions[key]? = some t := found
    by_cases hphase : t.phase = .building
    · obtain ⟨g, kept, hadd⟩ := Site.addToTransaction_of_building (m := m) hfound hphase items
      rw [hadd]
      rfl
    · rw [Site.addToTransaction_of_ne hfound hphase]
      rfl

/-- A job whose receiver has returned is struck off. -/
theorem site_strike (m : StorageManager σ) {d : TransactionLayer σ} {j : Job}
    {r : Option Receiver} (delivery : d.workshop.delivery = some ⟨j, some r⟩)
    (ready : d.waits = false) : (d.next m (.elsewhere .strike)).site =
      { d.site with pool := d.site.pool.strike j } := by
  simp only [next, act, ready, Bool.false_eq_true, if_false, Workshop.next, delivery]
  rfl

/-- Once a transaction has taken notice of an item the loop goes on. -/
theorem ready_sent_giveBack (m : StorageManager σ) {d : TransactionLayer σ}
    (calm : d.workshop.errands = []) (fresh : d.returned = false) {key : ℕ} {j : Job}
    (delivery : d.workshop.delivery = some ⟨j, some (some (.transaction key))⟩) {t : Transaction}
    (found : d.transactions[key]? = some t) :
    ((d.next m .giveBack).sent m).workshop.delivery = d.workshop.delivery ∧
      ((d.next m .giveBack).sent m).waits = false := by
  have hchange (g : Surroundings σ) :
      (d.workshop.next m (.change g)).delivery = some ⟨j, some (some (.transaction key))⟩ :=
    delivery
  have hsame : (d.next m .giveBack).workshop.delivery =
      some ⟨j, some (some (.transaction key))⟩ ∧ (d.next m .giveBack).returned = true := by
    simp only [next, calm, delivery, fresh, Bool.false_eq_true, if_false, giveBack, found]
    refine ⟨?_, trivial⟩
    unfold keep
    split
    · exact (Workshop.effect_next m _ _).delivery_eq (by rintro ⟨⟩) (hchange _)
    · exact hchange _
  obtain ⟨hdelivery, hreturned⟩ := hsame
  have hsent : ((d.next m .giveBack).sent m).workshop.delivery =
      some ⟨j, some (some (.transaction key))⟩ := by
    rw [sent_eq, Workshop.delivery_sent]
    exact hdelivery
  refine ⟨hsent.trans delivery.symm, ?_⟩
  unfold waits
  rw [hsent, sent_eq, hreturned]
  rfl

/-- Without an item for a transaction nothing is taken notice of. -/
theorem next_giveBack_of_ready (m : StorageManager σ) {d : TransactionLayer σ}
    (hno : ∀ j key, d.workshop.delivery ≠ some ⟨j, some (some (.transaction key))⟩) :
    d.next m .giveBack = d ∧ d.waits = false := by
  constructor
  · simp only [next]
    split
    · rename_i j key _ hdelivery
      exact absurd hdelivery (hno j key)
    · rfl
  · unfold waits
    split
    · rename_i j key hdelivery
      exact absurd hdelivery (hno j key)
    · rfl

/-- The oldest finished job is fetched and goes to its receiver, if it has one. -/
theorem next_fetch_address (m : StorageManager σ) {d : TransactionLayer σ}
    (free : d.workshop.delivery = none) {j : Job} {rest : List Job}
    (completed : d.workshop.pool.completed = j :: rest) :
    ∃ log, (d.next m (.elsewhere .fetch)).next m (.elsewhere .address) = { d with
      workshop := { d.workshop with
        pool := { d.workshop.pool with completed := rest }
        delivery := (d.workshop.pool.receiver? j.client).map fun r => ⟨j, some r⟩
        log := log } } := by
  have hfetch : d.workshop.next m .fetch = { d.workshop with
      pool := { d.workshop.pool with completed := rest }, delivery := some ⟨j, none⟩ } := by
    simp only [Workshop.next, free, Pool.takeCompleted, completed]
  have hreceiver : ({ d.workshop.pool with completed := rest } : Pool Receiver).receiver? j.client =
    d.workshop.pool.receiver? j.client := rfl
  simp only [next, act, hfetch]
  simp only [Workshop.next, hreceiver]
  cases d.workshop.pool.receiver? j.client <;> exact ⟨_, rfl⟩

/-- Delivering the oldest finished job, seen from its receiver. -/
theorem deliver_eq (m : StorageManager σ) (s : Site σ) {j : Job} {rest : List Job}
    (completed : s.pool.completed = j :: rest) :
    s.deliver m = match s.pool.receiver? j.client with
      | none => { s with pool := { s.pool with completed := rest } }
      | some none => { s with pool := ({ s.pool with completed := rest } : Pool Receiver).strike j }
      | some (some receiver) =>
        let fetched : Site σ := { s with pool := { s.pool with completed := rest } }
        let s' := fetched.handTo m receiver j
        { s' with pool := s'.pool.strike j } := by
  unfold Site.deliver Pool.takeCompleted
  rw [completed]
  rfl

/-- With no job in delivery there is nothing to take notice of and nothing to strike off. -/
theorem site_struckOff_of_free (m : StorageManager σ) {d : TransactionLayer σ}
    (calm : d.workshop.errands = []) (free : d.workshop.delivery = none) :
    (d.struckOff m).site = d.site := by
  obtain ⟨hback, hready⟩ := next_giveBack_of_ready m (d := d) fun j key => by
    rw [free]
    exact (Option.some_ne_none _).symm
  rw [struckOff, hback, sent_of_calm m calm]
  simp only [next, act, hready, Workshop.next, free, Bool.false_eq_true, if_false]
  rfl

/-- A job that was handed over is struck off once its receiver has returned. -/
theorem site_struckOff_of_handed (m : StorageManager σ) {d : TransactionLayer σ}
    (calm : d.workshop.errands = []) (fresh : d.returned = false) {j : Job} {r : Option Receiver}
    (delivery : d.workshop.delivery = some ⟨j, some r⟩)
    (known : ∀ key, r = some (.transaction key) → key < d.transactions.length) :
    (d.struckOff m).site =
      let s := match r with
        | none => d.site
        | some receiver => d.site.handTo m receiver j
      { s with pool := s.pool.strike j } := by
  -- A receiver that is no transaction does nothing.
  have hquiet (hno : ∀ key, r ≠ some (.transaction key)) :
      (d.struckOff m).site = { d.site with pool := d.site.pool.strike j } := by
    obtain ⟨hback, hready⟩ := next_giveBack_of_ready m (d := d) fun j' key heq => by
      rw [delivery] at heq
      cases heq
      exact hno key rfl
    rw [struckOff, hback, sent_of_calm m calm, site_strike m delivery hready]
  cases r with
  | none => exact hquiet (by simp)
  | some receiver =>
    cases receiver with
    | nobody => exact hquiet (by simp)
    | script key => exact hquiet (by simp)
    | transaction key =>
      have found := List.getElem?_eq_getElem (known key rfl)
      obtain ⟨hdelivery, hready⟩ := ready_sent_giveBack m calm fresh delivery found
      rw [struckOff, site_strike m (hdelivery.trans delivery) hready,
        sent_giveBack m calm fresh delivery]
      rfl

/-- Fetching the oldest finished job, handing it over and striking it off is delivering it. -/
theorem sent_deliver (m : StorageManager σ) {d : TransactionLayer σ}
    (calm : d.workshop.errands = []) (free : d.workshop.delivery = none)
    (fresh : d.returned = false)
    (known : ∀ j rest key, d.workshop.pool.completed = j :: rest →
      d.workshop.pool.receiver? j.client = some (some (.transaction key)) →
      key < d.transactions.length) :
    (d.delivered m).site = d.site.deliver m := by
  unfold delivered
  cases completed : d.workshop.pool.completed with
  | nil =>
    have hnone : d.workshop.pool.takeCompleted = none := by
      unfold Pool.takeCompleted
      rw [completed]
    have hfetch : d.next m (.elsewhere .fetch) = d := by
      simp only [next, act, Workshop.next, free, hnone]
    have haddress : d.next m (.elsewhere .address) = d := by
      simp only [next, act, Workshop.next, free]
    have hdeliver : d.site.deliver m = d.site := by
      unfold Site.deliver
      rw [show d.site.pool.takeCompleted = none from hnone]
    rw [hfetch, haddress, site_struckOff_of_free m calm free, hdeliver]
  | cons j rest =>
    obtain ⟨log, haddressed⟩ := next_fetch_address m free completed
    rw [haddressed, deliver_eq m d.site completed,
      show d.site.pool.receiver? j.client = d.workshop.pool.receiver? j.client from rfl]
    cases hreceiver : d.workshop.pool.receiver? j.client with
    | none => exact site_struckOff_of_free m calm rfl
    | some r =>
      have hknown (key : ℕ) (hr : r = some (.transaction key)) : key < d.transactions.length :=
        known j rest key completed (hreceiver.trans (congrArg some hr))
      refine (site_struckOff_of_handed m (j := j) (r := r) ?_ ?_ ?_ ?_).trans ?_
      · exact calm
      · exact fresh
      · rfl
      · exact hknown
      · cases r <;> rfl

/-- Whatever state a layer is in, its deeds are the calls of its site. -/
theorem uninterrupted (m : StorageManager σ) (d : TransactionLayer σ) : d.Uninterrupted m where
  workshop := d.workshop.uninterrupted m
  openTransaction := rfl
  add := site_add m d
  execute calm := sent_execute m calm
  cancel calm _ _ := sent_conclude m calm
  refuse _ := site_conclude m
  giveBack calm fresh _ _ := sent_giveBack m calm fresh
  deliver := sent_deliver m

end TransactionLayer

end Haulage
