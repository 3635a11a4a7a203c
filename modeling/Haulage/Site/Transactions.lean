import Haulage.Site.Basic

/-!
# Transactions at a site

How transactions act on the pool and the file tree. An item that comes back to
an executing transaction is counted, or put back for another attempt; the books
are kept by `Transaction.arrive`.
-/

namespace Haulage

/-- Why a transaction was not executed. -/
inductive ExecuteError where
  | alreadyStarted (c : ClientId)
  /-- The pool did not take the items. -/
  | refused (e : PoolError)
  deriving Repr, DecidableEq

namespace Site

variable {σ : Type}

/-- Replace a transaction. -/
def setTransaction (s : Site σ) (key : Nat) (t : Transaction) : Site σ :=
  { s with transactions := s.transactions.set key t }

/-- Replace a transaction and write what it reports, if anything, into the journal. -/
def book (s : Site σ) (key : Nat) (x : Transaction × Option Report) : Site σ :=
  let s' := s.setTransaction key x.1
  match x.2 with
  | none => s'
  | some r => s'.note (.reported key r)

/-- Begin a transaction; its number is answered too. -/
def openTransaction (s : Site σ) : ClientId × Nat × Site σ :=
  let (c, s') := s.newClient
  (c, s'.transactions.length, { s' with transactions := s'.transactions ++ [.create c] })

/-- Check an item for a transaction, allocating its destination if needed. -/
def enlist (m : StorageManager σ) (s : Site σ) (i : Item) : Except ItemError Unit × Item × Site σ :=
  let (r, i', storage, tree) := i.enlist m s.ground.storage s.ground.tree
  (r, i', { s with ground := ⟨tree, storage⟩ })

/-- Check items one by one and answer those that pass. -/
def enlistAll (m : StorageManager σ) : Site σ → List Item → List Item × Site σ
  | s, [] => ([], s)
  | s, i :: rest => match s.enlist m i with
    | (.ok (), i', s') =>
      let (kept, s'') := enlistAll m s' rest
      (i' :: kept, s'')
    | (.error _, _, s') => enlistAll m s' rest

/-- Add items to a transaction that has not started. The number of those kept is answered. -/
def addToTransaction (m : StorageManager σ) (s : Site σ) (key : Nat) (items : List Item) :
    Nat × Site σ :=
  match s.transactions[key]? with
  | none => (0, s)
  | some t =>
    if t.phase ≠ .building then (0, s)
    else
      let (kept, s') := s.enlistAll m items
      (kept.length, s'.setTransaction key { t with items := t.items ++ kept })

/-- Execute a transaction. One without items fails at once; so does one whose items the pool
does not take. -/
def execute (s : Site σ) (key : Nat) : Except ExecuteError Unit × Site σ :=
  match s.transactions[key]? with
  | none => (.ok (), s)
  | some t =>
    if t.phase ≠ .building then (.error (.alreadyStarted t.client), s)
    else if t.items.isEmpty then (.ok (), s.book key (t.conclude .failure))
    else
      let (items, t') := t.begin
      match s.pool.submit t.client (.transaction key) items with
      | .ok p => (.ok (), { s with pool := p }.setTransaction key t')
      | .error e => (.error (.refused e), s.book key (t'.conclude .failure))

/-- Cancel an executing transaction. The answer says whether it was executing. -/
def cancelTransaction (s : Site σ) (key : Nat) : Bool × Site σ :=
  match s.transactions[key]? with
  | none => (false, s)
  | some t =>
    if t.phase ≠ .executing then (false, s)
    else
      let s' := match s.pool.cancel t.client with
        | .ok p => { s with pool := p }
        | .error _ => s
      (true, s'.book key (t.conclude .cancelled))

/-- Put an item back for another attempt, with a new destination. The answer says whether that
was possible. -/
def resubmit (m : StorageManager σ) (s : Site σ) (c : ClientId) (i : Item) : Bool × Site σ :=
  if !i.isAuto || i.resubmits ≥ s.pool.settings.maxResubmits then (false, s)
  else
    let (i, tree) := i.reset s.ground.tree
    match ({ s with ground := { s.ground with tree := tree } } : Site σ).enlist m i with
    | (.error _, _, s') => (false, s')
    | (.ok (), i', s') => match s'.pool.addItem c i' with
      | .error _ => (false, s')
      | .ok p => (true, { s' with pool := p })

/-- Do what an item that came back to an executing transaction asks for, and say how it is to be
counted. -/
def receive (m : StorageManager σ) (s : Site σ) (c : ClientId) (i : Item) : Arrival × Site σ :=
  match i.state with
  | .done =>
    let (_, tree) := i.completeMove s.ground.tree
    (.done i.bytes, { s with ground := { s.ground with tree := tree } })
  | .failed => (.failed i.bytes, s)
  | state =>
    if state.isResubmittable then
      match s.resubmit m c i with
      | (true, s') => (.putBack, s')
      | (false, s') => (.failed 0, s')
    else (.failed 0, s)

/-- An item comes back to its transaction. One that has ended only counts what is outstanding. -/
def returnToTransaction (m : StorageManager σ) (s : Site σ) (key : Nat) (c : ClientId)
    (i : Item) : Site σ :=
  match s.transactions[key]? with
  | none => s
  | some t =>
    if t.phase ≠ .executing then
      s.setTransaction key { t with outstanding := t.outstanding - 1 }
    else
      let (a, s') := s.receive m c i
      s'.book key (t.arrive a)

end Site

end Haulage
