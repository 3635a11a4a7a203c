import Haulage.Site.Transactions

/-!
# Delivery

Finished items are delivered one after the other: the receiver of the client is
handed the item and may make requests, and only then is the item struck off the
client's account. Items of a client without an account are dropped, and so are
those of a client whose receiver was forgotten.
-/

namespace Haulage

namespace Site

variable {σ : Type}

/-- The item that was handed over, as long as the client has it. -/
abbrev InHand := Option Item

/-- Grant a request of the client `own`, or refuse it. -/
def grant (own : ClientId) (s : Site σ) (hand : InHand) : Request → Answer × Site σ × InHand
  | .outstanding => (.count (s.pool.outstanding own), s, hand)
  | .detach => (.granted, { s with pool := s.pool.detach own }, hand)
  | .newClient =>
    let (c, s') := s.newClient
    (.client c, s', hand)
  | .add i => match s.call (s.pool.addItem own i) with
    | (.ok (), s') => (.granted, s', hand)
    | (.error e, s') => (.refused e, s', hand)
  | .submit c items => match s.call (s.pool.submit c .nobody items) with
    | (.ok (), s') => (.granted, s', hand)
    | (.error e, s') => (.refused e, s', hand)
  | .again => match hand with
    | none => (.itemGone, s, none)
    | some i =>
      let (i', tree) := i.reset s.ground.tree
      let s' : Site σ := { s with ground := { s.ground with tree := tree } }
      match s'.call (s'.pool.addItem own i') with
      | (.ok (), s'') => (.granted, s'', none)
      | (.error e, s'') => (.refused e, s'', none)
  | .completeMove => match hand with
    | none => (.itemGone, s, none)
    | some i => match i.completeMove s.ground.tree with
      | (.ok (), tree) => (.granted, { s with ground := { s.ground with tree := tree } }, hand)
      | (.error e, tree) => (.failed e, { s with ground := { s.ground with tree := tree } }, hand)

/-- Grant or refuse requests in turn. -/
def grantAll (own : ClientId) (s : Site σ) (hand : InHand) : List Request → List Answer × Site σ
  | [] => ([], s)
  | r :: rest =>
    let (a, s', hand') := s.grant own hand r
    let (as, s'') := grantAll own s' hand' rest
    (a :: as, s'')

/-- Hand an item over to a client that follows a script. -/
def handToScript (s : Site σ) (key : Nat) (c : ClientId) (i : Item) : Site σ :=
  match s.scripts[key]? with
  | none => s
  | some script =>
    let s' := { s with scripts := s.scripts.set key { script with calls := script.calls + 1 } }
    match script.plan.lookup script.calls with
    | none => s'.note (.delivered c i none)
    | some requests =>
      let (answers, s'') := s'.grantAll c (some i) requests
      s''.note (.delivered c i (some answers))

/-- Hand an item over to a receiver. -/
def handTo (m : StorageManager σ) (s : Site σ) (receiver : Receiver) (j : Job) : Site σ :=
  match receiver with
  | .nobody => s
  | .script key => s.handToScript key j.client j.item
  | .transaction key => s.returnToTransaction m key j.client j.item

/-- Deliver the oldest finished job, if there is one. -/
def deliver (m : StorageManager σ) (s : Site σ) : Site σ :=
  match s.pool.takeCompleted with
  | none => s
  | some (j, p) =>
    let s' := { s with pool := p }
    match p.receiver? j.client with
    | none => s'
    | some none => { s' with pool := s'.pool.strike j }
    | some (some receiver) =>
      let s'' := s'.handTo m receiver j
      { s'' with pool := s''.pool.strike j }

/-- Deliver so many finished jobs. -/
def deliverMany (m : StorageManager σ) : Nat → Site σ → Site σ
  | 0, s => s
  | n + 1, s => deliverMany m n (s.deliver m)

/-- Take notice of the wakeup, and deliver the jobs that are finished. -/
def process (m : StorageManager σ) (s : Site σ) : Site σ :=
  let s' := { s with pool := { s.pool with wakeup := s.pool.wakeup.acknowledge } }
  s'.deliverMany m s'.pool.completed.length

/-! ## Driving the loop -/

/-- What is waited for. -/
inductive Goal where
  /-- So many entries are in the journal. -/
  | notices (n : Nat)
  /-- The transaction of this number put so many items back. -/
  | resubmitted (key n : Nat)
  /-- All clients together have so many items outstanding. -/
  | left (n : Nat)
  deriving Repr, DecidableEq

/-- The items that all clients of the pool together have outstanding. A number that the pool has
not given to a client does not count. -/
def outstandingInAll (s : Site σ) : Nat :=
  (List.range' 1 (s.pool.nextClient - 1)).foldl (fun total n => total + s.pool.outstanding ⟨n⟩) 0

/-- Is the goal reached? -/
def reached (s : Site σ) : Goal → Bool
  | .notices n => s.journal.length ≥ n
  | .resubmitted key n => match s.transactions[key]? with
    | none => true
    | some t => t.summary.resubmitted ≥ n
  | .left n => s.outstandingInAll = n

/-- Let the workers work and deliver what they finish, until the goal is reached or nothing comes
any more, for at most so many rounds. -/
def pump (m : StorageManager σ) (goal : Goal) : Nat → Site σ → Site σ
  | 0, s => s
  | rounds + 1, s =>
    if s.reached goal then s
    else
      let s' := s.settle m
      if s'.pool.completed.isEmpty then s' else pump m goal rounds (s'.process m)

end Site

end Haulage
