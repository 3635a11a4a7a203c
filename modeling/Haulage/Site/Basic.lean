import Haulage.Pool.Basic
import Haulage.Transaction.Basic

/-!
# The site

A site is everything that belongs together at one time: the file tree, the state
of the storage manager, the pool, and the transactions that use it. Finished
items of the pool go to a transaction, or to a client that follows a script; the
journal records what reached the clients and what transactions reported.
-/

namespace Haulage

open Disk (Path Tree)

/-- Who receives the finished items of a client. -/
inductive Receiver where
  /-- The transaction of this number. -/
  | transaction (key : Nat)
  /-- A client that follows the script of this number. -/
  | script (key : Nat)
  /-- Nobody: finished items are dropped. -/
  | nobody
  deriving Repr, DecidableEq

/-- What a client may ask for when it is handed a finished item. -/
inductive Request where
  /-- How many items are outstanding? -/
  | outstanding
  /-- No further items are to be handed over. -/
  | detach
  /-- One more item is to be taken on. -/
  | add (i : Item)
  /-- The item that was handed over is to be run again. -/
  | again
  /-- The source of the item that was handed over is to be removed, if it was to be moved. -/
  | completeMove
  /-- Items of another client are to be taken on, with nobody to receive them. -/
  | submit (c : ClientId) (items : List Item)
  /-- A new client is wanted. -/
  | newClient
  deriving Repr, DecidableEq

/-- The answer to a request. -/
inductive Answer where
  | granted
  | count (n : Nat)
  | client (c : ClientId)
  | refused (e : PoolError)
  | failed (e : ItemError)
  /-- The item that was handed over has been given away already. -/
  | itemGone
  deriving Repr, DecidableEq

/-- The requests that a client makes, by the number of items handed over to it before. -/
structure Script where
  plan : List (Nat × List Request)
  calls : Nat
  deriving Repr, DecidableEq

/-- An entry of the journal. -/
inductive Notice where
  /-- An item was handed over, and its client made requests if its script had any. -/
  | delivered (c : ClientId) (i : Item) (answers : Option (List Answer))
  /-- The transaction of this number ended. -/
  | reported (key : Nat) (r : Report)
  deriving Repr, DecidableEq

/-- A site whose storage manager keeps a state of type `σ`. -/
structure Site (σ : Type) where
  ground : Surroundings σ
  pool : Pool Receiver
  transactions : List Transaction
  scripts : List Script
  journal : List Notice
  deriving Repr

namespace Site

variable {σ : Type}

/-- A site before anything happens. -/
def create (ground : Surroundings σ) (settings : Settings) (loop : EventLoop) : Site σ :=
  ⟨ground, .create settings loop, [], [], []⟩

/-- Carry a call to the pool through, unless it is refused. -/
def call (s : Site σ) (r : Except PoolError (Pool Receiver)) : Except PoolError Unit × Site σ :=
  match r with
  | .ok p => (.ok (), { s with pool := p })
  | .error e => (.error e, s)

/-- A client that nobody has been before. -/
def newClient (s : Site σ) : ClientId × Site σ :=
  let (c, p) := s.pool.newClient
  (c, { s with pool := p })

/-- Submit items of a client that follows a script. -/
def submit (s : Site σ) (c : ClientId) (plan : List (Nat × List Request)) (items : List Item) :
    Except PoolError Unit × Site σ :=
  match s.pool.submit c (.script s.scripts.length) items with
  | .ok p => (.ok (), { s with pool := p, scripts := s.scripts ++ [⟨plan, 0⟩] })
  | .error e => (.error e, s)

/-- Let the workers go on until they come to rest. -/
def settle (m : StorageManager σ) (s : Site σ) : Site σ :=
  let (p, g) := s.pool.settle m s.ground
  { s with pool := p, ground := g }

/-- End the pool. -/
def shutdown (m : StorageManager σ) (s : Site σ) : Site σ :=
  let (p, g) := s.pool.shutdown m s.ground
  { s with pool := p, ground := g }

/-- Write an entry into the journal. -/
def note (s : Site σ) (n : Notice) : Site σ := { s with journal := s.journal ++ [n] }

/-- The journal so far, which starts anew. -/
def takeJournal (s : Site σ) : List Notice × Site σ := (s.journal, { s with journal := [] })

end Site

end Haulage
