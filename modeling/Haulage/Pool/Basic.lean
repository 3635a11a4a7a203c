import Haulage.Pool.Clients
import Haulage.Pool.EventLoop
import Haulage.Pool.Worker
import Haulage.Queue.Wakeup
import Haulage.Settings.Machine

/-!
# The pool

The pool spreads the items of its clients over a fixed crew of workers, each
with an inbox of its own that carries jobs and signals in the order in which
they were issued. Finished jobs come back through one queue, from which they are
delivered to the receivers of their clients.

The calls defined here are atomic. A call that is refused answers no new pool.
-/

namespace Haulage

open Disk (Path Tree)

/-- The life of a pool. -/
inductive PoolPhase where
  | idle
  | running
  | shutDown
  deriving Repr, DecidableEq

/-- A pool whose receivers are of type `κ`. -/
structure Pool (κ : Type) where
  settings : Settings
  phase : PoolPhase
  crew : List Worker
  buffer : BufferSize
  loop : EventLoop
  watcher : Option Watcher
  clients : Clients κ
  /-- The worker that gets the next job, counted on and on. -/
  cursor : UInt64
  /-- The number of the next client. Clients are counted without bound: a counter of 64 bits gives
  out the same numbers for the first `2 ^ 64` clients, which is more than are ever made. -/
  nextClient : Nat
  completed : List Job
  wakeup : Wakeup
  deriving Repr

/-- Why a pool could not be started. -/
inductive StartError where
  | refused (e : PoolError)
  /-- The event loop does not watch the pipe. -/
  | registration (why : String)
  deriving Repr, DecidableEq

namespace Pool

variable {κ : Type}

/-- A pool that has not been started. -/
def create (settings : Settings) (loop : EventLoop) : Pool κ where
  settings := settings
  phase := .idle
  crew := []
  buffer := ⟨BufferSize.least, by decide⟩
  loop := loop
  watcher := none
  clients := .none
  cursor := 0
  nextClient := 1
  completed := []
  wakeup := .idle

/-- The descriptor of the pool's wakeup pipe. -/
def descriptor : Nat := 0

/-- A client that nobody has been before. -/
def newClient (p : Pool κ) : ClientId × Pool κ :=
  (⟨p.nextClient⟩, { p with nextClient := p.nextClient + 1 })

/-! ## Beginning and end -/

/-- The pool with its crew at work. -/
def manned (m : Machine) (p : Pool κ) (loop : EventLoop) (watcher : Watcher) : Pool κ :=
  let count := p.settings.workerCount m
  { p with
    phase := .running
    crew := List.replicate count .fresh
    buffer := BufferSize.perWorker m.memory p.settings.bufferSize count
    loop := loop
    watcher := some watcher }

/-- Start the workers and have the pipe watched. -/
def start (m : Machine) (watcher : Watcher) (p : Pool κ) : Except StartError (Pool κ) :=
  match p.phase with
  | .running => .error (.refused .alreadyInitialized)
  | .shutDown => .error (.refused .shutDown)
  | .idle => match watcher with
    | .nobody => .ok (p.manned m p.loop .nobody)
    | .eventLoop => match p.loop.register descriptor with
      | .error why => .error (.registration why)
      | .ok loop => .ok (p.manned m loop .eventLoop)

/-- Is the pool running? -/
def checkRunning (p : Pool κ) : Except PoolError Unit :=
  match p.phase with
  | .running => .ok ()
  | .idle => .error .notInitialized
  | .shutDown => .error .shutDown

/-- The pool with a signal in every inbox. -/
def postAll (p : Pool κ) (s : Signal) : Pool κ :=
  { p with crew := p.crew.map (·.post (.signal s)) }

/-- The pool after its workers have ended: whatever is left with it is dropped, and the pipe is
no longer watched. -/
def dismissed (p : Pool κ) : Pool κ :=
  { p with
    crew := []
    completed := []
    clients := { p.clients with accounts := [] }
    loop := match p.watcher with
      | some .eventLoop => (p.loop.unregister descriptor).2
      | _ => p.loop
    watcher := none }

/-! ## Items and signals -/

/-- Put a job into the inbox of the next worker. -/
def dispatch (p : Pool κ) (j : Job) : Pool κ :=
  { p with
    crew := p.crew.modify (p.cursor.toNat % p.crew.length) (·.post (.job j))
    cursor := p.cursor + 1 }

/-- Dispatch items of a client, each with a tag of its own. -/
def dispatchAll (p : Pool κ) (c : ClientId) (items : List (Item × Tag)) : Pool κ :=
  items.foldl (fun p x => p.dispatch ⟨c, { x.1 with tag := some x.2 }⟩) p

/-- Take on the items of a client that has none outstanding. Finished ones go to the receiver. -/
def submit (p : Pool κ) (c : ClientId) (receiver : κ) (items : List Item) :
    Except PoolError (Pool κ) :=
  if (p.clients.find? c).isSome then .error (.clientExists c)
  else match p.checkRunning with
    | .error e => .error e
    | .ok () =>
      if items.isEmpty then .ok p
      else match p.clients.allocateTags items.length with
        | none => .error .tagsExhausted
        | some (tags, clients) =>
          let p' := { p with clients := clients.insert c ⟨items.length, some receiver, tags⟩ }
          .ok (p'.dispatchAll c (items.zip tags))

/-- Take on one more item of a client that has items outstanding. -/
def addItem (p : Pool κ) (c : ClientId) (i : Item) : Except PoolError (Pool κ) :=
  match p.checkRunning with
  | .error e => .error e
  | .ok () =>
    if (p.clients.find? c).isNone then .error (.unknownClient c)
    else match p.clients.allocateTags 1 with
      | some (tag :: _, clients) =>
        let opened := clients.update c fun a =>
          some { a with outstanding := a.outstanding + 1, tags := a.tags ++ [tag] }
        .ok (({ p with clients := opened } : Pool κ).dispatch ⟨c, { i with tag := some tag }⟩)
      | _ => .error .tagsExhausted

/-- Ask every worker to cancel each item that the client still has outstanding. -/
def cancel (p : Pool κ) (c : ClientId) : Except PoolError (Pool κ) :=
  match p.clients.find? c with
  | none => .error (.unknownClient c)
  | some account => match p.checkRunning with
    | .error e => .error e
    | .ok () => .ok (account.tags.foldl (fun p tag => p.postAll (.cancel tag)) p)

/-- Forget the receiver of a client. -/
def detach (p : Pool κ) (c : ClientId) : Pool κ :=
  { p with clients := p.clients.update c fun a => some { a with receiver := none } }

/-- How many items the client has outstanding. -/
def outstanding (p : Pool κ) (c : ClientId) : Nat :=
  match p.clients.find? c with
  | none => 0
  | some a => a.outstanding

/-- Send a signal to every worker. A pool that is not running drops it. -/
def broadcast (p : Pool κ) (s : Signal) : Pool κ :=
  if p.phase = .running then p.postAll s else p

/-- Tell the workers what the storage manager announces. -/
def announce (p : Pool κ) (e : MediaEvent) : Pool κ := p.broadcast (.ofEvent e)

/-! ## Finished items -/

/-- The pool with a job finished, and its loop woken. -/
def complete (p : Pool κ) (j : Job) : Pool κ :=
  { p with completed := p.completed ++ [j], wakeup := p.wakeup.notify }

/-- Take the oldest finished job. -/
def takeCompleted (p : Pool κ) : Option (Job × Pool κ) :=
  match p.completed with
  | [] => none
  | j :: rest => some (j, { p with completed := rest })

/-- Who receives the finished items of a client. A client without an account is a stranger. -/
def receiver? (p : Pool κ) (c : ClientId) : Option (Option κ) :=
  (p.clients.find? c).map (·.receiver)

/-- Strike a delivered item off the account of its client. -/
def strike (p : Pool κ) (j : Job) : Pool κ :=
  { p with clients := p.clients.update j.client (Clients.handBack j.item.tag) }

/-! ## Workers at work -/

variable {σ : Type}

/-- Let a worker go on until it comes to rest. -/
def settleWorker (m : StorageManager σ) (k : Nat) (p : Pool κ) (g : Surroundings σ) :
    Pool κ × Surroundings σ :=
  match p.crew[k]? with
  | none => (p, g)
  | some w =>
    let (w', g', finished) := w.settle m p.buffer g []
    (finished.foldl complete { p with crew := p.crew.set k w' }, g')

/-- Let all workers go on until they come to rest, one after the other. -/
def settle (m : StorageManager σ) (p : Pool κ) (g : Surroundings σ) : Pool κ × Surroundings σ :=
  (List.range p.crew.length).foldl (fun x k => settleWorker m k x.1 x.2) (p, g)

/-- Stop all workers, wait until they have ended, and drop whatever is left. -/
def shutdown (m : StorageManager σ) (p : Pool κ) (g : Surroundings σ) : Pool κ × Surroundings σ :=
  if p.phase = .running then
    let (p', g') := settle m ({ p with phase := .shutDown } |>.postAll .stop) g
    (p'.dismissed, g')
  else ({ p with phase := .shutDown }, g)

end Pool

end Haulage
