import Haulage.Proofs.Calls
import Haulage.Proofs.Turns
import Mathlib.Algebra.Order.Group.Multiset
import Mathlib.Data.Multiset.Filter
import Mathlib.Tactic.Abel

/-!
# The workshop

A workshop is a pool together with all that goes on around it at the same time: calls that are under
way, workers, and the loop that delivers finished jobs one by one. An act is the least that can
happen at once, and a run of the workshop is any sequence of acts.

A call of the pool changes the table of clients at once, but its mail goes out piece by piece, as
errands, and anything except another such call may come between two of them.

A job that was fetched for delivery is first addressed, which is when its receiver is handed the
item, and later struck off. Whatever the receiver does happens in between, and is made of acts like
everything else.

`Workshop.Effect` says what an act can do, one constructor for each kind of effect, and
`Workshop.effect_next` that there is nothing else. `Workshop.inFlight` counts the jobs in flight,
wherever they are.
-/

namespace Haulage

/-! ## The log -/

/-- An entry of the log that is kept of a workshop. -/
inductive Entry (κ : Type) where
  /-- An account was opened for a client, with this receiver. -/
  | opened (c : ClientId) (receiver : κ)
  /-- A job was taken on. -/
  | taken (j : Job)
  /-- The items of a client were asked to be cancelled. -/
  | cancelled (c : ClientId)
  /-- The receiver of a client was forgotten. -/
  | detached (c : ClientId)
  /-- A worker finished a job. -/
  | finished (j : Job)
  /-- A job was handed to the receiver of its client, or dropped since that was forgotten. -/
  | handed (j : Job) (receiver : Option κ)
  /-- A job was struck off the account of its client. -/
  | struck (j : Job)
  /-- A job was dropped because its client has no account. -/
  | stray (j : Job)
  deriving Repr

/-! ## The workshop and its acts -/

/-- A finished job on its way to its receiver. -/
structure Delivery (κ : Type) where
  job : Job
  /-- Who receives the item, which is nobody once the receiver was forgotten. The job has not been
  addressed before that is looked up. -/
  addressee : Option (Option κ)
  deriving Repr

/-- A pool with everything that goes on around it. The log has the latest entry first. -/
structure Workshop (κ σ : Type) where
  pool : Pool κ
  ground : Surroundings σ
  errands : List Errand
  delivery : Option (Delivery κ)
  log : List (Entry κ)
  deriving Repr

/-- What may happen at once. A call that is refused changes nothing, and so does an act for which it
is too early or too late. -/
inductive Act (κ σ : Type) where
  | start (m : Machine) (watcher : Watcher)
  | newClient
  | submit (c : ClientId) (receiver : κ) (items : List Item)
  | addItem (c : ClientId) (i : Item)
  | cancel (c : ClientId)
  | detach (c : ClientId)
  | broadcast (s : Signal)
  /-- The pool is shut down: its workers are told to stop. -/
  | stop
  /-- The pool is shut down, all workers have ended, and what is left is dropped. -/
  | dismiss
  /-- The next errand is done. -/
  | run
  /-- A worker takes a step. -/
  | work (k : Nat)
  /-- Others change the file tree or the storage. -/
  | change (g : Surroundings σ)
  /-- The loop takes notice of a wakeup. -/
  | acknowledge
  /-- The loop fetches a finished job. -/
  | fetch
  /-- The loop looks up the receiver of the job and hands the item over. -/
  | address
  /-- The loop strikes the job off the account of its client. -/
  | strike

/-- Has the worker ended? -/
def Worker.isGone (w : Worker) : Bool :=
  match w.duty with
  | .gone => true
  | .idle | .received _ | .preparing _ | .running _ => false

namespace Workshop

variable {κ σ : Type}

/-- The workshop before anything happens. -/
def create (settings : Settings) (loop : EventLoop) (ground : Surroundings σ) : Workshop κ σ :=
  ⟨.create settings loop, ground, [], none, []⟩

/-- The workshop after a call changed the table and took on jobs, which are still to be
dispatched. -/
def take (y : Workshop κ σ) (clients : Clients κ) (jobs : List Job) (entries : List (Entry κ)) :
    Workshop κ σ :=
  { y with
    pool := { y.pool with clients := clients }
    errands := jobs.map .dispatch
    log := (jobs.map Entry.taken).reverse ++ entries ++ y.log }

/-- The workshop after a worker took a step. -/
def worked (y : Workshop κ σ) (k : Nat) (r : StepResult σ) : Workshop κ σ :=
  { y with
    pool := r.finished.toList.foldl Pool.complete { y.pool with crew := y.pool.crew.set k r.worker }
    ground := r.surroundings
    log := r.finished.toList.map Entry.finished ++ y.log }

/-- The workshop after an act. Calls that send mail wait for one another. -/
def next (m : StorageManager σ) (y : Workshop κ σ) : Act κ σ → Workshop κ σ
  | .start machine watcher => match y.errands, y.pool.start machine watcher with
    | [], .ok p => { y with pool := p }
    | _, _ => y
  | .newClient => { y with pool := y.pool.newClient.2 }
  | .submit c receiver items => match y.errands, y.pool.submit c receiver items with
    | [], .ok p =>
      if items.isEmpty then y
      else y.take p.clients (y.pool.tagged c items) [.opened c receiver]
    | _, _ => y
  | .addItem c i => match y.errands, y.pool.addItem c i with
    | [], .ok p => y.take p.clients (y.pool.tagged c [i]) []
    | _, _ => y
  | .cancel c => match y.errands, y.pool.clients.find? c, y.pool.cancel c with
    | [], some a, .ok _ =>
      { y with errands := y.pool.cancellings a.tags, log := .cancelled c :: y.log }
    | _, _, _ => y
  | .detach c => { y with pool := y.pool.detach c, log := .detached c :: y.log }
  | .broadcast s => match y.errands, y.pool.phase with
    | [], .running => { y with errands := y.pool.postings s }
    | _, _ => y
  | .stop => match y.errands, y.pool.phase with
    | [], .running =>
      { y with pool := { y.pool with phase := .shutDown }, errands := y.pool.postings .stop }
    | [], _ => { y with pool := { y.pool with phase := .shutDown } }
    | _, _ => y
  | .dismiss => match y.errands, y.pool.phase with
    | [], .shutDown =>
      if y.pool.crew.all Worker.isGone then { y with pool := y.pool.dismissed } else y
    | _, _ => y
  | .run => match y.errands with
    | [] => y
    | e :: rest => { y with pool := y.pool.run e, errands := rest }
  | .work k => match y.pool.crew[k]? with
    | none => y
    | some w => match w.step m y.pool.buffer y.ground with
      | none => y
      | some r => y.worked k r
  | .change g => { y with ground := g }
  | .acknowledge => { y with pool := { y.pool with wakeup := y.pool.wakeup.acknowledge } }
  | .fetch => match y.delivery, y.pool.takeCompleted with
    | none, some (j, p) => { y with pool := p, delivery := some ⟨j, none⟩ }
    | _, _ => y
  | .address => match y.delivery with
    | some ⟨j, none⟩ => match y.pool.receiver? j.client with
      | none => { y with delivery := none, log := .stray j :: y.log }
      | some r => { y with delivery := some ⟨j, some r⟩, log := .handed j r :: y.log }
    | _ => y
  | .strike => match y.delivery with
    | some ⟨j, some _⟩ =>
      { y with pool := y.pool.strike j, delivery := none, log := .struck j :: y.log }
    | _ => y

/-- The workshop after some acts. -/
def after (m : StorageManager σ) (settings : Settings) (loop : EventLoop)
    (ground : Surroundings σ) (acts : List (Act κ σ)) : Workshop κ σ :=
  acts.foldl (next m) (create settings loop ground)

/-- One more act comes last. -/
theorem after_concat (m : StorageManager σ) (settings : Settings) (loop : EventLoop)
    (ground : Surroundings σ) (acts : List (Act κ σ)) (a : Act κ σ) :
    after m settings loop ground (acts ++ [a]) = (after m settings loop ground acts).next m a :=
  List.foldl_concat _ _ _ _

/-! ## Effects of acts -/

/-- What an act does to a workshop. -/
inductive Effect (m : StorageManager σ) (y : Workshop κ σ) : Act κ σ → Workshop κ σ → Prop
  /-- A call is refused, or has to wait; or it is too early or too late for the act. -/
  | nothing (a : Act κ σ) : Effect m y a y
  /-- Something happens that has nothing to do with jobs, clients and signals. -/
  | aside {a : Act κ σ} {p : Pool κ} {g : Surroundings σ} (stays : a ≠ .dismiss)
      (clients : p.clients = y.pool.clients) (crew : p.crew = y.pool.crew)
      (completed : p.completed = y.pool.completed) (phase : p.phase = y.pool.phase) :
      Effect m y a { y with pool := p, ground := g }
  /-- The pool is started. -/
  | started {machine : Machine} {watcher : Watcher} {p : Pool κ} (calm : y.errands = [])
      (start : y.pool.start machine watcher = .ok p) :
      Effect m y (.start machine watcher) { y with pool := p }
  /-- Items of a client without an account are taken on. -/
  | opened {c : ClientId} {receiver : κ} {items : List Item} {tags : List Tag}
      {clients : Clients κ} (calm : y.errands = []) (running : y.pool.phase = .running)
      (unknown : y.pool.clients.find? c = none)
      (items_ne : items ≠ [])
      (allocated : y.pool.clients.allocateTags items.length = some (tags, clients)) :
      Effect m y (.submit c receiver items)
        (y.take (clients.insert c ⟨items.length, some receiver, tags⟩)
          (Pool.tagging c items tags) [.opened c receiver])
  /-- An item of a client with an account is taken on. -/
  | added {c : ClientId} {i : Item} {a : Account κ} {tag : Tag} {clients : Clients κ}
      (calm : y.errands = []) (running : y.pool.phase = .running)
      (known : y.pool.clients.find? c = some a)
      (allocated : y.pool.clients.allocateTags 1 = some ([tag], clients)) :
      Effect m y (.addItem c i)
        (y.take (clients.update c (Account.oneMore tag)) (Pool.tagging c [i] [tag]) [])
  /-- The items of a client are to be cancelled. -/
  | cancelled {c : ClientId} {a : Account κ} (calm : y.errands = [])
      (running : y.pool.phase = .running) (known : y.pool.clients.find? c = some a) :
      Effect m y (.cancel c)
        { y with errands := y.pool.cancellings a.tags, log := .cancelled c :: y.log }
  /-- The receiver of a client is forgotten. -/
  | detached (c : ClientId) : Effect m y (.detach c)
      { y with pool := y.pool.detach c, log := .detached c :: y.log }
  /-- A signal is to be sent to all workers. -/
  | told {s : Signal} (calm : y.errands = []) (running : y.pool.phase = .running) :
      Effect m y (.broadcast s) { y with errands := y.pool.postings s }
  /-- A running pool is shut down. -/
  | stopped (calm : y.errands = []) (running : y.pool.phase = .running) :
      Effect m y .stop
        { y with pool := { y.pool with phase := .shutDown }, errands := y.pool.postings .stop }
  /-- A pool that does not run is shut down. -/
  | retired (calm : y.errands = []) (resting : y.pool.phase ≠ .running) :
      Effect m y .stop { y with pool := { y.pool with phase := .shutDown } }
  /-- The workers of a pool that was shut down have ended. -/
  | dismissed (calm : y.errands = []) (down : y.pool.phase = .shutDown)
      (gone : y.pool.crew.all Worker.isGone) :
      Effect m y .dismiss { y with pool := y.pool.dismissed }
  /-- An errand is done. -/
  | ran {e : Errand} {rest : List Errand} (errands : y.errands = e :: rest) :
      Effect m y .run { y with pool := y.pool.run e, errands := rest }
  /-- A worker takes a step. -/
  | worked {k : Nat} {w : Worker} {r : StepResult σ} (worker : y.pool.crew[k]? = some w)
      (step : w.step m y.pool.buffer y.ground = some r) : Effect m y (.work k) (y.worked k r)
  /-- A finished job is fetched. -/
  | fetched {j : Job} {rest : List Job} (free : y.delivery = none)
      (completed : y.pool.completed = j :: rest) :
      Effect m y .fetch
        { y with pool := { y.pool with completed := rest }, delivery := some ⟨j, none⟩ }
  /-- The fetched job belongs to nobody. -/
  | strayed {j : Job} (delivery : y.delivery = some ⟨j, none⟩)
      (unknown : y.pool.clients.find? j.client = none) :
      Effect m y .address { y with delivery := none, log := .stray j :: y.log }
  /-- The fetched job is handed over. -/
  | handed {j : Job} {a : Account κ} (delivery : y.delivery = some ⟨j, none⟩)
      (known : y.pool.clients.find? j.client = some a) :
      Effect m y .address
        { y with delivery := some ⟨j, some a.receiver⟩, log := .handed j a.receiver :: y.log }
  /-- The job that was handed over is struck off. -/
  | struck {j : Job} {r : Option κ} (delivery : y.delivery = some ⟨j, some r⟩) :
      Effect m y .strike
        { y with pool := y.pool.strike j, delivery := none, log := .struck j :: y.log }

/-- Every act has one of the effects. -/
theorem effect_next (m : StorageManager σ) (y : Workshop κ σ) (a : Act κ σ) :
    Effect m y a (y.next m a) := by
  cases a with
  | start machine watcher =>
    simp only [next]
    split
    · rename_i hcalm hstart
      exact Effect.started hcalm hstart
    · exact Effect.nothing _
  | newClient => exact Effect.aside (by rintro ⟨⟩) rfl rfl rfl rfl
  | submit c receiver items =>
    simp only [next]
    split
    · rename_i p hcalm hsubmit
      by_cases hitems : items = []
      · rw [hitems]
        exact Effect.nothing _
      · obtain ⟨hunknown, hrunning, tags, clients, halloc, rfl⟩ := Pool.of_submit hsubmit hitems
        rw [if_neg (by simpa using hitems), Pool.clients_dispatchAll, Pool.tagged_eq halloc]
        exact Effect.opened hcalm hrunning hunknown hitems halloc
    · exact Effect.nothing _
  | addItem c i =>
    simp only [next]
    split
    · rename_i p hcalm hadd
      obtain ⟨⟨a, hknown⟩, hrunning, tag, clients, halloc, rfl⟩ := Pool.of_addItem hadd
      rw [show y.pool.tagged c [i] = Pool.tagging c [i] [tag] from Pool.tagged_eq halloc c]
      exact Effect.added hcalm hrunning hknown halloc
    · exact Effect.nothing _
  | cancel c =>
    simp only [next]
    split
    · rename_i a p hcalm hfind hcancel
      exact Effect.cancelled hcalm (Pool.of_cancel hcancel).1 hfind
    · exact Effect.nothing _
  | detach c => exact Effect.detached c
  | broadcast s =>
    simp only [next]
    split
    · rename_i hcalm hrunning
      exact Effect.told hcalm hrunning
    · exact Effect.nothing _
  | stop =>
    simp only [next]
    split
    · rename_i hcalm hrunning
      exact Effect.stopped hcalm hrunning
    · rename_i hcalm hresting
      exact Effect.retired hcalm hresting
    · exact Effect.nothing _
  | dismiss =>
    simp only [next]
    split
    · rename_i hcalm hdown
      split
      · rename_i hgone
        exact Effect.dismissed hcalm hdown hgone
      · exact Effect.nothing _
    · exact Effect.nothing _
  | run =>
    simp only [next]
    split
    · exact Effect.nothing _
    · rename_i e rest herrands
      exact Effect.ran herrands
  | work k =>
    simp only [next]
    split
    · exact Effect.nothing _
    · rename_i w hworker
      split
      · exact Effect.nothing _
      · rename_i r hstep
        exact Effect.worked hworker hstep
  | change g => exact Effect.aside (by rintro ⟨⟩) rfl rfl rfl rfl
  | acknowledge => exact Effect.aside (by rintro ⟨⟩) rfl rfl rfl rfl
  | fetch =>
    simp only [next, Pool.takeCompleted]
    split
    · rename_i j p hfree htake
      split at htake
      · cases htake
      · rename_i rest hcompleted
        cases htake
        exact Effect.fetched hfree hcompleted
    · exact Effect.nothing _
  | address =>
    simp only [next, Pool.receiver?]
    split
    · rename_i j hdelivery
      cases hfind : y.pool.clients.find? j.client with
      | none => exact Effect.strayed hdelivery hfind
      | some a => exact Effect.handed hdelivery hfind
    · exact Effect.nothing _
  | strike =>
    simp only [next]
    split
    · rename_i j r hdelivery
      exact Effect.struck hdelivery
    · exact Effect.nothing _

/-! ## Jobs in flight -/

/-- The manifests of the jobs that the workers of a crew have. -/
def crewLoad (crew : List Worker) : Multiset Job := ↑(crew.flatMap fun w => jobsIn w.line)

/-- The manifests of the jobs in flight, once for each place where one is: still to be dispatched,
with a worker, finished, and on the way to the receiver. -/
def inFlight (y : Workshop κ σ) : Multiset Job :=
  ↑((y.errands.filterMap Errand.job?).map Job.manifest) + crewLoad y.pool.crew +
    ↑(y.pool.completed.map Job.manifest) + ↑(y.delivery.toList.map (·.job.manifest))

/-- A worker's part of what its crew has. -/
theorem crewLoad_split {crew : List Worker} {k : ℕ} {w : Worker} (h : crew[k]? = some w) :
    ∃ others : Multiset Job, crewLoad crew = ↑(jobsIn w.line) + others ∧
      ∀ w', crewLoad (crew.set k w') = ↑(jobsIn w'.line) + others := by
  obtain ⟨hlt, hget⟩ := List.getElem?_eq_some_iff.mp h
  have hcrew : crew = crew.take k ++ w :: crew.drop (k + 1) := by
    rw [← hget, List.getElem_cons_drop, List.take_append_drop]
  refine ⟨crewLoad (crew.take k) + crewLoad (crew.drop (k + 1)), ?_, ?_⟩
  · nth_rewrite 1 [hcrew]
    simp only [crewLoad, List.flatMap_append, List.flatMap_cons, ← Multiset.coe_add]
    abel
  · intro w'
    rw [List.set_eq_take_append_cons_drop, if_pos hlt]
    simp only [crewLoad, List.flatMap_append, List.flatMap_cons, ← Multiset.coe_add]
    abel

/-- The jobs in the line of a worker are in flight. -/
theorem mem_inFlight_of_line {y : Workshop κ σ} {w : Worker} (hw : w ∈ y.pool.crew) {j : Job}
    (hj : .job j ∈ w.line) : j ∈ y.inFlight := by
  have hload : j ∈ crewLoad y.pool.crew :=
    Multiset.mem_coe.mpr (List.mem_flatMap.mpr ⟨w, hw, mem_jobsIn.mpr hj⟩)
  unfold inFlight
  rw [Multiset.mem_add, Multiset.mem_add, Multiset.mem_add]
  exact Or.inl (Or.inl (Or.inr hload))

/-- Telling signals dispatches no job. -/
@[simp] theorem filterMap_job?_postings (p : Pool κ) (s : Signal) :
    (p.postings s).filterMap Errand.job? = [] := by
  refine List.filterMap_eq_nil_iff.mpr fun e he => ?_
  obtain ⟨k, rfl⟩ := Pool.of_mem_postings he
  rfl

/-- Asking for items to be cancelled dispatches no job. -/
@[simp] theorem filterMap_job?_cancellings (p : Pool κ) (tags : List Tag) :
    (p.cancellings tags).filterMap Errand.job? = [] := by
  refine List.filterMap_eq_nil_iff.mpr fun e he => ?_
  obtain ⟨k, tag, -, rfl⟩ := Pool.of_mem_cancellings he
  rfl

/-- The jobs of errands that dispatch some jobs are these. -/
@[simp] theorem filterMap_job?_dispatch (jobs : List Job) :
    (jobs.map Errand.dispatch).filterMap Errand.job? = jobs := by
  rw [List.filterMap_map]
  exact List.filterMap_some

/-- The jobs taken on by a call are in flight. -/
theorem inFlight_take {y : Workshop κ σ} (calm : y.errands = []) (clients : Clients κ)
    (jobs : List Job) (entries : List (Entry κ)) :
    (y.take clients jobs entries).inFlight = ↑(jobs.map Job.manifest) + y.inFlight := by
  simp only [inFlight, take, calm, filterMap_job?_dispatch, List.filterMap_nil, List.map_nil,
    Multiset.coe_nil]
  abel

/-- New mail adds its job, if it is one, to what the crew has. -/
theorem crewLoad_modify {crew : List Worker} {k : ℕ} (h : k < crew.length) (m : Mail) :
    crewLoad (crew.modify k (·.post m)) =
      ↑((jobsIn [m]).map Job.manifest) + crewLoad crew := by
  obtain ⟨others, hbefore, hafter⟩ := crewLoad_split (List.getElem?_eq_getElem h)
  have hset : crew.modify k (·.post m) = crew.set k (crew[k].post m) := by
    rw [List.modify_eq_set_getElem?, List.getElem?_eq_getElem h]
    rfl
  rw [hset, hafter, hbefore, Worker.line_post, jobsIn_append, ← jobsIn_map_manifest,
    ← Multiset.coe_add]
  simp only [List.map_cons, List.map_nil]
  abel

/-- A job that is dispatched goes over to a worker. -/
theorem inFlight_ran {y : Workshop κ σ} {e : Errand} {rest : List Errand}
    (errands : y.errands = e :: rest) (manned : y.pool.crew ≠ []) :
    ({ y with pool := y.pool.run e, errands := rest } : Workshop κ σ).inFlight = y.inFlight := by
  cases e with
  | dispatch j =>
    have hslot : y.pool.cursor.toNat % y.pool.crew.length < y.pool.crew.length :=
      Nat.mod_lt _ (List.length_pos_iff.mpr manned)
    simp only [inFlight, Pool.run, Pool.dispatch, errands, crewLoad_modify hslot, jobsIn_job,
      jobsIn_nil, List.filterMap_cons, Errand.job?, List.map_cons, List.map_nil,
      ← Multiset.cons_coe, ← Multiset.singleton_add]
    abel
  | post k s =>
    have hcrew : crewLoad (y.pool.crew.modify k (·.post (.signal s))) = crewLoad y.pool.crew := by
      by_cases hlt : k < y.pool.crew.length
      · rw [crewLoad_modify hlt]
        simp
      · rw [List.modify_eq_self (Nat.le_of_not_lt hlt)]
    simp only [inFlight, Pool.run, errands, hcrew, List.filterMap_cons, Errand.job?]

/-- Finishing jobs appends them to those finished. -/
theorem foldl_complete (jobs : List Job) (p : Pool κ) :
    (jobs.foldl Pool.complete p).completed = p.completed ++ jobs ∧
      (jobs.foldl Pool.complete p).crew = p.crew ∧
      (jobs.foldl Pool.complete p).clients = p.clients ∧
      (jobs.foldl Pool.complete p).phase = p.phase := by
  induction jobs generalizing p with
  | nil => simp
  | cons j rest ih =>
    obtain ⟨hcompleted, hcrew, hclients, hphase⟩ := ih (p.complete j)
    refine ⟨?_, hcrew, hclients, hphase⟩
    rw [List.foldl_cons, hcompleted]
    simp [Pool.complete]

/-- What a worker does leaves every job in flight. -/
theorem inFlight_worked {m : StorageManager σ} {y : Workshop κ σ} {k : ℕ} {w : Worker}
    {r : StepResult σ} (worker : y.pool.crew[k]? = some w)
    (step : w.step m y.pool.buffer y.ground = some r) : (y.worked k r).inFlight = y.inFlight := by
  obtain ⟨others, hbefore, hafter⟩ := crewLoad_split worker
  obtain ⟨-, hjobs⟩ := Worker.line_of_turn (Worker.turn_of_step step)
  obtain ⟨hcompleted, hcrew, -, -⟩ :=
    foldl_complete r.finished.toList { y.pool with crew := y.pool.crew.set k r.worker }
  simp only [inFlight, worked, hcompleted, hcrew, hafter, hbefore, ← hjobs, List.map_append,
    ← Multiset.coe_add]
  abel

/-- Fetching a finished job leaves every job in flight. -/
theorem inFlight_fetched {y : Workshop κ σ} {j : Job} {rest : List Job} (free : y.delivery = none)
    (completed : y.pool.completed = j :: rest) :
    ({ y with pool := { y.pool with completed := rest }, delivery := some ⟨j, none⟩ } :
      Workshop κ σ).inFlight = y.inFlight := by
  simp only [inFlight, free, completed, Option.toList_none, Option.toList_some, List.map_cons,
    List.map_nil, Multiset.coe_nil, ← Multiset.cons_coe, ← Multiset.singleton_add]
  abel

/-- What is in flight beside the job that is being delivered. -/
theorem inFlight_of_delivery {y : Workshop κ σ} {j : Job} {r : Option (Option κ)}
    (delivery : y.delivery = some ⟨j, r⟩) :
    y.inFlight = j.manifest ::ₘ ({ y with delivery := none } : Workshop κ σ).inFlight := by
  simp only [inFlight, delivery, Option.toList_none, Option.toList_some, List.map_cons,
    List.map_nil, Multiset.coe_nil, Multiset.coe_singleton, ← Multiset.singleton_add]
  abel

/-- The job that is being delivered is in flight. -/
theorem mem_inFlight_of_delivery {y : Workshop κ σ} {j : Job} {r : Option (Option κ)}
    (delivery : y.delivery = some ⟨j, r⟩) : j.manifest ∈ y.inFlight := by
  rw [inFlight_of_delivery delivery]
  exact Multiset.mem_cons_self _ _

/-! ## Crews -/

/-- Where a worker of the crew comes from after an act. -/
inductive Came (m : StorageManager σ) (y y' : Workshop κ σ) (k : ℕ) : Worker → Prop
  /-- It has just begun. -/
  | fresh : Came m y y' k .fresh
  /-- It is as it was, and what was to be sent to it still is. -/
  | kept {w : Worker} (before : y.pool.crew[k]? = some w)
      (posts : ∀ s, .post k s ∈ y.errands → .post k s ∈ y'.errands) : Came m y y' k w
  /-- It was sent a job. -/
  | job {w : Worker} {j : Job} (before : y.pool.crew[k]? = some w)
      (errands : y.errands = .dispatch j :: y'.errands) : Came m y y' k (w.post (.job j))
  /-- It was sent a signal. -/
  | signal {w : Worker} {s : Signal} (before : y.pool.crew[k]? = some w)
      (errands : y.errands = .post k s :: y'.errands) : Came m y y' k (w.post (.signal s))
  /-- It took a step. -/
  | step {w : Worker} {r : StepResult σ} (before : y.pool.crew[k]? = some w)
      (step : w.step m y.pool.buffer y.ground = some r) (errands : y'.errands = y.errands) :
      Came m y y' k r.worker

/-- There are no other workers. -/
theorem Effect.came {m : StorageManager σ} {y y' : Workshop κ σ} {a : Act κ σ} (h : Effect m y a y')
    {k : ℕ} {w : Worker} (hw : y'.pool.crew[k]? = some w) : Came m y y' k w := by
  -- A call that is just beginning finds nothing still to be sent.
  have hcalm (calm : y.errands = []) (hsame : y.pool.crew[k]? = some w) : Came m y y' k w := by
    refine Came.kept hsame fun s hs => ?_
    rw [calm] at hs
    cases hs
  cases h with
  | nothing a => exact Came.kept hw fun s hs => hs
  | aside stays clients crew completed phase =>
    exact Came.kept (by rw [← crew]; exact hw) fun s hs => hs
  | started calm start =>
    obtain ⟨-, -, -, -, n, hcrew⟩ := Pool.of_start start
    have hmem := List.mem_of_getElem? hw
    rw [hcrew] at hmem
    rw [List.eq_of_mem_replicate hmem]
    exact Came.fresh
  | opened calm running unknown items_ne allocated => exact hcalm calm hw
  | added calm running known allocated => exact hcalm calm hw
  | cancelled calm running known => exact hcalm calm hw
  | detached c => exact Came.kept hw fun s hs => hs
  | told calm running => exact hcalm calm hw
  | stopped calm running => exact hcalm calm hw
  | retired calm resting => exact hcalm calm hw
  | dismissed calm down gone => cases hw
  | @ran e rest errands =>
    -- The errand changes the worker at one place.
    have hmodify (place : ℕ) (m : Mail)
        (hcrew : (y.pool.run e).crew = y.pool.crew.modify place (·.post m)) :
        ∃ w', y.pool.crew[k]? = some w' ∧ (place = k ∧ w = w'.post m ∨ place ≠ k ∧ w = w') := by
      change (y.pool.run e).crew[k]? = some w at hw
      rw [hcrew, List.getElem?_modify] at hw
      obtain ⟨w', hw', rfl⟩ := Option.map_eq_some_iff.mp hw
      by_cases hplace : place = k
      · exact ⟨w', hw', Or.inl ⟨hplace, by rw [if_pos hplace]⟩⟩
      · exact ⟨w', hw', Or.inr ⟨hplace, by rw [if_neg hplace]⟩⟩
    cases e with
    | dispatch j =>
      obtain ⟨w', hw', ⟨-, rfl⟩ | ⟨-, rfl⟩⟩ := hmodify _ (.job j) rfl
      · exact Came.job hw' errands
      · refine Came.kept hw' fun s hs => ?_
        rw [errands] at hs
        exact (List.mem_cons.mp hs).resolve_left Errand.noConfusion
    | post place s =>
      obtain ⟨w', hw', ⟨rfl, rfl⟩ | ⟨hplace, rfl⟩⟩ := hmodify place (.signal s) rfl
      · exact Came.signal hw' errands
      · refine Came.kept hw' fun s' hs => ?_
        rw [errands] at hs
        refine (List.mem_cons.mp hs).resolve_left fun heq => hplace ?_
        exact (Errand.post.inj heq).1.symm
  | @worked k' w' r worker step =>
    obtain ⟨-, hset, -, -⟩ :=
      foldl_complete r.finished.toList { y.pool with crew := y.pool.crew.set k' r.worker }
    change (r.finished.toList.foldl Pool.complete _).crew[k]? = some w at hw
    rw [hset] at hw
    change (y.pool.crew.set k' r.worker)[k]? = some w at hw
    by_cases hplace : k' = k
    · subst hplace
      rw [List.getElem?_set_self (List.getElem?_eq_some_iff.mp worker).1] at hw
      rw [← Option.some.inj hw]
      exact Came.step worker step rfl
    · rw [List.getElem?_set_ne hplace] at hw
      exact Came.kept hw fun s hs => hs
  | fetched free completed => exact Came.kept hw fun s hs => hs
  | strayed delivery unknown => exact Came.kept hw fun s hs => hs
  | handed delivery known => exact Came.kept hw fun s hs => hs
  | struck delivery => exact Came.kept hw fun s hs => hs

/-- What is true of the workers before an act, of new ones, and of those that were sent mail or took
a step is true of the workers after it. -/
theorem Effect.crew {m : StorageManager σ} {y y' : Workshop κ σ} {a : Act κ σ} (h : Effect m y a y')
    {P : Worker → Prop} (hbefore : ∀ w ∈ y.pool.crew, P w) (hfresh : P .fresh)
    (hjob : ∀ w ∈ y.pool.crew, ∀ j, .dispatch j ∈ y.errands → P (w.post (.job j)))
    (hsignal : ∀ w ∈ y.pool.crew, ∀ k s, .post k s ∈ y.errands → P (w.post (.signal s)))
    (hstep : ∀ w ∈ y.pool.crew, ∀ r, w.step m y.pool.buffer y.ground = some r → P r.worker) :
    ∀ w ∈ y'.pool.crew, P w := by
  intro w hw
  obtain ⟨k, hget⟩ := List.mem_iff_getElem?.mp hw
  cases h.came hget with
  | fresh => exact hfresh
  | kept before posts => exact hbefore w (List.mem_of_getElem? before)
  | @job w' j before errands =>
    refine hjob w' (List.mem_of_getElem? before) j ?_
    rw [errands]
    exact List.mem_cons_self
  | @signal w' s before errands =>
    refine hsignal w' (List.mem_of_getElem? before) k s ?_
    rw [errands]
    exact List.mem_cons_self
  | @step w' r before step errands => exact hstep w' (List.mem_of_getElem? before) r step

/-! ## Signals on their way -/

/-- Why a signal is on its way after an act. -/
inductive Sent (y : Workshop κ σ) : Signal → Act κ σ → Workshop κ σ → Prop
  /-- It has been before. -/
  | before {k : ℕ} {s : Signal} {a : Act κ σ} {y' : Workshop κ σ}
      (errands : .post k s ∈ y.errands) :
      Sent y s a y'
  /-- A client asked for its items to be cancelled, and it cancels one of these. -/
  | cancelling {c : ClientId} {account : Account κ} {tag : Tag} (calm : y.errands = [])
      (known : y.pool.clients.find? c = some account) (held : tag ∈ account.tags) :
      Sent y (.cancel tag) (.cancel c)
        { y with errands := y.pool.cancellings account.tags, log := .cancelled c :: y.log }
  /-- It was broadcast. -/
  | told {s : Signal} {y' : Workshop κ σ} : Sent y s (.broadcast s) y'
  /-- The pool is shut down. -/
  | stopping {y' : Workshop κ σ} : Sent y .stop .stop y'

/-- There are no other reasons. -/
theorem Effect.sent {m : StorageManager σ} {y y' : Workshop κ σ} {a : Act κ σ} (h : Effect m y a y')
    {k : ℕ} {s : Signal} (hpost : .post k s ∈ y'.errands) : Sent y s a y' := by
  have hdispatch (jobs : List Job) : .post k s ∉ jobs.map Errand.dispatch := by
    intro hmem
    obtain ⟨j, -, hj⟩ := List.mem_map.mp hmem
    cases hj
  cases h with
  | nothing a => exact Sent.before hpost
  | aside stays clients crew completed phase => exact Sent.before hpost
  | started calm start => exact Sent.before hpost
  | opened calm running unknown items_ne allocated => exact absurd hpost (hdispatch _)
  | added calm running known allocated => exact absurd hpost (hdispatch _)
  | cancelled calm running known =>
    obtain ⟨k', tag, hheld, heq⟩ := Pool.of_mem_cancellings hpost
    cases heq
    exact Sent.cancelling calm known hheld
  | detached c => exact Sent.before hpost
  | told calm running =>
    obtain ⟨k', heq⟩ := Pool.of_mem_postings hpost
    cases heq
    exact Sent.told
  | stopped calm running =>
    obtain ⟨k', heq⟩ := Pool.of_mem_postings hpost
    cases heq
    exact Sent.stopping
  | retired calm resting => exact Sent.before hpost
  | dismissed calm down gone => exact Sent.before hpost
  | @ran e rest errands =>
    refine Sent.before (k := k) ?_
    rw [errands]
    exact List.mem_cons_of_mem _ hpost
  | worked worker step => exact Sent.before hpost
  | fetched free completed => exact Sent.before hpost
  | strayed delivery unknown => exact Sent.before hpost
  | handed delivery known => exact Sent.before hpost
  | struck delivery => exact Sent.before hpost

/-! ## New entries -/

/-- Why an entry is new in the log after an act. -/
inductive Logged (m : StorageManager σ) (y y' : Workshop κ σ) : Entry κ → Prop
  /-- An account was opened. -/
  | opened {c : ClientId} {receiver : κ} : Logged m y y' (.opened c receiver)
  /-- A job was taken on, and is to be dispatched. -/
  | taken {j : Job} (errands : .dispatch j ∈ y'.errands) : Logged m y y' (.taken j)
  /-- The items of a client are to be cancelled. -/
  | cancelled {c : ClientId} {a : Account κ} (calm : y.errands = [])
      (known : y.pool.clients.find? c = some a) (crew : y'.pool.crew = y.pool.crew)
      (errands : y'.errands = y.pool.cancellings a.tags) : Logged m y y' (.cancelled c)
  /-- The receiver of a client was forgotten. -/
  | detached {c : ClientId} : Logged m y y' (.detached c)
  /-- A worker finished the job that it had in hand. -/
  | finished {w : Worker} {r : StepResult σ} {j : Job} (worker : w ∈ y.pool.crew)
      (step : w.step m y.pool.buffer y.ground = some r) (finished : r.finished = some j) :
      Logged m y y' (.finished j)
  /-- The job that was fetched was handed over. -/
  | handed {j : Job} {receiver : Option κ} (delivery : y.delivery = some ⟨j, none⟩) :
      Logged m y y' (.handed j receiver)
  /-- A job was struck off. -/
  | struck {j : Job} : Logged m y y' (.struck j)
  /-- A job was dropped. -/
  | stray {j : Job} : Logged m y y' (.stray j)

/-- The log only grows, and there are no other reasons. -/
theorem Effect.log {m : StorageManager σ} {y y' : Workshop κ σ} {a : Act κ σ}
    (h : Effect m y a y') :
    ∃ entries, y'.log = entries ++ y.log ∧ ∀ e ∈ entries, Logged m y y' e := by
  have hsame (hlog : y'.log = y.log) :
      ∃ entries, y'.log = entries ++ y.log ∧ ∀ e ∈ entries, Logged m y y' e :=
    ⟨[], hlog, fun e he => absurd he List.not_mem_nil⟩
  have hone {e : Entry κ} (hlog : y'.log = e :: y.log) (he : Logged m y y' e) :
      ∃ entries, y'.log = entries ++ y.log ∧ ∀ e ∈ entries, Logged m y y' e :=
    ⟨[e], hlog, fun e' he' => List.mem_singleton.mp he' ▸ he⟩
  have htaken (jobs : List Job) (herrands : y'.errands = jobs.map .dispatch) :
      ∀ e ∈ (jobs.map (@Entry.taken κ)).reverse, Logged m y y' e := by
    intro e he
    obtain ⟨j, hj, rfl⟩ := List.mem_map.mp (List.mem_reverse.mp he)
    refine Logged.taken ?_
    rw [herrands]
    exact List.mem_map_of_mem hj
  cases h with
  | nothing a => exact hsame rfl
  | aside stays clients crew completed phase => exact hsame rfl
  | started calm start => exact hsame rfl
  | opened calm running unknown items_ne allocated =>
    refine ⟨_, rfl, fun e he => ?_⟩
    rcases List.mem_append.mp he with hjob | hopened
    · exact htaken _ rfl e hjob
    · rw [List.mem_singleton.mp hopened]
      exact Logged.opened
  | added calm running known allocated =>
    refine ⟨_, rfl, fun e he => ?_⟩
    rw [List.append_nil] at he
    exact htaken _ rfl e he
  | cancelled calm running known => exact hone rfl (Logged.cancelled calm known rfl rfl)
  | detached c => exact hone rfl Logged.detached
  | told calm running => exact hsame rfl
  | stopped calm running => exact hsame rfl
  | retired calm resting => exact hsame rfl
  | dismissed calm down gone => exact hsame rfl
  | ran errands => exact hsame rfl
  | @worked k w r worker step =>
    refine ⟨_, rfl, fun e he => ?_⟩
    obtain ⟨j, hj, rfl⟩ := List.mem_map.mp he
    exact Logged.finished (List.mem_of_getElem? worker) step (Option.mem_toList.mp hj)
  | fetched free completed => exact hsame rfl
  | strayed delivery unknown => exact hone rfl Logged.stray
  | handed delivery known => exact hone rfl (Logged.handed delivery)
  | struck delivery => exact hone rfl Logged.struck

/-- A job that is to be dispatched has been so before, or was just taken on. -/
theorem Effect.dispatching {m : StorageManager σ} {y y' : Workshop κ σ} {a : Act κ σ}
    (h : Effect m y a y') {j : Job} (hj : .dispatch j ∈ y'.errands) :
    .dispatch j ∈ y.errands ∨ ∃ (jobs : List Job) (entries : List (Entry κ)), j ∈ jobs ∧
      y'.log = (jobs.map Entry.taken).reverse ++ entries ++ y.log := by
  have hjobs {jobs : List Job} (hmem : .dispatch j ∈ jobs.map Errand.dispatch) : j ∈ jobs := by
    obtain ⟨j', hj', heq⟩ := List.mem_map.mp hmem
    rwa [← Errand.dispatch.inj heq]
  cases h with
  | nothing a => exact Or.inl hj
  | aside stays clients crew completed phase => exact Or.inl hj
  | started calm start => exact Or.inl hj
  | opened calm running unknown items_ne allocated => exact Or.inr ⟨_, _, hjobs hj, rfl⟩
  | added calm running known allocated => exact Or.inr ⟨_, _, hjobs hj, rfl⟩
  | cancelled calm running known =>
    obtain ⟨k, tag, -, heq⟩ := Pool.of_mem_cancellings hj
    cases heq
  | detached c => exact Or.inl hj
  | told calm running =>
    obtain ⟨k, heq⟩ := Pool.of_mem_postings hj
    cases heq
  | stopped calm running =>
    obtain ⟨k, heq⟩ := Pool.of_mem_postings hj
    cases heq
  | retired calm resting => exact Or.inl hj
  | dismissed calm down gone => exact Or.inl hj
  | ran errands =>
    rw [errands]
    exact Or.inl (List.mem_cons_of_mem _ hj)
  | worked worker step => exact Or.inl hj
  | fetched free completed => exact Or.inl hj
  | strayed delivery unknown => exact Or.inl hj
  | handed delivery known => exact Or.inl hj
  | struck delivery => exact Or.inl hj

/-- A job that is finished after an act was so before, or a worker has just finished it. -/
theorem Effect.completed {m : StorageManager σ} {y y' : Workshop κ σ} {a : Act κ σ}
    (h : Effect m y a y') {j : Job} (hj : j ∈ y'.pool.completed) :
    j ∈ y.pool.completed ∨ ∃ w ∈ y.pool.crew, ∃ r,
      w.step m y.pool.buffer y.ground = some r ∧ r.finished = some j := by
  cases h with
  | nothing a => exact Or.inl hj
  | aside stays clients crew completed phase =>
    rw [← completed]
    exact Or.inl hj
  | started calm start =>
    obtain ⟨-, -, -, hcompleted, -⟩ := Pool.of_start start
    rw [← hcompleted]
    exact Or.inl hj
  | opened calm running unknown items_ne allocated => exact Or.inl hj
  | added calm running known allocated => exact Or.inl hj
  | cancelled calm running known => exact Or.inl hj
  | detached c => exact Or.inl hj
  | told calm running => exact Or.inl hj
  | stopped calm running => exact Or.inl hj
  | retired calm resting => exact Or.inl hj
  | dismissed calm down gone => cases hj
  | @ran e rest errands =>
    have hsame : (y.pool.run e).completed = y.pool.completed := by
      cases e <;> rfl
    rw [← hsame]
    exact Or.inl hj
  | @worked k w r worker step =>
    obtain ⟨hcompleted, -, -, -⟩ :=
      foldl_complete r.finished.toList { y.pool with crew := y.pool.crew.set k r.worker }
    change j ∈ (r.finished.toList.foldl Pool.complete _).completed at hj
    rw [hcompleted] at hj
    rcases List.mem_append.mp hj with hold | hnew
    · exact Or.inl hold
    · exact Or.inr ⟨w, List.mem_of_getElem? worker, r, step, Option.mem_toList.mp hnew⟩
  | fetched free completed =>
    rw [completed]
    exact Or.inl (List.mem_cons_of_mem _ hj)
  | strayed delivery unknown => exact Or.inl hj
  | handed delivery known => exact Or.inl hj
  | struck delivery => exact Or.inl hj

/-- A job in delivery after an act was so before, or was finished. -/
theorem Effect.delivery {m : StorageManager σ} {y y' : Workshop κ σ} {a : Act κ σ}
    (h : Effect m y a y') {d : Delivery κ} (hd : y'.delivery = some d) :
    (∃ receiver, y.delivery = some ⟨d.job, receiver⟩) ∨ d.job ∈ y.pool.completed := by
  cases h with
  | nothing a => exact Or.inl ⟨_, hd⟩
  | aside stays clients crew completed phase => exact Or.inl ⟨_, hd⟩
  | started calm start => exact Or.inl ⟨_, hd⟩
  | opened calm running unknown items_ne allocated => exact Or.inl ⟨_, hd⟩
  | added calm running known allocated => exact Or.inl ⟨_, hd⟩
  | cancelled calm running known => exact Or.inl ⟨_, hd⟩
  | detached c => exact Or.inl ⟨_, hd⟩
  | told calm running => exact Or.inl ⟨_, hd⟩
  | stopped calm running => exact Or.inl ⟨_, hd⟩
  | retired calm resting => exact Or.inl ⟨_, hd⟩
  | dismissed calm down gone => exact Or.inl ⟨_, hd⟩
  | ran errands => exact Or.inl ⟨_, hd⟩
  | worked worker step => exact Or.inl ⟨_, hd⟩
  | fetched free completed =>
    cases hd
    rw [completed]
    exact Or.inr List.mem_cons_self
  | strayed delivery unknown => cases hd
  | handed delivery known =>
    cases hd
    exact Or.inl ⟨none, delivery⟩
  | struck delivery => cases hd

end Workshop

end Haulage
