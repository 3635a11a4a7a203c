import Haulage.Proofs.HandBack

/-!
# Calls that are granted and calls that are refused

A call of the pool has several places at which it may be refused, and between them it gives out
tags, opens or changes an account and sends mail. The calls are defined so that a refusal answers no
new pool. A `Procedure` is less careful: it changes the pool as it goes along, in the order in which
a call does, and what it has changed by the time it breaks off stays changed. `run_submit`,
`run_addItem` and `run_cancel` say that this comes to the same, so that nothing needs to be undone.

`Workshop.answers_after` says what the calls come to in every state that a workshop can reach: a
call that is refused leaves the pool as it was, and is refused for a reason; one that is granted
adds just its items to the account of its client and their jobs to the inboxes of the workers, in
turn.
-/

namespace Haulage

variable {κ σ : Type}

/-! ## Calls in steps -/

/-- A call that is carried out step by step. It may break off with a refusal, and what it has
changed by then stays changed. -/
abbrev Procedure (κ : Type) := EStateM PoolError (Pool κ)

namespace Procedure

/-- Break off unless the pool is running. -/
def checkRunning : Procedure κ Unit := do
  match (← get).checkRunning with
  | .ok () => pure ()
  | .error e => throw e

/-- Give out `count` tags that no item holds, and remember the one to try next. -/
def allocate (count : ℕ) : Procedure κ (List Tag) := do
  let clients := (← get).clients
  let held := clients.heldTags.eraseDups
  if held.length + count > Clients.greatestTag.toNat then
    throw .tagsExhausted
  let (tags, next) := Clients.gather held Clients.greatestTag.toNat count clients.nextTag
  if tags.length < count then
    throw .tagsExhausted
  modify fun p => { p with clients := { p.clients with nextTag := next } }
  return tags

/-- Take the next place of the crew, and put a job into the inbox there. -/
def dispatch (j : Job) : Procedure κ Unit := do
  let p ← get
  let k := p.cursor.toNat % p.crew.length
  set { p with cursor := p.cursor + 1 }
  modify fun p => { p with crew := p.crew.modify k (·.post (.job j)) }

/-- Take on the items of a client that has none outstanding. -/
def submit (c : ClientId) (receiver : κ) (items : List Item) : Procedure κ Unit := do
  if ((← get).clients.find? c).isSome then
    throw (.clientExists c)
  checkRunning
  if items.isEmpty then
    return
  let tags ← allocate items.length
  modify fun p => { p with clients := p.clients.insert c ⟨items.length, some receiver, tags⟩ }
  (items.zip tags).forM fun x => dispatch ⟨c, { x.1 with tag := some x.2 }⟩

/-- Take on one more item of a client that has items outstanding. -/
def addItem (c : ClientId) (i : Item) : Procedure κ Unit := do
  checkRunning
  if ((← get).clients.find? c).isNone then
    throw (.unknownClient c)
  match ← allocate 1 with
  | [] => throw .tagsExhausted
  | tag :: _ =>
    modify fun p => { p with clients := p.clients.update c (Account.oneMore tag) }
    dispatch ⟨c, { i with tag := some tag }⟩

/-- Ask one worker after the other to cancel an item, for each item that the client still has
outstanding. -/
def cancel (c : ClientId) : Procedure κ Unit := do
  match (← get).clients.find? c with
  | none => throw (.unknownClient c)
  | some a =>
    checkRunning
    let places := List.range (← get).crew.length
    a.tags.forM fun tag => places.forM fun k => modify (·.run (.post k (.cancel tag)))

/-! ### What the steps come to -/

/-- The answer of a call as the result of a procedure. -/
def result (p : Pool κ) : Except PoolError (Pool κ) → EStateM.Result PoolError (Pool κ) Unit
  | .ok p' => .ok () p'
  | .error e => .error e p

/-- Whether a call may go on depends on the phase of the pool. -/
theorem run_checkRunning (p : Pool κ) :
    checkRunning.run p = match p.checkRunning with
      | .ok () => .ok () p
      | .error e => .error e p := by
  unfold checkRunning
  rw [EStateM.run_bind, EStateM.run_get]
  simp only
  split <;> rfl

/-- The table is only changed once there are enough tags. -/
theorem run_allocate (count : ℕ) (p : Pool κ) :
    (allocate count).run p = match p.clients.allocateTags count with
      | some (tags, clients) => .ok tags { p with clients := clients }
      | none => .error .tagsExhausted p := by
  unfold allocate Clients.allocateTags
  rw [EStateM.run_bind, EStateM.run_get]
  simp only
  split
  · rfl
  · split <;> rfl

/-- Steps that cannot break off are taken one after the other. -/
theorem run_forM {α : Type} {f : α → Procedure κ Unit} {g : Pool κ → α → Pool κ}
    (h : ∀ x p, (f x).run p = .ok () (g p x)) (xs : List α) (p : Pool κ) :
    (xs.forM f).run p = .ok () (xs.foldl g p) := by
  induction xs generalizing p with
  | nil => rfl
  | cons x rest ih =>
    rw [List.forM_eq_forM, List.forM_cons, EStateM.run_bind, h x p]
    exact ih _

/-- Submitting items step by step comes to the same as at once. -/
theorem run_submit (p : Pool κ) (c : ClientId) (receiver : κ) (items : List Item) :
    (submit c receiver items).run p = result p (p.submit c receiver items) := by
  unfold submit Pool.submit
  rw [EStateM.run_bind, EStateM.run_get]
  simp only
  by_cases hknown : (p.clients.find? c).isSome
  · rw [if_pos hknown, if_pos hknown]
    rfl
  · rw [if_neg hknown, if_neg hknown, EStateM.run_bind, run_checkRunning]
    cases p.checkRunning with
    | error e => rfl
    | ok _ =>
      simp only
      by_cases hempty : items.isEmpty
      · rw [if_pos hempty, if_pos hempty]
        rfl
      · rw [if_neg hempty, if_neg hempty, EStateM.run_bind, run_allocate]
        cases p.clients.allocateTags items.length with
        | none => rfl
        | some x => exact run_forM (fun _ _ => rfl) _ _

/-- Adding an item step by step comes to the same as at once. -/
theorem run_addItem (p : Pool κ) (c : ClientId) (i : Item) :
    (addItem c i).run p = result p (p.addItem c i) := by
  unfold addItem Pool.addItem
  rw [EStateM.run_bind, run_checkRunning]
  cases p.checkRunning with
  | error e => rfl
  | ok _ =>
    simp only
    rw [EStateM.run_bind, EStateM.run_get]
    simp only
    by_cases hunknown : (p.clients.find? c).isNone
    · rw [if_pos hunknown, if_pos hunknown]
      rfl
    · rw [if_neg hunknown, if_neg hunknown, EStateM.run_bind, run_allocate]
      cases halloc : p.clients.allocateTags 1 with
      | none => rfl
      | some x =>
        obtain ⟨tags, clients⟩ := x
        cases tags with
        | nil => cases (Clients.gather_of_allocateTags halloc).2.1
        | cons tag rest => rfl

/-- Cancelling step by step comes to the same as at once. -/
theorem run_cancel (p : Pool κ) (c : ClientId) :
    (cancel c).run p = result p (p.cancel c) := by
  unfold cancel Pool.cancel
  rw [EStateM.run_bind, EStateM.run_get]
  simp only
  cases p.clients.find? c with
  | none => rfl
  | some a =>
    simp only
    rw [EStateM.run_bind, run_checkRunning]
    cases p.checkRunning with
    | error e => rfl
    | ok _ =>
      have htell (tag : Tag) (p' : Pool κ) :=
        run_forM (f := fun k => modify (·.run (.post k (.cancel tag)))) (fun _ _ => rfl)
          (List.range p.crew.length) p'
      simp only
      rw [EStateM.run_bind, EStateM.run_get]
      simp only
      rw [run_forM htell, Pool.foldl_postAll_eq_foldl, Pool.cancellings, List.foldl_flatMap]
      simp only [Pool.postings, List.foldl_map]
      rfl

end Procedure

namespace Pool

/-! ## Why a call is refused -/

/-- Why so many items of a client that should have none outstanding are refused. -/
inductive Unopened (p : Pool κ) (c : ClientId) (count : ℕ) : PoolError → Prop
  | known (account : (p.clients.find? c).isSome) : Unopened p c count (.clientExists c)
  | early (unknown : p.clients.find? c = none) (phase : p.phase = .idle) :
      Unopened p c count .notInitialized
  | late (unknown : p.clients.find? c = none) (phase : p.phase = .shutDown) :
      Unopened p c count .shutDown
  | exhausted (unknown : p.clients.find? c = none) (phase : p.phase = .running)
      (few : p.clients.allocateTags count = none) : Unopened p c count .tagsExhausted

/-- Why one more item of a client is refused. -/
inductive Unadded (p : Pool κ) (c : ClientId) : PoolError → Prop
  | early (phase : p.phase = .idle) : Unadded p c .notInitialized
  | late (phase : p.phase = .shutDown) : Unadded p c .shutDown
  | unknown (phase : p.phase = .running) (unknown : p.clients.find? c = none) :
      Unadded p c (.unknownClient c)
  | exhausted (phase : p.phase = .running) (known : (p.clients.find? c).isSome)
      (few : p.clients.allocateTags 1 = none) : Unadded p c .tagsExhausted

/-- Why the items of a client are not asked to be cancelled. -/
inductive Uncancelled (p : Pool κ) (c : ClientId) : PoolError → Prop
  | unknown (unknown : p.clients.find? c = none) : Uncancelled p c (.unknownClient c)
  | early (known : (p.clients.find? c).isSome) (phase : p.phase = .idle) :
      Uncancelled p c .notInitialized
  | late (known : (p.clients.find? c).isSome) (phase : p.phase = .shutDown) :
      Uncancelled p c .shutDown

/-- A refusal to take on items has a reason. -/
theorem unopened_of_submit {p : Pool κ} {c : ClientId} {receiver : κ} {items : List Item}
    {e : PoolError} (h : p.submit c receiver items = .error e) : p.Unopened c items.length e := by
  unfold submit checkRunning at h
  by_cases hknown : (p.clients.find? c).isSome
  · rw [if_pos hknown] at h
    cases h
    exact .known hknown
  · have hunknown : p.clients.find? c = none := by simpa using hknown
    rw [if_neg hknown] at h
    cases hphase : p.phase with
    | idle =>
      rw [hphase] at h
      cases h
      exact .early hunknown hphase
    | shutDown =>
      rw [hphase] at h
      cases h
      exact .late hunknown hphase
    | running =>
      rw [hphase] at h
      simp only at h
      split at h
      · cases h
      · split at h
        · rename_i hfew
          cases h
          exact .exhausted hunknown hphase hfew
        · cases h

/-- Nothing changes when no items are submitted. -/
theorem of_submit_nil {p p' : Pool κ} {c : ClientId} {receiver : κ}
    (h : p.submit c receiver [] = .ok p') : p' = p := by
  unfold submit at h
  split at h
  · cases h
  · split at h
    · cases h
    · cases h
      rfl

/-- A refusal to add an item has a reason. -/
theorem unadded_of_addItem {p : Pool κ} {c : ClientId} {i : Item} {e : PoolError}
    (h : p.addItem c i = .error e) : p.Unadded c e := by
  unfold addItem checkRunning at h
  cases hphase : p.phase with
  | idle =>
    rw [hphase] at h
    cases h
    exact .early hphase
  | shutDown =>
    rw [hphase] at h
    cases h
    exact .late hphase
  | running =>
    rw [hphase] at h
    simp only at h
    split at h
    · rename_i hunknown
      cases h
      exact .unknown hphase (by simpa using hunknown)
    · rename_i hknown
      split at h
      · cases h
      · rename_i hfew
        cases h
        refine .exhausted hphase (by simpa [Option.isSome_iff_ne_none] using hknown) ?_
        cases halloc : p.clients.allocateTags 1 with
        | none => rfl
        | some x =>
          obtain ⟨tags, clients⟩ := x
          cases tags with
          | nil => cases (Clients.gather_of_allocateTags halloc).2.1
          | cons tag rest => exact absurd halloc (hfew tag rest clients)

/-- A refusal to cancel has a reason. -/
theorem uncancelled_of_cancel {p : Pool κ} {c : ClientId} {e : PoolError}
    (h : p.cancel c = .error e) : p.Uncancelled c e := by
  unfold cancel checkRunning at h
  cases hfind : p.clients.find? c with
  | none =>
    rw [hfind] at h
    cases h
    exact .unknown hfind
  | some a =>
    have hknown : (p.clients.find? c).isSome := hfind ▸ rfl
    rw [hfind] at h
    cases hphase : p.phase with
    | idle =>
      rw [hphase] at h
      cases h
      exact .early hknown hphase
    | shutDown =>
      rw [hphase] at h
      cases h
      exact .late hknown hphase
    | running =>
      rw [hphase] at h
      cases h

/-! ## Turns of the crew -/

/-- The place of the crew whose turn comes after `i` other jobs. The cursor starts again from zero
after its greatest value. -/
def slot (p : Pool κ) (i : ℕ) : ℕ := (p.cursor + UInt64.ofNat i).toNat % p.crew.length

/-- The mail that comes to a place of the crew when some jobs are dispatched. -/
def share (p : Pool κ) (jobs : List Job) (k : ℕ) : List Mail :=
  (jobs.zipIdx.filter fun x => p.slot x.2 = k).map fun x => .job x.1

/-- Dispatching the jobs of a call is dispatching them one after the other. -/
theorem dispatchAll_eq_foldl_dispatch (p : Pool κ) (c : ClientId) (items : List Item)
    (tags : List Tag) :
    p.dispatchAll c (items.zip tags) = (tagging c items tags).foldl dispatch p := by
  rw [dispatchAll_eq_foldl, List.foldl_map]
  rfl

/-- Dispatching jobs one after the other moves the cursor on, and nothing but the inboxes changes
besides. -/
theorem foldl_dispatch_eq (p : Pool κ) (jobs : List Job) :
    jobs.foldl dispatch p = { p with
      crew := (jobs.foldl dispatch p).crew
      cursor := p.cursor + UInt64.ofNat jobs.length } := by
  induction jobs using List.reverseRecOn with
  | nil =>
    rw [List.foldl_nil, List.length_nil]
    simp
  | append_singleton jobs j ih =>
    rw [List.foldl_concat, List.length_append, List.length_singleton, UInt64.ofNat_add,
      ← UInt64.add_assoc]
    conv_lhs => rw [dispatch, ih]
    rw [dispatch, ih]
    rfl

/-- Dispatching jobs changes nobody's place. -/
theorem length_crew_foldl_dispatch (p : Pool κ) (jobs : List Job) :
    (jobs.foldl dispatch p).crew.length = p.crew.length := by
  induction jobs generalizing p with
  | nil => rfl
  | cons j rest ih =>
    rw [List.foldl_cons, ih, dispatch, List.length_modify]

/-- Each worker gets the jobs whose turn comes to it, in order. -/
theorem crew_foldl_dispatch (p : Pool κ) (jobs : List Job) (k : ℕ) :
    (jobs.foldl dispatch p).crew[k]? =
      p.crew[k]?.map fun w => { w with inbox := w.inbox ++ p.share jobs k } := by
  induction jobs using List.reverseRecOn with
  | nil => simp [share]
  | append_singleton jobs j ih =>
    have hshare : p.share (jobs ++ [j]) k =
        p.share jobs k ++ if p.slot jobs.length = k then [.job j] else [] := by
      unfold share
      rw [List.zipIdx_append, List.filter_append, List.map_append]
      congr 1
      by_cases hk : p.slot jobs.length = k <;> simp [hk]
    have hslot : (jobs.foldl dispatch p).cursor.toNat % (jobs.foldl dispatch p).crew.length =
        p.slot jobs.length := by
      rw [length_crew_foldl_dispatch, foldl_dispatch_eq]
      rfl
    rw [List.foldl_concat, dispatch]
    simp only
    rw [hslot, List.getElem?_modify, ih, hshare]
    by_cases hk : p.slot jobs.length = k
    · simp [hk, Worker.post, Function.comp_def]
    · simp [hk]

/-- When the cursor starts again from zero, a turn may come to the same place twice running. -/
example :
    let p : Pool Unit := { Pool.create Settings.defaults ⟨false, false, []⟩ with
      crew := List.replicate 3 .fresh, cursor := 0xFFFFFFFFFFFFFFFE }
    (List.range 4).map p.slot = [2, 0, 0, 1] := by
  decide

/-- Asking for several items to be cancelled adds as many signals to each inbox. -/
theorem foldl_postAll_eq_map (p : Pool κ) (tags : List Tag) :
    tags.foldl (fun p tag => p.postAll (.cancel tag)) p = { p with crew := p.crew.map fun w =>
      { w with inbox := w.inbox ++ tags.map fun tag => .signal (.cancel tag) } } := by
  induction tags generalizing p with
  | nil => simp
  | cons tag rest ih =>
    rw [List.foldl_cons, ih]
    simp [postAll, Worker.post, Function.comp_def]

end Pool

/-! ## What a granted call adds -/

/-- Opening an account adds its tags to those that are held. -/
theorem Clients.heldTags_insert (cs : Clients κ) (c : ClientId) (a : Account κ) :
    (cs.insert c a).heldTags = cs.heldTags ++ a.tags := by
  unfold heldTags insert
  rw [List.flatMap_append, List.flatMap_singleton]

/-- One more tag on an account is one more tag that is held. -/
theorem Clients.heldTags_oneMore {cs : Clients κ} (hkeyed : cs.Keyed) {c : ClientId}
    {a : Account κ} (h : cs.find? c = some a) (tag : Tag) :
    (cs.update c (Account.oneMore tag)).heldTags.Perm (cs.heldTags ++ [tag]) := by
  obtain ⟨before, behind, hsplit, hbefore⟩ := List.lookup_eq_some_iff.mp h
  have hsame (xs : List (ClientId × Account κ)) (hxs : ∀ x ∈ xs, x.1 ≠ c) :
      xs.filterMap (fun x => if x.1 = c then
        (Account.oneMore tag x.2).map fun a => (x.1, a) else some x) = xs := by
    refine (List.filterMap_congr fun x hx => if_neg (hxs x hx)).trans ?_
    exact List.filterMap_some
  have hbehind : ∀ x ∈ behind, x.1 ≠ c := by
    intro x hx heq
    unfold Keyed at hkeyed
    rw [hsplit, List.map_append, List.map_cons, List.nodup_append] at hkeyed
    exact (List.nodup_cons.mp hkeyed.2.1).1 (heq ▸ List.mem_map.mpr ⟨x, hx, rfl⟩)
  have hupdate : (cs.update c (Account.oneMore tag)).accounts =
      before ++ (c, { a with outstanding := a.outstanding + 1, tags := a.tags ++ [tag] }) ::
        behind := by
    unfold update
    simp only
    rw [hsplit, List.filterMap_append, List.filterMap_cons, hsame before ?_, hsame behind hbehind]
    · simp [Account.oneMore]
    · intro x hx heq
      simpa [heq] using hbefore x hx
  unfold heldTags
  rw [hupdate, hsplit]
  simp only [List.flatMap_append, List.flatMap_cons, List.append_assoc]
  refine List.Perm.append_left _ (List.Perm.append_left _ ?_)
  exact List.perm_append_comm

/-- The account with more items, which hold these tags. -/
def Account.grown (a : Account κ) (tags : List Tag) : Account κ :=
  { a with outstanding := a.outstanding + tags.length, tags := a.tags ++ tags }

namespace Pool

/-- What there is to a call by which the pool took on items of a client, besides the account `a`
that the client had or was given. -/
structure TakenOn (p : Pool κ) (c : ClientId) (a : Account κ) (items : List Item)
    (tags : List Tag) (p' : Pool κ) : Prop where
  /-- Each item got a tag of its own, which nobody held before and somebody holds now. -/
  length_eq : tags.length = items.length
  nodup : tags.Nodup
  ne_zero : ∀ tag ∈ tags, tag ≠ 0
  free : ∀ tag ∈ tags, tag ∉ p.clients.heldTags
  held : p'.clients.heldTags.Perm (p.clients.heldTags ++ tags)
  /-- The items are on the account of their client, and no other account changed. -/
  account_eq : p'.clients.find? c = some (a.grown tags)
  outstanding_eq : p'.outstanding c = p.outstanding c + items.length
  others : ∀ c', c' ≠ c → p'.clients.find? c' = p.clients.find? c'
  /-- Each worker got the jobs whose turn came to it, in order and behind its other mail. -/
  length_crew : p'.crew.length = p.crew.length
  inboxes : ∀ (k : ℕ) (w : Worker), p.crew[k]? = some w →
    p'.crew[k]? = some { w with inbox := w.inbox ++ p.share (tagging c items tags) k }
  /-- The turn of every job came to some worker. -/
  slot_lt : ∀ i, p.slot i < p.crew.length
  cursor_eq : p'.cursor = p.cursor + UInt64.ofNat items.length
  /-- Nothing else changed. -/
  rest_eq : p' = { p with clients := p'.clients, crew := p'.crew, cursor := p'.cursor }

/-- How a call ends that submits items. -/
inductive Submitted (p : Pool κ) (c : ClientId) (receiver : κ) (items : List Item) :
    EStateM.Result PoolError (Pool κ) Unit → Prop
  | refused {e : PoolError} (call : p.submit c receiver items = .error e)
      (why : p.Unopened c items.length e) : Submitted p c receiver items (.error e p)
  /-- Without items nothing needs to be done. -/
  | idle (call : p.submit c receiver items = .ok p) (empty : items = []) :
      Submitted p c receiver items (.ok () p)
  | granted {p' : Pool κ} {tags : List Tag} (call : p.submit c receiver items = .ok p')
      (unknown : p.clients.find? c = none)
      (taken : p.TakenOn c ⟨0, some receiver, []⟩ items tags p') :
      Submitted p c receiver items (.ok () p')

/-- How a call ends that adds an item. -/
inductive Added (p : Pool κ) (c : ClientId) (i : Item) :
    EStateM.Result PoolError (Pool κ) Unit → Prop
  | refused {e : PoolError} (call : p.addItem c i = .error e) (why : p.Unadded c e) :
      Added p c i (.error e p)
  | granted {p' : Pool κ} {a : Account κ} {tag : Tag} (call : p.addItem c i = .ok p')
      (known : p.clients.find? c = some a) (taken : p.TakenOn c a [i] [tag] p') :
      Added p c i (.ok () p')

/-- How a call ends that cancels the items of a client. -/
inductive Cancelled (p : Pool κ) (c : ClientId) : EStateM.Result PoolError (Pool κ) Unit → Prop
  | refused {e : PoolError} (call : p.cancel c = .error e) (why : p.Uncancelled c e) :
      Cancelled p c (.error e p)
  /-- Every worker is told the tags of the client, in order. -/
  | granted {p' : Pool κ} {a : Account κ} (call : p.cancel c = .ok p')
      (known : p.clients.find? c = some a)
      (told : p' = { p with crew := p.crew.map fun w =>
        { w with inbox := w.inbox ++ a.tags.map fun tag => .signal (.cancel tag) } }) :
      Cancelled p c (.ok () p')

end Pool

namespace Workshop

/-- A call that found tags for its items, changed the table to match and dispatched the jobs took
them on. -/
theorem Booked.takenOn {y : Workshop κ σ} (h : y.Booked) (hrunning : y.pool.phase = .running)
    {c : ClientId} {a : Account κ} {items : List Item} {tags : List Tag}
    {clients clients' : Clients κ}
    (halloc : y.pool.clients.allocateTags items.length = some (tags, clients))
    (hheld : clients'.heldTags.Perm (clients.heldTags ++ tags))
    (hown : clients'.find? c = some (a.grown tags))
    (hbefore : y.pool.outstanding c = a.outstanding)
    (hothers : ∀ c', c' ≠ c → clients'.find? c' = clients.find? c') :
    y.pool.TakenOn c a items tags
      (({ y.pool with clients := clients' } : Pool κ).dispatchAll c (items.zip tags)) := by
  have hout := Clients.givenOut_of_allocateTags h.balanced.next_ne_zero halloc
  have hsame : clients.heldTags = y.pool.clients.heldTags := by
    unfold Clients.heldTags
    rw [hout.accounts_eq]
  have hjobs : (Pool.tagging c items tags).length = items.length := by
    unfold Pool.tagging
    rw [List.length_map, List.length_zip, hout.length_eq, Nat.min_self]
  have hmanned : 0 < y.pool.crew.length :=
    List.length_pos_iff.mpr (h.manned.crew_ne_nil (Or.inl hrunning))
  have hclients := Pool.clients_dispatchAll ({ y.pool with clients := clients' } : Pool κ) c
    (items.zip tags)
  have hfind : (({ y.pool with clients := clients' } : Pool κ).dispatchAll c
      (items.zip tags)).clients.find? c = some (a.grown tags) := by
    rw [hclients]
    exact hown
  refine
    { length_eq := hout.length_eq
      nodup := hout.nodup
      ne_zero := hout.ne_zero
      free := hout.free
      held := ?_
      account_eq := hfind
      outstanding_eq := ?_
      others := ?_
      length_crew := ?_
      inboxes := ?_
      slot_lt := fun i => Nat.mod_lt _ hmanned
      cursor_eq := ?_
      rest_eq := ?_ }
  · rw [hclients, ← hsame]
    exact hheld
  · rw [hbefore, ← hout.length_eq]
    unfold Pool.outstanding
    rw [hfind]
    rfl
  · intro c' hne
    rw [hclients, ← hout.find?_eq c']
    exact hothers c' hne
  · rw [Pool.dispatchAll_eq_foldl_dispatch, Pool.length_crew_foldl_dispatch]
  · intro k w hw
    rw [Pool.dispatchAll_eq_foldl_dispatch, Pool.crew_foldl_dispatch]
    simp only [hw, Option.map_some]
    rfl
  · rw [Pool.dispatchAll_eq_foldl_dispatch, Pool.foldl_dispatch_eq, hjobs]
  · rw [hclients]
    conv_lhs => rw [Pool.dispatchAll_eq_foldl_dispatch, Pool.foldl_dispatch_eq]
    rw [Pool.dispatchAll_eq_foldl_dispatch]
    congr 1
    rw [Pool.foldl_dispatch_eq]

/-- A call that submits items takes them all on, or changes nothing. -/
theorem submitted {y : Workshop κ σ} (h : y.pool.phase = .running → y.Booked) (c : ClientId)
    (receiver : κ) (items : List Item) :
    y.pool.Submitted c receiver items ((Procedure.submit c receiver items).run y.pool) := by
  rw [Procedure.run_submit]
  cases hcall : y.pool.submit c receiver items with
  | error e => exact .refused hcall (Pool.unopened_of_submit hcall)
  | ok p =>
    by_cases hitems : items = []
    · subst hitems
      obtain rfl := Pool.of_submit_nil hcall
      exact .idle hcall rfl
    · obtain ⟨hunknown, hrunning, tags, clients, halloc, rfl⟩ := Pool.of_submit hcall hitems
      have h := h hrunning
      have hout := Clients.givenOut_of_allocateTags h.balanced.next_ne_zero halloc
      have hfree : clients.find? c = none := (hout.find?_eq c).trans hunknown
      refine .granted hcall hunknown (h.takenOn hrunning halloc ?_ ?_ ?_ ?_)
      · rw [Clients.heldTags_insert]
      · rw [Clients.find?_insert hfree, if_pos rfl, Account.grown, hout.length_eq]
        simp
      · unfold Pool.outstanding
        rw [hunknown]
      · intro c' hne
        rw [Clients.find?_insert hfree, if_neg hne]

/-- A call that adds an item takes it on, or changes nothing. -/
theorem added {y : Workshop κ σ} (h : y.pool.phase = .running → y.Booked) (c : ClientId)
    (i : Item) :
    y.pool.Added c i ((Procedure.addItem c i).run y.pool) := by
  rw [Procedure.run_addItem]
  cases hcall : y.pool.addItem c i with
  | error e => exact .refused hcall (Pool.unadded_of_addItem hcall)
  | ok p =>
    obtain ⟨⟨a, hknown⟩, hrunning, tag, clients, halloc, rfl⟩ := Pool.of_addItem hcall
    have h := h hrunning
    have hout := Clients.givenOut_of_allocateTags h.balanced.next_ne_zero halloc
    have hkeyed := hout.keyed h.balanced.keyed
    have hfind : clients.find? c = some a := (hout.find?_eq c).trans hknown
    refine .granted hcall hknown (?_ : y.pool.TakenOn c a [i] [tag] _)
    refine h.takenOn hrunning halloc ?_ ?_ ?_ ?_
    · exact Clients.heldTags_oneMore hkeyed hfind tag
    · rw [Clients.find?_update hkeyed, if_pos rfl, hfind]
      rfl
    · unfold Pool.outstanding
      rw [hknown]
    · intro c' hne
      rw [Clients.find?_update hkeyed, if_neg hne]

end Workshop

namespace Pool

/-- A call that cancels tells every worker, or changes nothing. -/
theorem cancelled (p : Pool κ) (c : ClientId) :
    p.Cancelled c ((Procedure.cancel c).run p) := by
  rw [Procedure.run_cancel]
  cases hcall : p.cancel c with
  | error e => exact .refused hcall (Pool.uncancelled_of_cancel hcall)
  | ok p' =>
    obtain ⟨-, a, hknown, rfl⟩ := Pool.of_cancel hcall
    exact .granted hcall hknown (foldl_postAll_eq_map p a.tags)

/-- Calls to the pool are granted as a whole, or refused and change nothing. -/
structure Answers (p : Pool κ) : Prop where
  submit : ∀ c receiver items,
    p.Submitted c receiver items ((Procedure.submit c receiver items).run p)
  addItem : ∀ c i, p.Added c i ((Procedure.addItem c i).run p)
  cancel : ∀ c, p.Cancelled c ((Procedure.cancel c).run p)
  /-- There are no tags left for some items just if there are not so many besides those held. -/
  few_iff : p.phase = .running → ∀ count,
    p.clients.allocateTags count = none ↔ 255 < p.clients.heldTags.length + count

end Pool

namespace Workshop

/-- In every state that a workshop can reach, calls to the pool are granted as a whole, or refused
and change nothing, and acts that nothing interrupts are the calls that they make up. -/
theorem answers_after (m : StorageManager σ) (settings : Settings) (loop : EventLoop)
    (ground : Surroundings σ) (acts : List (Act κ σ)) :
    (after m settings loop ground acts).pool.Answers ∧
      (after m settings loop ground acts).Uninterrupted m := by
  have hbooked := booked_of_running m settings loop ground acts
  refine ⟨⟨submitted hbooked, added hbooked, Pool.cancelled _, ?_⟩, uninterrupted m _⟩
  intro hrunning count
  have hbalanced := (hbooked hrunning).balanced
  rw [← Option.not_isSome_iff_eq_none, Clients.isSome_allocateTags hbalanced.next_ne_zero
    hbalanced.nodup_heldTags hbalanced.heldTags_ne_zero, Nat.not_le]

end Workshop

end Haulage
