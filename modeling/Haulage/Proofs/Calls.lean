import Haulage.Pool.Basic
import Haulage.Proofs.ClientTable

/-!
# Calls and their errands

A call of the pool changes the table of clients and sends mail to the workers. Here each call is cut
into what it does to the table and the errands that are left: `submit_eq_foldl`, `addItem_eq_foldl`,
`cancel_eq_foldl` and `broadcast_eq_foldl` say that a call is its change of the table followed by
its errands, in order. So a call may be looked at piece by piece while others act in between.
-/

namespace Haulage

/-- The account with one more item, which holds this tag. -/
def Account.oneMore {κ : Type} (tag : Tag) (a : Account κ) : Option (Account κ) :=
  some { a with outstanding := a.outstanding + 1, tags := a.tags ++ [tag] }

/-- The account with its receiver forgotten. -/
def Account.detached {κ : Type} (a : Account κ) : Option (Account κ) :=
  some { a with receiver := none }

/-! ## Errands -/

/-- A piece of mail that a call still has to send. -/
inductive Errand where
  /-- A job goes to the next worker. -/
  | dispatch (j : Job)
  /-- A signal goes to the worker at this place. -/
  | post (k : Nat) (s : Signal)
  deriving Repr, DecidableEq

/-- The job that an errand dispatches. -/
def Errand.job? : Errand → Option Job
  | .dispatch j => some j
  | .post _ _ => none

namespace Pool

variable {κ : Type}

/-- The pool after an errand. -/
def run (p : Pool κ) : Errand → Pool κ
  | .dispatch j => p.dispatch j
  | .post k s => { p with crew := p.crew.modify k (·.post (.signal s)) }

/-- The errands by which every worker is told a signal. -/
def postings (p : Pool κ) (s : Signal) : List Errand :=
  (List.range p.crew.length).map fun k => .post k s

/-- The errands by which every worker is told to cancel the items with these tags. -/
def cancellings (p : Pool κ) (tags : List Tag) : List Errand :=
  tags.flatMap fun tag => p.postings (.cancel tag)

/-- Postings post their signal. -/
theorem of_mem_postings {p : Pool κ} {s : Signal} {e : Errand} (h : e ∈ p.postings s) :
    ∃ k, e = .post k s := by
  obtain ⟨k, -, rfl⟩ := List.mem_map.mp h
  exact ⟨k, rfl⟩

/-- Cancellings post that one of the tags is cancelled. -/
theorem of_mem_cancellings {p : Pool κ} {tags : List Tag} {e : Errand}
    (h : e ∈ p.cancellings tags) : ∃ k, ∃ tag ∈ tags, e = .post k (.cancel tag) := by
  obtain ⟨tag, htag, hpost⟩ := List.mem_flatMap.mp h
  obtain ⟨k, rfl⟩ := of_mem_postings hpost
  exact ⟨k, tag, htag, rfl⟩

/-- The jobs that are made of the items of a client with these tags. -/
def tagging (c : ClientId) (items : List Item) (tags : List Tag) : List Job :=
  (items.zip tags).map fun x => ⟨c, { x.1 with tag := some x.2 }⟩

/-- The jobs that a call makes of the items of a client, each with a tag of its own. -/
def tagged (p : Pool κ) (c : ClientId) (items : List Item) : List Job :=
  match p.clients.allocateTags items.length with
  | none => []
  | some (tags, _) => tagging c items tags

/-- The jobs of a call, where there were tags for them. -/
theorem tagged_eq {p : Pool κ} {items : List Item} {tags : List Tag} {clients : Clients κ}
    (h : p.clients.allocateTags items.length = some (tags, clients)) (c : ClientId) :
    p.tagged c items = tagging c items tags := by
  unfold tagged
  rw [h]

/-- Dispatching all jobs of a call is doing its errands. -/
theorem dispatchAll_eq_foldl (p : Pool κ) (c : ClientId) (items : List Item) (tags : List Tag) :
    p.dispatchAll c (items.zip tags) =
      ((tagging c items tags).map Errand.dispatch).foldl run p := by
  unfold dispatchAll tagging
  rw [List.foldl_map, List.foldl_map]
  rfl

/-- Dispatching leaves the table alone. -/
@[simp] theorem clients_dispatchAll (p : Pool κ) (c : ClientId) (items : List (Item × Tag)) :
    (p.dispatchAll c items).clients = p.clients := by
  unfold dispatchAll
  induction items generalizing p with
  | nil => rfl
  | cons x rest ih => exact ih _

/-- A call that took on items found no account of its client, and opened one. -/
theorem of_submit {p p' : Pool κ} {c : ClientId} {receiver : κ} {items : List Item}
    (h : p.submit c receiver items = .ok p') (hitems : items ≠ []) :
    p.clients.find? c = none ∧ p.phase = .running ∧ ∃ tags clients,
      p.clients.allocateTags items.length = some (tags, clients) ∧
      p' = ({ p with clients := clients.insert c ⟨items.length, some receiver, tags⟩ } :
        Pool κ).dispatchAll c (items.zip tags) := by
  unfold submit checkRunning at h
  split at h
  · cases h
  · rename_i hnone
    have hfind : p.clients.find? c = none := by simpa using hnone
    split at h
    · cases h
    · rename_i hok
      have hrunning : p.phase = .running := by
        split at hok
        · assumption
        · cases hok
        · cases hok
      rw [if_neg (by simpa using hitems)] at h
      split at h
      · cases h
      · rename_i tags clients halloc
        cases h
        exact ⟨hfind, hrunning, tags, clients, halloc, rfl⟩

/-- A call that takes on no items changes nothing. -/
theorem eq_of_submit_nil {p p' : Pool κ} {c : ClientId} {receiver : κ}
    (h : p.submit c receiver [] = .ok p') : p' = p := by
  unfold submit at h
  split at h
  · cases h
  · split at h
    · cases h
    · cases h
      rfl

/-- Taking on items is changing the table and doing the errands. -/
theorem submit_eq_foldl {p p' : Pool κ} {c : ClientId} {receiver : κ} {items : List Item}
    (h : p.submit c receiver items = .ok p') (hitems : items ≠ []) :
    p' = ((p.tagged c items).map Errand.dispatch).foldl run { p with clients := p'.clients } := by
  obtain ⟨-, -, tags, clients, halloc, rfl⟩ := of_submit h hitems
  rw [clients_dispatchAll, dispatchAll_eq_foldl, tagged_eq halloc]

/-- A call that took on one more item found the account of its client, and added to it. -/
theorem of_addItem {p p' : Pool κ} {c : ClientId} {i : Item} (h : p.addItem c i = .ok p') :
    (∃ a, p.clients.find? c = some a) ∧ p.phase = .running ∧ ∃ tag clients,
      p.clients.allocateTags 1 = some ([tag], clients) ∧
      p' = ({ p with clients := clients.update c (Account.oneMore tag) } : Pool κ).dispatch
        ⟨c, { i with tag := some tag }⟩ := by
  unfold addItem checkRunning at h
  split at h
  · cases h
  · rename_i hok
    have hrunning : p.phase = .running := by
      split at hok
      · assumption
      · cases hok
      · cases hok
    split at h
    · cases h
    · rename_i hsome
      have hfind : ∃ a, p.clients.find? c = some a :=
        Option.ne_none_iff_exists'.mp (by simpa using hsome)
      split at h
      · rename_i tag rest clients halloc
        have hrest : rest = [] := by
          obtain ⟨-, hlength, -⟩ := Clients.gather_of_allocateTags halloc
          exact List.length_eq_zero_iff.mp (Nat.succ.inj hlength)
        subst hrest
        cases h
        exact ⟨hfind, hrunning, tag, clients, halloc, rfl⟩
      · cases h

/-- One more item of a known client is taken on where there is a tag for it. -/
theorem addItem_eq_ok {p : Pool κ} {c : ClientId} {a : Account κ} (hrunning : p.phase = .running)
    (hknown : p.clients.find? c = some a) {tag : Tag} {clients : Clients κ}
    (halloc : p.clients.allocateTags 1 = some ([tag], clients)) (i : Item) :
    p.addItem c i = .ok (({ p with clients := clients.update c (Account.oneMore tag) } :
      Pool κ).dispatch ⟨c, { i with tag := some tag }⟩) := by
  simp only [addItem, checkRunning, hrunning, hknown, halloc, Option.isNone_some,
    Bool.false_eq_true, if_false]
  rfl

/-- One more item is refused where there is no tag for it. -/
theorem addItem_eq_error {p : Pool κ} {c : ClientId} {a : Account κ} (hrunning : p.phase = .running)
    (hknown : p.clients.find? c = some a) (halloc : p.clients.allocateTags 1 = none) (i : Item) :
    p.addItem c i = .error .tagsExhausted := by
  simp only [addItem, checkRunning, hrunning, hknown, halloc, Option.isNone_some,
    Bool.false_eq_true, if_false]

/-- A crew that was told something one after the other, as far as the first `n` of it. -/
theorem getElem?_foldl_modify (f : Worker → Worker) (crew : List Worker) (n i : ℕ) :
    ((List.range n).foldl (fun crew k => crew.modify k f) crew)[i]? =
      if i < n then crew[i]?.map f else crew[i]? := by
  induction n with
  | zero => rfl
  | succ n ih =>
    rw [List.range_succ, List.foldl_append, List.foldl_cons, List.foldl_nil,
      List.getElem?_modify, ih]
    by_cases heq : n = i
    · subst heq
      simp
    · by_cases hlt : i < n
      · have hle : i < n + 1 := Nat.lt_succ_of_lt hlt
        simp [heq, hlt, hle]
      · have hle : ¬ i < n + 1 := by omega
        simp [heq, hlt, hle]

/-- Telling every worker a signal is doing the postings. -/
theorem postAll_eq_foldl (p : Pool κ) (s : Signal) :
    p.postAll s = (p.postings s).foldl run p := by
  have hcrew (ks : List ℕ) (crew : List Worker) :
      (ks.map fun k => Errand.post k s).foldl run { p with crew := crew } =
        { p with crew := ks.foldl (fun crew k => crew.modify k (·.post (.signal s))) crew } := by
    induction ks generalizing crew with
    | nil => rfl
    | cons k ks ih => exact ih _
  have hmap : p.crew.map (·.post (.signal s)) = (List.range p.crew.length).foldl
      (fun crew k => crew.modify k (·.post (.signal s))) p.crew := by
    refine List.ext_getElem? fun i => ?_
    rw [getElem?_foldl_modify, List.getElem?_map]
    split
    · rfl
    · rename_i hge
      rw [List.getElem?_eq_none (by omega)]
      rfl
  unfold postAll postings
  rw [hmap]
  exact (hcrew _ p.crew).symm

/-- Adding an item is changing the table and doing the one errand. -/
theorem addItem_eq_foldl {p p' : Pool κ} {c : ClientId} {i : Item} (h : p.addItem c i = .ok p') :
    p' = ((p.tagged c [i]).map Errand.dispatch).foldl run { p with clients := p'.clients } := by
  obtain ⟨-, -, tag, clients, halloc, rfl⟩ := of_addItem h
  rw [show p.tagged c [i] = tagging c [i] [tag] from tagged_eq halloc c]
  rfl

/-- A call that cancels found the account of its client. -/
theorem of_cancel {p p' : Pool κ} {c : ClientId} (h : p.cancel c = .ok p') :
    p.phase = .running ∧ ∃ a, p.clients.find? c = some a ∧
      p' = a.tags.foldl (fun p tag => p.postAll (.cancel tag)) p := by
  unfold cancel checkRunning at h
  split at h
  · cases h
  · rename_i a hfind
    split at h
    · cases h
    · rename_i hok
      cases h
      refine ⟨?_, a, hfind, rfl⟩
      split at hok
      · assumption
      · cases hok
      · cases hok

/-- Telling the workers something leaves the errands to all workers as they are. -/
@[simp] theorem cancellings_postAll (p : Pool κ) (s : Signal) (tags : List Tag) :
    (p.postAll s).cancellings tags = p.cancellings tags := by
  simp [cancellings, postings, postAll]

/-- Asking for several tags to be cancelled is doing the errands for each. -/
theorem foldl_postAll_eq_foldl (p : Pool κ) (tags : List Tag) :
    tags.foldl (fun p tag => p.postAll (.cancel tag)) p = (p.cancellings tags).foldl run p := by
  induction tags generalizing p with
  | nil => rfl
  | cons tag tags ih =>
    have hsplit : p.cancellings (tag :: tags) = p.postings (.cancel tag) ++ p.cancellings tags :=
      List.flatMap_cons
    rw [hsplit, List.foldl_append, ← postAll_eq_foldl, List.foldl_cons, ih, cancellings_postAll]

/-- Cancelling is doing the errands for every tag of the client. -/
theorem cancel_eq_foldl {p p' : Pool κ} {c : ClientId} {a : Account κ}
    (h : p.cancel c = .ok p') (hfind : p.clients.find? c = some a) :
    p' = (p.cancellings a.tags).foldl run p := by
  obtain ⟨-, a', hfind', rfl⟩ := of_cancel h
  cases hfind.symm.trans hfind'
  exact foldl_postAll_eq_foldl p a.tags

/-- Sending a signal to every worker of a running pool is doing the postings. -/
theorem broadcast_eq_foldl {p : Pool κ} (h : p.phase = .running) (s : Signal) :
    p.broadcast s = (p.postings s).foldl run p := by
  unfold broadcast
  rw [if_pos h, postAll_eq_foldl]

/-- A pool that was started was idle before, and has workers with nothing to do. -/
theorem of_start {m : Machine} {watcher : Watcher} {p p' : Pool κ}
    (h : p.start m watcher = .ok p') :
    p.phase = .idle ∧ p'.phase = .running ∧ p'.clients = p.clients ∧ p'.completed = p.completed ∧
      ∃ n, p'.crew = List.replicate (n + 1) .fresh := by
  have hcount : ∃ n, p.settings.workerCount m = n + 1 :=
    Nat.exists_eq_succ_of_ne_zero (by unfold Settings.workerCount; omega)
  obtain ⟨n, hn⟩ := hcount
  have hcrew (loop : EventLoop) :
      (p.manned m loop watcher).crew = List.replicate (n + 1) .fresh := by
    rw [← hn]
    rfl
  unfold start at h
  split at h
  · cases h
  · cases h
  · rename_i hidle
    split at h
    · cases h
      exact ⟨hidle, rfl, rfl, rfl, n, hcrew _⟩
    · split at h
      · cases h
      · cases h
        exact ⟨hidle, rfl, rfl, rfl, n, hcrew _⟩

end Pool

end Haulage
