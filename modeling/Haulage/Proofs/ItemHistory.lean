import Haulage.Proofs.Books
import Haulage.Proofs.Loads
import Haulage.Proofs.Overlays
import Haulage.Storage.Shelf

/-!
# The bytes that an item counts

An item may be run again and again: after a stop its copy is taken up where it stood, or it is given
up and a new one is begun. The item goes on counting all the while. `ItemHistory.bytes_after` says
what the count comes to when a copy is committed at last: the bytes in the files at the destination,
and besides them what had been counted when that copy was opened. That is nothing for the first copy
of an item, after a reset, and after a commit that failed. It is not nothing after a copy that was
given up, or one that was committed: `not_exact_after_rerun`.

A history is what happens to one item, one event at a time. A run is such events
(`ItemHistory.runs`), so that runs and what is done between them are not kept apart.
-/

namespace Haulage

open Disk (Location Path Tree)

/-- An item in somebody's hands, in a file tree. -/
structure ItemHistory where
  attempt : Attempt
  tree : Tree
  /-- What the item had counted when its copy was opened. -/
  opened : ℕ

namespace ItemHistory

/-- The item as it is. -/
abbrev item (x : ItemHistory) : Item := x.attempt.item

/-- The item as it is handed over, when no attempt is under way. -/
def ofItem (i : Item) (t : Tree) : ItemHistory := ⟨⟨i, .ended, ⟨1, Nat.one_pos⟩⟩, t, 0⟩

/-- What may happen to an item. Some of it is for an attempt, the rest for the time between two. -/
inductive Event where
  /-- An attempt begins, with a buffer of so many bytes. -/
  | start (buffer : BufferSize)
  /-- The attempt takes the next signal. -/
  | hear (s : Signal)
  /-- The attempt opens the copy, or moves a chunk. -/
  | move
  /-- The item is finished. -/
  | finish
  /-- The copy is given up. -/
  | discard
  /-- The item is put back to the start. -/
  | reset
  /-- The item becomes like another one, but for its payload, its copy and its count. -/
  | relabel (i : Item)
  /-- Others have changed the tree. -/
  | others (t : Tree)

/-- The stage of an attempt that an event is for. Others may do something at any time. -/
def Event.isFor (stage : Stage) : Event → Bool
  | .hear _ => stage = .listening
  | .move => stage = .moving
  | .others _ => true
  | _ => stage = .ended

/-- The history with another item in another tree. -/
def put (x : ItemHistory) (r : Item × Tree) : ItemHistory :=
  { x with attempt := { x.attempt with item := r.1 }, tree := r.2 }

/-- What an event does. -/
def act (x : ItemHistory) : Event → ItemHistory
  | .start buffer => { x with attempt := .start x.item buffer }
  | .hear s => { x with attempt := x.attempt.hear s }
  | .move => ⟨(x.attempt.move x.tree).1, (x.attempt.move x.tree).2,
      if x.item.session.isNone then x.item.bytes else x.opened⟩
  | .finish => x.put (x.item.finish x.tree)
  | .discard => x.put (x.item.dropSession x.tree)
  | .reset => x.put (x.item.reset x.tree)
  | .relabel i => x.put ({ i with
      payload := x.item.payload, bytes := x.item.bytes, session := x.item.session }, x.tree)
  | .others t => { x with tree := t }

/-- The history after one more event. What is not for its stage does not happen. -/
def next (x : ItemHistory) (e : Event) : ItemHistory :=
  if e.isFor x.attempt.stage then x.act e else x

/-- The history after some events. -/
def after (x : ItemHistory) (events : List Event) : ItemHistory := events.foldl next x

/-- A copy is opened only where nothing is in its way, and others leave the staged copy alone. -/
def Admits (x : ItemHistory) : Event → Prop
  | .move => x.item.session = none →
      ∀ d, x.item.destination = some d → Session.Unobstructed x.tree x.item.payload d
  | .others t => ∀ s, x.item.session = some s → Session.Spares s.destination x.tree t
  | _ => True

/-- So it is with each of the events that happen. -/
def Regular (x : ItemHistory) : List Event → Prop
  | [] => True
  | e :: events => (e.isFor x.attempt.stage → x.Admits e) ∧ (x.next e).Regular events

/-! ## What an item counts -/

/-- The copy that is open holds what the item has counted since it was opened. A copy that goes
to no entry of a directory is never committed. -/
def Tallied (x : ItemHistory) : Prop :=
  ∀ s, x.item.session = some s → ∀ init n, s.destination.EndsIn init n →
    ∃ dir k, s.Laden x.tree s.destination dir (n ++ ".mlc.partial") k ∧ x.item.bytes = x.opened + k

end ItemHistory

/-- An item with an open copy that is done when it is finished was done before, and its copy was
committed. -/
theorem Item.finish_of_done {t : Tree} {i : Item} {s : Session} (hs : i.session = some s)
    (hdone : (i.finish t).1.state = .done) :
    (i.finish t).1.bytes = i.bytes ∧ (s.commit t).1 = .ok () ∧ (i.finish t).2 = (s.commit t).2 := by
  unfold finish at hdone ⊢
  rw [hs] at hdone ⊢
  simp only at hdone ⊢
  by_cases hstate : i.state = .done
  · rw [if_pos hstate] at hdone ⊢
    generalize s.commit t = r at hdone ⊢
    obtain ⟨r, t'⟩ := r
    cases r with
    | ok _ => exact ⟨rfl, rfl, rfl⟩
    | error f => cases hdone
  · rw [if_neg hstate] at hdone
    exact absurd hdone hstate

/-- Nothing is counted when a copy is opened. -/
theorem Attempt.bytes_openSession (t : Tree) (a : Attempt) :
    (a.openSession t).1.item.bytes = a.item.bytes := by
  unfold openSession
  split
  · rfl
  · split
    · exact (Item.failWith_kept _ _).2
    · rfl

namespace ItemHistory

variable {x : ItemHistory} {e : Event}

/-- An item whose copy is not open has nothing to account for. -/
theorem Tallied.of_closed (h : x.item.session = none) : x.Tallied := fun s hs => by
  rw [h] at hs
  cases hs

/-- What changes neither the tree nor the copy nor a count leaves the account as it is. -/
theorem Tallied.congr {y : ItemHistory} (h : x.Tallied) (htree : y.tree = x.tree)
    (hsession : y.item.session = x.item.session) (hbytes : y.item.bytes = x.item.bytes)
    (hopened : y.opened = x.opened) : y.Tallied := by
  intro s hs init n hd
  rw [htree, hbytes, hopened]
  exact h s (hsession ▸ hs) init n hd

/-- A copy that is opened begins a new account. -/
theorem tallied_openSession (hsession : x.item.session = none)
    (h : ∀ d, x.item.destination = some d → Session.Unobstructed x.tree x.item.payload d) :
    Tallied ⟨(x.attempt.openSession x.tree).1, (x.attempt.openSession x.tree).2,
      x.item.bytes⟩ := by
  unfold Attempt.openSession
  split
  · exact .of_closed hsession
  · rename_i d hdest
    split
    · rename_i f t' _
      exact .of_closed ((Item.failWith_kept f x.item).1.trans hsession)
    · rename_i s t' hstart
      intro s' hs' init n hd
      obtain rfl : s = s' := Option.some.inj hs'
      rw [Session.destination_of_start hstart] at hd ⊢
      obtain ⟨dir, hladen⟩ := Session.laden_start (h d hdest) hd hstart
      exact ⟨dir, 0, hladen, rfl⟩

/-- A chunk that is moved is counted, and comes to lie in the staged copy. -/
theorem Tallied.moveChunk (h : x.Tallied) {s : Session} (hsession : x.item.session = some s) :
    Tallied ⟨(x.attempt.moveChunk x.tree s).1, (x.attempt.moveChunk x.tree s).2, x.opened⟩ := by
  have hdest := Session.destination_copyChunk x.attempt.buffer x.tree s
  have hcopy {init : List String} {n : String} (hd : s.destination.EndsIn init n) :
      let r := s.copyChunk x.attempt.buffer x.tree
      ∃ dir k, r.2.1.Laden r.2.2 s.destination dir (n ++ ".mlc.partial") k ∧
        x.item.bytes + movedBy r.1 = x.opened + k := by
    obtain ⟨dir, k, hladen, hbytes⟩ := h s hsession init n hd
    exact ⟨dir, k + movedBy (s.copyChunk x.attempt.buffer x.tree).1,
      hladen.copyChunk hd.staged x.attempt.buffer, by rw [hbytes, Nat.add_assoc]⟩
  unfold Attempt.moveChunk
  generalize s.copyChunk x.attempt.buffer x.tree = r at hdest hcopy
  obtain ⟨r, s', t'⟩ := r
  simp only at hdest hcopy
  match r with
  | .error f =>
    obtain ⟨hsame, hcount⟩ := Item.failWith_kept f { x.item with session := some s' }
    intro s'' hs'' init n hd
    obtain rfl : s' = s'' := Option.some.inj (hsame.symm.trans hs'')
    obtain ⟨dir, k, hladen, hbytes⟩ := hcopy (hdest ▸ hd)
    exact ⟨dir, k, hdest ▸ hladen, hcount.trans hbytes⟩
  | .ok .complete =>
    intro s'' hs'' init n hd
    obtain rfl : s' = s'' := Option.some.inj hs''
    obtain ⟨dir, k, hladen, hbytes⟩ := hcopy (hdest ▸ hd)
    exact ⟨dir, k, hdest ▸ hladen, hbytes⟩
  | .ok (.copied j) =>
    intro s'' hs'' init n hd
    obtain rfl : s' = s'' := Option.some.inj hs''
    obtain ⟨dir, k, hladen, hbytes⟩ := hcopy (hdest ▸ hd)
    exact ⟨dir, k, hdest ▸ hladen, hbytes⟩

/-- Whatever is done, the account stays right. -/
theorem Tallied.act (h : x.Tallied) (he : x.Admits e) : (x.act e).Tallied := by
  cases e with
  | start buffer => exact h.congr rfl rfl rfl rfl
  | hear s =>
    obtain ⟨hsession, hbytes⟩ := x.attempt.hear_kept s
    exact h.congr rfl hsession hbytes rfl
  | move =>
    unfold ItemHistory.act Attempt.move
    cases hsession : x.item.session with
    | none => exact tallied_openSession hsession (he hsession)
    | some s => exact h.moveChunk hsession
  | finish => exact .of_closed (Item.session_finish _ _)
  | discard => exact .of_closed (Item.session_dropSession _ _)
  | reset => exact .of_closed (Item.session_dropSession _ _)
  | relabel i => exact h.congr rfl rfl rfl rfl
  | others t =>
    intro s hs init n hd
    obtain ⟨dir, k, hladen, hbytes⟩ := h s hs init n hd
    exact ⟨dir, k, hladen.spared (he s hs), hbytes⟩

theorem Tallied.after (h : x.Tallied) {events : List Event} (hregular : x.Regular events) :
    (x.after events).Tallied := by
  induction events generalizing x with
  | nil => exact h
  | cons e events ih =>
    refine ih ?_ hregular.2
    unfold next
    split
    · rename_i hfor
      exact h.act (hregular.1 hfor)
    · exact h

end ItemHistory

/-! ## Runs -/

namespace ItemHistory

variable {x : ItemHistory}

theorem after_cons (e : Event) (events : List Event) :
    x.after (e :: events) = (x.next e).after events := rfl

theorem regular_append {events events' : List Event} (h : x.Regular events)
    (h' : (x.after events).Regular events') : x.Regular (events ++ events') := by
  induction events generalizing x with
  | nil => exact h'
  | cons e events ih => exact ⟨h.1, ih h.2 h'⟩

theorem next_of_isFor {e : Event} (h : e.isFor x.attempt.stage = true) : x.next e = x.act e :=
  if_pos h

/-- The attempt of a history has come to the end of a run. -/
structure Comes (x : ItemHistory) (r : RunResult) : Prop where
  item_eq : x.item = r.item
  tree_eq : x.tree = r.tree
  stage_eq : x.attempt.stage = .ended

/-- Carrying an attempt through is a history. If others change nothing and nothing is in the way of
its copy, it is a regular one. -/
theorem exists_events_runFrom (cues : List Cue) (t : Tree) (polls : ℕ) (a : Attempt) (k : ℕ) :
    ∃ events, (after ⟨a, t, k⟩ events).Comes (a.runFrom cues t polls) ∧
      ((∀ c ∈ cues, c.edits = []) → (a.stage ≠ .ended → Admits ⟨a, t, k⟩ .move) →
        Regular ⟨a, t, k⟩ events) := by
  fun_induction Attempt.runFrom cues t polls a generalizing k with
  | case1 cues t polls a hstage => exact ⟨[], ⟨rfl, rfl, hstage⟩, fun _ _ => trivial⟩
  | case2 t polls a hstage ih =>
    obtain ⟨events, hcomes, hregular⟩ := ih k
    have hnext : next ⟨a, t, k⟩ (.hear .none) = ⟨{ a with stage := .moving }, t, k⟩ :=
      next_of_isFor (by simp [Event.isFor, hstage])
    refine ⟨.hear .none :: events, ?_, fun hcues hadmits => ⟨fun _ => trivial, ?_⟩⟩
    · rwa [after_cons, hnext]
    · rw [hnext]
      exact hregular hcues fun _ => hadmits (by simp [hstage])
  | case3 t polls a hstage cue cues ih =>
    obtain ⟨events, hcomes, hregular⟩ := ih k
    have hnext (u : Tree) : next ⟨a, u, k⟩ (.hear cue.signal) = ⟨a.hear cue.signal, u, k⟩ :=
      next_of_isFor (by simp [Event.isFor, hstage])
    by_cases hedits : cue.edits = []
    · have htree : t.edits cue.edits = t := by rw [hedits]; rfl
      rw [htree] at hcomes hregular ⊢
      refine ⟨.hear cue.signal :: events, ?_, fun hcues hadmits => ⟨fun _ => trivial, ?_⟩⟩
      · rwa [after_cons, hnext]
      · rw [hnext]
        refine hregular (fun c hc => hcues c (List.mem_cons_of_mem _ hc)) fun hgo => ?_
        have hadmits := hadmits (by simp [hstage])
        rcases a.hear_cases cue.signal with hhear | hhear | ⟨state, -, hhear⟩
        · rwa [hhear]
        · rwa [hhear]
        · rw [hhear] at hgo
          exact absurd rfl hgo
    · refine ⟨.others (t.edits cue.edits) :: .hear cue.signal :: events, ?_, fun hcues _ =>
        absurd (hcues cue List.mem_cons_self) hedits⟩
      have hothers : next ⟨a, t, k⟩ (.others (t.edits cue.edits)) = ⟨a, t.edits cue.edits, k⟩ := rfl
      rwa [after_cons, hothers, after_cons, hnext]
  | case4 cues t polls a hstage ih =>
    obtain ⟨events, hcomes, hregular⟩ := ih (if a.item.session.isNone then a.item.bytes else k)
    have hnext : next ⟨a, t, k⟩ .move = ⟨(a.move t).1, (a.move t).2,
        if a.item.session.isNone then a.item.bytes else k⟩ :=
      next_of_isFor (by simp [Event.isFor, hstage])
    refine ⟨.move :: events, ?_, fun hcues hadmits =>
      ⟨fun _ => hadmits (by simp [hstage]), ?_⟩⟩
    · rwa [after_cons, hnext]
    · rw [hnext]
      exact hregular hcues fun hgo hnone => absurd hnone (Attempt.session_move hgo)

/-- Any run of the item is made of events. If others change nothing and nothing is in the way of its
copy, they are regular. -/
def Runs (x : ItemHistory) : Prop :=
  x.attempt.stage = .ended → ∀ (cues : List Cue) (buffer : ℕ), 0 < buffer →
    ∃ events, (x.after events).Comes (x.item.run cues buffer x.tree) ∧
      ((∀ c ∈ cues, c.edits = []) → x.Admits .move → x.Regular events)

/-- A run of an item is a history. -/
theorem runs (x : ItemHistory) : x.Runs := by
  intro hended cues buffer hbuffer
  obtain ⟨events, hcomes, hregular⟩ :=
    exists_events_runFrom cues x.tree 0 (.start x.item ⟨buffer, hbuffer⟩) x.opened
  have hnext : x.next (.start ⟨buffer, hbuffer⟩) =
      ⟨.start x.item ⟨buffer, hbuffer⟩, x.tree, x.opened⟩ :=
    next_of_isFor (by simp [Event.isFor, hended])
  refine ⟨.start ⟨buffer, hbuffer⟩ :: events, ?_, fun hcues hadmits => ⟨fun _ => trivial, ?_⟩⟩
  · rw [after_cons, hnext, Item.run, dif_pos hbuffer]
    exact hcomes
  · rw [hnext]
    exact hregular hcues fun _ => hadmits

end ItemHistory

/-! ## Transactions -/

/-- An executing transaction adds what an item that is done has counted. -/
theorem Site.bytes_returnToTransaction {σ : Type} (m : StorageManager σ) (site : Site σ)
    {key : ℕ} (c : ClientId) {i : Item} {T : Transaction}
    (hT : site.transactions[key]? = some T) (hphase : T.phase = .executing)
    (hdone : i.state = .done) :
    ((site.returnToTransaction m key c i).transactions[key]?).map (·.summary.bytes) =
      some (T.summary.bytes + i.bytes) := by
  have hsummary (a : Arrival) : (T.arrive a).1.summary = (T.count a).summary := by
    unfold Transaction.arrive Transaction.concludeIfSettled
    split <;> rfl
  unfold Site.returnToTransaction
  rw [hT]
  simp only [hphase, Site.receive, hdone, ne_eq, not_true_eq_false, if_false]
  have hT' : ({ site with ground :=
      ⟨(i.completeMove site.ground.tree).2, site.ground.storage⟩ } : Site σ).transactions[key]? =
        some T := hT
  rw [Site.getElem?_book hT', Option.map_some, hsummary]
  rfl

namespace ItemHistory

/-! ## What the count comes to -/

/-- Nothing was counted but what an open copy has moved. -/
structure First (x : ItemHistory) : Prop where
  opened_eq : x.opened = 0
  bytes_eq (h : x.item.session = none) : x.item.bytes = 0

/-- What is done before a copy was closed leaves nothing counted but what the copy holds. -/
theorem First.act {x : ItemHistory} (h : x.First) {e : Event} (hfinish : e ≠ .finish)
    (hdiscard : e ≠ .discard) : (x.act e).First := by
  obtain ⟨hopened, hbytes⟩ := h
  cases e with
  | start buffer => exact ⟨hopened, hbytes⟩
  | hear s =>
    obtain ⟨hsession, hcount⟩ := x.attempt.hear_kept s
    exact ⟨hopened, fun hnone => hcount.trans (hbytes (hsession.symm.trans hnone))⟩
  | move =>
    unfold ItemHistory.act Attempt.move
    cases hsession : x.item.session with
    | none =>
      have hzero := hbytes hsession
      exact ⟨hzero, fun _ => (x.attempt.bytes_openSession x.tree).trans hzero⟩
    | some s => exact ⟨hopened, fun hnone => absurd hnone (x.attempt.session_moveChunk x.tree s)⟩
  | finish => exact absurd rfl hfinish
  | discard => exact absurd rfl hdiscard
  | reset => exact ⟨hopened, fun _ => rfl⟩
  | relabel i => exact ⟨hopened, hbytes⟩
  | others t => exact ⟨hopened, hbytes⟩

/-- As long as no copy is closed but by a reset, the one that is open began with nothing counted. -/
theorem opened_eq_zero {i : Item} {t : Tree} {events : List Event} (hbytes : i.bytes = 0)
    (hkept : ∀ e ∈ events, e ≠ .finish ∧ e ≠ .discard) :
    ((ofItem i t).after events).opened = 0 := by
  have hafter {x : ItemHistory} (h : x.First) :
      (x.after events).opened = 0 := by
    induction events generalizing x with
    | nil => exact h.1
    | cons e events ih =>
      obtain ⟨hfinish, hdiscard⟩ := hkept e List.mem_cons_self
      refine ih (fun e he => hkept e (List.mem_cons_of_mem _ he)) ?_
      unfold next
      split
      · exact h.act hfinish hdiscard
      · exact h
  exact hafter ⟨rfl, fun _ => hbytes⟩

/-- Whatever happened to an item before, if others left its staged copies alone: when a copy is
committed, the item has counted the bytes that stand at the destination then, besides those that it
had counted when the copy was opened; and an executing transaction adds just what was counted. An
item that had counted nothing when it was handed over has counted nothing either when it opens a
copy, as long as none was finished or given up. All this is true of runs of the item: they are made
of such events. -/
theorem bytes_after {i : Item} (hsession : i.session = none) {t : Tree} {events : List Event}
    (hregular : (ofItem i t).Regular events) {s : Session}
    (hs : ((ofItem i t).after events).item.session = some s) :
    let x := (ofItem i t).after events
    let f := x.item.finish x.tree
    (f.1.state = .done → ∃ dir n, x.tree.Seats s.destination dir n ∧
        f.1.bytes = x.opened + f.2.load (dir ++ [n]) ∧
        ∀ {σ : Type} (m : StorageManager σ) (site : Site σ) (key : ℕ) (c : ClientId)
          (T : Transaction), site.transactions[key]? = some T → T.phase = .executing →
            ((site.returnToTransaction m key c f.1).transactions[key]?).map (·.summary.bytes) =
              some (T.summary.bytes + (x.opened + f.2.load (dir ++ [n])))) ∧
      (i.bytes = 0 → (∀ e ∈ events, e ≠ .finish ∧ e ≠ .discard) → x.opened = 0) ∧
      ∀ past, ((ofItem i t).after past).Runs := by
  intro x f
  refine ⟨fun hdone => ?_, opened_eq_zero, fun _ => runs _⟩
  have htallied : x.Tallied := (Tallied.of_closed hsession).after hregular
  obtain ⟨hbytes, hcommit, htree⟩ := Item.finish_of_done hs hdone
  obtain ⟨init, n, hd⟩ := Session.endsIn_of_commit (Prod.ext hcommit rfl)
  obtain ⟨dir, k, hladen, hcount⟩ := htallied s hs init n hd
  obtain ⟨hseat, hload⟩ := hladen.commit hd hcommit
  have hequal : f.1.bytes = x.opened + f.2.load (dir ++ [n]) := by
    rw [hbytes, htree, hload, hcount]
  refine ⟨dir, n, hseat, hequal, fun m site key c T hT hphase => ?_⟩
  rw [site.bytes_returnToTransaction m c hT hphase hdone, hequal]

/-! ### A note that is stopped and run again -/

/-- A text that is to be written. -/
def noteItem : Item := .fresh (.buffer "first".toUTF8) (.inl ⟨"out"⟩)

/-- The item is stopped after a chunk of two bytes, its copy is given up, and another one is
opened. -/
def reopenEvents : List Event :=
  [.start ⟨2, Nat.two_pos⟩, .hear .none, .move, .move, .hear .clean, .discard,
    .start ⟨64, Nat.succ_pos 63⟩, .hear .none, .move]

/-- The new copy is complete after one chunk. -/
def rerunEvents : List Event := reopenEvents ++ [.move, .hear .none, .move]

/-- The item that was run again. -/
def rerun : ItemHistory := (ofItem noteItem .blank).after rerunEvents

/-- The item when it is finished then, and the tree. -/
def rerunFinished : Item × Tree := rerun.item.finish rerun.tree

theorem admits_move_of_free {x : ItemHistory} {d : Path} {f : Disk.FileError}
    (horderly : x.tree.entries.Orderly x.tree.files.size)
    (hhome : x.tree.lookup x.tree.home = some .directory) (hdest : x.item.destination = some d)
    (hfree : (x.tree.makeParents d).2.linkStatus (staged d) = .error f) : x.Admits .move := by
  intro _ d' hd'
  rw [hdest] at hd'
  obtain rfl := Option.some.inj hd'
  exact .of_free (Tree.sound_of_orderly horderly) hhome (by simp [hfree])

/-- Nothing is in the way of either copy. -/
theorem regular_reopen : (ofItem noteItem .blank).Regular reopenEvents := by
  unfold reopenEvents
  exact ⟨fun _ => trivial, fun _ => trivial,
    fun _ => admits_move_of_free (d := ⟨"out"⟩) (f := .noEntry) (by decide +kernel)
      (by decide +kernel) (by decide +kernel) (by decide +kernel),
    fun _ hnone => absurd hnone (by decide +kernel), fun _ => trivial, fun _ => trivial,
    fun _ => trivial, fun _ => trivial,
    fun _ => admits_move_of_free (d := ⟨"out"⟩) (f := .noEntry) (by decide +kernel)
      (by decide +kernel) (by decide +kernel) (by decide +kernel), trivial⟩

/-- The item counts the two bytes of the copy that was given up together with the five that stand at
the destination, and so does a transaction. -/
theorem not_exact_after_rerun :
    ((ofItem noteItem .blank).Regular rerunEvents ∧ rerun.item.state = .done ∧
        rerunFinished.1.state = .done) ∧
      rerun.tree.Seats ⟨"out"⟩ [Tree.homeName] "out" ∧
      rerunFinished.2.load [Tree.homeName, "out"] = 5 ∧ rerunFinished.1.bytes = 7 ∧
      ∀ (m : StorageManager Shelf) (site : Site Shelf) (key : ℕ) (c : ClientId) (T : Transaction),
        site.transactions[key]? = some T → T.phase = .executing →
          ((site.returnToTransaction m key c rerunFinished.1).transactions[key]?).map
            (·.summary.bytes) = some (T.summary.bytes + 7) := by
  have hregular : (ofItem noteItem .blank).Regular rerunEvents :=
    regular_append regular_reopen ⟨fun _ hnone => absurd hnone (by decide +kernel),
      fun _ => trivial, fun _ hnone => absurd hnone (by decide +kernel), trivial⟩
  have hdone : rerunFinished.1.state = .done := by decide +kernel
  have hbytes : rerunFinished.1.bytes = 7 := by decide +kernel
  refine ⟨⟨hregular, by decide +kernel, hdone⟩, ⟨by decide +kernel, by decide +kernel,
    by decide +kernel, by decide +kernel⟩, by decide +kernel, hbytes, ?_⟩
  intro m site key c T hT hphase
  rw [site.bytes_returnToTransaction m c hT hphase hdone, hbytes]

/-- The item with its second copy just opened. -/
def reopened : ItemHistory := (ofItem noteItem .blank).after reopenEvents

/-- Somebody makes another file meanwhile. -/
def otherTree : Tree := (reopened.tree.addFile [Tree.homeName, "other"]).2

/-- The new copy is completed in spite of that. -/
def sharedEvents : List Event := reopenEvents ++ [.others otherTree, .move, .hear .none, .move]

/-- The item that was run again while somebody made another file. -/
def shared : ItemHistory := (ofItem noteItem .blank).after sharedEvents

theorem spares_otherTree : Session.Spares ⟨"out"⟩ reopened.tree otherTree := by
  have hfree : reopened.tree.lookup [Tree.homeName, "other"] = none := by decide +kernel
  have hsound : otherTree.Sound := Tree.sound_of_orderly (by decide +kernel)
  have hsound₀ : reopened.tree.Sound := Tree.sound_of_orderly (by decide +kernel)
  have hgrows : reopened.tree.Grows otherTree := by
    refine ⟨⟨rfl, fun {l e} hlook => ?_⟩, hsound⟩
    rw [otherTree, Tree.lookup_addFile _ _ (by simp), if_neg, hlook]
    rintro rfl
    rw [hfree] at hlook
    cases hlook
  have hhome : reopened.tree.lookup reopened.tree.home = some .directory := by decide +kernel
  refine Session.spares_of_grows (Q := (· = [Tree.homeName, "other"])) hsound₀.numbered hgrows
    hhome (Tree.changes_addFile (by simp) rfl) ?_
  rintro dir m hseat x hx rfl
  have hholder : reopened.tree.holder (staged ⟨"out"⟩) = .ok [Tree.homeName] := by decide +kernel
  have hlast : Tree.lastStep (staged ⟨"out"⟩) = .name "out.mlc.partial" := by decide +kernel
  obtain rfl := Except.ok.inj (hholder.symm.trans hseat.holder_eq)
  obtain rfl := Tree.LastStep.name.inj (hlast.symm.trans hseat.lastStep_eq)
  simp at hx

/-- The count of the item exceeds what stands at the destination by what it had counted before. -/
theorem bytes_after_shared :
    (noteItem.session = none ∧ (ofItem noteItem .blank).Regular sharedEvents ∧
        shared.item.state = .done ∧ shared.opened = 2) ∧
      ∃ s, shared.item.session = some s ∧ ∃ dir n, shared.tree.Seats s.destination dir n ∧
        (shared.item.finish shared.tree).1.bytes =
          shared.opened + (shared.item.finish shared.tree).2.load (dir ++ [n]) := by
  have hregular : (ofItem noteItem .blank).Regular sharedEvents := by
    refine regular_append regular_reopen ⟨fun _ s hs => ?_,
      fun _ hnone => absurd hnone (by decide +kernel), fun _ => trivial,
      fun _ hnone => absurd hnone (by decide +kernel), trivial⟩
    have hdest : reopened.item.session.map (·.destination) = some ⟨"out"⟩ := by decide +kernel
    have hs' : reopened.item.session = some s := hs
    rw [hs', Option.map_some] at hdest
    rw [Option.some.inj hdest]
    exact spares_otherTree
  obtain ⟨s, hs⟩ : ∃ s, shared.item.session = some s :=
    Option.isSome_iff_exists.mp (by decide +kernel)
  have hfinished : (shared.item.finish shared.tree).1.state = .done := by decide +kernel
  obtain ⟨dir, n, hseat, hbytes, -⟩ := (bytes_after rfl hregular hs).1 hfinished
  exact ⟨⟨rfl, hregular, by decide +kernel, by decide +kernel⟩, s, hs, dir, n, hseat, hbytes⟩

end ItemHistory

end Haulage
