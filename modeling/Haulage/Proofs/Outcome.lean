import Haulage.Proofs.Sources

/-!
# The outcome of a run

What a run comes to can be told from two things that have nothing to do with each other: what the
copy would go through if it were left alone, and the signals in the order in which they arrive.

A `Passage` is what the copy goes through. It has a time to listen before the copy is opened and one
after each chunk. Each time the signals are read up to the next silence, so the number of silences
before a signal tells how many chunks have been moved when it is read. The first signal that stops
the item ends the run there, if the passage gets so far.

`Item.run_eq_outcome` says that this is the outcome of the run.
-/

namespace Haulage

open Disk (Path Tree)

/-! ## The passage of a copy -/

/-- A chunk that was moved, with the copy and the tree as they are after it. -/
structure Moved where
  size : ℕ
  session : Session
  tree : Tree

/-- What a copy goes through if it is left alone: the chunks that it moves, and how it ends. -/
structure Passage where
  chunks : List Moved
  /-- What it failed of, unless it is complete. -/
  failure : Option CopyFailure
  session : Option Session
  tree : Tree

/-- The passage of a copy that is open. -/
def Session.passage (buffer : BufferSize) (t : Tree) (s : Session) : Passage :=
  match _h : s.copyChunk buffer t with
  | (.error f, s', t') => ⟨[], some f, some s', t'⟩
  | (.ok .complete, s', t') => ⟨[], none, some s', t'⟩
  | (.ok (.copied n), s', t') =>
    let rest := s'.passage buffer t'
    { rest with chunks := ⟨n, s', t'⟩ :: rest.chunks }
termination_by s.work t
decreasing_by exact Session.copyChunk_progress buffer.2 _h

/-- The passage of a payload that is yet to be opened. -/
def Payload.passage (buffer : BufferSize) (t : Tree) (payload : Payload) (destination : Path) :
    Passage :=
  match Session.start t payload destination with
  | (.error f, t') => ⟨[], some f, none, t'⟩
  | (.ok s, t') => s.passage buffer t'

/-- What each chunk of a copy keeps holds at the end of its passage, if it does not fail. -/
theorem Session.passage_complete {buffer : BufferSize} {I E : Session → Tree → Prop}
    (hcopied : ∀ {s t k s' t'}, I s t → s.copyChunk buffer t = (.ok (.copied k), s', t') → I s' t')
    (hcomplete : ∀ {s t s' t'}, I s t → s.copyChunk buffer t = (.ok .complete, s', t') → E s' t')
    {s : Session} {t : Tree} (h : I s t) (hend : (s.passage buffer t).failure = none) :
    ∃ s', (s.passage buffer t).session = some s' ∧ E s' (s.passage buffer t).tree := by
  fun_induction s.passage buffer t with
  | case1 t s f s' t' hcopy => cases hend
  | case2 t s s' t' hcopy => exact ⟨s', rfl, hcomplete h hcopy⟩
  | case3 t s n s' t' hcopy rest =>
    rename_i ih
    exact ih (hcopied h hcopy) hend

/-! ## The outcome -/

namespace Item

/-- The place of the first signal that stops the item, and the state it stops it in. -/
def firstStop (i : Item) : List Signal → Option (ℕ × ItemState)
  | [] => none
  | s :: rest => match i.stopState? s with
    | some state => some (0, state)
    | none => (i.firstStop rest).map fun x => (x.1 + 1, x.2)

/-- The item after some chunks. -/
def moved (i : Item) (chunks : List Moved) : Item :=
  { i with
    session := match chunks.getLast? with
      | none => i.session
      | some chunk => some chunk.session
    bytes := chunks.foldl (fun n chunk => n + chunk.size) i.bytes }

/-- The item after the whole passage. -/
def through (i : Item) (x : Passage) : Item :=
  { i.moved x.chunks with session := x.session }.close (i.endState x.failure)

end Item

/-- The tree after some chunks. -/
def treeAfter (t : Tree) (chunks : List Moved) : Tree :=
  match chunks.getLast? with
  | none => t
  | some chunk => chunk.tree

/-- How many signals are read by listening so many times, up to a silence each time. After the last
signal there is nothing but silence. -/
def readings : ℕ → List Signal → ℕ
  | 0, _ => 0
  | n + 1, [] => n + 1
  | n + 1, s :: rest => if s = .none then readings n rest + 1 else readings (n + 1) rest + 1

/-- The outcome of a run in which the copy would go through `x`, and these signals arrive. -/
def Item.outcome (signals : List Signal) (x : Passage) (t : Tree) (i : Item) : RunResult :=
  let ended : RunResult :=
    ⟨i.through x, x.tree, readings (x.chunks.length + 1) signals⟩
  match i.firstStop signals with
  | none => ended
  | some (n, state) =>
    let silences := (signals.take n).count .none
    if silences ≤ x.chunks.length then
      let chunks := x.chunks.take silences
      ⟨(i.moved chunks).close state, treeAfter t chunks, n + 1⟩
    else ended

/-! ## The outcome, signal by signal -/

/-- The result of a run that listened so many times before. -/
def RunResult.later (n : ℕ) (r : RunResult) : RunResult := { r with polls := n + r.polls }

@[simp] theorem RunResult.later_zero (r : RunResult) : r.later 0 = r := by
  simp [later]

@[simp] theorem RunResult.later_later (n n' : ℕ) (r : RunResult) :
    (r.later n').later n = r.later (n + n') := by
  simp [later, Nat.add_assoc]

namespace Item

variable {i i' : Item} {t : Tree} {x : Passage} {s : Signal} {signals : List Signal}

/-- The outcome of a run that has just heard that nothing is waiting. -/
def goOn (signals : List Signal) (x : Passage) (i : Item) : RunResult :=
  match x.chunks with
  | [] => ⟨i.through x, x.tree, 0⟩
  | chunk :: chunks => (i.moved [chunk]).outcome signals { x with chunks := chunks } chunk.tree

/-- Signals act alike on items of the same tag and media. -/
theorem firstStop_congr (h : ∀ s, i.stopState? s = i'.stopState? s) :
    i.firstStop signals = i'.firstStop signals := by
  induction signals with
  | nil => rfl
  | cons s rest ih => simp only [firstStop, h, ih]

/-- Nothing stops an item just if it goes on with each of the signals. -/
theorem firstStop_eq_none_iff :
    i.firstStop signals = none ↔ ∀ s ∈ signals, (i.inspect s).1 = true := by
  induction signals with
  | nil => simp [firstStop]
  | cons s rest ih =>
    rw [List.forall_mem_cons, inspect_fst_iff, ← ih]
    cases hstop : i.stopState? s with
    | none => simp [firstStop, hstop]
    | some state => simp [firstStop, hstop]

/-- The first signal that stops an item is one among those with which it goes on. -/
theorem firstStop_split {n : ℕ} {state : ItemState} (h : i.firstStop signals = some (n, state)) :
    ∃ before s after, signals = before ++ s :: after ∧ before.length = n ∧
      (∀ s' ∈ before, (i.inspect s').1 = true) ∧ i.stopState? s = some state := by
  induction signals generalizing n with
  | nil => cases h
  | cons s rest ih =>
    cases hstop : i.stopState? s with
    | some state' =>
      simp only [firstStop, hstop] at h
      cases h
      exact ⟨[], s, rest, rfl, rfl, by simp, hstop⟩
    | none =>
      simp only [firstStop, hstop] at h
      obtain ⟨⟨n', state'⟩, hrest, heq⟩ := Option.map_eq_some_iff.mp h
      cases heq
      obtain ⟨before, s', after, rfl, rfl, hbefore, hstop'⟩ := ih hrest
      exact ⟨s :: before, s', after, rfl, rfl,
        List.forall_mem_cons.mpr ⟨inspect_fst_iff.mpr hstop, hbefore⟩, hstop'⟩

/-- One chunk comes before the others. -/
theorem moved_cons (i : Item) (chunk : Moved) (chunks : List Moved) :
    i.moved (chunk :: chunks) = (i.moved [chunk]).moved chunks := by
  cases hlast : chunks.getLast? with
  | none => simp [moved, List.getLast?_cons, hlast]
  | some last => simp [moved, List.getLast?_cons, hlast]

/-- A signal that stops the item ends the run. -/
theorem outcome_stop {state : ItemState} (h : i.stopState? s = some state) :
    i.outcome (s :: signals) x t = ⟨i.close state, t, 1⟩ := by
  simp [outcome, firstStop, h, moved, treeAfter]

/-- Any other is read and ignored. -/
theorem outcome_ignored (h : i.stopState? s = none) (hs : s ≠ .none) :
    i.outcome (s :: signals) x t = (i.outcome signals x t).later 1 := by
  cases hstop : i.firstStop signals with
  | none => simp [outcome, firstStop, h, hstop, readings, hs, RunResult.later, Nat.add_comm]
  | some stop =>
    obtain ⟨n, state⟩ := stop
    have hcount : ((s :: signals).take (n + 1)).count .none = (signals.take n).count .none := by
      rw [List.take_succ_cons, List.count_cons_of_ne hs]
    simp only [outcome, firstStop, h, hstop, Option.map_some, hcount]
    split
    · simp [RunResult.later, Nat.add_comm]
    · simp [readings, hs, RunResult.later, Nat.add_comm]

/-- The first chunk of a passage comes before the others. -/
theorem through_cons (i : Item) (chunk : Moved) (chunks : List Moved)
    (failure : Option CopyFailure) (session : Option Session) (tree : Tree) :
    i.through ⟨chunk :: chunks, failure, session, tree⟩ =
      (i.moved [chunk]).through ⟨chunks, failure, session, tree⟩ := by
  unfold through
  rw [moved_cons]
  rfl

/-- So it does for the tree. -/
theorem treeAfter_cons (t : Tree) (chunk : Moved) (chunks : List Moved) :
    treeAfter t (chunk :: chunks) = treeAfter chunk.tree chunks := by
  cases hlast : chunks.getLast? with
  | none => simp [treeAfter, List.getLast?_cons, hlast]
  | some last => simp [treeAfter, List.getLast?_cons, hlast]

/-- After a silence the copy goes on. -/
theorem outcome_silence : i.outcome (.none :: signals) x t = (i.goOn signals x).later 1 := by
  have hsame (chunk : Moved) : (i.moved [chunk]).firstStop signals = i.firstStop signals :=
    firstStop_congr fun s => by cases s <;> rfl
  have hsilent : i.stopState? .none = none := rfl
  obtain ⟨chunks, failure, session, tree⟩ := x
  cases chunks with
  | nil =>
    cases hstop : i.firstStop signals with
    | none => simp [outcome, goOn, firstStop, hsilent, hstop, readings, RunResult.later]
    | some stop => simp [outcome, goOn, firstStop, hsilent, hstop, readings, RunResult.later]
  | cons chunk chunks =>
    cases hstop : i.firstStop signals with
    | none =>
      simp only [outcome, goOn, firstStop, hsilent, hstop, hsame, Option.map_none, readings,
        RunResult.later, through_cons, List.length_cons, if_true, Nat.add_comm]
    | some stop =>
      obtain ⟨n, state⟩ := stop
      simp only [outcome, goOn, firstStop, hsilent, hstop, hsame, Option.map_some,
        List.take_succ_cons, List.count_cons_self, List.length_cons, Nat.add_le_add_iff_right]
      split
      · rw [moved_cons, treeAfter_cons, RunResult.later, Nat.add_comm 1]
      · rw [through_cons, readings, if_pos rfl, RunResult.later, Nat.add_comm 1]

/-- After the last signal there is silence. -/
theorem outcome_nil : i.outcome [] x t = (i.goOn [] x).later 1 := by
  obtain ⟨chunks, failure, session, tree⟩ := x
  cases chunks with
  | nil => rfl
  | cons chunk chunks =>
    simp only [outcome, goOn, firstStop, RunResult.later, through_cons, List.length_cons, readings,
      Nat.add_comm]

/-- It makes no difference whether a copy has been opened. -/
theorem goOn_opened (i : Item) (session : Option Session) :
    ({ i with session := session } : Item).goOn signals x = i.goOn signals x := by
  obtain ⟨chunks, failure, session', tree⟩ := x
  cases chunks with
  | nil => rfl
  | cons chunk chunks => rfl

/-- Nor does it what state the item was in. -/
theorem outcome_restart (i : Item) (state : ItemState) :
    ({ i with state := state } : Item).outcome signals x t = i.outcome signals x t := by
  have hsame : ({ i with state := state } : Item).firstStop signals = i.firstStop signals :=
    firstStop_congr fun s => by cases s <;> rfl
  unfold outcome
  rw [hsame]
  rfl

end Item

/-! ## The run -/

namespace Attempt

variable {a : Attempt} {t : Tree} {polls : ℕ} {cues : List Cue} {x : Passage}

/-- Where the copy goes on like a passage after a silence, the run goes on like its outcome. -/
theorem runFrom_listening (hstage : a.stage = .listening) (hcues : ∀ c ∈ cues, c.edits = [])
    (hmoving : ∀ cues polls, (∀ c ∈ cues, c.edits = []) →
      runFrom cues t polls { a with stage := .moving } =
        (a.item.goOn (cues.map (·.signal)) x).later polls) :
    a.runFrom cues t polls = (a.item.outcome (cues.map (·.signal)) x t).later polls := by
  induction cues generalizing polls with
  | nil =>
    rw [runFrom_quiet hstage, hmoving [] _ hcues, List.map_nil, Item.outcome_nil,
      RunResult.later_later]
  | cons cue cues ih =>
    have hedits : t.edits cue.edits = t := by
      rw [hcues cue List.mem_cons_self]
      rfl
    have hrest : ∀ c ∈ cues, c.edits = [] := fun c hc => hcues c (List.mem_cons_of_mem _ hc)
    rw [runFrom_cue hstage, hedits, List.map_cons]
    by_cases hsilent : cue.signal = .none
    · rw [hsilent, hear_none, hmoving cues _ hrest, Item.outcome_silence, RunResult.later_later]
    · cases hstop : a.item.stopState? cue.signal with
      | none =>
        rw [hear_of_ignored hstop hsilent, ih hrest, Item.outcome_ignored hstop hsilent,
          RunResult.later_later]
      | some state =>
        rw [hear_of_stops hstop, runFrom_ended rfl, Item.outcome_stop hstop]
        rfl

/-- A copy that is open goes on like its passage. -/
theorem runFrom_opened {s : Session} (hsession : a.item.session = some s)
    (hstage : a.stage = .moving) (hcues : ∀ c ∈ cues, c.edits = []) :
    a.runFrom cues t polls =
      (a.item.goOn (cues.map (·.signal)) (s.passage a.buffer t)).later polls := by
  obtain ⟨buffer, hbuffer⟩ : ∃ b, a.buffer = b := ⟨_, rfl⟩
  rw [hbuffer]
  fun_induction s.passage buffer t generalizing a cues polls with
  | case1 t s f s' t' hcopy =>
    have hmove : a.move t = (a.fail { a.item with session := some s' } f, t') := by
      simp only [move, hsession, moveChunk, hbuffer, hcopy]
    rw [runFrom_moving hstage, hmove, runFrom_ended rfl]
    simp only [fail, Item.failWith_eq]
    rfl
  | case2 t s s' t' hcopy =>
    have hmove : a.move t = ({ a with
        item := { a.item with session := some s', state := .done }, stage := .ended }, t') := by
      simp only [move, hsession, moveChunk, hbuffer, hcopy]
    rw [runFrom_moving hstage, hmove, runFrom_ended rfl]
    rfl
  | case3 t s n s' t' hcopy rest =>
    rename_i ih
    have hmove : a.move t = ({ a with
        item := { a.item with session := some s', bytes := a.item.bytes + n }
        stage := .listening }, t') := by
      simp only [move, hsession, moveChunk, hbuffer, hcopy]
    rw [runFrom_moving hstage, hmove]
    exact runFrom_listening rfl hcues fun cues polls hcues => ih rfl rfl hcues hbuffer

/-- A copy that is yet to be opened does so too. -/
theorem runFrom_unopened {destination : Path} (hsession : a.item.session = none)
    (hdestination : a.item.destination = some destination) (hstage : a.stage = .moving)
    (hcues : ∀ c ∈ cues, c.edits = []) :
    a.runFrom cues t polls = (a.item.goOn (cues.map (·.signal))
      (a.item.payload.passage a.buffer t destination)).later polls := by
  rw [runFrom_moving hstage]
  cases hstart : Session.start t a.item.payload destination with
  | mk result t' =>
    cases result with
    | error f =>
      have hmove : a.move t = (a.fail a.item f, t') := by
        simp only [move, hsession, openSession, hdestination, hstart]
      have hpassage : a.item.payload.passage a.buffer t destination = ⟨[], some f, none, t'⟩ := by
        simp only [Payload.passage, hstart]
      rw [hmove, runFrom_ended rfl, hpassage, ← hsession]
      simp only [fail, Item.failWith_eq]
      rfl
    | ok s =>
      have hmove : a.move t = ({ a with item := { a.item with session := some s } }, t') := by
        simp only [move, hsession, openSession, hdestination, hstart]
      have hpassage : a.item.payload.passage a.buffer t destination = s.passage a.buffer t' := by
        simp only [Payload.passage, hstart]
      rw [hmove, hpassage, ← a.item.goOn_opened (some s)]
      exact runFrom_opened rfl hstage hcues

end Attempt

namespace Item

variable {i : Item}

/-- The state in which the first signal that stops an item does so is terminal, and not being
done. -/
theorem firstStop_spec {signals : List Signal} {n : ℕ} {state : ItemState}
    (h : i.firstStop signals = some (n, state)) : state.isTerminal ∧ state ≠ .done := by
  obtain ⟨_, _, _, _, _, _, hstop⟩ := firstStop_split h
  exact stopState_spec hstop

/-- A run only comes to an end in a terminal state. -/
theorem isTerminal_outcome (signals : List Signal) (x : Passage) (t : Tree) (i : Item) :
    (i.outcome signals x t).item.state.isTerminal := by
  unfold outcome
  split
  · exact (endState_spec _ i).1
  · rename_i n state hfirst
    simp only
    split
    · exact (firstStop_spec hfirst).1
    · exact (endState_spec _ i).1

/-- An item that is done has gone through the whole passage, and the copy did not fail. -/
theorem outcome_of_done {signals : List Signal} {x : Passage} {t : Tree}
    (h : (i.outcome signals x t).item.state = .done) :
    x.failure = none ∧ (i.outcome signals x t).item.session = x.session ∧
      (i.outcome signals x t).tree = x.tree := by
  have hended : (i.through x).state = .done → x.failure = none := (endState_spec x.failure i).2.mp
  unfold outcome at h ⊢
  split at h
  · exact ⟨hended h, rfl, rfl⟩
  · rename_i n state hfirst
    simp only at h ⊢
    split at h
    · exact absurd h (firstStop_spec hfirst).2
    · rename_i hpast
      rw [if_neg hpast]
      exact ⟨hended h, rfl, rfl⟩

/-- The run of an item whose copy is not open, as its outcome. -/
theorem run_outcome (buffer : BufferSize) {cues : List Cue} (hcues : ∀ c ∈ cues, c.edits = [])
    (t : Tree) (hsession : i.session = none) {destination : Path}
    (hdestination : i.destination = some destination) :
    i.run cues buffer t =
      i.outcome (cues.map (·.signal)) (i.payload.passage buffer t destination) t := by
  unfold run
  rw [dif_pos buffer.2, Attempt.runFrom_listening (x := i.payload.passage buffer t destination)
    rfl hcues, RunResult.later_zero]
  · exact i.outcome_restart .ongoing
  · intro cues polls hcues
    exact Attempt.runFrom_unopened hsession hdestination rfl hcues

/-- A run of an item whose copy is not open comes to the outcome that the passage of its payload and
the signals tell, and to an end, if nobody else changes the tree. -/
theorem run_eq_outcome (buffer : BufferSize) {cues : List Cue} (hcues : ∀ c ∈ cues, c.edits = [])
    (t : Tree) {i : Item} (hsession : i.session = none) {destination : Path}
    (hdestination : i.destination = some destination) :
    i.run cues buffer t =
        i.outcome (cues.map (·.signal)) (i.payload.passage buffer t destination) t ∧
      (i.run cues buffer t).item.state.isTerminal := by
  rw [run_outcome buffer hcues t hsession hdestination]
  exact ⟨rfl, isTerminal_outcome _ _ _ _⟩

/-- The directory of logs, copied in spite of signals that mean something else, until its tag is
called. -/
def calledOffCues : List Cue :=
  [⟨[], .vanish .unset⟩, ⟨[], .none⟩, ⟨[], .newItem⟩, ⟨[], .cancel 4⟩, ⟨[], .none⟩,
    ⟨[], .cancel 3⟩, ⟨[], .stop⟩]

/-- That run comes to the outcome that its passage and the signals tell. -/
theorem run_eq_outcome_calledOff :
    (∀ c ∈ calledOffCues, c.edits = []) ∧ logsItem.session = none ∧
      logsItem.destination = some ⟨"out"⟩ ∧
      ({ logsItem with tag := some 3 }.run calledOffCues 2 logsTree =
        ({ logsItem with tag := some 3 } : Item).outcome (calledOffCues.map (·.signal))
          (logsItem.payload.passage ⟨2, Nat.two_pos⟩ logsTree ⟨"out"⟩) logsTree ∧
      ({ logsItem with tag := some 3 }.run calledOffCues 2 logsTree).item.state.isTerminal) :=
  ⟨by decide, rfl, rfl, run_eq_outcome ⟨2, Nat.two_pos⟩ (by decide) logsTree
    (i := { logsItem with tag := some 3 }) rfl rfl⟩

/-- The sixth signal of that run is the first to stop the item. -/
example : ({ logsItem with tag := some 3 } : Item).firstStop (calledOffCues.map (·.signal)) =
    some (5, .cancelled) := rfl

end Item

end Haulage
