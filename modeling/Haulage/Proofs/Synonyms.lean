import Haulage.Proofs.Promises
import Haulage.Proofs.Spellings

/-!
# Destinations that are equal as paths

A destination may be written in many ways. The checks of an item compare paths by their components,
while the place of the staged copy is made of the text of the destination. So two destinations that
are equal as paths may have their copies staged in different places: the copy for `out/` is staged
inside `out`, where it cannot be moved away to take the place of `out`.

`Item.interchangeable` says that this is all that may come between two such destinations. Where the
staged copies have the same place, two runs of an item keep in step: the sessions and the items are
twins, which differ in the text of their destination only, and the trees are the same.
-/

namespace Haulage

open Disk

/-- What a step comes to in each of two runs: the same failure, or results that belong together,
and in both cases the same tree. -/
inductive Parallel {α ε : Type} (R : α → α → Prop) : Except ε α × Tree → Except ε α × Tree → Prop
  | error (e : ε) (t : Tree) : Parallel R (.error e, t) (.error e, t)
  | ok {x y : α} (h : R x y) (t : Tree) : Parallel R (.ok x, t) (.ok y, t)

namespace Session

variable {d d' : Path}

/-- Copies for either of the two destinations are staged in the same place, made by way of the same
directories, and committed in the same way or in neither case. -/
structure Synonyms (d d' : Path) : Prop where
  staged : (staged d).Alike (staged d')
  parents : Option.Rel Path.Alike d.parent? d'.parent?
  rename (t : Tree) : t.rename (Haulage.staged d) d = t.rename (Haulage.staged d') d' ∨
    (∃ e, t.rename (Haulage.staged d) d = .error e) ∧
      ∃ e, t.rename (Haulage.staged d') d' = .error e

/-- Below both staged copies the path of an entry is spelt alike. -/
def Below (d d' : Path) (e : Pending) : Prop :=
  ((staged d).descend e.names).Alike ((staged d').descend e.names)

/-- Two sessions that differ in how their destination is written only. -/
inductive Twins (d d' : Path) : Session → Session → Prop
  | file (copy : OpenCopy) : Twins d d' (.file copy d) (.file copy d')
  | buffer (data : Bytes) (position target : ℕ) :
      Twins d d' (.buffer data position target d) (.buffer data position target d')
  | between (source : Path) {pending : List Pending} (hbelow : ∀ e ∈ pending, Below d d' e) :
      Twins d d' (.directory source pending none d) (.directory source pending none d')
  | within (source : Path) {pending : List Pending} (copy : OpenCopy) {target target' : Path}
      (hbelow : ∀ e ∈ pending, Below d d' e) (htarget : target.Alike target') :
      Twins d d' (.directory source pending (some (copy, target)) d)
        (.directory source pending (some (copy, target')) d')

section Steps

variable {t : Tree} (h : Synonyms d d')

include h

theorem Synonyms.dropStaged_eq : dropStaged t d = dropStaged t d' := h.staged.discard_eq

theorem openBuffer_twins (data : Bytes) :
    Parallel (Twins d d') (openBuffer t data d) (openBuffer t data d') := by
  simp only [openBuffer, Path.Alike.makeParents_eq h.parents, h.staged.create_eq, h.dropStaged_eq]
  rcases t.makeParents d' with ⟨_ | ⟨⟩, t₁⟩
  · exact .error _ _
  · dsimp only
    cases t₁.create (staged d') with
    | error e => exact .error _ _
    | ok made => exact .ok (Twins.buffer data 0 made.1) _

theorem openFile_twins (source : Path) :
    Parallel (Twins d d') (openFile t source d) (openFile t source d') := by
  simp only [openFile, startCopy, Path.Alike.makeParents_eq h.parents, h.staged.create_eq,
    h.dropStaged_eq]
  cases t.openRead source with
  | error e => exact .error _ _
  | ok handle =>
    dsimp only
    rcases t.makeParents d' with ⟨_ | ⟨⟩, t₁⟩
    · exact .error _ _
    · dsimp only
      cases t₁.create (staged d') with
      | error e => exact .error _ _
      | ok made => exact .ok (Twins.file _) _

theorem openDirectory_twins {source : Path}
    (hbelow : ∀ entries, t.listing source = .ok entries →
      ∀ e ∈ entries.filterMap pendingOf, Below d d' e) :
    Parallel (Twins d d') (openDirectory t source d) (openDirectory t source d') := by
  simp only [openDirectory, Path.Alike.makeParents_eq h.parents, h.staged.makeDirectories_eq,
    h.dropStaged_eq]
  cases hlist : t.listing source with
  | error e => exact .error _ _
  | ok entries =>
    dsimp only
    rcases t.makeParents d' with ⟨_ | ⟨⟩, t₁⟩
    · exact .error _ _
    · dsimp only
      rcases t₁.makeDirectories (staged d') with ⟨_ | ⟨⟩, t₂⟩
      · exact .error _ _
      · exact .ok (Twins.between source (hbelow entries hlist)) _

end Steps

/-- An entry is turned to in the same way. -/
theorem openEntry_twins {t : Tree} {source : Path} {e : Pending} (h : Below d d' e) :
    Parallel (Option.Rel fun x y => x.1 = y.1 ∧ x.2.Alike y.2) (openEntry t source d e)
      (openEntry t source d' e) := by
  simp only [openEntry, startCopy, Path.Alike.makeParents_eq h.parents, h.makeDirectories_eq,
    h.create_eq]
  split
  · rcases t.makeDirectories ((staged d').descend e.names) with ⟨_ | ⟨⟩, t₁⟩
    · exact .error _ _
    · exact .ok .none _
  · cases t.openRead (source.descend e.names) with
    | error e => exact .error _ _
    | ok handle =>
      dsimp only
      rcases t.makeParents ((staged d').descend e.names) with ⟨_ | ⟨⟩, t₁⟩
      · exact .error _ _
      · dsimp only
        cases t₁.create ((staged d').descend e.names) with
        | error e => exact .error _ _
        | ok made => exact .ok (.some ⟨rfl, h⟩) _

/-- The entries are gone through in the same way. -/
theorem openNext_twins {t : Tree} {source : Path} {pending : List Pending}
    (h : ∀ e ∈ pending, Below d d' e) :
    ∃ rest, (openNext t source d pending).2.1 = rest ∧ (openNext t source d' pending).2.1 = rest ∧
      (∀ e ∈ rest, Below d d' e) ∧
      Parallel (Option.Rel fun x y => x.1 = y.1 ∧ x.2.Alike y.2)
        ((openNext t source d pending).1, (openNext t source d pending).2.2)
        ((openNext t source d' pending).1, (openNext t source d' pending).2.2) := by
  induction pending generalizing t with
  | nil => exact ⟨[], rfl, rfl, by simp, .ok .none _⟩
  | cons e pending ih =>
    have hrest : ∀ e ∈ pending, Below d d' e := fun e he => h e (List.mem_cons_of_mem _ he)
    have hentry : Parallel _ (openEntry t source d e) (openEntry t source d' e) :=
      openEntry_twins (h e List.mem_cons_self)
    unfold openNext
    generalize openEntry t source d e = r at hentry
    generalize openEntry t source d' e = r' at hentry
    cases hentry with
    | error f t₁ => exact ⟨pending, rfl, rfl, hrest, .error _ _⟩
    | ok hrel t₁ =>
      cases hrel with
      | none => exact ih hrest
      | some hcopy => exact ⟨pending, rfl, rfl, hrest, .ok (.some hcopy) _⟩

/-- What a chunk comes to in each of two sessions. -/
structure InStep (d d' : Path) (r r' : Except CopyFailure Chunk × Session × Tree) : Prop where
  chunk_eq : r.1 = r'.1
  twins : Twins d d' r.2.1 r'.2.1
  tree_eq : r.2.2 = r'.2.2

theorem copyCurrent_twins {k : ℕ} {t : Tree} {source target target' : Path}
    {pending : List Pending} {copy : OpenCopy} (hbelow : ∀ e ∈ pending, Below d d' e)
    (htarget : target.Alike target') :
    InStep d d' (copyCurrent k t source pending copy target d)
      (copyCurrent k t source pending copy target' d') := by
  simp only [copyCurrent, htarget.setModified_eq]
  cases OpenCopy.step t k copy with
  | error f => exact ⟨rfl, .within source copy hbelow htarget, rfl⟩
  | ok moved =>
    obtain ⟨size, copy', t'⟩ := moved
    cases size with
    | zero => exact ⟨rfl, .between source hbelow, rfl⟩
    | succ size => exact ⟨rfl, .within source copy' hbelow htarget, rfl⟩

/-- Two sessions that differ in how their destination is written only move the same chunk. -/
theorem copyChunk_twins {k : ℕ} {t : Tree} {x x' : Session} (h : Twins d d' x x') :
    InStep d d' (x.copyChunk k t) (x'.copyChunk k t) := by
  cases h with
  | file copy =>
    simp only [copyChunk]
    cases OpenCopy.step t k copy with
    | error f => exact ⟨rfl, .file copy, rfl⟩
    | ok moved =>
      obtain ⟨size, copy', t'⟩ := moved
      cases size with
      | zero => exact ⟨rfl, .file copy, rfl⟩
      | succ size => exact ⟨rfl, .file copy', rfl⟩
  | buffer data position target =>
    by_cases hend : data.size ≤ position
    · simp only [copyChunk, if_pos hend]
      exact ⟨rfl, .buffer data position target, rfl⟩
    · simp only [copyChunk, if_neg hend]
      exact ⟨rfl, .buffer data _ target, rfl⟩
  | @between source pending hbelow =>
    obtain ⟨rest, hrest, hrest', hbelow, hopened⟩ :=
      @openNext_twins d d' t source pending hbelow
    simp only [copyChunk]
    generalize openNext t source d pending = r at hrest hopened ⊢
    generalize openNext t source d' pending = r' at hrest' hopened ⊢
    obtain ⟨c, _, t₁⟩ := r
    obtain ⟨c', _, t₁'⟩ := r'
    obtain rfl := hrest
    obtain rfl := hrest'
    cases hopened with
    | error f t₁ => exact ⟨rfl, .between source hbelow, rfl⟩
    | ok hrel t₁ =>
      cases hrel with
      | none => exact ⟨rfl, .between source hbelow, rfl⟩
      | @some x y hcopy =>
        obtain ⟨copy, target⟩ := x
        obtain ⟨_, target'⟩ := y
        obtain ⟨rfl, htarget⟩ := hcopy
        exact copyCurrent_twins hbelow htarget
  | within source copy hbelow htarget => exact copyCurrent_twins hbelow htarget

theorem Twins.destinations {x x' : Session} (h : Twins d d' x x') :
    x.destination = d ∧ x'.destination = d' := by
  cases h <;> exact ⟨rfl, rfl⟩

section Closing

variable {t : Tree} {x x' : Session} (h : Synonyms d d') (hx : Twins d d' x x')

include h hx

theorem abandon_twins : x.abandon t = x'.abandon t := by
  rw [abandon, abandon, hx.destinations.1, hx.destinations.2, h.dropStaged_eq]

theorem timed_twins : x.timed t = x'.timed t := by
  cases hx with
  | file copy => simp only [timed, h.staged.setModified_eq]
  | buffer => rfl
  | between => rfl
  | within => rfl

/-- Both copies are moved to the destination, or neither is; and both leave the same tree. -/
theorem commit_twins : (∃ t', x.commit t = (.ok (), t') ∧ x'.commit t = (.ok (), t')) ∨
    ∃ e e' t', x.commit t = (.error e, t') ∧ x'.commit t = (.error e', t') := by
  simp only [commit, hx.destinations.1, hx.destinations.2, timed_twins h hx, abandon_twins h hx]
  rcases h.rename (x'.timed t) with heq | ⟨⟨e, he⟩, ⟨e', he'⟩⟩
  · rw [heq]
    cases (x'.timed t).rename (Haulage.staged d') d' with
    | error e => exact .inr ⟨_, _, _, rfl, rfl⟩
    | ok t' => exact .inl ⟨t', rfl, rfl⟩
  · rw [he, he']
    exact .inr ⟨_, _, _, rfl, rfl⟩

end Closing

end Session

/-! ## Items -/

namespace Item

variable {d d' : Path} {i i' : Item}

/-- Two items that differ in how their destination is written only. -/
structure Twins (d d' : Path) (i i' : Item) : Prop where
  fields_eq : i' = { i with destination := i'.destination, session := i'.session }
  destinations : Option.Rel (fun p q => p = d ∧ q = d') i.destination i'.destination
  sessions : Option.Rel (Session.Twins d d') i.session i'.session

namespace Twins

theorem payload_eq (h : Twins d d' i i') : i'.payload = i.payload := by rw [h.fields_eq]

theorem state_eq (h : Twins d d' i i') : i'.state = i.state := by rw [h.fields_eq]

theorem bytes_eq (h : Twins d d' i i') : i'.bytes = i.bytes := by rw [h.fields_eq]

theorem stopState?_eq (h : Twins d d' i i') (s : Signal) : i'.stopState? s = i.stopState? s := by
  rw [h.fields_eq]
  rfl

theorem endState_eq (h : Twins d d' i i') (f : Option CopyFailure) :
    i'.endState f = i.endState f := by
  rw [h.fields_eq]
  rfl

theorem withSession (h : Twins d d' i i') {x x' : Option Session}
    (hx : Option.Rel (Session.Twins d d') x x') :
    Twins d d' { i with session := x } { i' with session := x' } := by
  refine ⟨?_, h.destinations, hx⟩
  conv_lhs => rw [h.fields_eq]

theorem withBytes (h : Twins d d' i i') {n m : ℕ} (hn : m = n) :
    Twins d d' { i with bytes := n } { i' with bytes := m } := by
  refine ⟨?_, h.destinations, h.sessions⟩
  conv_lhs => rw [h.fields_eq, hn]

theorem close (h : Twins d d' i i') (state : ItemState) :
    Twins d d' (i.close state) (i'.close state) := by
  refine ⟨?_, ?_, h.sessions⟩
  · conv_lhs => rw [h.fields_eq]
    rfl
  · unfold Item.close
    split
    · exact .none
    · exact h.destinations

end Twins

end Item

/-! ## Runs -/

/-- What is copied of a payload besides its root, as it is listed. -/
def Payload.pending (t : Tree) : Payload → List Pending
  | .directory source => match t.listing source with
    | .ok entries => entries.filterMap Session.pendingOf
    | .error _ => []
  | .buffer _ => []
  | .file _ => []

/-- Two sessions are begun that differ in how their destination is written only, or none is. -/
theorem Session.start_twins {d d' : Path} (h : Synonyms d d') {t : Tree} {p : Payload}
    (hbelow : ∀ e ∈ p.pending t, Below d d' e) :
    Parallel (Twins d d') (start t p d) (start t p d') := by
  cases p with
  | directory source =>
    refine openDirectory_twins h fun entries hlist e he => hbelow e ?_
    simpa only [Payload.pending, hlist] using he
  | buffer data => exact openBuffer_twins h data
  | file source => exact openFile_twins h source

namespace Attempt

variable {d d' : Path} {a a' : Attempt} {t : Tree}

/-- Two attempts at items that differ in how their destination is written only. -/
structure Twins (d d' : Path) (a a' : Attempt) : Prop where
  item : Item.Twins d d' a.item a'.item
  stage_eq : a'.stage = a.stage
  buffer_eq : a'.buffer = a.buffer

namespace Twins

theorem hear (h : Twins d d' a a') (s : Signal) : Twins d d' (a.hear s) (a'.hear s) := by
  by_cases hs : s = .none
  · rw [hs, hear_none, hear_none]
    exact ⟨h.item, rfl, h.buffer_eq⟩
  · have hsame := h.item.stopState?_eq s
    cases hstop : a.item.stopState? s with
    | none =>
      rw [hear_of_ignored hstop hs, hear_of_ignored (hsame.trans hstop) hs]
      exact h
    | some state =>
      rw [hear_of_stops hstop, hear_of_stops (hsame.trans hstop)]
      exact ⟨h.item.close state, rfl, h.buffer_eq⟩

theorem fail (h : Twins d d' a a') {i i' : Item} (hi : Item.Twins d d' i i') (f : CopyFailure) :
    Twins d d' (a.fail i f) (a'.fail i' f) := by
  refine ⟨?_, rfl, h.buffer_eq⟩
  simp only [Attempt.fail, Item.failWith_eq, hi.endState_eq]
  exact hi.close _

theorem openSession (h : Twins d d' a a') (hsyn : Session.Synonyms d d')
    (hbelow : ∀ e ∈ a.item.payload.pending t, Session.Below d d' e) :
    Twins d d' (a.openSession t).1 (a'.openSession t).1 ∧
      (a'.openSession t).2 = (a.openSession t).2 := by
  have hdestinations := h.item.destinations
  unfold Attempt.openSession
  generalize a.item.destination = r at hdestinations ⊢
  generalize a'.item.destination = r' at hdestinations ⊢
  cases hdestinations with
  | none => exact ⟨⟨h.item.close .failed, rfl, h.buffer_eq⟩, rfl⟩
  | some hends =>
    obtain ⟨rfl, rfl⟩ := hends
    have hstart := Session.start_twins hsyn hbelow
    nth_rewrite 2 [← h.item.payload_eq] at hstart
    dsimp only
    generalize Session.start t a.item.payload _ = begun at hstart ⊢
    generalize Session.start t a'.item.payload _ = begun' at hstart ⊢
    cases hstart with
    | error f t₁ => exact ⟨h.fail h.item f, rfl⟩
    | ok hsession t₁ =>
      exact ⟨⟨h.item.withSession (.some hsession), h.stage_eq, h.buffer_eq⟩, rfl⟩

theorem moveChunk (h : Twins d d' a a') {x x' : Session} (hx : Session.Twins d d' x x') :
    Twins d d' (a.moveChunk t x).1 (a'.moveChunk t x').1 ∧
      (a'.moveChunk t x').2 = (a.moveChunk t x).2 := by
  have hstep := Session.copyChunk_twins (k := a.buffer) (t := t) hx
  unfold Attempt.moveChunk
  rw [h.buffer_eq]
  generalize x.copyChunk a.buffer t = r at hstep ⊢
  generalize x'.copyChunk a.buffer t = r' at hstep ⊢
  obtain ⟨c, y, t₁⟩ := r
  obtain ⟨_, y', _⟩ := r'
  obtain ⟨rfl, hy, rfl⟩ := hstep
  have hitem := h.item.withSession (.some hy)
  cases c with
  | error f => exact ⟨h.fail hitem f, rfl⟩
  | ok chunk =>
    cases chunk with
    | complete => exact ⟨⟨hitem.close .done, rfl, rfl⟩, rfl⟩
    | copied n => exact ⟨⟨hitem.withBytes (congrArg (· + n) h.item.bytes_eq), rfl, rfl⟩, rfl⟩

/-- Both move on in the same way and leave the same tree. -/
theorem move (h : Twins d d' a a') (hsyn : Session.Synonyms d d')
    (hbelow : a.item.session = none → ∀ e ∈ a.item.payload.pending t, Session.Below d d' e) :
    Twins d d' (a.move t).1 (a'.move t).1 ∧ (a'.move t).2 = (a.move t).2 := by
  have hsessions := h.item.sessions
  unfold Attempt.move
  generalize a.item.session = x at hsessions hbelow ⊢
  generalize a'.item.session = x' at hsessions ⊢
  cases hsessions with
  | none => exact h.openSession hsyn (hbelow rfl)
  | some hx => exact h.moveChunk hx

/-- Two runs stay in step. What a copy is to consist of is listed when it is opened, and until then
the tree changes only as the cues say. -/
theorem runFrom (hsyn : Session.Synonyms d d') {cues : List Cue} {polls : ℕ}
    (hbelow : a.stage ≠ .ended → a.item.session = none → ∀ made, made <+: cues →
      ∀ e ∈ a.item.payload.pending (t.edits (made.flatMap Cue.edits)), Session.Below d d' e)
    (h : Twins d d' a a') :
    Item.Twins d d' (a.runFrom cues t polls).item (a'.runFrom cues t polls).item ∧
      (a'.runFrom cues t polls).tree = (a.runFrom cues t polls).tree ∧
      (a'.runFrom cues t polls).polls = (a.runFrom cues t polls).polls := by
  induction cues, t, polls, a using Attempt.runFrom.induct generalizing a' with
  | case1 cues t polls a hended =>
    rw [runFrom_ended hended, runFrom_ended (h.stage_eq.trans hended)]
    exact ⟨h.item, rfl, rfl⟩
  | case2 t polls a hlistening ih =>
    rw [runFrom_quiet hlistening, runFrom_quiet (h.stage_eq.trans hlistening)]
    exact ih (fun _ => hbelow (by simp [hlistening])) ⟨h.item, rfl, h.buffer_eq⟩
  | case3 t polls a hlistening cue cues ih =>
    rw [runFrom_cue hlistening, runFrom_cue (h.stage_eq.trans hlistening)]
    refine ih (fun _ hsession made hmade e he => ?_) (h.hear cue.signal)
    rw [(hear_kept cue.signal a).1] at hsession
    have hmanifest := congrArg Item.payload (a.manifest_hear cue.signal)
    have hpayload : (a.hear cue.signal).item.payload = a.item.payload := hmanifest
    rw [hpayload, ← t.edits_append, ← List.flatMap_cons] at he
    exact hbelow (by simp [hlistening]) hsession (cue :: made)
      (List.cons_prefix_cons.mpr ⟨rfl, hmade⟩) e he
  | case4 cues t polls a hmoving ih =>
    rw [runFrom_moving hmoving, runFrom_moving (h.stage_eq.trans hmoving)]
    obtain ⟨hmove, htree⟩ := h.move (t := t) hsyn fun hsession =>
      hbelow (by simp [hmoving]) hsession [] List.nil_prefix
    rw [htree]
    exact ih (fun hgoing hsession => absurd hsession (session_move hgoing)) hmove

end Twins

end Attempt

namespace Item

variable {d d' : Path} {i i' : Item} {t : Tree}

/-- Both are finished in the same way and leave the same tree. -/
theorem Twins.finish (hsyn : Session.Synonyms d d') (h : Twins d d' i i') :
    Twins d d' (i.finish t).1 (i'.finish t).1 ∧ (i'.finish t).2 = (i.finish t).2 := by
  have hclosed : Twins d d' { i with session := none } { i' with session := none } :=
    h.withSession .none
  have hsessions := h.sessions
  generalize hx : i.session = x at hsessions
  generalize hx' : i'.session = x' at hsessions
  cases hsessions with
  | none =>
    simp only [Item.finish, hx, hx']
    exact ⟨h, trivial⟩
  | @some x x' hsession =>
    by_cases hdone : i.state = .done
    · have hdone' := h.state_eq.trans hdone
      rcases Session.commit_twins (t := t) hsyn hsession with ⟨t', hok, hok'⟩ |
        ⟨e, e', t', herror, herror'⟩
      · simp only [Item.finish, hx, hx', hdone, hdone', if_true, hok, hok']
        exact ⟨hclosed.close .done, trivial⟩
      · simp only [Item.finish, hx, hx', hdone, hdone', if_true, herror, herror']
        exact ⟨(hclosed.withBytes rfl).close .failed, trivial⟩
    · have hdone' : i'.state ≠ .done := fun h' => hdone (h.state_eq.symm.trans h')
      simp only [Item.finish, hx, hx', if_neg hdone, if_neg hdone',
        Session.abandon_twins hsyn hsession]
      exact ⟨hclosed, trivial⟩

end Item

/-! ## Checks -/

/-- Two errors that say the same, though of paths that may be written in two ways. -/
inductive ItemError.Like : ItemError → ItemError → Prop
  | refl (e : ItemError) : Like e e
  | insideSource {p q : Path} (h : p.same q = true) (source : Path) :
      Like (.insideSource p source) (.insideSource q source)
  | destinationIsDirectory {p q : Path} (h : p.same q = true) :
      Like (.destinationIsDirectory p) (.destinationIsDirectory q)
  | directoryInaccessible {p q : Path} (h : p.same q = true) (e : FileError) :
      Like (.directoryInaccessible p e) (.directoryInaccessible q e)
  | notDirectory {p q : Path} (h : p.same q = true) : Like (.notDirectory p) (.notDirectory q)

/-- Two checks that both succeed, or fail with errors that say the same. -/
inductive Agreed : Except ItemError Unit → Except ItemError Unit → Prop
  | ok : Agreed (.ok ()) (.ok ())
  | error {e e' : ItemError} (h : e.Like e') : Agreed (.error e) (.error e')

namespace Item

variable {d d' : Path} {w v : List String} {y : String} {u : Tree}

/-- The item with the destination `d`. -/
def toward (d : Path) (i : Item) : Item := { i with destination := some d }

theorem checkApart_agreed (h : d.same d' = true) (p : Payload) :
    Agreed (checkApart p d) (checkApart p d') := by
  have hcomponents : d.components = d'.components := by simpa [Path.same] using h
  have hsame (q : Path) : d.same q = d'.same q := by simp only [Path.same, hcomponents]
  have hleads (q : Path) : q.leads d = q.leads d' := by simp only [Path.leads, hcomponents]
  cases p with
  | buffer data => exact .ok
  | file source =>
    simp only [checkApart, hsame]
    cases d'.same source with
    | true => exact .error (.refl _)
    | false => exact .ok
  | directory source =>
    simp only [checkApart, hsame, hleads]
    cases d'.same source with
    | true => exact .error (.refl _)
    | false =>
      cases source.leads d' with
      | true => exact .error (.insideSource h source)
      | false => exact .ok

theorem checkHolder_agreed (h : Option.Rel Path.Alike d.parent? d'.parent?) :
    Agreed (checkHolder u d) (checkHolder u d') := by
  unfold checkHolder
  generalize d.parent? = r at h
  generalize d'.parent? = r' at h
  cases h with
  | none => exact .ok
  | some hr =>
    simp only [hr.text_eq_iff, hr.status_eq]
    split
    · exact .ok
    · split
      · exact .error (.directoryInaccessible hr.same _)
      · exact .ok
      · exact .error (.notDirectory hr.same)

theorem checkDestination_agreed (i : Item) (h : d.Respelt d' w v y) (hd : d.isTooLong = false)
    (hd' : d'.isTooLong = false) :
    Agreed ((i.toward d).checkDestination u) ((i.toward d').checkDestination u) := by
  have hapart := checkApart_agreed h.same i.payload
  have hdirectory : u.isDirectory d = u.isDirectory d' := by
    simp only [Tree.isDirectory, Tree.status, h.resolve_eq hd hd']
  simp only [checkDestination, toward, hdirectory]
  generalize checkApart i.payload d = r at hapart
  generalize checkApart i.payload d' = r' at hapart
  cases hapart with
  | error he => exact .error he
  | ok =>
    dsimp only
    split
    · exact .error (.destinationIsDirectory h.same)
    · exact checkHolder_agreed (h.parents hd hd')

end Item

/-! ## Runs that differ in the spelling of the destination -/

/-- The path of a staged copy is longer than the path of its destination. -/
theorem isTooLong_of_staged {d : Path} (h : (staged d).isTooLong = false) :
    d.isTooLong = false := by
  simp only [staged, Path.append, Path.isTooLong, String.utf8ByteSize_append,
    decide_eq_false_iff_not] at h ⊢
  omega

/-- Of two spellings that begin alike, and end in the same, a copy is staged in the same place. It
is committed in the same way, or in neither case if they end in what is no name. -/
theorem Session.synonyms {d d' : Path} {w v : List String} {y : String} (h : d.Respelt d' w v y)
    (hd : (staged d).isTooLong = false) (hd' : (staged d').isTooLong = false) :
    Synonyms d d' := by
  have hname := (Path.endsIn_staged h.segments_eq).isName.proper
  refine ⟨h.staged.alike hname hd hd', h.parents (isTooLong_of_staged hd) (isTooLong_of_staged hd'),
    fun t => ?_⟩
  by_cases hy : Path.proper y = true
  · exact .inl ((h.staged.alike hname hd hd').rename_eq
      (h.alike hy (isTooLong_of_staged hd) (isTooLong_of_staged hd')))
  · have hfails {d : Path} {w : List String} (hseg : d.segments = w ++ [y]) :
        ∃ e, t.rename (Haulage.staged d) d = .error e := by
      cases hr : t.rename (Haulage.staged d) d with
      | error e => exact ⟨e, rfl⟩
      | ok t' =>
        obtain ⟨init, n, hn⟩ := Tree.endsIn_of_rename hr
        obtain ⟨-, hlast⟩ := List.append_inj' (hseg.symm.trans hn.segments_eq) rfl
        exact absurd hn.isName.proper (List.singleton_inj.mp hlast ▸ hy)
    exact .inr ⟨hfails h.segments_eq, hfails h.segments_eq'⟩

/-- None of the paths at which a copy to `d` is staged is too long, whichever of the changes that
come with the cues are made before the copy is opened. -/
structure Payload.Roomy (u : Tree) (cues : List Cue) (p : Payload) (d : Path) : Prop where
  staged : (staged d).isTooLong = false
  below {made : List Cue} (hmade : made <+: cues) {e : Pending}
    (he : e ∈ p.pending (u.edits (made.flatMap Cue.edits))) :
    ((Haulage.staged d).descend e.names).isTooLong = false

namespace Item

variable {d d' : Path} {w v init : List String} {y n : String} {u : Tree} {i : Item}
  {cues : List Cue} {buffer : ℕ}

theorem toward_twins (hsession : i.session = none) : Twins d d' (i.toward d) (i.toward d') := by
  refine ⟨rfl, .some ⟨rfl, rfl⟩, ?_⟩
  simp only [toward, hsession]
  exact .none

/-- With either destination an item comes to the same when it is checked, run and finished. The
twins differ in nothing but how a destination is written that they still have. -/
structure InStep (d d' : Path) (cues : List Cue) (buffer : ℕ) (u : Tree) (i : Item) : Prop where
  checkSource : (i.toward d').checkSource u = (i.toward d).checkSource u
  checkDestination : Agreed ((i.toward d).checkDestination u) ((i.toward d').checkDestination u)
  run : Twins d d' ((i.toward d).run cues buffer u).item ((i.toward d').run cues buffer u).item
  run_tree : ((i.toward d').run cues buffer u).tree = ((i.toward d).run cues buffer u).tree
  run_polls : ((i.toward d').run cues buffer u).polls = ((i.toward d).run cues buffer u).polls
  delivered : Twins d d' ((i.toward d).delivered cues buffer u).1
    ((i.toward d').delivered cues buffer u).1
  delivered_tree : ((i.toward d').delivered cues buffer u).2 =
    ((i.toward d).delivered cues buffer u).2

theorem inStep_of_respelt (h : d.Respelt d' w v y) (hsession : i.session = none)
    (hroom : i.payload.Roomy u cues d) (hroom' : i.payload.Roomy u cues d') :
    i.InStep d d' cues buffer u := by
  have hname := (Path.endsIn_staged h.segments_eq).isName.proper
  have hsyn := Session.synonyms h hroom.staged hroom'.staged
  have htwins : Twins d d' (i.toward d) (i.toward d') := toward_twins hsession
  have hrun : Twins d d' ((i.toward d).run cues buffer u).item
        ((i.toward d').run cues buffer u).item ∧
      ((i.toward d').run cues buffer u).tree = ((i.toward d).run cues buffer u).tree ∧
      ((i.toward d').run cues buffer u).polls = ((i.toward d).run cues buffer u).polls := by
    unfold Item.run
    split
    · refine Attempt.Twins.runFrom hsyn (fun _ _ made hmade e he => ?_)
        ⟨htwins.close .ongoing, rfl, rfl⟩
      exact h.staged.descend hname (hroom.below hmade he) (hroom'.below hmade he)
    · exact ⟨htwins.close .failed, rfl, rfl⟩
  obtain ⟨hitem, htree, hpolls⟩ := hrun
  have hfinish := hitem.finish (t := ((i.toward d).run cues buffer u).tree) hsyn
  refine ⟨rfl, ?_, hitem, htree, hpolls, ?_, ?_⟩
  · exact checkDestination_agreed i h (isTooLong_of_staged hroom.staged)
      (isTooLong_of_staged hroom'.staged)
  · rw [Item.delivered, Item.delivered, htree]
    exact hfinish.1
  · rw [Item.delivered, Item.delivered, htree]
    exact hfinish.2

/-- What becomes of an item for which a destination may be written in either of two ways. -/
structure Interchangeable (d d' : Path) (cues : List Cue) (buffer : ℕ) (u : Tree) (i : Item) :
    Prop where
  /-- If both end in a name their copies are staged in the same place. -/
  staged_same {init init' : List String} {n n' : String} (hd : d.EndsIn init n)
    (hd' : d'.EndsIn init' n') : (staged d).same (staged d') = true
  /-- If their copies are staged in the same place everything is the same. -/
  inStep (h : (staged d).same (staged d') = true) : i.InStep d d' cues buffer u
  /-- If it ends in a name the copy is staged beside it, and not inside. -/
  beside {init : List String} {n : String} (hd : d.EndsIn init n) :
    (staged d).parent? = d.parent? ∧ d.leads (staged d) = false
  /-- If it does not, the item is never done. -/
  undone (hd : ∀ init n, ¬d.EndsIn init n) (hcues : ∀ c ∈ cues, c.edits = []) :
    ((i.toward d).delivered cues buffer u).1.state ≠ .done
  /-- If it does and the item has passed its checks, but is not done, nothing is left behind. -/
  unchanged {init : List String} {n : String} (hd : d.EndsIn init n) (hu : u.Sound)
    (hcues : ∀ c ∈ cues, c.edits = []) (hsource : (i.toward d).checkSource u = .ok ())
    (hcheck : (i.toward d).checkDestination u = .ok ())
    (hfree : ∀ x, u.linkStatus (staged d) ≠ .ok x)
    (hundone : ((i.toward d).delivered cues buffer u).1.state ≠ .done) (l : Location) :
    ((i.toward d).delivered cues buffer u).2.node? l = u.node? l

/-- Two destinations that are equal as paths come to the same, as long as the paths of their staged
copies are equal too; and these are if neither destination ends with a separator or a dot. -/
theorem interchangeable (hsession : i.session = none) (hsame : d.same d' = true)
    (hroom : i.payload.Roomy u cues d) (hroom' : i.payload.Roomy u cues d') :
    i.Interchangeable d d' cues buffer u where
  staged_same hd hd' := by
    obtain ⟨rfl, hakin⟩ := Path.akin_of_same hd.segments_eq hd'.segments_eq hd.isName.proper
      hd'.isName.proper hsame
    exact (Path.Respelt.mk hd.segments_eq hd'.segments_eq hakin).staged.same
  inStep h := by
    obtain ⟨w, x, hseg⟩ := d.exists_last_segment
    obtain ⟨v, x', hseg'⟩ := d'.exists_last_segment
    have hstaged := Path.endsIn_staged hseg
    have hstaged' := Path.endsIn_staged hseg'
    obtain ⟨heq, hakin⟩ := Path.akin_of_same hstaged.segments_eq hstaged'.segments_eq
      hstaged.isName.proper hstaged'.isName.proper h
    obtain rfl : x = x' := by
      have hlists := congrArg String.toList heq
      rw [String.toList_append, String.toList_append] at hlists
      exact String.toList_inj.mp (List.append_cancel_right hlists)
    exact inStep_of_respelt ⟨hseg, hseg', hakin⟩ hsession hroom hroom'
  beside hd := by
    refine ⟨hd.staged.parent?_eq.trans hd.parent?_eq.symm, hd.leads_eq_false hd.staged ?_⟩
    intro heq
    have hlength := congrArg String.length heq
    have hsuffix : ".mlc.partial".length = 12 := rfl
    rw [String.length_append] at hlength
    omega
  undone hd hcues hdone := by
    obtain ⟨hran, hcommit⟩ := commit_of_done hdone
    obtain ⟨buffer, rfl⟩ := exists_buffer_of_done hran
    obtain ⟨init, n, hname⟩ := endsIn_of_done (i := i.toward d) hsession rfl hcues hran hcommit
    exact hd init n hname
  unchanged hd hu hcues hsource hcheck hfree hundone := by
    have ht := transferable_of_checks hu hd rfl hsource hcheck hfree
    have hpublished := published_run ht hsession rfl hcues buffer
    exact hpublished.unchanged hundone

/-! ### Logs that are copied to one destination or another -/

/-- A directory with one file of logs. -/
def singleTree : Tree := Tree.blank.edits [.write ⟨"logs/a"⟩ "first".toUTF8]

theorem listing_single :
    singleTree.listing ⟨"logs"⟩ = .ok (singleTree.entriesBelow [Tree.homeName, "logs"]) :=
  Tree.listing_of_sorted (x := .directory) (by decide +kernel) (by decide +kernel)
    (by decide +kernel) (by decide +kernel) (by decide +kernel)

theorem pending_single :
    (singleTree.entriesBelow [Tree.homeName, "logs"]).filterMap Session.pendingOf =
      [⟨["a"], false⟩] := by
  decide +kernel

theorem roomy_single {d : Path} (hstaged : (staged d).isTooLong = false)
    (hbelow : ((staged d).descend ["a"]).isTooLong = false) :
    logsItem.payload.Roomy singleTree [] d := by
  refine ⟨hstaged, fun hmade e he => ?_⟩
  rw [List.prefix_nil.mp hmade] at he
  change e ∈ (match singleTree.listing ⟨"logs"⟩ with
    | .ok entries => entries.filterMap Session.pendingOf
    | .error _ => []) at he
  rw [listing_single] at he
  simp only [pending_single, List.mem_singleton] at he
  rwa [he]

/-- The tree in which the copy of the logs has been begun. -/
def begunTree (d : Path) : Tree := ((singleTree.makeParents d).2.makeDirectories (staged d)).2

/-- The attempt that has begun the copy of the logs. -/
def begunAttempt (d : Path) (buffer : BufferSize) : Attempt :=
  Attempt.opened (logsItem.toward d) (.directory ⟨"logs"⟩ [⟨["a"], false⟩] none d) buffer

theorem delivered_single {d : Path} (hbuffer : 0 < buffer)
    (hparents : (singleTree.makeParents d).1 = .ok ())
    (hmade : ((singleTree.makeParents d).2.makeDirectories (staged d)).1 = .ok ())
    (hended : ((begunAttempt d ⟨buffer, hbuffer⟩).undisturbed 20 (begunTree d)).1.stage = .ended) :
    (logsItem.toward d).delivered [] buffer singleTree =
      ((begunAttempt d ⟨buffer, hbuffer⟩).undisturbed 20 (begunTree d)).1.item.finish
        ((begunAttempt d ⟨buffer, hbuffer⟩).undisturbed 20 (begunTree d)).2 := by
  have hstart := Session.start_directory listing_single hparents hmade
  rw [pending_single] at hstart
  obtain ⟨hitem, htree⟩ := run_opened (i := logsItem.toward d) 20 hbuffer rfl rfl hstart hended
  rw [delivered, hitem, htree]
  rfl

/-- Dots and separators in front of the name of the destination make no difference. -/
theorem interchangeable_single :
    logsItem.Interchangeable ⟨"./out"⟩ ⟨".//./out"⟩ [] 2 singleTree ∧
      logsItem.InStep ⟨"./out"⟩ ⟨".//./out"⟩ [] 2 singleTree ∧
      ((logsItem.toward ⟨".//./out"⟩).delivered [] 2 singleTree).1.state = .done := by
  have hboth : logsItem.Interchangeable ⟨"./out"⟩ ⟨".//./out"⟩ [] 2 singleTree :=
    interchangeable rfl (by decide +kernel) (roomy_single (by decide +kernel) (by decide +kernel))
      (roomy_single (by decide +kernel) (by decide +kernel))
  have hstep := hboth.inStep (by decide +kernel)
  refine ⟨hboth, hstep, hstep.delivered.state_eq.trans ?_⟩
  rw [delivered_single Nat.two_pos (by decide +kernel) (by decide +kernel) (by decide +kernel)]
  decide +kernel

/-- A separator behind it does: the copy is staged inside the destination, which cannot be replaced
any more, and the directory that was made for it stays. -/
theorem separator_not_interchangeable :
    (Path.same ⟨"out"⟩ ⟨"out/"⟩ = true ∧ Path.leads ⟨"out/"⟩ (staged ⟨"out/"⟩) = true) ∧
      ((logsItem.toward ⟨"out/"⟩).checkSource singleTree = .ok () ∧
        (logsItem.toward ⟨"out/"⟩).checkDestination singleTree = .ok ()) ∧
      (((logsItem.toward ⟨"out"⟩).delivered [] 64 singleTree).1.state = .done ∧
        ((logsItem.toward ⟨"out"⟩).delivered [] 64 singleTree).1.bytes = 5) ∧
      (((logsItem.toward ⟨"out/"⟩).delivered [] 64 singleTree).1.state = .failed ∧
        ((logsItem.toward ⟨"out/"⟩).delivered [] 64 singleTree).1.bytes = 0 ∧
        ((logsItem.toward ⟨"out/"⟩).delivered [] 64 singleTree).2.linkStatus ⟨"out"⟩ =
          .ok .directory) ∧
      ¬(((logsItem.toward ⟨"out/"⟩).delivered [] 64 singleTree).1.state =
          ((logsItem.toward ⟨"out"⟩).delivered [] 64 singleTree).1.state ∧
        ((logsItem.toward ⟨"out/"⟩).delivered [] 64 singleTree).2.linkStatus ⟨"out/a"⟩ =
          ((logsItem.toward ⟨"out"⟩).delivered [] 64 singleTree).2.linkStatus ⟨"out/a"⟩) := by
  rw [delivered_single (d := ⟨"out"⟩) (by decide) (by decide +kernel) (by decide +kernel)
      (by decide +kernel),
    delivered_single (d := ⟨"out/"⟩) (by decide) (by decide +kernel) (by decide +kernel)
      (by decide +kernel)]
  decide +kernel

end Item

end Haulage
