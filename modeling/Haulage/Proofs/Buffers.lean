import Haulage.Proofs.Outcome

/-!
# Buffers of any size

What a copy comes to does not depend on the size of the chunks in which it is made. An `Upshot` says
what that is without naming a buffer: `Session.upshot` copies what is left of each file in one go.
`Session.upshot_passage` says that the passage of a copy comes to its upshot with every buffer, and
`Item.delivered_eq` that two runs of an item end alike if no signal stops them.

A chunk that is written where the last one ended might as well have been written with it
(`Bytes.overwrite_overwrite`). What is left to be read stays the same meanwhile, since a file is
never copied into itself: a copy that is opened empties its target, so that nothing is left to be
read if this is its source.
-/

namespace Haulage

open Disk (Bytes Handle Path Tree)

/-! ## Chunks put together -/

namespace Disk.Tree

/-- Writing a chunk where the last one ended is writing both at once. -/
theorem writeAt_writeAt (t : Tree) (id offset : ℕ) (chunk chunk' : Bytes) :
    (t.writeAt id offset chunk).writeAt id (offset + chunk.size) chunk' =
      t.writeAt id offset (chunk ++ chunk') := by
  unfold writeAt
  congr 1
  refine Array.ext_getElem? fun j => ?_
  simp only [Array.getElem?_modify]
  split
  · simp [Function.comp_def, Bytes.overwrite_overwrite]
  · rfl

/-- The tree in which the rest of some bytes, from `offset` on, was written into a file at the same
place. -/
def pour (t : Tree) (id : ℕ) (bs : Bytes) (offset : ℕ) : Tree :=
  if bs.size ≤ offset then t else t.writeAt id offset (bs.slice offset (bs.size - offset))

/-- Nothing is left to be written at the end. -/
theorem pour_of_le {t : Tree} {id : ℕ} {bs : Bytes} {offset : ℕ} (h : bs.size ≤ offset) :
    t.pour id bs offset = t := if_pos h

/-- Writing a chunk and then the rest is writing it all. -/
theorem pour_writeAt (t : Tree) (id : ℕ) {bs : Bytes} {offset n : ℕ}
    (h : (bs.slice offset n).size ≠ 0) :
    (t.writeAt id offset (bs.slice offset n)).pour id bs (offset + (bs.slice offset n).size) =
      t.pour id bs offset := by
  have hsize := Bytes.size_slice bs offset n
  unfold pour
  rw [if_neg (by omega : ¬ bs.size ≤ offset)]
  by_cases hlast : bs.size ≤ offset + (bs.slice offset n).size
  · rw [if_pos hlast, Bytes.slice_of_le (by omega)]
  · have hchunk : (bs.slice offset n).size = n := by omega
    have hrest : n + (bs.size - (offset + n)) = bs.size - offset := by omega
    rw [if_neg hlast, writeAt_writeAt, hchunk, Bytes.slice_append_slice, hrest]

/-- A file that was opened for writing is empty. -/
theorem data_create {t t' : Tree} {p : Path} {id : ℕ} (h : t.create p = .ok (id, t')) :
    t'.data id = ⟨.empty, none⟩ := by
  unfold create at h
  split at h
  · cases h
  · cases h
    simp [data]
  · split at h
    · cases h
      rw [data_setData]
      split
      · rfl
      · rename_i hout
        unfold data
        rw [Array.getElem?_eq_none (by simpa using hout)]
        rfl
    · cases h

end Disk.Tree

/-! ## A file in one go -/

namespace OpenCopy

/-- A copy that has anything left to be read does not write into it. -/
def Apart (t : Tree) (copy : OpenCopy) : Prop :=
  copy.source = .file copy.target → t.size copy.target ≤ copy.position

/-- The copy after what is left of its source was copied in one go. -/
def drained (t : Tree) (copy : OpenCopy) : Except CopyFailure (OpenCopy × Tree) :=
  match copy.source with
  | .directory _ => .error (.atSource .isDirectory)
  | .file id => .ok ({ copy with position := max copy.position (t.size id) },
      t.pour copy.target (t.data id).bytes copy.position)

/-- A copy that was just started has nothing left to be read that it would write into. -/
theorem apart_startCopy {t t' : Tree} {source : Handle} {modified : Option Disk.Stamp}
    {target : Path} {copy : OpenCopy}
    (h : Session.startCopy t source modified target = (.ok copy, t')) : copy.Apart t' := by
  unfold Session.startCopy at h
  split at h
  · cases h
  · rename_i id t'' hcreate
    cases h
    intro _
    unfold Tree.size
    rw [Disk.Tree.data_create hcreate]
    exact Nat.zero_le _

variable {t t' : Tree} {n k : ℕ} {copy copy' : OpenCopy} {f : CopyFailure}

/-- A step fails just if the whole would, since the source is a directory. -/
theorem drained_of_error (h : Session.OpenCopy.step t n copy = .error f) :
    copy.drained t = .error f := by
  rcases Session.step_cases t n copy with ⟨l, hsource, hstep⟩ | ⟨id, -, ⟨-, hstep⟩ | ⟨-, hstep⟩⟩
  · rw [hstep] at h
    cases h
    unfold drained
    rw [hsource]
  · simp [hstep] at h
  · simp [hstep] at h

/-- A step that copies nothing finds nothing left. -/
theorem drained_of_zero (hn : 0 < n) (h : Session.OpenCopy.step t n copy = .ok (0, copy', t')) :
    copy.drained t = .ok (copy, t) ∧ copy.remaining t = 0 := by
  rcases Session.step_cases t n copy with
    ⟨l, -, hstep⟩ | ⟨id, hsource, ⟨hempty, -⟩ | ⟨hne, hstep⟩⟩
  · simp [hstep] at h
  · rw [Tree.size_readAt] at hempty
    have hend : t.size id ≤ copy.position := by omega
    refine ⟨?_, ?_⟩
    · unfold drained
      rw [hsource]
      simp only [Nat.max_eq_left hend, Disk.Tree.pour_of_le hend]
      rw [← hsource]
    · unfold remaining
      rw [hsource]
      exact Nat.sub_eq_zero_of_le hend
  · simp only [hstep, Except.ok.injEq, Prod.mk.injEq] at h
    exact absurd h.1 hne

/-- A step that copies a chunk leaves the rest for later. -/
theorem drained_of_step (hapart : copy.Apart t) (hk : k ≠ 0)
    (h : Session.OpenCopy.step t n copy = .ok (k, copy', t')) :
    (∃ r, copy.drained t = .ok r ∧ copy'.drained t' = .ok r) ∧
      copy'.remaining t' + k = copy.remaining t ∧ copy'.Apart t' := by
  rcases Session.step_cases t n copy with
    ⟨l, -, hstep⟩ | ⟨id, hsource, ⟨-, hstep⟩ | ⟨hne, hstep⟩⟩
  · simp [hstep] at h
  · simp only [hstep, Except.ok.injEq, Prod.mk.injEq] at h
    exact absurd h.1.symm hk
  · simp only [hstep, Except.ok.injEq, Prod.mk.injEq] at h
    obtain ⟨rfl, rfl, rfl⟩ := h
    have hread := Tree.size_readAt t id copy.position n
    have hother : id ≠ copy.target := by
      intro heq
      have hend := hapart (hsource.trans (congrArg Handle.file heq))
      rw [← heq] at hend
      omega
    have hsame (chunk : Bytes) :
        (t.writeAt copy.target copy.position chunk).data id = t.data id := by
      rw [Tree.data_writeAt, if_neg fun hboth => hother hboth.1.symm]
    have hsize (chunk : Bytes) :
        (t.writeAt copy.target copy.position chunk).size id = t.size id :=
      congrArg (·.bytes.size) (hsame chunk)
    refine ⟨⟨_, by rw [drained, hsource], ?_⟩, ?_, ?_⟩
    · have hend : max (copy.position + (t.readAt id copy.position n).size) (t.size id) =
          max copy.position (t.size id) := by omega
      unfold drained
      simp only [hsource, hsize, hsame, hend]
      rw [show t.readAt id copy.position n = (t.data id).bytes.slice copy.position n from rfl,
        Disk.Tree.pour_writeAt _ _ hne]
    · unfold remaining
      simp only [hsource, hsize]
      omega
    · intro hself
      exact absurd (Handle.file.inj (hsource.symm.trans hself)) hother

end OpenCopy

/-! ## The upshot of a copy -/

/-- What a copy comes to if it is left alone. -/
structure Upshot where
  /-- What it failed of, unless it is complete. -/
  failure : Option CopyFailure
  session : Option Session
  tree : Tree
  /-- The bytes that were moved. -/
  bytes : ℕ

/-- The upshot with bytes that were moved before. -/
def Upshot.after (n : ℕ) (u : Upshot) : Upshot := { u with bytes := n + u.bytes }

/-- What was moved before adds up. -/
theorem Upshot.after_after (n n' : ℕ) (u : Upshot) : (u.after n').after n = u.after (n + n') := by
  simp only [after, Nat.add_assoc]

/-- The upshot of a passage. -/
def Passage.upshot (x : Passage) : Upshot :=
  ⟨x.failure, x.session, x.tree, x.chunks.foldr (fun chunk n => chunk.size + n) 0⟩

namespace Session

/-- What is left of an open file of a directory, copied and closed. -/
def closeCurrent (t : Tree) (copy : OpenCopy) (target : Path) : Except CopyFailure Tree :=
  match copy.drained t with
  | .error f => .error f
  | .ok (copy', t') => .ok (t'.orSame (t'.setModified target copy'.modified))

/-- The upshot of copying the entries of a directory. -/
def upshotOf (source destination : Path) (pending : List Pending) (t : Tree) : Upshot :=
  match _h : openNext t source destination pending with
  | (.error f, rest, t₁) => ⟨some f, some (.directory source rest none destination), t₁, 0⟩
  | (.ok none, rest, t₁) => ⟨none, some (.directory source rest none destination), t₁, 0⟩
  | (.ok (some (copy, target)), rest, t₁) => match closeCurrent t₁ copy target with
    | .error f =>
      ⟨some f, some (.directory source rest (some (copy, target)) destination), t₁, 0⟩
    | .ok t₂ => (upshotOf source destination rest t₂).after (copy.remaining t₁)
termination_by pending.length
decreasing_by exact openNext_length _h

/-- The upshot of a copy that is open. -/
def upshot (t : Tree) (s : Session) : Upshot :=
  match s with
  | .file copy destination => match copy.drained t with
    | .error f => ⟨some f, some (.file copy destination), t, 0⟩
    | .ok (copy', t') => ⟨none, some (.file copy' destination), t', copy.remaining t⟩
  | .buffer data position target destination =>
    ⟨none, some (.buffer data (max position data.size) target destination),
      t.pour target data position, data.size - position⟩
  | .directory source pending none destination => upshotOf source destination pending t
  | .directory source pending (some (copy, target)) destination =>
    match closeCurrent t copy target with
    | .error f => ⟨some f, some s, t, 0⟩
    | .ok t' => (upshotOf source destination pending t').after (copy.remaining t)

/-- No copy that is open writes into what it has left to read. -/
def Apart (t : Tree) : Session → Prop
  | .file copy _ => copy.Apart t
  | .buffer _ _ _ _ => True
  | .directory _ _ none _ => True
  | .directory _ _ (some (copy, _)) _ => copy.Apart t

/-- What a step makes of a copy whose upshot is `u`. -/
def Leaves (u : Upshot) : Except CopyFailure Chunk × Session × Tree → Prop
  | (.error f, s', t') => u = ⟨some f, some s', t', 0⟩
  | (.ok .complete, s', t') => u = ⟨none, some s', t', 0⟩
  | (.ok (.copied k), s', t') => u = (s'.upshot t').after k ∧ s'.Apart t'

variable {t : Tree} {n : ℕ}

/-- The entries of a directory are copied by opening the next file and going on from there. -/
theorem upshot_directory (source destination : Path) (pending : List Pending) (t : Tree) :
    (directory source pending none destination).upshot t =
      match openNext t source destination pending with
      | (.error f, rest, t₁) => ⟨some f, some (.directory source rest none destination), t₁, 0⟩
      | (.ok none, rest, t₁) => ⟨none, some (.directory source rest none destination), t₁, 0⟩
      | (.ok (some (copy, target)), rest, t₁) =>
        (directory source rest (some (copy, target)) destination).upshot t₁ := by
  change upshotOf source destination pending t = _
  unfold upshotOf
  split
  · rename_i hopen
    rw [hopen]
  · rename_i hopen
    rw [hopen]
  · rename_i hopen
    rw [hopen]
    rfl

/-- A step of an open file of a directory leaves the upshot as it is. -/
theorem leaves_copyCurrent (hn : 0 < n) {copy : OpenCopy} (hapart : copy.Apart t)
    (source target destination : Path) (pending : List Pending) :
    Leaves ((directory source pending (some (copy, target)) destination).upshot t)
      (copyCurrent n t source pending copy target destination) := by
  unfold copyCurrent
  split
  · rename_i f hstep
    simp only [Leaves, upshot, closeCurrent, OpenCopy.drained_of_error hstep]
  · rename_i copy' t' hstep
    obtain ⟨hdrained, hremaining⟩ := OpenCopy.drained_of_zero hn hstep
    simp only [Leaves, upshot, closeCurrent, hdrained, hremaining, Apart, and_true]
  · rename_i k copy' t' hk hstep
    obtain ⟨⟨r, hdrained, hdrained'⟩, hremaining, hapart'⟩ :=
      OpenCopy.drained_of_step hapart hk hstep
    refine ⟨?_, hapart'⟩
    simp only [upshot, closeCurrent, hdrained, hdrained', ← hremaining, Upshot.after_after]
    rw [Nat.add_comm]

/-- The copy of an entry that was opened does not write into what it reads. -/
theorem apart_openEntry {t t' : Tree} {source destination target : Path} {entry : Pending}
    {copy : OpenCopy}
    (h : openEntry t source destination entry = (.ok (some (copy, target)), t')) :
    copy.Apart t' := by
  unfold openEntry at h
  simp only at h
  split at h
  · split at h <;> cases h
  · split at h
    · cases h
    · split at h
      · cases h
      · split at h
        · cases h
        · rename_i hstart
          cases h
          exact OpenCopy.apart_startCopy hstart

/-- So it is with the next entry that is opened. -/
theorem apart_openNext {t t' : Tree} {source destination target : Path}
    {pending rest : List Pending} {copy : OpenCopy}
    (h : openNext t source destination pending = (.ok (some (copy, target)), rest, t')) :
    copy.Apart t' := by
  induction pending generalizing t with
  | nil => cases h
  | cons entry pending ih =>
    unfold openNext at h
    split at h
    · cases h
    · exact ih h
    · rename_i hentry
      cases h
      exact apart_openEntry hentry

/-- A step through bytes in hand leaves the upshot as it is. -/
theorem leaves_buffer (hn : 0 < n) (data : Bytes) (position target : ℕ) (destination : Path) :
    Leaves ((buffer data position target destination).upshot t)
      ((buffer data position target destination).copyChunk n t) := by
  unfold copyChunk
  simp only
  split
  · rename_i hend
    simp only [Leaves, upshot, Nat.max_eq_left hend, Nat.sub_eq_zero_of_le hend,
      Disk.Tree.pour_of_le hend]
  · rename_i hleft
    refine ⟨?_, trivial⟩
    have hslice := Bytes.size_slice data position n
    have hchunk : (data.slice position n).size ≠ 0 := by omega
    have hend : max (position + (data.slice position n).size) data.size =
        max position data.size := by omega
    have hbytes : (data.slice position n).size +
        (data.size - (position + (data.slice position n).size)) = data.size - position := by
      omega
    simp only [upshot, Upshot.after, hend, hbytes, Disk.Tree.pour_writeAt t target hchunk]

/-- Every step leaves the upshot as it is. -/
theorem leaves_copyChunk (hn : 0 < n) {s : Session} (hapart : s.Apart t) :
    Leaves (s.upshot t) (s.copyChunk n t) := by
  unfold copyChunk
  split
  · split
    · rename_i f hstep
      simp only [Leaves, upshot, OpenCopy.drained_of_error hstep]
    · rename_i copy' t' hstep
      obtain ⟨hdrained, hremaining⟩ := OpenCopy.drained_of_zero hn hstep
      simp only [Leaves, upshot, hdrained, hremaining]
    · rename_i k copy' t' hk hstep
      obtain ⟨⟨r, hdrained, hdrained'⟩, hremaining, hapart'⟩ :=
        OpenCopy.drained_of_step hapart hk hstep
      refine ⟨?_, hapart'⟩
      simp only [upshot, hdrained, hdrained', ← hremaining]
      simp only [Upshot.after, Nat.add_comm]
  · exact leaves_buffer hn _ _ _ _
  · exact leaves_copyCurrent hn hapart _ _ _ _
  · rename_i source pending destination
    rw [upshot_directory]
    cases hopen : openNext t source destination pending with
    | mk result rest =>
      obtain ⟨rest, t₁⟩ := rest
      cases result with
      | error f => rfl
      | ok opened =>
        cases opened with
        | none => rfl
        | some opened =>
          exact leaves_copyCurrent hn (apart_openNext hopen) _ _ _ _

/-- The passage of a copy comes to its upshot, whatever the buffer. -/
theorem upshot_passage (buffer : BufferSize) {s : Session} (hapart : s.Apart t) :
    (s.passage buffer t).upshot = s.upshot t := by
  fun_induction s.passage buffer t with
  | case1 t s f s' t' hcopy =>
    have hleaves := leaves_copyChunk buffer.2 hapart
    rw [hcopy] at hleaves
    exact hleaves.symm
  | case2 t s s' t' hcopy =>
    have hleaves := leaves_copyChunk buffer.2 hapart
    rw [hcopy] at hleaves
    exact hleaves.symm
  | case3 t s n s' t' hcopy rest =>
    rename_i ih
    have hleaves := leaves_copyChunk buffer.2 hapart
    rw [hcopy] at hleaves
    rw [hleaves.1, ← ih hleaves.2]
    simp only [Passage.upshot, Upshot.after, List.foldr_cons]
    rfl

end Session

/-! ## Runs with any buffer -/

/-- A copy that was just opened writes into nothing that it reads. -/
theorem Session.apart_start {t t' : Tree} {payload : Payload} {destination : Path} {s : Session}
    (h : Session.start t payload destination = (.ok s, t')) : s.Apart t' := by
  cases payload with
  | directory source =>
    simp only [start, openDirectory] at h
    split at h
    · cases h
    · split at h
      · cases h
      · split at h
        · cases h
        · cases h
          trivial
  | buffer data =>
    simp only [start, openBuffer] at h
    split at h
    · cases h
    · split at h
      · cases h
      · cases h
        trivial
  | file source =>
    simp only [start, openFile] at h
    split at h
    · cases h
    · split at h
      · cases h
      · split at h
        · cases h
        · rename_i hstart
          cases h
          exact OpenCopy.apart_startCopy hstart

/-- What moving a payload comes to if nothing gets in the way. -/
def Payload.upshot (t : Tree) (payload : Payload) (destination : Path) : Upshot :=
  match Session.start t payload destination with
  | (.error f, t') => ⟨some f, none, t', 0⟩
  | (.ok s, t') => s.upshot t'

/-- The passage of a payload comes to its upshot, whatever the buffer. -/
theorem Payload.upshot_passage (buffer : BufferSize) (t : Tree) (payload : Payload)
    (destination : Path) :
    (payload.passage buffer t destination).upshot = payload.upshot t destination := by
  unfold passage upshot
  cases hstart : Session.start t payload destination with
  | mk result t' =>
    cases result with
    | error f => rfl
    | ok s => exact Session.upshot_passage buffer (Session.apart_start hstart)

namespace Item

/-- The item after a copy came to its upshot. -/
def concluded (i : Item) (u : Upshot) : Item :=
  { i with session := u.session, bytes := i.bytes + u.bytes }.close (i.endState u.failure)

/-- Going through a passage comes to its upshot. -/
theorem through_eq_concluded (i : Item) (x : Passage) : i.through x = i.concluded x.upshot := by
  have hbytes (chunks : List Moved) (b : ℕ) :
      chunks.foldl (fun n chunk => n + chunk.size) b =
        b + chunks.foldr (fun chunk n => chunk.size + n) 0 := by
    induction chunks generalizing b with
    | nil => rfl
    | cons chunk rest ih => rw [List.foldl_cons, ih, List.foldr_cons, Nat.add_assoc]
  unfold through concluded moved
  rw [hbytes]
  rfl

/-- The item and the tree after a run that no signal stops. -/
def settled (i : Item) (t : Tree) : Item × Tree :=
  match i.destination with
  | none => ({ i with state := .failed }, t)
  | some destination =>
    (i.concluded (i.payload.upshot t destination), (i.payload.upshot t destination).tree)

/-- Nobody changes the tree, and no signal stops the item. -/
def Unstopped (i : Item) (cues : List Cue) : Prop :=
  ∀ c ∈ cues, c.edits = [] ∧ (i.inspect c.signal).1 = true

instance (i : Item) (cues : List Cue) : Decidable (i.Unstopped cues) :=
  inferInstanceAs (Decidable (∀ c ∈ cues, c.edits = [] ∧ (i.inspect c.signal).1 = true))

/-- The passage of a payload that has no destination to go to. It fails for good. -/
def stranded (t : Tree) : Passage := ⟨[], some (.atDestination .invalid), none, t⟩

/-- An item that goes through it has failed. -/
theorem through_stranded {i : Item} (hsession : i.session = none) (t : Tree) :
    i.through (stranded t) = { i with state := .failed } := by
  obtain ⟨payload, state, destination, wish, sourcePriority, destinationPriority, tag,
    removesSource, bytes, resubmits, session⟩ := i
  cases hsession
  rfl

/-- An item without a destination fails for good when it is to be moved. -/
theorem run_stranded {i : Item} (hsession : i.session = none) (hdestination : i.destination = none)
    {cues : List Cue} (hcues : ∀ c ∈ cues, c.edits = []) {n : ℕ} (hn : 0 < n) (t : Tree) :
    i.run cues n t = i.outcome (cues.map (·.signal)) (stranded t) t := by
  unfold run
  rw [dif_pos hn, Attempt.runFrom_listening (x := stranded t) rfl hcues, RunResult.later_zero]
  · exact i.outcome_restart .ongoing
  · intro cues polls hcues
    rw [Attempt.runFrom_moving rfl]
    have hmove (a : Attempt) (hs : a.item.session = none) (hd : a.item.destination = none) :
        a.move t = ({ a with item := { a.item with state := .failed }, stage := .ended }, t) := by
      simp only [Attempt.move, hs, Attempt.openSession, hd]
    have hthrough : (Attempt.start i ⟨n, hn⟩).item.through (stranded t) =
        { (Attempt.start i ⟨n, hn⟩).item with state := .failed } :=
      through_stranded hsession t
    rw [hmove _ hsession hdestination, Attempt.runFrom_ended rfl]
    simp only [goOn, stranded, RunResult.later, Nat.add_zero]
    rw [← stranded, hthrough]

/-- A run that no signal stops comes to the upshot of its copy. -/
theorem run_eq_settled {i : Item} (hsession : i.session = none) {cues : List Cue}
    (hcues : i.Unstopped cues) {n : ℕ} (hn : 0 < n) (t : Tree) :
    ((i.run cues n t).item, (i.run cues n t).tree) = i.settled t := by
  have hedits : ∀ c ∈ cues, c.edits = [] := fun c hc => (hcues c hc).1
  have hfirst : i.firstStop (cues.map (·.signal)) = none := by
    refine firstStop_eq_none_iff.mpr fun s hs => ?_
    obtain ⟨c, hc, rfl⟩ := List.mem_map.mp hs
    exact (hcues c hc).2
  cases hdestination : i.destination with
  | none =>
    rw [run_stranded hsession hdestination hedits hn]
    simp only [outcome, hfirst, settled, hdestination, through_stranded hsession]
    rfl
  | some destination =>
    rw [run_outcome ⟨n, hn⟩ hedits t hsession hdestination]
    have hupshot := Payload.upshot_passage ⟨n, hn⟩ t i.payload destination
    simp only [outcome, hfirst, settled, hdestination, through_eq_concluded, hupshot]
    rw [← hupshot]
    rfl

/-- The item and the tree after a run that was finished. -/
def delivered (cues : List Cue) (buffer : ℕ) (t : Tree) (i : Item) : Item × Tree :=
  (i.run cues buffer t).item.finish (i.run cues buffer t).tree

/-- Two runs of an item whose copy is not open come to the same, whatever their buffers, if no
signal stops them and nobody else changes the tree. -/
theorem delivered_eq {i : Item} (hsession : i.session = none) {cues cues' : List Cue}
    (hcues : i.Unstopped cues) (hcues' : i.Unstopped cues') {n m : ℕ} (hn : 0 < n) (hm : 0 < m)
    (t : Tree) : i.delivered cues n t = i.delivered cues' m t := by
  obtain ⟨hitem, htree⟩ := Prod.mk.inj (run_eq_settled hsession hcues hn t)
  obtain ⟨hitem', htree'⟩ := Prod.mk.inj (run_eq_settled hsession hcues' hm t)
  unfold delivered
  rw [hitem, htree, hitem', htree']

/-- The directory of logs is moved in chunks of two bytes, with signals that mean something else,
and in one chunk for each file, with none. -/
theorem delivered_eq_logsRuns :
    logsItem.Unstopped [⟨[], .vanish .unset⟩, ⟨[], .none⟩, ⟨[], .cancel 3⟩] ∧
      logsItem.Unstopped [] ∧
      logsItem.delivered [⟨[], .vanish .unset⟩, ⟨[], .none⟩, ⟨[], .cancel 3⟩] 2 logsTree =
        logsItem.delivered [] 64 logsTree :=
  have hcues : logsItem.Unstopped [⟨[], .vanish .unset⟩, ⟨[], .none⟩, ⟨[], .cancel 3⟩] := by
    decide
  have hsilent : logsItem.Unstopped [] := by
    decide
  ⟨hcues, hsilent, delivered_eq rfl hcues hsilent (by decide) (by decide) logsTree⟩

end Item

end Haulage
