import Haulage.Disk.Branch
import Haulage.Disk.Bytes
import Haulage.Disk.Path

/-!
# The file tree

The file tree maps locations, that is lists of names from the root down, to
entries: directories, symbolic links and regular files. A file entry holds a
number under which the file's bytes are kept, so that a file which was opened
stays readable and writable when its entry is renamed or removed.

`Tree.node?` is the view through which the tree is read: what stands at a
location, with the bytes of a file in place. The modification times of
directories are kept apart from it, because a directory is modified whenever an
entry of it comes or goes.
-/

namespace Haulage.Disk

/-- A point in time, in seconds and nanoseconds since the epoch. -/
structure Stamp where
  seconds : Int
  nanos : Nat
  deriving Repr, DecidableEq

/-- A regular file. Its modification time is known if it was set after the last write. -/
structure FileData where
  bytes : Bytes
  modified : Option Stamp
  deriving Repr, DecidableEq, Inhabited

/-- What the tree holds at a location. -/
inductive Entry where
  | directory
  | file (id : Nat)
  | link (target : Path)
  deriving Repr, DecidableEq

/-- What can be seen at a location. -/
inductive Node where
  | directory
  | file (data : FileData)
  | link (target : Path)
  deriving Repr, DecidableEq

/-- The state of a file system as one process sees it. -/
structure Tree where
  /-- What stands in the root directory and below. -/
  entries : Branches Entry
  files : Array FileData
  /-- When directories were modified, as far as it is known. -/
  stamps : List (Location × Stamp)
  /-- The working directory. -/
  home : Location
  deriving Repr, Inhabited

/-- Is `m` a proper descendant of `l`? -/
def Location.below (l m : Location) : Bool := l.isPrefixOf m && l.length < m.length

/-- Is `m` the location `l`, or the directory that holds it? -/
def Location.touches (l m : Location) : Bool := m = l || m = l.dropLast

/-- Where `m` lies after what was at `l` and below has come to stand at `l'`. -/
def Location.moved (l l' m : Location) : Location :=
  if l.isPrefixOf m then l' ++ m.drop l.length else m

namespace Tree

/-- The whole tree as one branch. The root is always a directory. -/
def top (t : Tree) : Branch Entry := ⟨some .directory, t.entries⟩

/-- The entry at a location. -/
def lookup (t : Tree) (l : Location) : Option Entry := (t.top.sub l).value

/-- The file kept under a number; the empty file if there is none. -/
def data (t : Tree) (id : Nat) : FileData := t.files[id]?.getD ⟨.empty, none⟩

/-- What can be seen at a location. -/
def node? (t : Tree) (l : Location) : Option Node :=
  match t.lookup l with
  | none => none
  | some .directory => some .directory
  | some (.link target) => some (.link target)
  | some (.file id) => some (.file (t.data id))

/-- When what stands at a location was modified, as far as it is known. -/
def modifiedAt? (t : Tree) (l : Location) : Option Stamp :=
  match t.lookup l with
  | some (.file id) => (t.data id).modified
  | some .directory => t.stamps.lookup l
  | _ => none

/-- The tree with the entry `e` at `l`. What is below stays. -/
def insert (t : Tree) (l : Location) (e : Entry) : Tree :=
  { t with
    entries := (t.top.alter l fun b => ⟨some e, b.below⟩).below
    stamps := t.stamps.filter (fun x => !l.touches x.1) }

/-- The tree without an entry at `l`. What is below stays. -/
def erase (t : Tree) (l : Location) : Tree :=
  { t with
    entries := (t.top.alter l fun b => ⟨none, b.below⟩).below
    stamps := t.stamps.filter (fun x => !l.touches x.1) }

/-- Does anything stand below `l`? -/
def hasBelow (t : Tree) (l : Location) : Bool := !(t.top.sub l).below.isBare

/-- The tree without the proper descendants of `l`. -/
def eraseBelow (t : Tree) (l : Location) : Tree :=
  { t with
    entries := (t.top.alter l fun b => ⟨b.value, .none⟩).below
    stamps := if t.hasBelow l then t.stamps.filter (fun x => !l.isPrefixOf x.1) else t.stamps }

/-- The entries below `l`, each with its names from `l` on. -/
def entriesBelow (t : Tree) (l : Location) : List (Location × Entry) :=
  (t.top.sub l).below.toList

/-- The tree in which what stood at `l` and below stands at `m` and below. -/
def relocate (t : Tree) (l m : Location) : Tree :=
  { t with
    entries := ((t.top.alter l fun _ => .bare).alter m fun _ => t.top.sub l).below
    stamps := (t.stamps.filter (fun x => x.1 ≠ l.dropLast && !m.touches x.1)).map fun x =>
      (l.moved m x.1, x.2) }

/-- The tree with a new empty file at `l`, and the number of that file. -/
def addFile (t : Tree) (l : Location) : Nat × Tree :=
  (t.files.size, { t.insert l (.file t.files.size) with files := t.files.push ⟨.empty, none⟩ })

/-- The tree in which the file numbered `id` is `d`. -/
def setData (t : Tree) (id : Nat) (d : FileData) : Tree :=
  { t with files := t.files.setIfInBounds id d }

/-- The tree in which the directory at `l` was modified at the given time. -/
def setStamp (t : Tree) (l : Location) (s : Option Stamp) : Tree :=
  { t with stamps := s.toList.map (fun s => (l, s)) ++ t.stamps.filter (fun x => x.1 ≠ l) }

/-- The number of bytes in a file. -/
def size (t : Tree) (id : Nat) : Nat := (t.data id).bytes.size

/-- At most `n` bytes of a file from `offset` on. -/
def readAt (t : Tree) (id offset n : Nat) : Bytes := (t.data id).bytes.slice offset n

/-- Write `chunk` into a file at `offset`. When the file was modified is then unknown. -/
def writeAt (t : Tree) (id offset : Nat) (chunk : Bytes) : Tree :=
  { t with files := t.files.modify id fun d => ⟨d.bytes.overwrite offset chunk, none⟩ }

/-- The name of the working directory. No path can spell it, so that the directory is reached
from itself alone. -/
def homeName : String := "\x00"

/-- A tree that holds nothing but an empty working directory. -/
def blank : Tree := ⟨.cons homeName (some .directory) .none .none, #[], [], [homeName]⟩

/-! ## Entries -/

@[simp] theorem lookup_nil (t : Tree) : t.lookup [] = some .directory := rfl

/-- A change of a branch other than the whole tree leaves the root alone. -/
theorem top_alter (t : Tree) {l : Location} (f : Branch Entry → Branch Entry) (hl : l ≠ []) :
    (⟨some .directory, (t.top.alter l f).below⟩ : Branch Entry) = t.top.alter l f := by
  cases l with
  | nil => exact absurd rfl hl
  | cons n l => rfl

/-- After an insertion the new entry is seen at its location, and elsewhere what was there. -/
theorem lookup_insert (t : Tree) {l : Location} (e : Entry) (m : Location) (hl : l ≠ []) :
    (t.insert l e).lookup m = if m = l then some e else t.lookup m := by
  unfold lookup
  rw [top, insert, top_alter t _ hl, Branch.value_alter]
  by_cases hp : l.isPrefixOf m
  · rw [if_pos hp]
    obtain ⟨r, rfl⟩ := List.isPrefixOf_iff_prefix.mp hp
    rw [Branch.sub_append]
    cases r <;> simp [Branch.sub]
  · rw [if_neg hp, if_neg]
    rintro rfl
    simp at hp

/-- After an erasure nothing is seen at the location, and elsewhere what was there. -/
theorem lookup_erase (t : Tree) {l : Location} (m : Location) (hl : l ≠ []) :
    (t.erase l).lookup m = if m = l then none else t.lookup m := by
  unfold lookup
  rw [top, erase, top_alter t _ hl, Branch.value_alter]
  by_cases hp : l.isPrefixOf m
  · rw [if_pos hp]
    obtain ⟨r, rfl⟩ := List.isPrefixOf_iff_prefix.mp hp
    rw [Branch.sub_append]
    cases r <;> simp [Branch.sub]
  · rw [if_neg hp, if_neg]
    rintro rfl
    simp at hp

/-- After the descendants of a location are erased they are gone, and the rest is as before. -/
theorem lookup_eraseBelow (t : Tree) (l m : Location) :
    (t.eraseBelow l).lookup m = if l.below m then none else t.lookup m := by
  unfold lookup
  have htop : (t.eraseBelow l).top = t.top.alter l fun b => ⟨b.value, Branch.bare.below⟩ := by
    cases l <;> rfl
  rw [htop, Branch.value_alter, Location.below]
  by_cases hp : l.isPrefixOf m
  · rw [if_pos hp]
    obtain ⟨r, rfl⟩ := List.isPrefixOf_iff_prefix.mp hp
    rw [Branch.sub_append]
    cases r <;> simp [Branch.sub]
  · simp [hp]

/-- After a relocation the branch is seen at its new location, nothing at its old one, and
elsewhere what was there. -/
theorem lookup_relocate (t : Tree) {l m : Location} (x : Location) (hl : l ≠ []) (hm : m ≠ []) :
    (t.relocate l m).lookup x =
      if m.isPrefixOf x then t.lookup (l ++ x.drop m.length)
      else if l.isPrefixOf x then none else t.lookup x := by
  unfold lookup
  have htop : (t.relocate l m).top =
      (t.top.alter l fun _ => .bare).alter m fun _ => t.top.sub l := by
    cases l with
    | nil => exact absurd rfl hl
    | cons n l =>
      cases m with
      | nil => exact absurd rfl hm
      | cons k m => rfl
  rw [htop, Branch.value_alter, Branch.value_alter, Branch.sub_append, Branch.sub_bare]
  rfl

/-! ## Files by number -/

theorem data_setData (t : Tree) (i j : Nat) (d : FileData) :
    (t.setData i d).data j = if i = j ∧ i < t.files.size then d else t.data j := by
  unfold setData data
  rw [Array.getElem?_setIfInBounds]
  by_cases h : i = j
  · subst h
    by_cases hi : i < t.files.size <;> simp [hi]
  · simp [h]

theorem data_writeAt (t : Tree) (i j offset : Nat) (chunk : Bytes) :
    (t.writeAt i offset chunk).data j =
      if i = j ∧ i < t.files.size then ⟨(t.data i).bytes.overwrite offset chunk, none⟩
      else t.data j := by
  unfold writeAt data
  rw [Array.getElem?_modify]
  by_cases h : i = j
  · subst h
    by_cases hi : i < t.files.size <;> simp [hi]
  · simp [h]

theorem size_writeAt_le (t : Tree) (i j offset : Nat) (chunk : Bytes) :
    (t.writeAt i offset chunk).size j ≤ max (t.size j) (offset + chunk.size) := by
  unfold size
  rw [data_writeAt]
  split
  · rename_i h
    exact Nat.le_of_eq (by rw [Bytes.size_overwrite, h.1])
  · omega

theorem size_readAt (t : Tree) (id offset n : Nat) :
    (t.readAt id offset n).size = min n (t.size id - offset) :=
  Bytes.size_slice _ _ _

end Tree

end Haulage.Disk
