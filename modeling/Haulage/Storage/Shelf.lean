import Haulage.Storage.Manager

/-!
# A shelf of media

A storage manager over a fixed list of media. It prefers the current medium,
takes the first suitable one otherwise, and keeps a record of the requests made
to it. Requests for some storage classes can be held back.
-/

namespace Haulage

open Disk (FileError Path Tree)

/-- A medium on the shelf. -/
structure Medium where
  priority : Priority
  root : Path
  active : Bool
  deriving Repr, DecidableEq

/-- A request made to the storage manager. -/
inductive StorageCall where
  | allocate (family : MediaFamily) (label : String) (source : Priority)
  | check (family : MediaFamily) (p : Priority)
  deriving Repr, DecidableEq

/-- The media, the preferred one among them, and the requests so far. -/
structure Shelf where
  media : List Medium
  current : Priority
  /-- Are directories created when they are given out? -/
  makesDirectories : Bool
  /-- The storage classes whose requests wait. -/
  held : List String
  calls : List StorageCall
  deriving Repr

namespace Shelf

/-- A shelf with these media and nothing asked of it yet. -/
def ofMedia (media : List Medium) (current : Option Priority) (makesDirectories : Bool) : Shelf :=
  ⟨media, current.getD ((media.head?.map Medium.priority).getD .unset), makesDirectories, [], []⟩

/-- Can a medium take output of a source with this priority? -/
def suits (family : MediaFamily) (source : Priority) (m : Medium) : Bool :=
  m.active && m.priority ≠ source && (family = MediaFamily.unset || family = m.priority.family)

/-- The medium on which output goes. -/
def choose (s : Shelf) (family : MediaFamily) (source : Priority) : Option Medium :=
  let suitable := s.media.filter (suits family source)
  match suitable.find? (·.priority = s.current) with
  | some m => some m
  | none => suitable.head?

/-- Give out a directory named after the storage class. -/
def allocate (s : Shelf) (t : Tree) (family : MediaFamily) (label : String) (source : Priority) :
    Except StorageError Allocation × Shelf × Tree :=
  let s' := { s with calls := s.calls ++ [.allocate family label source] }
  match s.choose family source with
  | none => (.error (.noMedium label), s', t)
  | some m =>
    let directory := m.root.join ⟨label⟩
    if s.makesDirectories then
      match t.makeDirectories directory with
      | (.error e, t') => (.error (.disk e), s', t')
      | (.ok (), t') => (.ok ⟨directory, m.priority⟩, s', t')
    else (.ok ⟨directory, m.priority⟩, s', t)

/-- Is there an active medium of this priority? -/
def usable (s : Shelf) (family : MediaFamily) (p : Priority) : Bool × Shelf :=
  (s.media.any (fun m => m.active && m.priority = p),
    { s with calls := s.calls ++ [.check family p] })

/-- The shelf as a storage manager. -/
def manager : StorageManager Shelf := ⟨fun s label => s.held.contains label, allocate, usable⟩

/-- Hold back requests for a storage class. -/
def hold (s : Shelf) (label : String) : Shelf :=
  if s.held.contains label then s else { s with held := label :: s.held }

/-- Let the requests for a storage class through again, or all of them. -/
def release (s : Shelf) : Option String → Shelf
  | some label => { s with held := s.held.filter (· ≠ label) }
  | none => { s with held := [] }

/-- Activate or deactivate the media of a priority. -/
def setActive (s : Shelf) (p : Priority) (active : Bool) : Shelf :=
  { s with media := s.media.map fun m => if m.priority = p then { m with active } else m }

end Shelf

end Haulage
