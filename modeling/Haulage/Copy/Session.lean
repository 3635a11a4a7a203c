import Haulage.Copy.Failure
import Haulage.Disk.Operations

/-!
# Copy sessions

A session moves the content of a file, of a buffer or of a whole directory into
a staged copy that stands beside the destination, chunk by chunk. Committing
the session renames the staged copy to the destination; abandoning it removes
the staged copy.

The disk is ideal. A file that has been opened is read and written without
failure, there is always room for what is written, and syncing it, which has
nothing to do, does not fail either. What fails is what the state of the tree
makes fail: to list, open, make or rename an entry, and to read from a directory.
So of the errors that say that a medium is gone (`IoError.goneErrors`) only a
missing entry ever comes from a session. The others, which tell of devices that
fail or are taken away, are told apart where failures are dealt with, but no
session gives rise to them.
-/

namespace Haulage

open Disk (Bytes FileError Handle Location Path Stamp Tree)

/-- What is to be moved. -/
inductive Payload where
  | directory (source : Path)
  | buffer (data : Bytes)
  | file (source : Path)
  deriving Repr, DecidableEq

namespace Payload

/-- The word for a kind of payload. -/
def kind : Payload → String
  | .directory _ => "dir"
  | .buffer _ => "buffer"
  | .file _ => "file"

/-- The path a payload is read from, if it is read from one. -/
def source? : Payload → Option Path
  | .directory source => some source
  | .file source => some source
  | .buffer _ => none

end Payload

/-- The place of the staged copy for a destination. -/
def staged (destination : Path) : Path := destination.append ".mlc.partial"

/-- A file that is being copied. What is read at a position is written at the same position. -/
structure OpenCopy where
  source : Handle
  target : Nat
  position : Nat
  /-- When the source had been modified as it was opened. -/
  modified : Option Stamp
  deriving Repr, DecidableEq

/-- An entry of a source directory that still has to be copied, by its names from there on. -/
structure Pending where
  names : Location
  isDirectory : Bool
  deriving Repr, DecidableEq

/-- A copy under way, towards the destination it will be committed to. -/
inductive Session where
  | file (copy : OpenCopy) (destination : Path)
  | buffer (data : Bytes) (position : Nat) (target : Nat) (destination : Path)
  | directory (source : Path) (pending : List Pending) (current : Option (OpenCopy × Path))
      (destination : Path)
  deriving Repr, DecidableEq

/-- What one step of a session achieved. -/
inductive Chunk where
  /-- So many bytes were moved. -/
  | copied (n : Nat)
  /-- There is nothing left to move. -/
  | complete
  deriving Repr, DecidableEq

namespace Session

/-- The path a session will be committed to. -/
def destination : Session → Path
  | .file _ d => d
  | .buffer _ _ _ d => d
  | .directory _ _ _ d => d

/-! ## Opening -/

/-- When the file behind a handle was modified. -/
def handleModified (t : Tree) : Handle → Option Stamp
  | .file id => (t.data id).modified
  | .directory modified => modified

/-- Create the file `target` and start copying into it from `source`, which had been modified
at the given time. -/
def startCopy (t : Tree) (source : Handle) (modified : Option Stamp) (target : Path) :
    Except CopyFailure OpenCopy × Tree :=
  match t.create target with
  | .error e => (.error (.atDestination e), t)
  | .ok (id, t') => (.ok ⟨source, id, 0, modified⟩, t')

/-- Abandon a staged copy. -/
def dropStaged (t : Tree) (destination : Path) : Tree := t.discard (staged destination)

/-- Start to copy the file `source`. -/
def openFile (t : Tree) (source destination : Path) : Except CopyFailure Session × Tree :=
  match t.openRead source with
  | .error e => (.error (.atSource e), t)
  | .ok handle => match t.makeParents destination with
    | (.error e, t₁) => (.error (.atDestination e), t₁)
    | (.ok (), t₁) => match startCopy t₁ handle (handleModified t handle) (staged destination) with
      | (.error f, t₂) => (.error f, dropStaged t₂ destination)
      | (.ok copy, t₂) => (.ok (.file copy destination), t₂)

/-- Start to write a buffer. -/
def openBuffer (t : Tree) (data : Bytes) (destination : Path) :
    Except CopyFailure Session × Tree :=
  match t.makeParents destination with
  | (.error e, t₁) => (.error (.atDestination e), t₁)
  | (.ok (), t₁) => match t₁.create (staged destination) with
    | .error e => (.error (.atDestination e), dropStaged t₁ destination)
    | .ok (id, t₂) => (.ok (.buffer data 0 id destination), t₂)

/-- What of a listing is copied: directories and regular files. -/
def pendingOf : Location × Disk.Entry → Option Pending
  | (names, .directory) => some ⟨names, true⟩
  | (names, .file _) => some ⟨names, false⟩
  | (_, .link _) => none

/-- Start to copy the directory `source`. What it holds is listed before anything is written.
A failed listing is told by its meaning, not by its number. -/
def openDirectory (t : Tree) (source destination : Path) : Except CopyFailure Session × Tree :=
  match t.listing source with
  | .error e => (.error ⟨.source, .worded (e = .noEntry) e.text⟩, t)
  | .ok entries => match t.makeParents destination with
    | (.error e, t₁) => (.error (.atDestination e), t₁)
    | (.ok (), t₁) => match t₁.makeDirectories (staged destination) with
      | (.error e, t₂) => (.error (.atDestination e), dropStaged t₂ destination)
      | (.ok (), t₂) => (.ok (.directory source (entries.filterMap pendingOf) none destination), t₂)

/-- Start to copy a payload. -/
def start (t : Tree) (payload : Payload) (destination : Path) :
    Except CopyFailure Session × Tree :=
  match payload with
  | .directory source => openDirectory t source destination
  | .buffer data => openBuffer t data destination
  | .file source => openFile t source destination

/-! ## Copying -/

/-- Read the next chunk of an open copy, of at most `n` bytes, and write it. This fails only if the
source turns out to be a directory. -/
def OpenCopy.step (t : Tree) (n : Nat) (copy : OpenCopy) :
    Except CopyFailure (Nat × OpenCopy × Tree) :=
  match copy.source with
  | .directory _ => .error (.atSource .isDirectory)
  | .file id =>
    let chunk := t.readAt id copy.position n
    if chunk.size = 0 then .ok (0, copy, t)
    else .ok (chunk.size, { copy with position := copy.position + chunk.size },
      t.writeAt copy.target copy.position chunk)

/-- Turn to one entry of the source directory: make a directory at once, open a file for
copying. -/
def openEntry (t : Tree) (source destination : Path) (entry : Pending) :
    Except CopyFailure (Option (OpenCopy × Path)) × Tree :=
  let target := (staged destination).descend entry.names
  if entry.isDirectory then
    match t.makeDirectories target with
    | (.error e, t₁) => (.error (.atDestination e), t₁)
    | (.ok (), t₁) => (.ok none, t₁)
  else
    match t.openRead (source.descend entry.names) with
    | .error e => (.error (.atSource e), t)
    | .ok handle => match t.makeParents target with
      | (.error e, t₁) => (.error (.atDestination e), t₁)
      | (.ok (), t₁) => match startCopy t₁ handle (handleModified t handle) target with
        | (.error f, t₂) => (.error f, t₂)
        | (.ok copy, t₂) => (.ok (some (copy, target)), t₂)

/-- Go through the entries up to the first file, which is opened. -/
def openNext (t : Tree) (source destination : Path) :
    List Pending → Except CopyFailure (Option (OpenCopy × Path)) × List Pending × Tree
  | [] => (.ok none, [], t)
  | entry :: rest => match openEntry t source destination entry with
    | (.error f, t₁) => (.error f, rest, t₁)
    | (.ok none, t₁) => openNext t₁ source destination rest
    | (.ok (some copy), t₁) => (.ok (some copy), rest, t₁)

/-- Move a chunk of the file of a directory that is open, or close it at its end. -/
def copyCurrent (n : Nat) (t : Tree) (source : Path) (pending : List Pending) (copy : OpenCopy)
    (target destination : Path) : Except CopyFailure Chunk × Session × Tree :=
  match OpenCopy.step t n copy with
  | .error f => (.error f, .directory source pending (some (copy, target)) destination, t)
  | .ok (0, _, _) =>
    (.ok (.copied 0), .directory source pending none destination,
      t.orSame (t.setModified target copy.modified))
  | .ok (k, copy', t') =>
    (.ok (.copied k), .directory source pending (some (copy', target)) destination, t')

/-- Move the next chunk, of at most `n` bytes. At the end of each file of a directory one step
moves nothing. Reading from a file or a buffer and writing to the staged copy never fail, since the
disk is ideal; making and opening the entries of a directory may. -/
def copyChunk (n : Nat) (t : Tree) : Session → Except CopyFailure Chunk × Session × Tree
  | .file copy destination => match OpenCopy.step t n copy with
    | .error f => (.error f, .file copy destination, t)
    | .ok (0, _, _) => (.ok .complete, .file copy destination, t)
    | .ok (k, copy', t') => (.ok (.copied k), .file copy' destination, t')
  | .buffer data position target destination =>
    let chunk := data.slice position n
    if data.size ≤ position then (.ok .complete, .buffer data position target destination, t)
    else (.ok (.copied chunk.size),
      .buffer data (position + chunk.size) target destination,
      t.writeAt target position chunk)
  | .directory source pending (some (copy, target)) destination =>
    copyCurrent n t source pending copy target destination
  | .directory source pending none destination =>
    match openNext t source destination pending with
    | (.error f, rest, t₁) => (.error f, .directory source rest none destination, t₁)
    | (.ok none, rest, t₁) => (.ok .complete, .directory source rest none destination, t₁)
    | (.ok (some (copy, target)), rest, t₁) =>
      copyCurrent n t₁ source rest copy target destination

/-! ## Closing -/

/-- Give up a session: its staged copy is removed. -/
def abandon (t : Tree) (s : Session) : Tree := dropStaged t s.destination

/-- The tree as it is just before the staged copy is renamed: the copy of a file takes over
the time at which its source was modified, if that can be set. -/
def timed (t : Tree) : Session → Tree
  | .file copy destination => t.orSame (t.setModified (staged destination) copy.modified)
  | .buffer _ _ _ _ => t
  | .directory _ _ _ _ => t

/-- Move the staged copy to the destination. If that fails the staged copy is removed. The staged
copy of a file is synced first, which never fails and changes nothing on an ideal disk. -/
def commit (t : Tree) (s : Session) : Except CopyFailure Unit × Tree :=
  let t' := s.timed t
  match t'.rename (staged s.destination) s.destination with
  | .ok t'' => (.ok (), t'')
  | .error e => (.error (.atDestination e), s.abandon t')

end Session

end Haulage
