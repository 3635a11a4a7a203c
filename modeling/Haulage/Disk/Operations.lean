import Haulage.Disk.Walk

/-!
# Operations on a file tree

The operations that a process performs by path. One that changes the tree in a
single stroke answers the new tree or an error; one that can fail half-way
answers the tree it leaves in any case.
-/

namespace Haulage.Disk

/-- An opened file, or a directory opened in its place. -/
inductive Handle where
  | file (id : Nat)
  /-- Of a directory only the time is known at which it had been modified when it was opened. -/
  | directory (modified : Option Stamp)
  deriving Repr, DecidableEq

namespace Tree

/-! ## Looking -/

/-- What stands where `p` leads. -/
def status (t : Tree) (p : Path) : Except FileError Node :=
  match t.resolve .reach p with
  | .error e => .error e
  | .ok l => match t.node? l with
    | some n => .ok n
    | none => .error .noEntry

/-- What stands at the entry `p` itself, a final link not being followed. -/
def linkStatus (t : Tree) (p : Path) : Except FileError Node :=
  match t.resolve .entry p with
  | .error e => .error e
  | .ok l => match t.node? l with
    | some n => .ok n
    | none => .error .noEntry

/-- Does `p` lead to a directory? -/
def isDirectory (t : Tree) (p : Path) : Bool :=
  match t.status p with
  | .ok .directory => true
  | _ => false

/-- Does `p` lead anywhere? -/
def leadsSomewhere (t : Tree) (p : Path) : Bool :=
  match t.status p with
  | .ok _ => true
  | .error _ => false

/-- The time at which what `p` leads to was modified, as far as it is known. -/
def modified? (t : Tree) (p : Path) : Option Stamp :=
  match t.resolve .reach p with
  | .ok l => t.modifiedAt? l
  | .error _ => none

/-! ## Opening, reading and writing -/

/-- Open what `p` leads to for reading. A directory can be opened, but not read. -/
def openRead (t : Tree) (p : Path) : Except FileError Handle :=
  match t.resolve .reach p with
  | .error e => .error e
  | .ok l => match t.lookup l with
    | some (.file id) => .ok (.file id)
    | some _ => .ok (.directory (t.modifiedAt? l))
    | none => .error .noEntry

/-- Open the file that `p` leads to for writing, empty it, and create it if it is missing. -/
def create (t : Tree) (p : Path) : Except FileError (Nat × Tree) :=
  match t.place .create p with
  | .error e => .error e
  | .ok (.vacant l) => .ok (t.addFile l)
  | .ok (.found l) => match t.lookup l with
    | some (.file id) => .ok (id, t.setData id ⟨.empty, none⟩)
    | _ => .error .isDirectory

/-- The bytes of the file that `p` leads to. -/
def readFile (t : Tree) (p : Path) : Except FileError Bytes :=
  match t.openRead p with
  | .error e => .error e
  | .ok (.directory _) => .error .isDirectory
  | .ok (.file id) => .ok (t.data id).bytes

/-- Set the modification time of what `p` leads to, `none` standing for a time that is not
known. -/
def setModified (t : Tree) (p : Path) (s : Option Stamp) : Except FileError Tree :=
  match t.resolve .reach p with
  | .error e => .error e
  | .ok l => match t.lookup l with
    | some (.file id) => .ok (t.setData id ⟨(t.data id).bytes, s⟩)
    | some _ => .ok (t.setStamp l s)
    | none => .error .noEntry

/-! ## Directories -/

/-- Create the directory `p` in an existing one. -/
def makeDirectory (t : Tree) (p : Path) : Except FileError Tree :=
  match t.holder p with
  | .error e => .error e
  | .ok dir => match lastStep p with
    | .name n =>
      if n.utf8ByteSize > maxName then .error .nameTooLong
      else match t.lookup (dir ++ [n]) with
        | some _ => .error .alreadyExists
        | none => .ok (t.insert (dir ++ [n]) .directory)
    | _ => .error .alreadyExists

/-- Create the directory `p`, after its parents if the way to it is missing; at most `n` of them
are gone up. A directory that exists already is as good as a new one. -/
def makeChain (t : Tree) : Nat → Path → Except FileError Unit × Tree
  | 0, _ => (.error .noEntry, t)
  | n + 1, p =>
    if p.text = "" then (.ok (), t)
    else match t.makeDirectory p with
      | .ok t' => (.ok (), t')
      | .error e =>
        if e = .noEntry then
          match p.parent? with
          | none => (.error .noEntry, t)
          | some parent => match t.makeChain n parent with
            | (.error e', t') => (.error e', t')
            | (.ok (), t') => match t'.makeDirectory p with
              | .ok t'' => (.ok (), t'')
              | .error e' => if t'.isDirectory p then (.ok (), t') else (.error e', t')
        else if t.isDirectory p then (.ok (), t)
        else (.error e, t)

/-- Create the directory `p` and whatever is missing on the way to it. A parent has fewer
characters, so that their number bounds how often a parent is gone up to. -/
def makeDirectories (t : Tree) (p : Path) : Except FileError Unit × Tree :=
  t.makeChain (p.text.length + 1) p

/-- Create what is missing on the way to `p`, without `p` itself. -/
def makeParents (t : Tree) (p : Path) : Except FileError Unit × Tree :=
  match p.parent? with
  | none => (.ok (), t)
  | some parent => t.makeDirectories parent

/-! ## Links, removal and renaming -/

/-- Create the symbolic link `p`. -/
def makeLink (t : Tree) (p target : Path) : Except FileError Tree :=
  match target.refusal? with
  | some e => .error e
  | none => match t.holder p with
    | .error e => .error e
    | .ok dir => match lastStep p with
      | .name n =>
        if n.utf8ByteSize > maxName then .error .nameTooLong
        else match t.lookup (dir ++ [n]) with
          | some _ => .error .alreadyExists
          | none =>
            if p.endsWithSlash then .error .noEntry
            else .ok (t.insert (dir ++ [n]) (.link target))
      | _ => .error .alreadyExists

/-- Remove the file or link `p`. -/
def removeFile (t : Tree) (p : Path) : Except FileError Tree :=
  match t.holder p with
  | .error e => .error e
  | .ok dir => match lastStep p with
    | .name n =>
      if n.utf8ByteSize > maxName then .error .nameTooLong
      else match t.lookup (dir ++ [n]) with
        | none => .error .noEntry
        | some .directory => .error .isDirectory
        | some _ => if p.endsWithSlash then .error .notDirectory else .ok (t.erase (dir ++ [n]))
    | _ => .error .isDirectory

/-- Remove the empty directory `p`. -/
def removeDirectory (t : Tree) (p : Path) : Except FileError Tree :=
  match t.holder p with
  | .error e => .error e
  | .ok dir => match lastStep p with
    | .name n =>
      if n.utf8ByteSize > maxName then .error .nameTooLong
      else match t.lookup (dir ++ [n]) with
        | none => .error .noEntry
        | some .directory =>
          if t.hasBelow (dir ++ [n]) then .error .notEmpty else .ok (t.erase (dir ++ [n]))
        | some _ => .error .notDirectory
    | .here => .error .invalid
    | .up => .error .notEmpty
    | .none => .error .busy

/-- Remove the directory `p` with all that is below it. A link is removed itself, and what it
leads to stays. If `p` leads through what was below the directory, it leads nowhere by the time
that the directory itself is to be removed; the emptied directory then stays. -/
def removeTree (t : Tree) (p : Path) : Except FileError Unit × Tree :=
  match t.resolve .entry p with
  | .error e => (.error e, t)
  | .ok l => match t.lookup l with
    | some (.link _) => match t.removeFile p with
      | .ok t' => (.ok (), t')
      | .error e => (.error e, t)
    | some .directory => match (t.eraseBelow l).removeDirectory p with
      | .ok t' => (.ok (), t')
      | .error e => (if e = .noEntry then .ok () else .error e, t.eraseBelow l)
    | some (.file _) => (.error .notDirectory, t)
    | none => (.error .noEntry, t)

/-- The tree if the operation succeeded, and the one before otherwise. -/
def orSame (t : Tree) (r : Except FileError Tree) : Tree :=
  match r with
  | .ok t' => t'
  | .error _ => t

/-- Remove whatever stands at the entry `p`, if anything does. -/
def discard (t : Tree) (p : Path) : Tree :=
  match t.linkStatus p with
  | .ok .directory => (t.removeTree p).2
  | .ok _ => t.orSame (t.removeFile p)
  | .error _ => t

/-- Move the entry at `l` to `m`, where both lie in existing directories. A file or link
replaces a file or link, a directory an empty directory. `slash` says that one of the two was
named as a directory. -/
def moveEntry (t : Tree) (l m : Location) (slash : Bool) : Except FileError Tree :=
  match t.lookup l with
  | none => .error .noEntry
  | some e =>
    if e ≠ .directory && slash then .error .notDirectory
    else if l.isPrefixOf m.dropLast then .error .invalid
    else if m.isPrefixOf l.dropLast then .error .notEmpty
    else if l = m then .ok t
    else match t.lookup m with
      | none => .ok (t.relocate l m)
      | some .directory =>
        if e ≠ .directory then .error .isDirectory
        else if t.hasBelow m then .error .notEmpty
        else .ok (t.relocate l m)
      | some _ => if e = .directory then .error .notDirectory else .ok (t.relocate l m)

/-- Rename the entry `p` to `q`. -/
def rename (t : Tree) (p q : Path) : Except FileError Tree :=
  match t.holder p, t.holder q with
  | .error e, _ => .error e
  | .ok _, .error e => .error e
  | .ok pd, .ok qd => match lastStep p, lastStep q with
    | .name pn, .name qn =>
      if pn.utf8ByteSize > maxName then .error .nameTooLong
      else if (t.lookup (pd ++ [pn])).isNone then .error .noEntry
      else if qn.utf8ByteSize > maxName then .error .nameTooLong
      else t.moveEntry (pd ++ [pn]) (qd ++ [qn]) (p.endsWithSlash || q.endsWithSlash)
    | _, _ => .error .busy

/-! ## Listings -/

/-- The order of a listing: a directory before its entries, siblings by the code points of
their names. -/
def listedBefore (a b : Location × Entry) : Bool := !decide (b.1 < a.1)

/-- Does the listing of the directory `p` have to open a directory whose path is too long? -/
def listsTooFar (p : Path) (entries : List (Location × Entry)) : Bool :=
  entries.any fun x => x.2 = .directory && (p.descend x.1).isTooLong

/-- All entries below the directory that `p` leads to, each with its names from there on. A
file has none. -/
def listing (t : Tree) (p : Path) : Except FileError (List (Location × Entry)) :=
  match t.linkStatus p with
  | .error e => .error e
  | .ok _ => match t.resolve .reach p with
    | .error e => .error e
    | .ok l => match t.lookup l with
      | some .directory =>
        if listsTooFar p (t.entriesBelow l) then .error .nameTooLong
        else .ok ((t.entriesBelow l).mergeSort listedBefore)
      | _ => .ok []

end Tree

end Haulage.Disk
