import Haulage.Disk.Operations

/-!
# Edits

Changes that somebody else makes to the file tree, before or while transfers
run. An edit that cannot be carried out leaves the tree as far as it came.
-/

namespace Haulage.Disk

/-- A change made to the file tree from outside. -/
inductive Edit where
  /-- Create a directory and the way to it. -/
  | makeDirectory (p : Path)
  /-- Write a file anew, creating the way to it. -/
  | write (p : Path) (bytes : Bytes)
  /-- Remove a file, a link or a whole directory. -/
  | remove (p : Path)
  /-- Rename an entry. -/
  | rename (p q : Path)
  /-- Create a symbolic link. -/
  | link (p target : Path)
  /-- Set a modification time. -/
  | setModified (p : Path) (s : Stamp)
  deriving Repr, DecidableEq

namespace Tree

/-- Write the file `p` anew. -/
def writeFile (t : Tree) (p : Path) (bytes : Bytes) : Except FileError Tree :=
  match t.create p with
  | .error e => .error e
  | .ok (id, t') => .ok (t'.writeAt id 0 bytes)

/-- The tree after an edit. -/
def edit (t : Tree) : Edit → Tree
  | .makeDirectory p => (t.makeDirectories p).2
  | .write p bytes =>
    let t' := (t.makeParents p).2
    t'.orSame (t'.writeFile p bytes)
  | .remove p => t.discard p
  | .rename p q => t.orSame (t.rename p q)
  | .link p target => t.orSame (t.makeLink p target)
  | .setModified p s => t.orSame (t.setModified p (some s))

/-- The tree after a list of edits. -/
def edits (t : Tree) (es : List Edit) : Tree := es.foldl edit t

/-- Edits are made in their order. -/
theorem edits_append (t : Tree) (es es' : List Edit) :
    t.edits (es ++ es') = (t.edits es).edits es' :=
  List.foldl_append

end Tree

end Haulage.Disk
