import Haulage.Item.Basic
import Haulage.Storage.Manager

/-!
# Checks of an item

What is looked at before an item is run: whether its source can be read, and
whether its destination can be written. A check that fails says why.
-/

namespace Haulage

open Disk (FileError Path Tree)

/-- Why an item is refused, or why a step around its transfer failed. -/
inductive ItemError where
  | sourceInaccessible (source : Path) (e : FileError)
  | sourceNotDirectory (source : Path)
  | sourceNotFile (source : Path)
  | noDestination
  | sameEnds (source : Path)
  | insideSource (destination source : Path)
  | destinationIsDirectory (destination : Path)
  | directoryInaccessible (directory : Path) (e : FileError)
  | notDirectory (directory : Path)
  | noStorage (label : String) (e : StorageError)
  | sourceKept (source : Path) (e : FileError)
  | sharedMedium (p : Priority)
  | mediumUnusable (p : Priority)
  deriving Repr, DecidableEq

namespace ItemError

/-- The wording of an error. -/
def message : ItemError → String
  | .sourceInaccessible source _ => "source " ++ source.text ++ " is not accessible"
  | .sourceNotDirectory source => "source " ++ source.text ++ " is not a directory"
  | .sourceNotFile source => "source " ++ source.text ++ " is not a regular file"
  | .noDestination => "destination has not been allocated"
  | .sameEnds source => "source and destination are both " ++ source.text
  | .insideSource destination source =>
    "destination " ++ destination.text ++ " lies inside source " ++ source.text
  | .destinationIsDirectory destination =>
    "destination " ++ destination.text ++ " is an existing directory"
  | .directoryInaccessible directory _ =>
    "destination directory " ++ directory.text ++ " is not accessible"
  | .notDirectory directory => directory.text ++ " is not a directory"
  | .noStorage label _ => "no storage for class " ++ label
  | .sourceKept source _ => "failed to remove " ++ source.text
  | .sharedMedium p => "source and destination share medium " ++ p.text
  | .mediumUnusable p => "destination medium " ++ p.text ++ " is not usable"

/-- The wordings of what lies behind an error. -/
def causes : ItemError → List String
  | .sourceInaccessible _ e => [e.text]
  | .directoryInaccessible _ e => [e.text]
  | .noStorage _ e => [e.text]
  | .sourceKept _ e => [e.text]
  | _ => []

end ItemError

namespace Item

/-- Can the source be read, and is it of the kind that the payload asks for? -/
def checkSource (t : Tree) (i : Item) : Except ItemError Unit :=
  match i.payload with
  | .buffer _ => .ok ()
  | .file source => match t.status source with
    | .error e => .error (.sourceInaccessible source e)
    | .ok (.file _) => .ok ()
    | .ok _ => .error (.sourceNotFile source)
  | .directory source => match t.status source with
    | .error e => .error (.sourceInaccessible source e)
    | .ok .directory => .ok ()
    | .ok _ => .error (.sourceNotDirectory source)

/-- Does the destination keep clear of the source? Only the paths as written are compared. -/
def checkApart (payload : Payload) (destination : Path) : Except ItemError Unit :=
  match payload with
  | .buffer _ => .ok ()
  | .file source => if destination.same source then .error (.sameEnds source) else .ok ()
  | .directory source =>
    if destination.same source then .error (.sameEnds source)
    else if source.leads destination then .error (.insideSource destination source)
    else .ok ()

/-- Is there an existing directory around the destination? -/
def checkHolder (t : Tree) (destination : Path) : Except ItemError Unit :=
  match destination.parent? with
  | none => .ok ()
  | some directory =>
    if directory.text = "" then .ok ()
    else match t.status directory with
      | .error e => .error (.directoryInaccessible directory e)
      | .ok .directory => .ok ()
      | .ok _ => .error (.notDirectory directory)

/-- Can the destination be written? -/
def checkDestination (t : Tree) (i : Item) : Except ItemError Unit :=
  match i.destination with
  | none => .error .noDestination
  | some destination => match checkApart i.payload destination with
    | .error e => .error e
    | .ok () =>
      if t.isDirectory destination then .error (.destinationIsDirectory destination)
      else checkHolder t destination

/-- Have a destination allocated, if the item leaves it to the storage manager. -/
def prepare {σ : Type} (m : StorageManager σ) (s : σ) (t : Tree) (i : Item) :
    Except ItemError Unit × Item × σ × Tree :=
  match i.wish with
  | none => (.ok (), i, s, t)
  | some wish => match m.allocate s t wish.family wish.label i.sourcePriority with
    | (.error e, s', t') => (.error (.noStorage wish.label e), i, s', t')
    | (.ok a, s', t') =>
      (.ok (),
        { i with
          destination := some (a.directory.join wish.name)
          destinationPriority := a.priority }, s', t')

/-- Remove the source of an item that was to be moved and is done. -/
def completeMove (t : Tree) (i : Item) : Except ItemError Unit × Tree :=
  if !i.removesSource || i.state ≠ .done then (.ok (), t)
  else match i.payload with
    | .buffer _ => (.ok (), t)
    | .file source => match t.removeFile source with
      | .ok t' => (.ok (), t')
      | .error e => (.error (.sourceKept source e), t)
    | .directory source => match t.removeTree source with
      | (.ok (), t') => (.ok (), t')
      | (.error e, t') => (.error (.sourceKept source e), t')

end Item

end Haulage
