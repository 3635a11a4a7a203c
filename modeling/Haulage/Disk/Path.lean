/-!
# Paths

A path keeps the text it was written as, and that text is what is displayed.
Two paths are compared by their components, so that repeated separators, inner
dots and a trailing separator do not count, while `..` does.
-/

namespace Haulage.Disk

/-- The stretches between the separators of a text, empty ones included. -/
def pieces : List Char → List (List Char)
  | [] => [[]]
  | c :: cs =>
    if c = '/' then [] :: pieces cs
    else match pieces cs with
      | [] => [[c]]
      | w :: ws => (c :: w) :: ws

theorem pieces_ne_nil (cs : List Char) : pieces cs ≠ [] := by
  cases cs with
  | nil => simp [pieces]
  | cons c cs =>
    unfold pieces
    split
    · simp
    · split <;> simp

/-- A path, as it was written. -/
structure Path where
  text : String
  deriving Repr, DecidableEq, Inhabited

/-- One step of a path as it takes part in comparisons. -/
inductive Component where
  /-- The root directory. -/
  | root
  /-- A leading dot. -/
  | here
  /-- The parent directory. -/
  | up
  /-- An entry of the directory reached so far. -/
  | name (n : String)
  deriving Repr, DecidableEq

namespace Path

/-- The stretches between separators, as names. -/
def segments (p : Path) : List String := (pieces p.text.toList).map String.ofList

/-- Does the path start at the root? -/
def isAbsolute (p : Path) : Bool := p.text.toList.head? = some '/'

/-- Does the path start with a dot that stands for the working directory? -/
def startsHere (p : Path) : Bool := p.segments.head? = some "."

/-- The segments that name something: neither empty nor a dot. -/
def proper (s : String) : Bool := s ≠ "" && s ≠ "."

/-- The component that a proper segment stands for. -/
def component (s : String) : Component := if s = ".." then .up else .name s

/-- The components by which paths are compared. -/
def components (p : Path) : List Component :=
  let steps := (p.segments.filter proper).map component
  if p.isAbsolute then .root :: steps else if p.startsHere then .here :: steps else steps

/-- Are the two paths equal, component by component? -/
def same (p q : Path) : Bool := p.components = q.components

/-- Do the components of `q` begin with those of `p`? -/
def leads (p q : Path) : Bool := p.components.isPrefixOf q.components

/-- The text of a run of segments. -/
def ofSegments (ss : List String) : Path := ⟨String.intercalate "/" ss⟩

/-- The path without its last component, and without what stands idle before it. The root
and the empty path have none. -/
def parent? (p : Path) : Option Path :=
  let anchor := if p.isAbsolute || p.startsHere then 1 else 0
  let lead := p.segments.take anchor
  match (p.segments.drop anchor).reverse.dropWhile (fun s => !proper s) with
  | [] => if p.startsHere then some ⟨""⟩ else none
  | _ :: rest =>
    match (rest.dropWhile (fun s => !proper s)).reverse with
    | [] => if p.isAbsolute then some ⟨"/"⟩ else some (ofSegments lead)
    | body => some (ofSegments (lead ++ body))

/-- The path `q` taken from the directory `p`. An absolute `q` stands for itself. -/
def join (p q : Path) : Path :=
  if q.isAbsolute then q
  else if p.text = "" || p.text.toList.getLast? = some '/' then ⟨p.text ++ q.text⟩
  else ⟨p.text ++ "/" ++ q.text⟩

/-- The path from the directory `p` along some names. -/
def descend (p : Path) (names : List String) : Path := p.join (.ofSegments names)

/-- The path whose text continues with `s`. -/
def append (p : Path) (s : String) : Path := ⟨p.text ++ s⟩

end Path

end Haulage.Disk
