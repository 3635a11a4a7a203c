import Haulage.Disk.Error
import Haulage.Disk.Tree

/-!
# Walking a path

A path is walked step by step from the root or from the working directory. A
symbolic link on the way is replaced by its target; at most `maxLinks` links are
replaced in one walk. Only the last step may name an entry that does not exist.

A separator at the end of a path shows as an empty last step: what comes before
it must be a directory.
-/

namespace Haulage.Disk

/-- The longest name of an entry, in bytes. -/
def maxName : Nat := 255

/-- The length in bytes from which on a path is refused. -/
def maxPath : Nat := 4096

/-- The number of symbolic links that one walk may replace. -/
def maxLinks : Nat := 40

namespace Path

/-- The segments that are not empty. -/
def names (p : Path) : List String := p.segments.filter (· ≠ "")

/-- Does the path end with a separator, after some name? -/
def endsWithSlash (p : Path) : Bool := p.names ≠ [] && p.segments.getLast? = some ""

/-- The steps of a walk along the path. -/
def steps (p : Path) : List String := if p.endsWithSlash then p.names ++ [""] else p.names

/-- Does the path contain the character that no name of an entry may contain? -/
def hasNul (p : Path) : Bool := p.text.toList.contains '\x00'

/-- Is the path longer than a walk admits? -/
def isTooLong (p : Path) : Bool := p.text.utf8ByteSize ≥ maxPath

/-- Why no walk along the path is begun, if there is a reason in the path alone. -/
def refusal? (p : Path) : Option FileError :=
  if p.hasNul then some .nulInPath
  else if p.text = "" then some .noEntry
  else if p.isTooLong then some .nameTooLong
  else none

end Path

/-- What a walk is for. -/
inductive Aim where
  /-- To reach what the path finally leads to. -/
  | reach
  /-- To reach the entry itself, a final link included. -/
  | entry
  /-- To open a file that may have to be created. -/
  | create
  deriving Repr, DecidableEq

/-- Where a walk ends. -/
inductive Place where
  /-- At an entry. -/
  | found (l : Location)
  /-- At a name that is free in an existing directory. -/
  | vacant (l : Location)
  deriving Repr, DecidableEq

/-- How a walk goes on that met a link with the given target in the given directory, with the
given steps still to go. -/
abbrev Detour := Location → Path → List String → Except FileError Place

namespace Tree

/-- Walk on from the directory whose names are `trail`, innermost first, and whose branch is `b`,
leaving it to `detour` what happens at a link. -/
def advanceFrom (t : Tree) (aim : Aim) (detour : Detour) :
    List String → Branch Entry → List String → Except FileError Place
  | trail, _, [] => .ok (.found trail.reverse)
  | trail, b, step :: rest =>
    if step = "" || step = "." then t.advanceFrom aim detour trail b rest
    else if step = ".." then
      t.advanceFrom aim detour trail.tail (t.top.sub trail.tail.reverse) rest
    else if aim = .create && rest = [""] then .error .isDirectory
    else if step.utf8ByteSize > maxName then .error .nameTooLong
    else
      let next := b.below.child step
      match next.value with
      | none => if rest.isEmpty then .ok (.vacant (step :: trail).reverse) else .error .noEntry
      | some .directory => t.advanceFrom aim detour (step :: trail) next rest
      | some (.file _) =>
        if rest.isEmpty then .ok (.found (step :: trail).reverse) else .error .notDirectory
      | some (.link target) =>
        if rest.isEmpty && aim = .entry then .ok (.found (step :: trail).reverse)
        else detour trail.reverse target rest

/-- Walk from the directory `here`, leaving it to `detour` what happens at a link. -/
def advance (t : Tree) (aim : Aim) (detour : Detour) (here : Location) (steps : List String) :
    Except FileError Place :=
  t.advanceFrom aim detour here.reverse (t.top.sub here) steps

/-- A walk without steps ends where it starts. -/
@[simp] theorem advance_nil (t : Tree) (aim : Aim) (detour : Detour) (here : Location) :
    t.advance aim detour here [] = .ok (.found here) := by
  simp [advance, advanceFrom]

/-- How a walk goes on depends on the entry to which its first step leads. -/
theorem advance_cons (t : Tree) (aim : Aim) (detour : Detour) (here : Location) (step : String)
    (rest : List String) :
    t.advance aim detour here (step :: rest) =
      if step = "" || step = "." then t.advance aim detour here rest
      else if step = ".." then t.advance aim detour here.dropLast rest
      else if aim = .create && rest = [""] then .error .isDirectory
      else if step.utf8ByteSize > maxName then .error .nameTooLong
      else match t.lookup (here ++ [step]) with
        | none => if rest.isEmpty then .ok (.vacant (here ++ [step])) else .error .noEntry
        | some .directory => t.advance aim detour (here ++ [step]) rest
        | some (.file _) =>
          if rest.isEmpty then .ok (.found (here ++ [step])) else .error .notDirectory
        | some (.link target) =>
          if rest.isEmpty && aim = .entry then .ok (.found (here ++ [step]))
          else detour here target rest := by
  have hnext : t.top.sub (here ++ [step]) = (t.top.sub here).below.child step :=
    Branch.sub_append _ _ _
  simp only [advance, advanceFrom, lookup, hnext, List.tail_reverse, List.reverse_reverse,
    List.reverse_cons, List.reverse_append, List.reverse_nil, List.nil_append, List.cons_append]

/-- Where a walk along `p` starts if it is met in the directory `here`. -/
def origin (here : Location) (p : Path) : Location := if p.isAbsolute then [] else here

/-- Walk from a directory, replacing at most the given number of links. -/
def walk (t : Tree) (aim : Aim) : Nat → Location → List String → Except FileError Place
  | 0 => t.advance aim fun _ _ _ => .error .tooManyLinks
  | links + 1 => t.advance aim fun here target rest =>
      t.walk aim links (origin here target) (target.steps ++ rest)

/-- Where the path `p` leads. -/
def place (t : Tree) (aim : Aim) (p : Path) : Except FileError Place :=
  match p.refusal? with
  | some e => .error e
  | none => t.walk aim maxLinks (origin t.home p) p.steps

/-- The existing entry that `p` leads to. -/
def resolve (t : Tree) (aim : Aim) (p : Path) : Except FileError Location :=
  match t.place aim p with
  | .ok (.found l) => .ok l
  | .ok (.vacant _) => .error .noEntry
  | .error e => .error e

/-- The last step of a path, as far as it can be acted on. -/
inductive LastStep where
  | name (n : String)
  | here
  | up
  /-- The path has no steps: it is the root. -/
  | none
  deriving Repr, DecidableEq

/-- The last step of `p`. -/
def lastStep (p : Path) : LastStep :=
  match p.names.getLast? with
  | .none => .none
  | .some "." => .here
  | .some ".." => .up
  | .some n => .name n

/-- The directory in which the last step of `p` is taken. -/
def holder (t : Tree) (p : Path) : Except FileError Location :=
  match p.refusal? with
  | some e => .error e
  | none => match t.walk .reach maxLinks (origin t.home p) (p.names.dropLast ++ [""]) with
    | .ok (.found l) => .ok l
    | .ok (.vacant _) => .error .noEntry
    | .error e => .error e

end Tree

end Haulage.Disk
