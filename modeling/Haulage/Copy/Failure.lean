import Haulage.Disk.Error

/-!
# Failures of a copy

A copy fails on one of its two sides. What matters for the item that is being
moved is whether the medium on that side is gone, in which case another attempt
may succeed elsewhere, or whether the failure is final.
-/

namespace Haulage

open Disk (FileError)

/-- The end of a copy at which something happened. -/
inductive Side where
  | source
  | destination
  deriving Repr, DecidableEq

/-- The word for a side. -/
def Side.text : Side → String
  | .source => "source"
  | .destination => "destination"

/-- An error of reading or writing. -/
inductive IoError where
  /-- An error of an operation on files. -/
  | disk (e : FileError)
  /-- An error with a wording of its own, of which it is known whether it says that something
  is missing. -/
  | worded (missing : Bool) (wording : String)
  deriving Repr, DecidableEq

namespace IoError

/-- The wording of an error. -/
def text : IoError → String
  | .disk e => e.text
  | .worded _ wording => wording

/-- The errors of file operations that say that a medium is gone. -/
def goneErrors : List FileError :=
  [.noDevice, .noAddress, .deviceFailure, .noEntry, .readOnly, .stale]

/-- Does the error say that the medium under the path is gone? -/
def mediumGone : IoError → Bool
  | .disk e => e ∈ goneErrors
  | .worded missing _ => missing

end IoError

/-- A failed step of a copy. -/
structure CopyFailure where
  side : Side
  error : IoError
  deriving Repr, DecidableEq

namespace CopyFailure

/-- The wording of a failure. -/
def text (f : CopyFailure) : String := f.side.text ++ " error: " ++ f.error.text

/-- Does the failure say that the medium on its side is gone? -/
def mediumGone (f : CopyFailure) : Bool := f.error.mediumGone

/-- A failure at the source. -/
def atSource (e : FileError) : CopyFailure := ⟨.source, .disk e⟩

/-- A failure at the destination. -/
def atDestination (e : FileError) : CopyFailure := ⟨.destination, .disk e⟩

end CopyFailure

end Haulage
