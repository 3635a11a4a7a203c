import Haulage.Disk.Operations
import Haulage.Media

/-!
# The storage manager

The storage manager owns the media. It gives out a directory to an item that
has no destination of its own, and knows which media can be used. The pool only
sees the operations collected in `StorageManager`; what the manager keeps in
between is a type of its own choice.
-/

namespace Haulage

open Disk (FileError Path Tree)

/-- Why no directory could be given out. -/
inductive StorageError where
  /-- No medium can take output of this storage class. -/
  | noMedium (label : String)
  /-- The directory could not be created. -/
  | disk (e : FileError)
  deriving Repr, DecidableEq

/-- The wording of an error. -/
def StorageError.text : StorageError → String
  | .noMedium label => "no usable medium for class " ++ label
  | .disk e => e.text

/-- A directory given out for output, and the medium it lies on. -/
structure Allocation where
  directory : Path
  priority : Priority
  deriving Repr, DecidableEq

/-- The operations of a storage manager that keeps a state of type `σ`. -/
structure StorageManager (σ : Type) where
  /-- Must a request for this storage class wait? -/
  busy : σ → String → Bool
  /-- Give out a directory for a storage class, on a medium of the wanted family and never on
  the one the source lies on. -/
  allocate : σ → Tree → MediaFamily → String → Priority → Except StorageError Allocation × σ × Tree
  /-- Can the medium of this family and priority be used? -/
  usable : σ → MediaFamily → Priority → Bool × σ

end Haulage
