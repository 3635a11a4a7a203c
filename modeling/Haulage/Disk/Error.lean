/-!
# Errors of file operations

The operating system says with a number why it refuses an operation; the numbers
named here are those that the operations on a file tree can answer with, and
those that say that a medium is gone. A path that contains a NUL character is
refused before the operating system is asked, because such a character would end
the path there.
-/

namespace Haulage.Disk

/-- Why an operation on files is refused. -/
inductive FileError where
  /-- The operating system refuses it, with this number. -/
  | number (code : Int)
  /-- The path contains a NUL character. -/
  | nulInPath
  deriving Repr, DecidableEq, Inhabited

namespace FileError

/-- There is no such file or directory. -/
def noEntry : FileError := .number 2

/-- The device failed. -/
def deviceFailure : FileError := .number 5

/-- There is no such device or address. -/
def noAddress : FileError := .number 6

/-- The entry is in use. -/
def busy : FileError := .number 16

/-- The entry exists already. -/
def alreadyExists : FileError := .number 17

/-- There is no such device. -/
def noDevice : FileError := .number 19

/-- The entry is not a directory. -/
def notDirectory : FileError := .number 20

/-- The entry is a directory. -/
def isDirectory : FileError := .number 21

/-- The operation makes no sense for these arguments. -/
def invalid : FileError := .number 22

/-- The file system can only be read. -/
def readOnly : FileError := .number 30

/-- A name, or the whole path, is too long. -/
def nameTooLong : FileError := .number 36

/-- The directory has entries. -/
def notEmpty : FileError := .number 39

/-- Too many symbolic links were met on the way. -/
def tooManyLinks : FileError := .number 40

/-- The handle refers to a file that the server no longer knows. -/
def stale : FileError := .number 116

/-- The wording of an error: a number stands for itself. -/
def text : FileError → String
  | .number code => "os error " ++ toString code
  | .nulInPath => "file name contained an unexpected NUL byte"

end FileError

end Haulage.Disk
