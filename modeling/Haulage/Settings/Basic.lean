import Haulage.Disk.Operations
import Haulage.Settings.Document

/-!
# Settings of the pool

The settings say how many workers there are, how large their buffers are and how
often an item may be put back. They are read from a settings document, which may
name each of them at most once and nothing else.
-/

namespace Haulage

open Disk (Path Tree)

/-- The settings of a pool, as a document gives them. -/
structure Settings where
  /-- The number of workers; if it is left open the machine decides. -/
  workers : Option Nat
  /-- The size of a transfer buffer; if it is left open the memory decides. -/
  bufferSize : Option Nat
  /-- How often one item may be put back for another attempt. -/
  maxResubmits : Nat
  deriving Repr, DecidableEq

/-- Why there are no settings. -/
inductive SettingsError where
  /-- The document has not the right form. -/
  | malformed
  /-- The document asks for no workers at all. -/
  | noWorkers
  /-- The file cannot be read. -/
  | unreadable (file : Path) (why : String)
  /-- The file does not hold valid settings. -/
  | invalid (file : Path) (why : SettingsError)
  deriving Repr, DecidableEq

namespace SettingsError

/-- The wordings of an error, outermost first. -/
def texts : SettingsError → List String
  | .malformed => ["failed to parse workshop config", "toml"]
  | .noWorkers => ["workers must be at least 1"]
  | .unreadable file why => ["failed to read config file: " ++ file.text, why]
  | .invalid file why => ("invalid config file: " ++ file.text) :: why.texts

end SettingsError

namespace Settings

/-- The settings that hold where nothing is said. -/
def defaults : Settings := ⟨none, none, 3⟩

/-- The least size of a buffer that settings can ask for. -/
def leastBuffer : Nat := 4096

/-- The greatest value of each setting. -/
def greatest? : String → Option Nat
  | "workers" => some (UInt64.size - 1)
  | "buffer_size" => some (UInt64.size - 1)
  | "max_resubmits" => some 255
  | _ => none

/-- Is there such a setting, and can it have this value? -/
def admits (assignment : String × Int) : Bool :=
  match greatest? assignment.1 with
  | none => false
  | some g => 0 ≤ assignment.2 && assignment.2 ≤ g

/-- The settings that a list of assignments makes. -/
def ofAssignments (as : List (String × Int)) : Option Settings :=
  let value (name : String) : Option Nat := (as.lookup name).map Int.toNat
  if as.all admits && decide (as.map Prod.fst).Nodup then
    some ⟨value "workers", value "buffer_size", (value "max_resubmits").getD defaults.maxResubmits⟩
  else none

/-- The settings, if they make sense. A buffer that is too small is enlarged. -/
def validated (s : Settings) : Except SettingsError Settings :=
  if s.workers = some 0 then .error .noWorkers
  else .ok { s with bufferSize := s.bufferSize.map (max leastBuffer) }

/-- The settings that a document gives. -/
def ofText (text : String) : Except SettingsError Settings :=
  match (Document.read text).bind ofAssignments with
  | none => .error .malformed
  | some s => s.validated

/-- The settings in a file. -/
def load (t : Tree) (file : Path) : Except SettingsError Settings :=
  match t.readFile file with
  | .error e => .error (.unreadable file e.text)
  | .ok bytes => match String.fromUTF8? bytes with
    | none => .error (.unreadable file "stream did not contain valid UTF-8")
    | some text => match ofText text with
      | .error why => .error (.invalid file why)
      | .ok s => .ok s

end Settings

/-- What decides where settings are looked for. -/
structure SettingsPlace where
  /-- A directory chosen for this process. -/
  chosen : Option Path
  /-- The home directory as the environment gives it. -/
  home : String
  /-- The home directory of the user, if the environment gives none. -/
  userHome : String
  /-- The directory for settings as the environment gives it. -/
  configHome : Option String
  deriving Repr, DecidableEq

namespace SettingsPlace

/-- The directory in which settings are looked for. Of the directories that the environment
gives, the one for settings counts only if it is an absolute path. -/
def directory (s : SettingsPlace) : Path :=
  match s.chosen with
  | some d => d
  | none =>
    let home : Path := ⟨if s.home = "" then s.userHome else s.home⟩
    let base : Path := match s.configHome with
      | some d => if Path.isAbsolute ⟨d⟩ then ⟨d⟩ else home.join ⟨".config"⟩
      | none => home.join ⟨".config"⟩
    base.join ⟨"mlc"⟩

/-- The settings in the file of the usual name, and the defaults if there is no such file. -/
def load (s : SettingsPlace) (t : Tree) : Except SettingsError Settings :=
  let file := s.directory.join ⟨"workshop.toml"⟩
  if t.leadsSomewhere file then Settings.load t file else .ok .defaults

end SettingsPlace

end Haulage
