import ToolScript.Json.Printer
import ToolScript.Json.Reader
import ToolScript.Script.Scope
import ToolScript.Security.Gate
import ToolScript.Security.Verdict

/-! # Settings

    What is configured: the switches of the gate, the limits of scopes, and how turns are secured. Settings are kept
    in a JSON file. What a text does not say stays at its default, and the switches that it does say are added to
    the default ones. -/

namespace ToolScript
open Json Security Script

structure SecuritySettings where
  policy : Policy
  salt : Option String

structure Settings where
  categories : Dict Bool
  plugins : Dict Bool
  lightweight : Bool
  allowlist : List String
  limits : ScopeLimits
  security : SecuritySettings

/-- The salt in use. -/
def SecuritySettings.effectiveSalt (s : SecuritySettings) : String :=
  s.salt.getD defaultSalt

namespace Settings

def defaultSecurity : SecuritySettings := ⟨.allowFallback, none⟩

def default : Settings where
  categories := .ofList [("core", true), ("work", true), ("plugins", true)]
  plugins := .empty
  lightweight := false
  allowlist := defaultAllowlist
  limits := .default
  security := defaultSecurity

def setCategory (s : Settings) (name : String) (on : Bool) : Settings :=
  { s with categories := s.categories.insert name on }

def setPlugin (s : Settings) (name : String) (on : Bool) : Settings :=
  { s with plugins := s.plugins.insert name on }

/-! ### The gate -/

/-- A gate with all switches of the settings set. -/
def applyTo (s : Settings) (g : Gate) : Gate :=
  let g := s.categories.entries.foldl (fun g e => g.setCategory e.1 e.2) g
  let g := s.plugins.entries.foldl (fun g e => g.setPlugin e.1 e.2) g
  (g.setLightweight s.lightweight).setAllowlist s.allowlist

def gate (s : Settings) : Gate :=
  s.applyTo .new

/-! ### In JSON -/

def switchesJson (d : Dict Bool) : Value :=
  .ofDict (d.map fun _ on => .bool on)

def limitsJson (l : ScopeLimits) : Value :=
  record [("max_variables", some (.int l.maxVariables)), ("max_string_len", some (.int l.maxStringLength))]

def securityJson (s : SecuritySettings) : Value :=
  record [("tag_policy", some (.string s.policy.name)), ("system_salt", s.salt.map .string)]

def json (s : Settings) : Value :=
  record [("categories", some (switchesJson s.categories)), ("plugins", some (switchesJson s.plugins)),
    ("lightweight_mode", some (.bool s.lightweight)),
    ("lightweight_allowlist", some (.array (s.allowlist.map .string))),
    ("scope", some (limitsJson s.limits)), ("security", some (securityJson s.security))]

def readLimits? : Reader ScopeLimits := fun n => do
  match ← n.slots? ["max_variables", "max_string_len"] with
  | [count, length] =>
    return {
      maxVariables := ← defaulted ScopeLimits.default.maxVariables Node.size? count
      maxStringLength := ← defaulted ScopeLimits.default.maxStringLength Node.size? length }
  | _ => none

def readSecurity? : Reader SecuritySettings := fun n => do
  match ← n.slots? ["tag_policy", "system_salt"] with
  | [policy, salt] =>
    return {
      policy := ← defaulted defaultSecurity.policy Policy.read? policy
      salt := ← optional Node.string? salt }
  | _ => none

/-- Settings as a tree says them, each field by itself. -/
def readFields? : Reader Settings := fun n => do
  match ← n.slots? ["categories", "plugins", "lightweight_mode", "lightweight_allowlist", "scope", "security"] with
  | [categories, plugins, lightweight, allowlist, scope, security] =>
    return {
      categories := ← defaulted default.categories (Node.dict? Node.bool?) categories
      plugins := ← defaulted default.plugins (Node.dict? Node.bool?) plugins
      lightweight := ← defaulted default.lightweight Node.bool? lightweight
      allowlist := ← defaulted default.allowlist (Node.list? Node.string?) allowlist
      limits := ← defaulted default.limits readLimits? scope
      security := ← defaulted default.security readSecurity? security }
  | _ => none

/-- Settings with the default switches where they say nothing of them. -/
def overDefaults (s : Settings) : Settings :=
  { s with categories := default.categories.union s.categories, plugins := default.plugins.union s.plugins }

/-- The settings that a text writes. -/
def ofText? (text : String) : Option Settings :=
  ((Node.read? text.toList).bind readFields?).map overDefaults

/-- The text of settings. -/
def text (s : Settings) : String :=
  s.json.pretty

end Settings

/-! ### In a file -/

/-- A place for a file: in no directory at all, or in one, with nothing there or the bytes of a file. -/
inductive FilePlace where
  | nowhere
  | vacant
  | file (bytes : ByteArray)

inductive SettingsError where
  /-- The text is not that of settings. -/
  | malformed
  /-- There is no directory for the file. -/
  | noDirectory
  /-- The file has bytes that are no text. -/
  | notText
  deriving DecidableEq

/-- The text of a failure to use the file; of a malformed text nothing is said here. -/
def SettingsError.fileMessage? : SettingsError → Option String
  | .malformed => none
  | .noDirectory => some "settings I/O failed: No such file or directory (os error 2)"
  | .notText => some "settings I/O failed: stream did not contain valid UTF-8"

namespace Settings

def save (s : Settings) : FilePlace → Except SettingsError FilePlace
  | .nowhere => .error .noDirectory
  | _ => .ok (.file s.text.toUTF8)

/-- The settings in a file, and the place after reading. A missing file is written with the defaults. -/
def load (place : FilePlace) : Except SettingsError (Settings × FilePlace) :=
  match place with
  | .file bytes =>
    match String.fromUTF8? bytes with
    | none => .error .notText
    | some text => match ofText? text with
      | none => .error .malformed
      | some s => .ok (s, place)
  | _ => (default.save place).map fun place => (default, place)

end Settings

end ToolScript
