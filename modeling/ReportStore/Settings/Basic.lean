/-
  ReportStore.Settings.Basic
  ──────────────────────────
  **THE SETTINGS OF A STORE.**

  A store is told where its files lie; everything else has a default.
-/
import ReportStore.Journal.Event
import ReportStore.Codec.Counters
import ReportStore.Codec.Power
import ReportStore.Merge

namespace ReportStore

/-- The codecs that settings can name. -/
inductive CodecKind where
  | power
  | counters
  deriving DecidableEq

/-- The codec that a name stands for. -/
def CodecKind.codec : CodecKind → Codec
  | power => .power
  | counters => .counters

/-- The settings of a store. -/
structure Settings where
  /-- The directory of the files. -/
  base : String
  /-- Files to read, primary first. -/
  files : List String
  strictness : Strictness
  /-- Whether every append is forced to the disk. -/
  syncWrites : Bool
  codec : CodecKind
  /-- The least severity of journal lines. -/
  least : Severity
  deriving DecidableEq

namespace Settings

/-- The defaults at a base. -/
def defaults (base : String) : Settings := ⟨base, [], .lenient, true, .power, .info⟩

/-- The base if none is given at all. -/
def defaultBase : String := "/tmp/csvdbtest"

end Settings

/-- Why settings are refused. -/
inductive SettingsInvalid where
  | emptyBase
  | emptyFile
  deriving DecidableEq

namespace SettingsInvalid

/-- The wording. -/
def message : SettingsInvalid → String
  | emptyBase => "Invalid config: base_path must not be empty"
  | emptyFile => "Invalid config: files must not contain empty paths"

end SettingsInvalid

/-- Requires the base and every file to have a path. -/
def Settings.validated (s : Settings) : Except SettingsInvalid Settings :=
  if s.base = "" then .error .emptyBase
  else if s.files.contains "" then .error .emptyFile
  else .ok s

end ReportStore
