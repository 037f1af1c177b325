/-
  ReportStore.Settings.Reader
  ───────────────────────────
  **SETTINGS FROM JSON.**

  Settings are an object with known members in any order, or an array of
  their values in the order of declaration, of which later ones may be left
  out.  Unknown members are passed over; a known one may stand only once;
  only the base is required.
-/
import ReportStore.FileTree
import ReportStore.Json.Shape
import ReportStore.Settings.Basic

namespace ReportStore

/-- Why settings cannot be had. -/
inductive SettingsFault where
  /-- The file cannot be read. -/
  | unreadable (path : String) (cause : FileFault)
  /-- The text is no settings. -/
  | refused (cause : Json.Refusal)
  /-- The settings are not usable. -/
  | invalid (cause : SettingsInvalid)
  deriving DecidableEq

namespace SettingsFault

/-- The wording. -/
def message : SettingsFault → String
  | unreadable path cause => "Failed to read config " ++ path ++ ": " ++ cause.message
  | refused _ => "Invalid config JSON"
  | invalid cause => cause.message

end SettingsFault

namespace Settings

open Json (Reading Refusal)

/-! ## §1. Members. -/

/-- The known members. -/
inductive Member where
  | base | files | strictness | syncWrites | codec | least
  deriving DecidableEq

namespace Member

/-- The members in the order of declaration. -/
def all : List Member := [base, files, strictness, syncWrites, codec, least]

/-- The key of a member. -/
def key : Member → String
  | base => "base_path"
  | files => "files"
  | strictness => "merge_mode"
  | syncWrites => "sync_writes"
  | codec => "codec"
  | least => "log_level"

/-- The member of a key. -/
def ofKey? (k : String) : Option Member := all.find? fun m => m.key == k

end Member

/-- The members read so far. -/
structure Draft where
  base : Option String
  files : Option (List String)
  strictness : Option Strictness
  syncWrites : Option Bool
  codec : Option CodecKind
  least : Option Severity

namespace Draft

/-- Nothing read. -/
def empty : Draft := ⟨none, none, none, none, none, none⟩

/-- Whether a member was read. -/
def has (d : Draft) : Member → Bool
  | .base => d.base.isSome
  | .files => d.files.isSome
  | .strictness => d.strictness.isSome
  | .syncWrites => d.syncWrites.isSome
  | .codec => d.codec.isSome
  | .least => d.least.isSome

/-- The names of the two ways to merge. -/
def strictnesses : List (String × Strictness) := [("lenient", .lenient), ("strict", .strict)]

/-- The names of the codecs. -/
def codecs : List (String × CodecKind) := [("power", .power), ("hwpc", .counters)]

/-- The names of the severities. -/
def severities : List (String × Severity) :=
  [("trace", .trace), ("info", .info), ("warn", .warn), ("error", .error)]

/-- Reads the value of a member. -/
def read (d : Draft) (cs : List Char) : Member → Reading Draft
  | .base => (Json.text cs).map fun (s, rest) => ({ d with base := some s }, rest)
  | .files => (Json.texts cs).map fun (ss, rest) => ({ d with files := some ss }, rest)
  | .strictness =>
    (Json.choice strictnesses cs).map fun (s, rest) => ({ d with strictness := some s }, rest)
  | .syncWrites => (Json.truth cs).map fun (b, rest) => ({ d with syncWrites := some b }, rest)
  | .codec => (Json.choice codecs cs).map fun (c, rest) => ({ d with codec := some c }, rest)
  | .least => (Json.choice severities cs).map fun (s, rest) => ({ d with least := some s }, rest)

/-- The settings, the base given. -/
def settings (d : Draft) : Except Refusal Settings :=
  match d.base with
  | none => .error .misfit
  | some base =>
    let other := defaults base
    .ok ⟨base, d.files.getD other.files, d.strictness.getD other.strictness,
      d.syncWrites.getD other.syncWrites, d.codec.getD other.codec, d.least.getD other.least⟩

end Draft

/-! ## §2. Objects and arrays. -/

/-- Goes to the next key of an object, its quote read, or to its end. -/
def toKey (first : Bool) (cs : List Char) : Reading Bool :=
  match Json.skipBlanks cs with
  | [] => .error .ended
  | '\x7d' :: rest => .ok (false, rest)
  | c :: rest =>
    if first then (if c = '"' then .ok (true, rest) else .error .malformed)
    else if c = ',' then (Json.punctuation '"' rest).map fun rest => (true, rest)
    else .error .malformed

/-- Reads the value after a key. -/
def readMember (d : Draft) (k : String) (cs : List Char) : Reading Draft :=
  match Member.ofKey? k with
  | none =>
    match Json.punctuation ':' cs with
    | .error e => .error e
    | .ok rest => (Json.skipValue rest).map fun rest => (d, rest)
  | some m =>
    if d.has m then .error .misfit
    else
      match Json.punctuation ':' cs with
      | .error e => .error e
      | .ok rest => d.read rest m

/-- Reads the members of an object up to its closing brace. -/
def readMembers : (limit : Nat) → (first : Bool) → Draft → List Char → Reading Draft
  | 0, _, _, _ => .error .malformed
  | limit + 1, first, d, cs =>
    match toKey first cs with
    | .error e => .error e
    | .ok (false, rest) => .ok (d, rest)
    | .ok (true, rest) =>
      match Json.stringBody rest with
      | .error e => .error e
      | .ok (k, rest) =>
        match readMember d (String.ofList k) rest with
        | .error e => .error e
        | .ok (d, rest) => readMembers limit false d rest

/-- Reads the elements of an array as members in order. -/
def readElements : (first : Bool) → Draft → List Member → List Char → Reading Draft
  | _, d, [], cs => .ok (d, cs)
  | first, d, m :: ms, cs =>
    match Json.toElement first cs with
    | .error e => .error e
    | .ok (false, rest) => .ok (d, rest)
    | .ok (true, rest) =>
      match d.read rest m with
      | .error e => .error e
      | .ok (d, rest) => readElements false d ms rest

/-- Settings once the object or array is read, and what follows it. -/
def finished (close : Option Char) (r : Reading Draft) : Reading Settings :=
  match r with
  | .error e => .error e
  | .ok (d, rest) =>
    match d.settings with
    | .error e => .error e
    | .ok s =>
      match close with
      | none => .ok (s, rest)
      | some c => (Json.punctuation c rest).map fun rest => (s, rest)

/-- Reads settings that start a text. -/
def read (cs : List Char) : Reading Settings :=
  match Json.skipBlanks cs with
  | '\x7b' :: rest => finished none (readMembers (rest.length + 1) true .empty rest)
  | '[' :: rest => finished (some ']') (readElements true .empty Member.all rest)
  | _ => .error (Json.misfit cs)

/-! ## §3. Whole texts and files. -/

/-- Reads settings that are a whole text. -/
def ofText (text : String) : Except SettingsFault Settings :=
  match read text.toList with
  | .error e => .error (.refused e)
  | .ok (s, rest) =>
    if Json.skipBlanks rest ≠ [] then .error (.refused .malformed)
    else
      match s.validated with
      | .ok s => .ok s
      | .error e => .error (.invalid e)

/-- Reads the settings of a file. -/
def ofFile (t : FileTree) (path : String) : Except SettingsFault Settings :=
  match t.readText path with
  | .error e => .error (.unreadable path e)
  | .ok text => ofText text

end Settings

end ReportStore
