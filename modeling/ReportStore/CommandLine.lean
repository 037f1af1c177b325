/-
  ReportStore.CommandLine
  ───────────────────────
  **THE ARGUMENTS OF THE PROGRAM.**

  The program saves records (`save`) or replays files (`replay`).  Both take
  the path of the settings; replay takes files to add, any number of them.
  Arguments are looked at from left to right and the first problem counts;
  a value that stands after its option counts as looked at only when the next
  option comes.  An option is written `--name value` or `--name=value`; what
  starts with a dash is never the value of an option before it, a single dash
  by itself apart.
-/
import ReportStore.Text.Utf8

namespace ReportStore

/-- What the program is asked to do. -/
inductive Command where
  | save (settings : String)
  | replay (settings : String) (files : List String)
  deriving DecidableEq

/-- Why the program does not get to a command. -/
inductive UsageStop where
  /-- Help is asked for. -/
  | help
  /-- The version is asked for. -/
  | version
  /-- No argument at all. -/
  | noArguments
  | unknownArgument
  | unknownCommand
  /-- A value is missing or empty. -/
  | badValue
  /-- An option that takes one value is given twice. -/
  | repeated
  /-- A value is attached to an option that takes none. -/
  | unwantedValue
  deriving DecidableEq

namespace CommandLine

/-! ## §1. The forms of an argument. -/

/-- What an argument looks like. -/
inductive Form where
  /-- `--`: what follows are no options. -/
  | separator
  /-- `--name`, perhaps with a value attached. -/
  | long (name : String) (attached : Option String)
  /-- `-x…`: the letters after the dash. -/
  | short (letters : List Char)
  /-- Anything else. -/
  | plain (text : String)

/-- The part after the first equals sign. -/
def attachedValue (cs : List Char) : Option String :=
  match cs.dropWhile (· != '=') with
  | [] => none
  | _ :: value => some (String.ofList value)

/-- The form of an argument. -/
def formOf (arg : String) : Form :=
  match arg.toList with
  | ['-', '-'] => .separator
  | '-' :: '-' :: cs => .long (String.ofList (cs.takeWhile (· != '='))) (attachedValue cs)
  | '-' :: c :: cs => .short (c :: cs)
  | _ => .plain arg

/-- What an option does that takes no value and stops the reading. -/
def stopping (stop : UsageStop) (attached : Option String) : UsageStop :=
  match attached with
  | none => stop
  | some _ => .unwantedValue

/-! ## §2. The options of a command. -/

/-- The options that take a value. -/
inductive ValueOption where
  | settings | file
  deriving DecidableEq

/-- The values given so far. -/
structure Given where
  settings : Option String
  files : List String

/-- Nothing given. -/
def Given.none : Given := ⟨Option.none, []⟩

/-- The path of the settings if none is given. -/
def defaultSettings : String := "./csvdb.json"

/-- Takes the value of an option. -/
def Given.take (g : Given) (value : String) : ValueOption → Except UsageStop Given
  | .settings =>
    if g.settings.isSome then .error .repeated
    else if value = "" then .error .badValue
    else .ok { g with settings := some value }
  | .file =>
    if value = "" then .error .badValue else .ok { g with files := g.files ++ [value] }

/-- The value option of a name, for a command that knows these. -/
def option? (known : List ValueOption) (name : String) : Option ValueOption :=
  known.find? fun o => (match o with
    | .settings => "config"
    | .file => "file") == name

/-- An option that was met, and the value that came after it. -/
structure Pending where
  option : ValueOption
  value : Option String

/-- Takes the value of a pending option.  This is put off until the next
option that is known, or the end, so what is wrong with the value shows only
there. -/
def settle (g : Given) : Option Pending → Except UsageStop Given
  | none => .ok g
  | some ⟨_, none⟩ => .error .badValue
  | some ⟨o, some value⟩ => g.take value o

/-- Stops with help once the pending option is settled. -/
def helpAfter (g : Given) (pending : Option Pending) : UsageStop :=
  match settle g pending with
  | .error e => e
  | .ok _ => .help

/-- Reads the arguments of a command. -/
def readOptions (known : List ValueOption) :
    (pending : Option Pending) → Given → List String → Except UsageStop Given
  | pending, g, [] => settle g pending
  | pending, g, arg :: rest =>
    match formOf arg with
    | .separator =>
      -- No command takes arguments that are no options.
      match rest with
      | _ :: _ => .error .unknownArgument
      | [] => settle g pending
    | .long name attached =>
      match option? known name with
      | some o =>
        match settle g pending with
        | .error e => .error e
        | .ok g =>
          match attached with
          | none => readOptions known (some ⟨o, none⟩) g rest
          | some value =>
            match g.take value o with
            | .error e => .error e
            | .ok g => readOptions known none g rest
      | none =>
        if name = "help" then
          match attached with
          | some _ => .error .unwantedValue
          | none => .error (helpAfter g pending)
        else .error .unknownArgument
    | .short letters =>
      if letters.head? = some 'h' then .error (helpAfter g pending)
      else .error .unknownArgument
    | .plain text =>
      match pending with
      | some ⟨o, none⟩ => readOptions known (some ⟨o, some text⟩) g rest
      | _ => .error .unknownArgument

/-! ## §3. Whole command lines. -/

/-- The commands that can be asked about. -/
def commandNames : List String := ["save", "replay", "help"]

/-- What asking for help comes to: help on the program or on one command. -/
def helpOn : List String → UsageStop
  | [] => .help
  | [name] => if commandNames.contains name then .help else .unknownCommand
  | _ => .unknownCommand

/-- Reads the arguments of the program. -/
def read (args : List String) : Except UsageStop Command :=
  match args with
  | [] => .error .noArguments
  | arg :: rest =>
    match formOf arg with
    | .separator =>
      match rest with
      | [] => .error .noArguments
      | name :: _ => if commandNames.contains name then .error .unknownArgument
        else .error .unknownCommand
    | .long name attached =>
      if name = "help" then .error (stopping .help attached)
      else if name = "version" then .error (stopping .version attached)
      else .error .unknownArgument
    | .short letters =>
      if letters.head? = some 'h' then .error .help
      else if letters.head? = some 'V' then .error .version
      else .error .unknownArgument
    | .plain "save" =>
      (readOptions [.settings] none .none rest).map fun g =>
        .save (g.settings.getD defaultSettings)
    | .plain "replay" =>
      (readOptions [.settings, .file] none .none rest).map fun g =>
        .replay (g.settings.getD defaultSettings) g.files
    | .plain "help" => .error (helpOn rest)
    | .plain _ => .error .unknownCommand

end CommandLine

end ReportStore
