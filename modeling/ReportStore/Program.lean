/-
  ReportStore.Program
  ───────────────────
  **WHAT THE COMMANDS DO.**

  `save` feeds the records of the input to a store; `replay` drains a store
  to the output.  Both stop at the first fault.  A command is a function of
  the file tree and the input: its report holds the exit code, the two
  outputs and the tree that is left.
-/
import ReportStore.CommandLine
import ReportStore.RecordLines
import ReportStore.Settings.Reader
import ReportStore.Store

namespace ReportStore

/-! ## §1. Faults. -/

/-- Why a command fails. -/
inductive CommandFault where
  /-- The settings cannot be had. -/
  | settings (cause : SettingsFault)
  /-- A line of the input is no record. -/
  | line (cause : RecordLines.LineFault)
  /-- The output takes no more. -/
  | output (stop : RecordLines.Stop) (cause : String)
  /-- The store refuses. -/
  | store (cause : Fault)
  deriving DecidableEq

namespace CommandFault

/-- The stable code. -/
def code : CommandFault → String
  | settings _ => "CSVDB_CLI_CONFIG_ERROR"
  | line .notText | output .. => "CSVDB_CLI_IO_ERROR"
  | line (.notRecord _) => "CSVDB_CLI_BAD_INPUT"
  | store _ => "CSVDB_CLI_STORE_ERROR"

/-- The wording. -/
def message : CommandFault → String
  | settings cause => cause.message
  | line .notText => FileFault.notText.message
  | line (.notRecord n) => "line " ++ Csv.count n
  | output .inRecord cause => "JSON error: " ++ cause
  | output .atLineEnd cause => cause
  | store cause => cause.message ++ " (" ++ cause.code ++ ")"

/-- The message that ends the program. -/
def text (f : CommandFault) : String := f.code ++ ": " ++ f.message

end CommandFault

/-- What writing a record's line to an output of limited room comes to. -/
def writeWithin (limit : Nat) (cause : String) (r : Record) : Except CommandFault Unit :=
  match RecordLines.stopWithin limit r with
  | none => .ok ()
  | some stop => .error (.output stop cause)

/-! ## §2. Bulk operations on a store. -/

/-- What saving the records of an input comes to: how many were saved, and
the fault that ended it if one did. -/
structure Saved where
  count : Nat
  fault : Option CommandFault
  tree : FileTree
  store : Store
  signals : List Signal

/-- Saves records in order up to the first fault. -/
def Store.saveItems (t : FileTree) (s : Store) :
    List (Except RecordLines.LineFault Record) → Saved
  | [] => ⟨0, none, t, s, []⟩
  | .error e :: _ => ⟨0, some (.line e), t, s, []⟩
  | .ok r :: rest =>
    let o := s.save t r
    match o.result with
    | .error e => ⟨0, some (.store e), o.state.1, o.state.2, o.signals⟩
    | .ok () =>
      let later := saveItems o.state.1 o.state.2 rest
      { later with count := later.count + 1, signals := o.signals ++ later.signals }

/-- Saves the records of an input. -/
def Store.saveLines (t : FileTree) (s : Store) (input : Bytes) : Saved :=
  s.saveItems t (RecordLines.read input)

/-- Hands out every merged record of the registered files and of some more,
which stay registered. -/
def Store.replay (t : FileTree) (s : Store) (more : List String) : Store.Drained :=
  let o := (s.addFiles more).connect t
  match o.result with
  | .error e => ⟨[], some e, o.state, o.signals⟩
  | .ok () =>
    let d := o.state.drain ⟨none, false⟩
    { d with signals := o.signals ++ d.signals }

/-! ## §3. Commands. -/

/-- What running the program comes to. -/
structure Report where
  exit : Nat
  output : String
  /-- The lines written beside the output. -/
  journal : List String
  tree : FileTree

/-- The report of a command that a fault ends. -/
def Report.failed (fault : CommandFault) (output : String) (journal : List String)
    (t : FileTree) : Report :=
  -- A path or a cell in the message may hold line feeds.
  ⟨1, output, journal ++ Text.lines fault.text, t⟩

/-- Reports the settings of a command. -/
def settingsSignal (path : String) (s : Settings) : Signal :=
  Event.settingsRead.signal
    [("base_path", s.base), ("codec", s.codec.codec.name), ("config", path)]

/-- The line that says how many records were saved. -/
def savedLine (count : Nat) : String :=
  String.ofList (Json.object [Tally.member "saved" count] ++ ['\n'])

/-- Saves the records of the input. -/
def runSave (path : String) (t : FileTree) (input : Bytes) : Report :=
  match Settings.ofFile t path with
  | .error e => .failed (.settings e) "" [] t
  | .ok settings =>
    let d := (Store.ofSettings settings.codec.codec settings).saveLines t input
    let journal := journalLines settings.least (settingsSignal path settings :: d.signals)
    match d.fault with
    | some e => .failed e "" journal d.tree
    | none => ⟨0, savedLine d.count, journal, d.tree⟩

/-- Writes the merged records of the settings' files and of some more. -/
def runReplay (path : String) (files : List String) (t : FileTree) : Report :=
  match Settings.ofFile t path with
  | .error e => .failed (.settings e) "" [] t
  | .ok settings =>
    let d := (Store.ofSettings settings.codec.codec settings).replay t files
    let signals := settingsSignal path settings :: d.signals
    match d.fault with
    | some e =>
      .failed (.store e) (RecordLines.text d.records) (journalLines settings.least signals) t
    | none =>
      let complete : Entry :=
        ⟨.info, "REPLAY_COMPLETE", [("records", Csv.count d.records.length)]⟩
      ⟨0, RecordLines.text d.records,
        journalLines settings.least (signals ++ [.entry complete]), t⟩

/-- Runs a command. -/
def Command.run (t : FileTree) (input : Bytes) : Command → Report
  | .save path => runSave path t input
  | .replay path files => runReplay path files t

/-! ## §4. What a command looks at. -/

/-- The files that saving a record may read or append to. -/
def Store.footprint (s : Store) (r : Record) : List String :=
  match s.codec.toGroups r, Plan.entityDirectory s.base r with
  | .ok groups, .ok directory =>
    (Dict.keys groups).filterMap fun g => (Plan.groupPath directory g).toOption
  | _, _ => []

/-- The path of the settings of a command. -/
def Command.settingsPath : Command → String
  | .save path | .replay path _ => path

/-- The files that a command may read or append to, its settings apart. -/
def Command.footprint (t : FileTree) (input : Bytes) (c : Command) : List String :=
  match Settings.ofFile t c.settingsPath with
  | .error _ => []
  | .ok settings =>
    let s := Store.ofSettings settings.codec.codec settings
    match c with
    | .save _ => ((RecordLines.read input).filterMap Except.toOption).flatMap s.footprint
    | .replay _ files => (s.addFiles files).files

/-! ## §5. The program. -/

/-- The name and the version of the program. -/
def versionLine : String := "csvdb 0.1.0\n"

/-- How the program is called. -/
def usageText : String :=
  "csvdb - file-backed store for monitoring reports\n\n" ++
  "Usage: csvdb <COMMAND>\n\n" ++
  "Commands:\n" ++
  "  save    Save JSON records read line by line from stdin\n" ++
  "  replay  Print the merged records of the configured files as JSON lines\n\n" ++
  "Options of both:\n" ++
  "  --config <PATH>  Path to configuration file [default: ./csvdb.json]\n\n" ++
  "Options of replay:\n" ++
  "  --file <PATH>    Extra input file, registered after the configured ones\n"

/-- What is shown where no command is run. -/
def UsageStop.report (t : FileTree) : UsageStop → Report
  | .help => ⟨0, usageText, [], t⟩
  | .version => ⟨0, versionLine, [], t⟩
  | _ => ⟨2, "", [usageText], t⟩

/-- Runs the program with some arguments. -/
def runProgram (t : FileTree) (args : List String) (input : Bytes) : Report :=
  match CommandLine.read args with
  | .ok command => command.run t input
  | .error stop => stop.report t

end ReportStore
