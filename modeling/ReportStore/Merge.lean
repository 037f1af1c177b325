/-
  ReportStore.Merge
  ─────────────────
  **ONE STREAM OF RECORDS FROM MANY FILES.**

  The registered files are read side by side.  One step unites every row, of
  every file, that stands at the watermark; rows behind it are passed over,
  or refused by a strict merge, and a row ahead of it waits.  Only the first
  file, the primary one, moves the watermark, so there is one record for
  each time of the primary file.

      unconnected ──connect──▶ connected (watermark) ──next──▶ … ──▶ ended

  A step that fails leaves the watermark where it is and keeps what the
  files before the failure have given up.
-/
import ReportStore.Codec.Basic
import ReportStore.Outcome
import ReportStore.Value.Union

namespace ReportStore

/-! ## §1. The state of a merge. -/

/-- What becomes of a row behind the watermark. -/
inductive Strictness where
  /-- It is passed over. -/
  | lenient
  /-- The step fails. -/
  | strict
  deriving DecidableEq

/-- A registered file. -/
structure Source where
  path : String
  /-- Its rows, while it is open. -/
  feed : Option Feed

/-- How far a merge has come. -/
inductive Phase where
  | unconnected
  /-- The watermark is missing if the primary file has no row. -/
  | connected (watermark : Option Int)
  | ended
  deriving DecidableEq

/-- The registered files, primary first, and how far they are merged. -/
structure Merge where
  sources : List Source
  phase : Phase
  strictness : Strictness

namespace Merge

/-- A merge of no files. -/
def new (strictness : Strictness) : Merge := ⟨[], .unconnected, strictness⟩

/-- Registers a file. -/
def add (m : Merge) (path : String) : Merge :=
  { m with sources := m.sources ++ [⟨path, none⟩] }

/-- Forgets every file. -/
def clear (m : Merge) : Merge := { m with sources := [], phase := .unconnected }

/-- The registered paths. -/
def paths (m : Merge) : List String := m.sources.map (·.path)

/-- Whether the files were opened and not closed since. -/
def isConnected (m : Merge) : Bool := m.phase != .unconnected

/-- Whether no record is left. -/
def isExhausted (m : Merge) : Bool := m.phase == .ended

/-- The time of the next step. -/
def watermark (m : Merge) : Option Int :=
  match m.phase with
  | .connected w => w
  | _ => none

/-- Closes every file. -/
def disconnect (m : Merge) : Merge :=
  { m with sources := m.sources.map fun s => { s with feed := none }, phase := .unconnected }

/-! ## §2. Connecting. -/

/-- Opens a file and requires its common columns; a file without a header
has nothing to require. -/
def openSource (t : FileTree) (path : String) : Except Fault Feed :=
  match Feed.openAt t path with
  | .error e => .error e
  | .ok feed =>
    if feed.header.isEmpty then .ok feed
    else
      match Columns.requireCommon path feed.header with
      | .ok () => .ok feed
      | .error e => .error e

/-- Reports an open file. -/
def openedSignal (path : String) (feed : Feed) : Signal :=
  Event.fileOpened.signal
    [("path", path), ("exhausted", if feed.isExhausted then "true" else "false")]

/-- Opens files one after the other; the first fault ends it. -/
def openAll (t : FileTree) : List String → Outcome (List Source) Unit
  | [] => ⟨.ok (), [], []⟩
  | path :: rest =>
    match openSource t path with
    | .error e => ⟨.error e, [], []⟩
    | .ok feed =>
      let later := openAll t rest
      ⟨later.result, ⟨path, some feed⟩ :: later.state, openedSignal path feed :: later.signals⟩

/-- The first time of the primary file. -/
def firstWatermark : List Source → Except Fault (Option Int)
  | ⟨_, some feed⟩ :: _ => feed.heldTime
  | _ => .ok none

/-- Opens every file anew.  A failure leaves none open. -/
def connect (t : FileTree) (m : Merge) : Outcome Merge Unit :=
  let closed := m.disconnect
  let opened := openAll t m.paths
  let failed (e : Fault) : Outcome Merge Unit :=
    ⟨.error e, closed, opened.signals ++
      [Event.connectFailed.signal [("code", e.code), ("message", e.message)]]⟩
  match opened.result with
  | .error e => failed e
  | .ok () =>
    -- The time of the primary file is read last, after every file is open.
    match firstWatermark opened.state with
    | .error e => failed e
    | .ok w =>
      ⟨.ok (), { m with sources := opened.state, phase := .connected w }, opened.signals ++
        [Event.connected.signal
          [("files", Csv.count m.sources.length), ("watermark", (w.map Fault.millis).getD "")]]⟩

/-! ## §3. One file up to the watermark. -/

/-- What is to be done with a row. -/
inductive Verdict where
  /-- It is due. -/
  | take
  /-- It is behind the watermark and passed over. -/
  | skip (time : Int)
  /-- It is ahead of the watermark. -/
  | wait (time : Int)
  /-- The step fails because of it. -/
  | refuse (fault : Fault)

/-- What is to be done with a row at a watermark. -/
def verdict (strictness : Strictness) (watermark : Int) (path : String) (row : Row) : Verdict :=
  match readTime path (Feed.timeCell row) with
  | .error e => .refuse e
  | .ok time =>
    if watermark < time then .wait time
    else if time = watermark then .take
    else
      match strictness with
      | .lenient => .skip time
      | .strict => .refuse (.outOfOrder path time watermark)

/-- Reports a row that was passed over. -/
def skippedSignals (path : String) (time watermark : Int) : List Signal :=
  [.count .rowsSkipped,
    Event.rowSkipped.signal
      [("path", path), ("timestamp", Fault.millis time), ("watermark", Fault.millis watermark)]]

/-- What one file comes to: the union so far, and the time of the row that
waits, if one does. -/
structure Drained where
  result : Except Fault (Option Int)
  feed : Feed
  merged : Record
  signals : List Signal

/-- The same with something reported before it. -/
def Drained.after (signals : List Signal) (d : Drained) : Drained :=
  { d with signals := signals ++ d.signals }

/-- Takes the rows of a file that are due, looking at no more than `limit`
records. -/
def drainWithin (codec : Codec) (strictness : Strictness) (watermark : Int) :
    (limit : Nat) → Feed → Record → Drained
  | 0, feed, merged => ⟨.ok none, feed, merged, []⟩
  | limit + 1, feed, merged =>
    match feed.held with
    | none => ⟨.ok none, feed, merged, []⟩
    | some row =>
      match verdict strictness watermark feed.path row with
      | .refuse e => ⟨.error e, feed, merged, []⟩
      | .wait time => ⟨.ok (some time), feed, merged, []⟩
      | .skip time =>
        match feed.advance with
        | (.error e, next) => ⟨.error e, next, merged, []⟩
        | (.ok _, next) =>
          (drainWithin codec strictness watermark limit next merged).after
            (skippedSignals feed.path time watermark)
      | .take =>
        match feed.advance with
        | (.error e, next) => ⟨.error e, next, merged, []⟩
        | (.ok _, next) =>
          -- The row is gone from the feed even if the codec refuses it.
          match codec.ofRow feed.fileName row with
          | .error e => ⟨.error e, next, merged, []⟩
          | .ok fragment =>
            (drainWithin codec strictness watermark limit next (Record.union merged fragment)).after
              [.count .rowsRead]

/-- Takes the rows of a file that are due: no more than the file has left. -/
def drain (codec : Codec) (strictness : Strictness) (watermark : Int) (feed : Feed)
    (merged : Record) : Drained :=
  drainWithin codec strictness watermark feed.remaining feed merged

/-! ## §4. One step. -/

/-- What some files come to: the union, and the files as they are left. -/
structure Swept where
  result : Except Fault Unit
  sources : List Source
  merged : Record
  signals : List Signal

/-- Takes the rows that are due from one file after the other.  A fault
leaves the files after it as they are. -/
def sweep (codec : Codec) (strictness : Strictness) (watermark : Int) :
    List Source → Record → Swept
  | [], merged => ⟨.ok (), [], merged, []⟩
  | ⟨path, none⟩ :: rest, merged =>
    let later := sweep codec strictness watermark rest merged
    { later with sources := ⟨path, none⟩ :: later.sources }
  | ⟨path, some feed⟩ :: rest, merged =>
    let d := drain codec strictness watermark feed merged
    match d.result with
    | .error e => ⟨.error e, ⟨path, some d.feed⟩ :: rest, d.merged, d.signals⟩
    | .ok _ =>
      let later := sweep codec strictness watermark rest d.merged
      { later with
        sources := ⟨path, some d.feed⟩ :: later.sources
        signals := d.signals ++ later.signals }

/-- The time of the row that the primary file waits with. -/
def waitingTime : List Source → Option Int
  | ⟨_, some feed⟩ :: _ =>
    match feed.heldTime with
    | .ok time => time
    | .error _ => none
  | _ => none

/-- Ends the stream. -/
def finish (m : Merge) (signals : List Signal) : Outcome Merge (Option Record) :=
  ⟨.ok none, { m with phase := .ended },
    signals ++ [Event.streamEnded.signal [("files", Csv.count m.sources.length)]]⟩

/-- The merged record of the watermark, or nothing at the end of the stream
and while the files are not open.  Without a later row of the primary file
the watermark stays, and the next step finds nothing. -/
def next (codec : Codec) (m : Merge) : Outcome Merge (Option Record) :=
  match m.phase with
  | .unconnected | .ended => ⟨.ok none, m, []⟩
  | .connected none => m.finish []
  | .connected (some watermark) =>
    let swept := sweep codec m.strictness watermark m.sources []
    let left : Merge := { m with sources := swept.sources }
    match swept.result with
    | .error e => ⟨.error e, left, swept.signals⟩
    | .ok () =>
      if swept.merged.isEmpty then left.finish swept.signals
      else
        -- A row of the primary file that waits names the next time.
        let phase := match waitingTime swept.sources with
          | some time => .connected (some time)
          | none => m.phase
        ⟨.ok (some swept.merged), { left with phase }, swept.signals ++
          [.count .recordsMerged,
            Event.recordMerged.signal [("timestamp", Fault.millis watermark)]]⟩

end Merge

end ReportStore
