/-
  ReportStore.Store
  ─────────────────
  **THE STORE.**

  A store reads the files registered with it as one stream and saves records
  below its base.  Its operations take the file tree they work on; what they
  report goes into the tally of the store and is handed on to whoever keeps
  the journal.
-/
import ReportStore.Saving.Commit
import ReportStore.Settings.Basic

namespace ReportStore

/-- A store: where it writes, how it translates, what it reads. -/
structure Store where
  base : String
  codec : Codec
  merge : Merge
  tally : Tally

namespace Store

/-! ## §1. Files. -/

/-- The path of a file to read. -/
def resolve (s : Store) (path : String) : String := Path.join s.base path

/-- Registers a file. -/
def addFile (s : Store) (path : String) : Store :=
  { s with merge := s.merge.add (s.resolve path) }

/-- Registers files in order. -/
def addFiles (s : Store) (paths : List String) : Store := paths.foldl addFile s

/-- Forgets every file. -/
def clearFiles (s : Store) : Store := { s with merge := s.merge.clear }

/-- The registered paths, primary first. -/
def files (s : Store) : List String := s.merge.paths

/-- The store of some settings, with a codec of the caller's. -/
def ofSettings (codec : Codec) (settings : Settings) : Store :=
  addFiles ⟨settings.base, codec, Merge.new settings.strictness, Tally.zero⟩ settings.files

/-! ## §2. Reading. -/

/-- What an operation on the merge comes to for the store. -/
def afterMerge {α : Type} (s : Store) (o : Outcome Merge α) : Outcome Store α :=
  ⟨o.result, { s with merge := o.state, tally := s.tally.record o.signals }, o.signals⟩

/-- Opens every registered file. -/
def connect (t : FileTree) (s : Store) : Outcome Store Unit := s.afterMerge (s.merge.connect t)

/-- Closes every registered file. -/
def disconnect (s : Store) : Store := { s with merge := s.merge.disconnect }

/-- The next merged record. -/
def next (s : Store) : Outcome Store (Option Record) := s.afterMerge (s.merge.next s.codec)

/-! ## §3. Reading in runs. -/

/-- A run through the stream: it ends with the first fault. -/
structure Run where
  /-- The fault of the connecting that went before. -/
  pending : Option Fault
  failed : Bool

/-- A run that was started.  Starting one never fails, for a fault of connecting
waits in the run. -/
structure Started extends Outcome Store Run where
  run : Run
  result_eq : result = .ok run

/-- What starting a run comes to. -/
def Started.of (run : Run) (s : Store) (signals : List Signal) : Started :=
  ⟨⟨.ok run, s, signals⟩, run, rfl⟩

/-- Starts a run.  A store that is not connected connects first; one that is
goes on from where it stands. -/
def startRun (t : FileTree) (s : Store) : Started :=
  if s.merge.isConnected then .of ⟨none, false⟩ s []
  else
    let o := s.connect t
    let pending := match o.result with
      | .ok () => none
      | .error e => some e
    .of ⟨pending, false⟩ o.state o.signals

/-- One pull: the item, if one is left, and what is left of the run. -/
structure Pulled where
  item : Option (Except Fault Record)
  run : Run
  store : Store
  signals : List Signal

/-- Pulls the next item of a run. -/
def pull (s : Store) (run : Run) : Pulled :=
  if run.failed then ⟨none, run, s, []⟩
  else
    match run.pending with
    | some e => ⟨some (.error e), ⟨none, true⟩, s, []⟩
    | none =>
      let o := s.next
      match o.result with
      | .ok none => ⟨none, run, o.state, o.signals⟩
      | .ok (some r) => ⟨some (.ok r), run, o.state, o.signals⟩
      | .error e => ⟨some (.error e), ⟨none, true⟩, o.state, o.signals⟩

/-- A bound on the records that are left: every step takes a row. -/
def remaining (s : Store) : Nat :=
  s.merge.sources.foldr (fun src n => (src.feed.map Feed.remaining).getD 0 + n) 0

/-- What a whole run comes to: the records handed out, and the fault that
ended it if one did. -/
structure Drained where
  records : List Record
  fault : Option Fault
  store : Store
  signals : List Signal

/-- Pulls items until none is left or a fault ends the run, no more than
`limit` of them. -/
def drainWithin : (limit : Nat) → Store → Run → Drained
  | 0, s, _ => ⟨[], none, s, []⟩
  | limit + 1, s, run =>
    let p := s.pull run
    match p.item with
    | none => ⟨[], none, p.store, p.signals⟩
    | some (.error e) => ⟨[], some e, p.store, p.signals⟩
    | some (.ok r) =>
      let later := drainWithin limit p.store p.run
      { later with records := r :: later.records, signals := p.signals ++ later.signals }

/-- Pulls every item of a run. -/
def drain (s : Store) (run : Run) : Drained := drainWithin (s.remaining + 2) s run

/-! ## §4. Saving. -/

/-- Saves a record. -/
def save (t : FileTree) (s : Store) (r : Record) : Outcome (FileTree × Store) Unit :=
  let o := saveBelow s.base s.codec t r
  ⟨o.result, (o.state, { s with tally := s.tally.record o.signals }), o.signals⟩

/-- Saves records in order up to the first that fails. -/
def saveMany (t : FileTree) (s : Store) : List Record → Outcome (FileTree × Store) Unit
  | [] => ⟨.ok (), (t, s), []⟩
  | r :: rest =>
    let o := s.save t r
    match o.result with
    | .error e => ⟨.error e, o.state, o.signals⟩
    | .ok () =>
      let later := saveMany o.state.1 o.state.2 rest
      { later with signals := o.signals ++ later.signals }

end Store

end ReportStore
