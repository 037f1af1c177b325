/-
  ReportStore.Saving.Commit
  ─────────────────────────
  **PERFORMING A PLAN.**

  A planned save makes its directory and appends its rows one by one.  Only
  here is the tree changed.  A system that refuses an append ends the save;
  what was appended before stays, and so do its signals.
-/
import ReportStore.Outcome
import ReportStore.Saving.Plan

namespace ReportStore

namespace Append

/-- Reports a row that was appended. -/
def signals (a : Append) : List Signal :=
  (if a.startsFile then
    [.count .headersWritten,
      Event.headerWritten.signal [("columns", ",".intercalate a.header), ("path", a.path)]]
  else []) ++ [.count .rowsWritten]

/-- Appends rows, one after the other. -/
def performAll (t : FileTree) : List Append → Outcome FileTree Unit
  | [] => ⟨.ok (), t, []⟩
  | a :: rest =>
    match t.append a.path a.bytes with
    | .error e => ⟨.error (.system a.path e), t, []⟩
    | .ok t' =>
      let later := performAll t' rest
      { later with signals := a.signals ++ later.signals }

end Append

namespace Plan

/-- Performs a plan. -/
def commit (codec : Codec) (t : FileTree) (p : Plan) : Outcome FileTree Unit :=
  match t.makeDirectories p.directory with
  | (t', .error e) => ⟨.error (.system p.directory e), t', []⟩
  | (t', .ok ()) =>
    let done := Append.performAll t' p.appends
    match done.result with
    | .error _ => done
    | .ok () =>
      { done with signals := done.signals ++
          [Event.recordSaved.signal
            [("codec", codec.name), ("entity", p.directory),
              ("rows", Csv.count p.appends.length)]] }

end Plan

/-- Reports a record that was not saved. -/
def failureSignals (e : Fault) : List Signal :=
  let event : Event := match e with
    | .headerMismatch .. => .headerMismatch
    | _ => .saveFailed
  [.count .saveFailures, event.signal [("code", e.code), ("message", e.message)]]

/-- Saves a record below a base: plans, then performs. -/
def saveBelow (base : String) (codec : Codec) (t : FileTree) (r : Record) :
    Outcome FileTree Unit :=
  match Plan.ofRecord t base codec r with
  | .error e => ⟨.error e, t, failureSignals e⟩
  | .ok plan =>
    let done := plan.commit codec t
    match done.result with
    | .error e => { done with signals := done.signals ++ failureSignals e }
    | .ok () => done

end ReportStore
