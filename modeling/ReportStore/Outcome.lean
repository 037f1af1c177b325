/-
  ReportStore.Outcome
  ───────────────────
  **WHAT AN OPERATION COMES TO.**

  An operation has a result, leaves a state, and reports what it did on the
  way.  The state is left also by an operation that fails, and the signals
  of an operation made of several are those of its parts in order.
-/
import ReportStore.Fault
import ReportStore.Journal.Basic

namespace ReportStore

/-- A result, the state that is left, and the signals given. -/
structure Outcome (σ α : Type) where
  result : Except Fault α
  state : σ
  signals : List Signal

end ReportStore
