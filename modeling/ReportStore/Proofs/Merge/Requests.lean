/-
  ReportStore.Proofs.Merge.Requests
  ─────────────────────────────────
  **A MERGE IN USE.**

  Whoever holds a merge asks one thing of it after the other: to register a
  file, to forget them all, to connect, to disconnect, or for the next
  record.  The trace of some requests is each of them with the merge as it
  was asked, so a statement about a use of a merge is one about its trace:

      trace m (q :: qs) = (m, q) :: trace (m.ask q) qs

  From one connecting to the next that follows it, requests only read: they
  ask for records, with any codec each, and register files.
-/
import ReportStore.Proofs.Merge.Opening
import ReportStore.Proofs.Merge.Step

namespace ReportStore

/-- What can be asked of a merge. -/
inductive Request where
  | add (path : String)
  | clear
  | connect (t : FileTree)
  | disconnect
  | next (codec : Codec)

namespace Request

/-- Whether it leaves the files open that are open, and opens none. -/
def isReading : Request → Bool
  | add _ | next _ => true
  | clear | connect _ | disconnect => false

/-- The codec of a request for the next record. -/
def codec? : Request → Option Codec
  | next codec => some codec
  | _ => none

end Request

namespace Merge

/-! ## §1. Asking. -/

/-- The merge that a request leaves. -/
def ask (m : Merge) : Request → Merge
  | .add path => m.add path
  | .clear => m.clear
  | .connect t => (m.connect t).state
  | .disconnect => m.disconnect
  | .next codec => (m.next codec).state

/-- The merge that some requests leave, asked one after the other. -/
def askAll (m : Merge) (qs : List Request) : Merge := qs.foldl ask m

/-- Each request with the merge that it was asked of. -/
def trace (m : Merge) : List Request → List (Merge × Request)
  | [] => []
  | q :: rest => (m, q) :: (m.ask q).trace rest

/-- What the requests for the next record come to, one after the other. -/
def results (m : Merge) (qs : List Request) : List (Except Fault (Option Record)) :=
  (m.trace qs).filterMap fun asked => asked.2.codec?.map fun codec => (asked.1.next codec).result

theorem results_cons (m : Merge) (q : Request) (rest : List Request) :
    m.results (q :: rest) =
      ((q.codec?.map fun codec => (m.next codec).result).toList ++ (m.ask q).results rest) := by
  unfold results
  rw [trace, List.filterMap_cons]
  cases q.codec? with
  | none => rfl
  | some codec => rfl

/-- **What every request of a trace keeps holds all along it.** -/
theorem trace_induction {P : Merge → Prop} {qs : List Request} : ∀ {m : Merge},
    (∀ m' q, (m', q) ∈ m.trace qs → P m' → P (m'.ask q)) → P m →
      ∀ m' q, (m', q) ∈ m.trace qs → P m' := by
  induction qs with
  | nil => exact fun _ _ _ _ hmem => nomatch hmem
  | cons q rest ih =>
    intro m hstep hm m' q' hmem
    rcases List.mem_cons.1 hmem with heq | hmem
    · injection heq with heq
      exact heq ▸ hm
    · have hnext : P (m.ask q) := hstep m q List.mem_cons_self hm
      exact ih (fun a b hab => hstep a b (List.mem_cons_of_mem _ hab)) hnext m' q' hmem

/-! ## §2. What a request leaves as it was. -/

theorem paths_disconnect (m : Merge) : m.disconnect.paths = m.paths := by
  show (m.sources.map fun s => { s with feed := none }).map (·.path) = m.sources.map (·.path)
  rw [List.map_map]
  rfl

/-- Connecting leaves the files registered, whatever it comes to. -/
theorem paths_connect (t : FileTree) (m : Merge) : (m.connect t).state.paths = m.paths := by
  rcases connect_cases t m with ⟨e, -, -, hs⟩ | ⟨e, -, -, -, hs⟩ | ⟨w, hok, -, -, hs⟩
  · rw [hs, paths_disconnect]
  · rw [hs, paths_disconnect]
  · rw [hs]
    exact (sources_of_openAll hok).1

theorem strictness_connect (t : FileTree) (m : Merge) :
    (m.connect t).state.strictness = m.strictness := by
  rcases connect_cases t m with ⟨e, -, -, hs⟩ | ⟨e, -, -, -, hs⟩ | ⟨w, -, -, -, hs⟩
  · exact hs ▸ rfl
  · exact hs ▸ rfl
  · exact hs ▸ rfl

/-- A merge is strict or lenient for good. -/
theorem strictness_ask (m : Merge) (q : Request) : (m.ask q).strictness = m.strictness := by
  cases q with
  | add _ | clear | disconnect => rfl
  | connect t => exact strictness_connect t m
  | next codec => exact strictness_next codec m

theorem strictness_askAll (qs : List Request) : ∀ m : Merge,
    (m.askAll qs).strictness = m.strictness := by
  induction qs with
  | nil => exact fun _ => rfl
  | cons q rest ih => exact fun m => (ih (m.ask q)).trans (strictness_ask m q)

end Merge

end ReportStore
