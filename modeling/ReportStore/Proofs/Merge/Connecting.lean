/-
  ReportStore.Proofs.Merge.Connecting
  ───────────────────────────────────
  **WHAT CONNECTING COMES TO, AND WHAT A FAILURE LEAVES.**

  Whatever a merge did before, the registered files alone decide whether it
  connects:

      result = ok       ↔  every file is legible, the primary one starts in time
      result = error e  ↔  e is the defect of the first file that has one, or
                           there is none and the first time of the primary
                           file cannot be read

  A failure closes every file and keeps them registered.  From then on the
  merge hands out nothing and counts nothing, whatever is asked of it, until
  it connects.
-/
import ReportStore.Proofs.Merge.Requests

namespace ReportStore.Merge

variable {t : FileTree} {m : Merge} {e : Fault}

/-! ## §1. The result. -/

/-- Why files cannot be connected. -/
inductive ConnectFault (t : FileTree) (paths : List String) : Fault → Prop where
  /-- A file has a defect, and none before it has one. -/
  | file {e : Fault} (defect : FirstDefect t paths e) : ConnectFault t paths e
  /-- No file has a defect, but the primary one does not start in time. -/
  | time {primary cell : String} {rest : List String} (registered : paths = primary :: rest)
      (legible : ∀ path ∈ paths, Legible t path) (first : FirstTimeCell t primary cell)
      (untimed : timeOfCell? cell = none) : ConnectFault t paths (.badTimestamp primary cell)

/-- What decides the result: the files, and then the time of the first. -/
theorem connect_result_cases (t : FileTree) (m : Merge) :
    ((m.connect t).result = .ok () ∧ (∀ path ∈ m.paths, Legible t path) ∧
      StartsInTime t m.paths) ∨
    ∃ e, (m.connect t).result = .error e ∧ ConnectFault t m.paths e := by
  rcases openAll_cases t m.paths with ⟨hok, hlegible⟩ | ⟨e, he, hdefect⟩
  · rcases firstWatermark_cases hok with
      ⟨w, hw, hstarts⟩ | ⟨primary, rest, cell, hpaths, hcell, huntimed, he⟩
    · refine .inl ⟨?_, hlegible, hstarts⟩
      simp only [connect, hok, hw]
    · refine .inr ⟨_, ?_, .time hpaths hlegible hcell huntimed⟩
      simp only [connect, hok, he]
  · refine .inr ⟨e, ?_, .file hdefect⟩
    simp only [connect, he]

/-- A fault of the files is what connecting them fails with. -/
theorem connect_of_fault (h : ConnectFault t m.paths e) : (m.connect t).result = .error e := by
  cases h with
  | file defect => simp only [connect, openAll_of_firstDefect defect]
  | @time primary cell rest registered legible first untimed =>
    have hok := openAll_of_legible legible
    rcases firstWatermark_cases hok with
      ⟨w, -, hstarts⟩ | ⟨primary', rest', cell', hpaths, hcell, -, he⟩
    · obtain ⟨time, htime⟩ := hstarts primary cell (by rw [registered]; rfl) first
      rw [untimed] at htime
      cases htime
    · rw [registered] at hpaths
      injection hpaths with hprimary
      subst hprimary
      rw [← first.unique hcell] at he
      simp only [connect, hok, he]

theorem connect_ok_iff :
    (m.connect t).result = .ok () ↔
      (∀ path ∈ m.paths, Legible t path) ∧ StartsInTime t m.paths := by
  constructor
  · intro hok
    rcases connect_result_cases t m with ⟨-, hfiles⟩ | ⟨e, he, -⟩
    · exact hfiles
    · rw [hok] at he
      cases he
  · intro hfiles
    obtain ⟨hlegible, hstarts⟩ := hfiles
    have hok := openAll_of_legible hlegible
    rcases firstWatermark_cases hok with
      ⟨w, hw, -⟩ | ⟨primary, rest, cell, hpaths, hcell, huntimed, -⟩
    · simp only [connect, hok, hw]
    · obtain ⟨time, htime⟩ := hstarts primary cell (by rw [hpaths]; rfl) hcell
      rw [huntimed] at htime
      cases htime

theorem connect_error_iff : (m.connect t).result = .error e ↔ ConnectFault t m.paths e := by
  constructor
  · intro herror
    rcases connect_result_cases t m with ⟨hok, -⟩ | ⟨e', he, hfault⟩
    · rw [hok] at herror
      cases herror
    · rw [herror] at he
      injection he with he
      exact he ▸ hfault
  · exact connect_of_fault

/-! ## §2. What a failure leaves. -/

theorem connect_of_failed (h : (m.connect t).result ≠ .ok ()) :
    (m.connect t).state = m.disconnect := by
  rcases connect_cases t m with ⟨e, -, -, hs⟩ | ⟨e, -, -, -, hs⟩ | ⟨w, -, -, hok, -⟩
  · exact hs
  · exact hs
  · exact absurd hok h

/-- Only a request to connect ends being unconnected, and only if it succeeds. -/
theorem unconnected_ask {q : Request} (h : m.phase = .unconnected)
    (hq : ∀ t, q = .connect t → (m.connect t).result ≠ .ok ()) :
    (m.ask q).phase = .unconnected := by
  cases q with
  | add path => exact h
  | clear => rfl
  | disconnect => rfl
  | connect t =>
    show (m.connect t).state.phase = .unconnected
    rw [connect_of_failed (hq t rfl)]
    rfl
  | next codec =>
    show (m.next codec).state.phase = .unconnected
    simp only [next, h]

/-- **What connecting comes to.**  It succeeds iff every registered file is
legible and the primary one starts in time; it fails with the defect of the
first file that has one, and with the unreadable time of the primary file if
none has.  After a failure no file is open, the merge is not connected and
has no watermark, and the files stay registered; whatever is asked of it
then, every request for a record comes to none, gives no signal and so
counts nothing, until connecting succeeds. -/
theorem connect_outcome (t : FileTree) (m : Merge) :
    ((m.connect t).result = .ok () ↔
      (∀ path ∈ m.paths, Legible t path) ∧ StartsInTime t m.paths) ∧
    (∀ e, (m.connect t).result = .error e ↔ ConnectFault t m.paths e) ∧
    ((m.connect t).result ≠ .ok () →
      let left := (m.connect t).state
      (∀ s ∈ left.sources, s.feed = none) ∧ left.isConnected = false ∧
      left.watermark = none ∧ left.paths = m.paths ∧
      ∀ qs : List Request,
        (∀ m' t', (m', Request.connect t') ∈ left.trace qs → (m'.connect t').result ≠ .ok ()) →
          ∀ m' codec, (m', Request.next codec) ∈ left.trace qs →
            m'.next codec = ⟨.ok none, m', []⟩) := by
  refine ⟨connect_ok_iff, fun e => connect_error_iff, ?_⟩
  intro hfailed left
  have hleft : left = m.disconnect := connect_of_failed hfailed
  have hphase : left.phase = .unconnected := hleft ▸ rfl
  refine ⟨?_, ?_, ?_, hleft ▸ paths_disconnect m, ?_⟩
  · intro s hs
    rw [hleft] at hs
    obtain ⟨source, -, rfl⟩ := List.mem_map.1 hs
    rfl
  · show (left.phase != .unconnected) = false
    rw [hphase]
    rfl
  · unfold watermark
    rw [hphase]
  · intro qs hconnects m' codec hmem
    -- Along the trace the merge stays unconnected.
    have hall := trace_induction (P := fun m' => m'.phase = .unconnected)
      (fun m₁ q hq hm₁ => unconnected_ask hm₁ fun t' ht' => hconnects m₁ t' (ht' ▸ hq)) hphase
    have hm' : m'.phase = .unconnected := hall m' _ hmem
    simp only [next, hm']

/-- A file that is not there cannot be connected, and keeps registered. -/
theorem connect_outcome_noFile :
    let m := (new .lenient).add "a.csv"
    let left := (m.connect ⟨[]⟩).state
    (m.connect ⟨[]⟩).result ≠ .ok () ∧ left.isConnected = false ∧ left.paths = ["a.csv"] ∧
      ∀ codec, left.next codec = ⟨.ok none, left, []⟩ := by
  intro m left
  obtain ⟨-, -, hleft⟩ := connect_outcome ⟨[]⟩ m
  have hfailed : (m.connect ⟨[]⟩).result ≠ .ok () := by
    intro hok
    have hnone : (m.connect ⟨[]⟩).result.toOption = none := by decide +kernel
    rw [hok] at hnone
    cases hnone
  obtain ⟨-, hconnected, -, hpaths, hnext⟩ := hleft hfailed
  refine ⟨hfailed, hconnected, hpaths, ?_⟩
  intro codec
  refine hnext [.next codec] ?_ left codec List.mem_cons_self
  intro m' t' hmem
  cases List.mem_singleton.1 hmem

end ReportStore.Merge
