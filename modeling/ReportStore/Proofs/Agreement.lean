/-
  ReportStore.Proofs.Agreement
  ────────────────────────────
  **THE JOURNAL AND THE COUNTERS AGREE.**

  Under the lowest severity every event has its line, so a counter can be
  read off the journal: it is the number of lines about the events that it
  goes with, whatever was done with the store and however it ended.

      records merged  =  lines about records that were merged
      save failures   =  lines about mismatched headers + about other failures

  A stream is told to have ended only after it began, so there is one end at
  most from a connection to the next.
-/
import ReportStore.Proofs.Session

namespace ReportStore

/-! ## §1. Lines about an event. -/

/-- How many lines are about an event. -/
def linesAbout (e : Event) (lines : List String) : Nat :=
  lines.countP fun line => lineEvent line = some e.name

/-- The lines about an event are as many as the event is reported. -/
theorem linesAbout_eq {lines : List String} {events : List Event}
    (h : lines.map lineEvent = events.map fun e => some e.name) (e : Event) :
    linesAbout e lines = events.count e := by
  have hlines : linesAbout e lines =
      (lines.map lineEvent).countP fun named => named = some e.name := by
    rw [List.countP_map]
    rfl
  rw [hlines, h, List.countP_map]
  refine List.countP_congr fun e' _ => ?_
  simp only [Function.comp_apply, Option.some.injEq, decide_eq_true_eq, beq_iff_eq]
  exact ⟨Event.name_injective, congrArg Event.name⟩

/-- A stretch of the lines is about a stretch of the events. -/
theorem exists_stretch {before between after : List String} {events : List Event}
    (h : (before ++ between ++ after).map lineEvent = events.map fun e => some e.name) :
    ∃ first stretch last, events = first ++ stretch ++ last ∧
      between.map lineEvent = stretch.map fun e => some e.name := by
  rw [List.map_append, List.map_append] at h
  obtain ⟨front, last, rfl, hfront, -⟩ := List.map_eq_append_iff.1 h.symm
  obtain ⟨first, stretch, rfl, -, hstretch⟩ := List.map_eq_append_iff.1 hfront
  exact ⟨first, stretch, last, rfl, hstretch.symm⟩

/-- The events that go with a counter. -/
theorem countP_counter (events : List Event) :
    (events.countP (fun e => e.counter = some .recordsMerged) = events.count .recordMerged) ∧
    (events.countP (fun e => e.counter = some .rowsSkipped) = events.count .rowSkipped) ∧
    (events.countP (fun e => e.counter = some .headersWritten) = events.count .headerWritten) ∧
    (events.countP (fun e => e.counter = some .saveFailures) =
      events.count .headerMismatch + events.count .saveFailed) := by
  induction events with
  | nil => exact ⟨rfl, rfl, rfl, rfl⟩
  | cons e rest ih =>
    obtain ⟨hmerged, hskipped, hheaders, hfailures⟩ := ih
    simp only [List.countP_cons, List.count_cons, hmerged, hskipped, hheaders, hfailures]
    cases e <;> simp [Event.counter] <;> omega

/-! ## §2. From the start. -/

/-- A stream that has begun ends once at most before the next begins. -/
theorem count_ended_le_one {first stretch last : List Event} {live live' : Bool}
    (h : streamAfter live (first ++ stretch ++ last) = some live')
    (hstretch : Event.connected ∉ stretch) : stretch.count .streamEnded ≤ 1 := by
  rw [streamAfter_append, streamAfter_append] at h
  obtain ⟨afterStretch, hafter, -⟩ := Option.bind_eq_some_iff.1 h
  obtain ⟨afterFirst, -, hthen⟩ := Option.bind_eq_some_iff.1 hafter
  have hcount := count_ended_of_streamAfter hstretch hthen
  have hle : afterFirst.toNat ≤ 1 := Bool.toNat_le afterFirst
  omega

namespace Session

/-- The lines that some operations write under the lowest severity. -/
def journal (s : Session) (ops : List Operation) : List String := (s.run .trace ops).lines

/-- The counters after some operations. -/
def counted (s : Session) (ops : List Operation) : Tally := (s.run .trace ops).session.store.tally

/-- **The journal and the counters of some operations agree.** -/
structure Agrees (s : Session) (ops : List Operation) : Prop where
  merged : linesAbout .recordMerged (s.journal ops) = (s.counted ops).recordsMerged
  skipped : linesAbout .rowSkipped (s.journal ops) = (s.counted ops).rowsSkipped
  headers : linesAbout .headerWritten (s.journal ops) = (s.counted ops).headersWritten
  failures : linesAbout .headerMismatch (s.journal ops) + linesAbout .saveFailed (s.journal ops) =
    (s.counted ops).saveFailures
  saved : linesAbout .recordSaved (s.journal ops) = s.savedByAll ops
  /-- In a stretch of lines without a connection, such as from one to the
  next, there is at most one end of a stream. -/
  ended : ∀ before between after, s.journal ops = before ++ between ++ after →
    linesAbout .connected between = 0 → linesAbout .streamEnded between ≤ 1

/-- **The journal of a store agrees with its counters**, with any codec,
settings and files, after any operations, failed ones included: the lines
about merged records, skipped rows, written headers and failed saves are as
many as were counted, those about saved records as many as saves succeeded,
and no stream ends twice. -/
theorem journal_agrees (codec : Codec) (settings : Settings) (t : FileTree)
    (ops : List Operation) : Agrees ⟨t, Store.ofSettings codec settings⟩ ops := by
  generalize hs : (⟨t, Store.ofSettings codec settings⟩ : Session) = s
  obtain ⟨hzero, hphase⟩ := Store.ofSettings_new codec settings
  obtain ⟨signals, htells, hlines⟩ := s.run_tells ops
  obtain ⟨events, htold⟩ := htells.told
  have hnamed : (s.journal ops).map lineEvent = events.map fun e => some e.name := by
    unfold journal
    rw [hlines]
    exact htold.reported.map_lineEvent
  have hcount : ∀ c, c ≠ .rowsRead → c ≠ .rowsWritten →
      (s.counted ops).get c = events.countP fun e => e.counter = some c := by
    intro c hread hwritten
    have hrecord : s.counted ops = Tally.record .zero signals := by
      rw [← hzero]
      subst hs
      exact htells.tally
    rw [hrecord, Tally.get_record, htold.reported.count_eq hread hwritten]
    cases c <;> exact Nat.zero_add _
  obtain ⟨hmerged, hskipped, hheaders, hfailures⟩ := countP_counter events
  refine ⟨?_, ?_, ?_, ?_, ?_, ?_⟩
  · rw [linesAbout_eq hnamed, ← hmerged]
    exact (hcount .recordsMerged (by decide) (by decide)).symm
  · rw [linesAbout_eq hnamed, ← hskipped]
    exact (hcount .rowsSkipped (by decide) (by decide)).symm
  · rw [linesAbout_eq hnamed, ← hheaders]
    exact (hcount .headersWritten (by decide) (by decide)).symm
  · rw [linesAbout_eq hnamed, linesAbout_eq hnamed, ← hfailures]
    exact (hcount .saveFailures (by decide) (by decide)).symm
  · rw [linesAbout_eq hnamed]
    exact htold.saved
  · intro before between after hsplit hnone
    rw [hsplit] at hnamed
    obtain ⟨first, stretch, last, rfl, hstretch⟩ := exists_stretch hnamed
    rw [linesAbout_eq hstretch, List.count_eq_zero] at hnone
    rw [linesAbout_eq hstretch]
    -- A new store has no stream, so none has begun before the first connection.
    have hunconnected : ¬ s.store.merge.Running := by
      rintro ⟨w, hw⟩
      subst hs
      rw [hphase] at hw
      cases hw
    obtain ⟨live, hlive, -⟩ := htold.stream false fun h => absurd h hunconnected
    exact count_ended_le_one hlive hnone

/-- A report with another column than the one before it. -/
def driftedReport : Record := Dict.insert laterReport "freq" (.int 3)

/-- A store that reads back the file that it writes. -/
def freshSettings : Settings := { Settings.defaults "" with files := ["s-t/PowerReport.csv"] }

/-- A report is saved, another one does not fit its file, and the file is read
past its end. -/
def shortDay : List Operation :=
  [.save laterReport, .saveMany [driftedReport, laterReport], .connect, .next, .next, .next]

theorem journal_agrees_shortDay :
    let s : Session := ⟨⟨[]⟩, Store.ofSettings .power freshSettings⟩
    let afterConnecting := (s.journal shortDay).drop 5
    Agrees s shortDay ∧ s.counted shortDay = ⟨1, 0, 1, 1, 1, 1⟩ ∧ s.savedByAll shortDay = 1 ∧
    linesAbout .connected afterConnecting = 0 ∧ linesAbout .streamEnded afterConnecting ≤ 1 := by
  intro s afterConnecting
  have hagrees : Agrees s shortDay := journal_agrees .power freshSettings ⟨[]⟩ shortDay
  have hnone : linesAbout .connected afterConnecting = 0 := by decide +kernel
  have hsplit : s.journal shortDay = (s.journal shortDay).take 5 ++ afterConnecting ++ [] := by
    rw [List.append_nil, List.take_append_drop]
  exact ⟨hagrees, by decide +kernel, by decide +kernel, hnone,
    hagrees.ended _ afterConnecting [] hsplit hnone⟩

end Session

end ReportStore
