/-
  ReportStore.Proofs.Merge.Strict
  ───────────────────────────────
  **A STRICT MERGE IS A LENIENT ONE UP TO THE FIRST LATE ROW.**

  The two differ in nothing but what they make of a row behind the
  watermark.  So a pass over a file, a sweep over the files, a step and a run
  each come to the same in both, or there is a first late row that the
  lenient one meets, and the strict one fails with it:

      no late row met     →   strict = lenient
      first late row met  →   strict = error (outOfOrder path time watermark)

  Which rows the lenient one meets is said of its own states: a pass that is
  cut short after some looks holds the row that it would look at next.  A
  step that does not fail counts a skipped row iff it meets one.
-/
import Mathlib.Data.Nat.Find
import ReportStore.Proofs.Merge.Files
import ReportStore.Proofs.Merge.Requests
import ReportStore.Proofs.Merge.Run

namespace ReportStore

/-- The row held stands behind a watermark, at an earlier time. -/
def Feed.Behind (w : Int) (f : Feed) (time : Int) : Prop :=
  ∃ row, f.held = some row ∧ row.time? = some time ∧ time < w

namespace Merge

variable {codec : Codec} {w : Int} {f : Feed} {merged : Record}

/-! ## §1. What a lenient merge meets. -/

/-- A lenient pass over a file comes to a row behind the watermark once it
has looked at some records: it is not over by then and holds the row. -/
def PassMeets (codec : Codec) (w : Int) (f : Feed) (merged : Record) (looks : Nat) (time : Int) :
    Prop :=
  let cut := drainWithin codec .lenient w looks f merged
  cut.result = .ok none ∧ cut.feed.Behind w time

/-- A lenient sweep comes to a file, and its pass over it to a row behind the
watermark. -/
def SweepMeets (codec : Codec) (w : Int) (ss : List Source) (merged : Record)
    (file looks : Nat) (path : String) (time : Int) : Prop :=
  let before := sweep codec .lenient w (ss.take file) merged
  before.result = .ok () ∧
    ∃ f, ss[file]? = some ⟨path, some f⟩ ∧ PassMeets codec w f before.merged looks time

/-- A lenient step meets a row behind its watermark: the file, how many of
its records the step has looked at before, and the path and the time. -/
def Meets (codec : Codec) (m : Merge) (file looks : Nat) (path : String) (time : Int) : Prop :=
  ∃ w, m.phase = .connected (some w) ∧ SweepMeets codec w m.sources [] file looks path time

/-- The path and the time of the first row met, by the order of the files
and then of the records in each. -/
def FirstMet (meets : Nat → Nat → String → Int → Prop) (path : String) (time : Int) : Prop :=
  ∃ file looks, meets file looks path time ∧
    ∀ file' looks' path' time', meets file' looks' path' time' →
      file < file' ∨ (file = file' ∧ looks ≤ looks')

/-- No row is met. -/
def NoneMet (meets : Nat → Nat → String → Int → Prop) : Prop :=
  ∀ file looks path time, ¬ meets file looks path time

theorem not_noneMet_iff {meets : Nat → Nat → String → Int → Prop} :
    ¬ NoneMet meets ↔ ∃ file looks path time, meets file looks path time := by
  simp [NoneMet]

theorem FirstMet.not_noneMet {meets : Nat → Nat → String → Int → Prop} {path : String} {time : Int}
    (h : FirstMet meets path time) : ¬ NoneMet meets := by
  intro hnone
  obtain ⟨file, looks, hmeets, -⟩ := h
  exact hnone file looks path time hmeets

section

variable {meets later : Nat → Nat → String → Int → Prop}
  (hzero : ∀ looks path time, ¬ meets 0 looks path time)
  (hsucc : ∀ file looks path time,
    meets (file + 1) looks path time ↔ later file looks path time)
include hzero hsucc

/-- A file in front in which none is met changes nothing. -/
theorem NoneMet.of_later (h : NoneMet later) : NoneMet meets := by
  intro file looks path time hmeets
  cases file with
  | zero => exact hzero looks path time hmeets
  | succ file => exact h file looks path time ((hsucc file looks path time).1 hmeets)

theorem FirstMet.of_later {path : String} {time : Int} (h : FirstMet later path time) :
    FirstMet meets path time := by
  obtain ⟨file, looks, hmeets, hfirst⟩ := h
  refine ⟨file + 1, looks, (hsucc file looks path time).2 hmeets, ?_⟩
  intro file' looks' path' time' hmeets'
  cases file' with
  | zero => exact absurd hmeets' (hzero looks' path' time')
  | succ file' =>
    have hle := hfirst file' looks' path' time' ((hsucc file' looks' path' time').1 hmeets')
    omega

end

/-! ## §2. One file. -/

/-- What looking at the next record of a file comes to.  Only the first case
depends on the strictness. -/
inductive Look (codec : Codec) (w : Int) (f : Feed) (merged : Record) : Prop where
  /-- The row held is behind the watermark. -/
  | behind {time : Int} (late : f.Behind w time)
  /-- The pass is over; if by itself, then because no row is left. -/
  | stops {d : Drained} (reached : ∀ time, ¬ f.Behind w time)
      (held : d.result = .ok none → d.feed.held = none) (quiet : d.signals = [])
      (pass : ∀ strictness limit, drainWithin codec strictness w (limit + 1) f merged = d)
  /-- The row held is taken. -/
  | takes {next : Feed} {united : Record} (reached : ∀ time, ¬ f.Behind w time)
      (path : next.path = f.path) (remaining : next.remaining + 1 = f.remaining)
      (pass : ∀ strictness limit, drainWithin codec strictness w (limit + 1) f merged =
        (drainWithin codec strictness w limit next united).after [.count .rowsRead])

theorem look (codec : Codec) (w : Int) (f : Feed) (merged : Record) : Look codec w f merged := by
  by_cases hlate : ∃ time, f.Behind w time
  · obtain ⟨time, hlate⟩ := hlate
    exact .behind hlate
  · have hreached : ∀ time, ¬ f.Behind w time := not_exists.1 hlate
    cases hheld : f.held with
    | none =>
      refine .stops (d := ⟨.ok none, f, merged, []⟩) hreached (fun _ => hheld) rfl ?_
      intro strictness limit
      simp only [drainWithin, hheld]
    | some row =>
      cases htime : row.time? with
      | none =>
        refine .stops (d := ⟨.error (.badTimestamp f.path (Feed.timeCell row)), f, merged, []⟩)
          hreached nofun rfl ?_
        intro strictness limit
        simp only [drainWithin, hheld, verdict_eq, htime]
      | some t =>
        by_cases hahead : w < t
        · refine .stops (d := ⟨.ok (some t), f, merged, []⟩) hreached nofun rfl ?_
          intro strictness limit
          simp only [drainWithin, hheld, verdict_eq, htime, if_pos hahead]
        · -- What is neither behind nor ahead stands at the watermark.
          have hdue : t = w := by
            have hnot : ¬ t < w := fun hlt => hreached t ⟨row, hheld, htime, hlt⟩
            omega
          subst hdue
          have hverdict : ∀ strictness, verdict strictness t f.path row = .take := by
            intro strictness
            simp only [verdict_eq, htime, if_neg hahead, if_true]
          cases hadvance : f.advance with
          | mk result next =>
            cases result with
            | error e =>
              refine .stops (d := ⟨.error e, next, merged, []⟩) hreached nofun rfl ?_
              intro strictness limit
              simp only [drainWithin, hheld, hverdict, hadvance]
            | ok taken =>
              obtain ⟨-, hpath, -, hremaining⟩ := Feed.rows_of_advance_ok hheld hadvance
              cases hrow : codec.ofRow f.fileName row with
              | error e =>
                refine .stops (d := ⟨.error e, next, merged, []⟩) hreached nofun rfl ?_
                intro strictness limit
                simp only [drainWithin, hheld, hverdict, hadvance, hrow]
              | ok fragment =>
                have hpass : ∀ strictness limit,
                    drainWithin codec strictness t (limit + 1) f merged =
                      (drainWithin codec strictness t limit next
                        (Record.union merged fragment)).after [.count .rowsRead] := by
                  intro strictness limit
                  simp only [drainWithin, hheld, hverdict, hadvance, hrow]
                exact .takes hreached hpath hremaining hpass

/-- Before its first look a pass meets the row held, if that is late. -/
theorem passMeets_zero {time : Int} : PassMeets codec w f merged 0 time ↔ f.Behind w time := by
  show (Except.ok none = Except.ok none ∧ f.Behind w time) ↔ _
  simp

/-- A pass that is over meets nothing. -/
theorem not_passMeets_of_stops {d : Drained} (reached : ∀ time, ¬ f.Behind w time)
    (held : d.result = .ok none → d.feed.held = none)
    (pass : ∀ strictness limit, drainWithin codec strictness w (limit + 1) f merged = d)
    (looks : Nat) (time : Int) : ¬ PassMeets codec w f merged looks time := by
  intro h
  cases looks with
  | zero => exact reached time (passMeets_zero.1 h)
  | succ looks =>
    unfold PassMeets at h
    rw [pass] at h
    obtain ⟨hok, row, hrow, -⟩ := h
    rw [held hok] at hrow
    cases hrow

/-- After a look that takes the row held the pass meets what it meets from
there. -/
theorem passMeets_succ_of_takes {next : Feed} {united : Record}
    (pass : ∀ strictness limit, drainWithin codec strictness w (limit + 1) f merged =
      (drainWithin codec strictness w limit next united).after [.count .rowsRead])
    {looks : Nat} {time : Int} :
    PassMeets codec w f merged (looks + 1) time ↔ PassMeets codec w next united looks time := by
  unfold PassMeets
  rw [pass]
  rfl

/-- What a strict pass over a file comes to beside the lenient one. -/
inductive PassRefines (codec : Codec) (w : Int) (f : Feed) (merged : Record) : Prop where
  /-- The lenient one meets no late row, and the strict one is the same. -/
  | same (unmet : ∀ looks time, ¬ PassMeets codec w f merged looks time)
      (pass : ∀ limit, drainWithin codec .strict w limit f merged =
        drainWithin codec .lenient w limit f merged)
  /-- The strict one fails with the first late row that the lenient one meets. -/
  | fails {looks : Nat} {time : Int} (met : PassMeets codec w f merged looks time)
      (first : ∀ looks' time', PassMeets codec w f merged looks' time' → looks ≤ looks')
      (pass : ∀ limit, f.remaining ≤ limit →
        (drainWithin codec .strict w limit f merged).result =
          .error (.outOfOrder f.path time w))

/-- **A strict pass** refines the lenient one.  The recursion is on what is
left of the file: a look takes one record, or settles the pass. -/
theorem pass_refines (codec : Codec) (w : Int) (f : Feed) (merged : Record) :
    PassRefines codec w f merged := by
  cases look codec w f merged with
  | @behind time late =>
    refine .fails (passMeets_zero.2 late) (fun _ _ _ => Nat.zero_le _) ?_
    intro limit hlimit
    obtain ⟨row, hheld, htime, hlt⟩ := late
    cases limit with
    | zero => simp [Feed.remaining, hheld] at hlimit
    | succ limit =>
      have hahead : ¬ w < time := by omega
      have hdue : ¬ time = w := by omega
      simp only [drainWithin, hheld, verdict_eq, htime, if_neg hahead, if_neg hdue]
  | stops reached held quiet pass =>
    refine .same (not_passMeets_of_stops reached held pass) ?_
    intro limit
    cases limit with
    | zero => rfl
    | succ limit => rw [pass, pass]
  | @takes next united reached path remaining pass =>
    have hfirst : ∀ time, ¬ PassMeets codec w f merged 0 time :=
      fun time h => reached time (passMeets_zero.1 h)
    cases pass_refines codec w next united with
    | same unmet hsame =>
      refine .same ?_ ?_
      · intro looks time h
        cases looks with
        | zero => exact hfirst time h
        | succ looks => exact unmet looks time ((passMeets_succ_of_takes pass).1 h)
      · intro limit
        cases limit with
        | zero => rfl
        | succ limit => rw [pass, pass, hsame]
    | @fails looks time met first hfails =>
      refine .fails ((passMeets_succ_of_takes pass).2 met) ?_ ?_
      · intro looks' time' h
        cases looks' with
        | zero => exact absurd h (hfirst time')
        | succ looks' =>
          have hle := first looks' time' ((passMeets_succ_of_takes pass).1 h)
          omega
      · intro limit hlimit
        cases limit with
        | zero => omega
        | succ limit =>
          rw [pass, ← path]
          exact hfails limit (by omega)
termination_by f.remaining

/-! ## §3. Many files. -/

/-- The feeds of the registered files have the paths of the files. -/
def Named (ss : List Source) : Prop := ∀ s ∈ ss, ∀ f ∈ s.feed, f.path = s.path

theorem sweepMeets_zero {s : Source} {rest : List Source} {looks : Nat} {path : String}
    {time : Int} :
    SweepMeets codec w (s :: rest) merged 0 looks path time ↔
      ∃ f, s = ⟨path, some f⟩ ∧ PassMeets codec w f merged looks time := by
  constructor
  · intro h
    obtain ⟨-, f, hf, hmeets⟩ := h
    injection hf with hf
    exact ⟨f, hf, hmeets⟩
  · intro h
    obtain ⟨f, rfl, hmeets⟩ := h
    exact ⟨rfl, f, rfl, hmeets⟩

/-- A file that is not open changes nothing for those after it. -/
theorem sweepMeets_succ_closed {closed path : String} {rest : List Source} {file looks : Nat}
    {time : Int} :
    SweepMeets codec w (⟨closed, none⟩ :: rest) merged (file + 1) looks path time ↔
      SweepMeets codec w rest merged file looks path time := Iff.rfl

/-- The files after an open one are come to if the pass over it succeeds. -/
theorem sweepMeets_succ_open {first path : String} {rest : List Source} {file looks : Nat}
    {time : Int} :
    SweepMeets codec w (⟨first, some f⟩ :: rest) merged (file + 1) looks path time ↔
      (∃ waiting, (drain codec .lenient w f merged).result = .ok waiting) ∧
        SweepMeets codec w rest (drain codec .lenient w f merged).merged file looks path time := by
  unfold SweepMeets
  rw [List.take_succ_cons, List.getElem?_cons_succ]
  cases hresult : (drain codec .lenient w f merged).result with
  | error e =>
    rw [sweep_of_error hresult]
    simp
  | ok waiting =>
    rw [sweep_of_ok hresult]
    simp

/-- What a strict sweep comes to beside the lenient one. -/
inductive SweepRefines (codec : Codec) (w : Int) (ss : List Source) (merged : Record) : Prop where
  /-- The lenient one meets no late row, and the strict one is the same. -/
  | same (unmet : NoneMet (SweepMeets codec w ss merged))
      (swept : sweep codec .strict w ss merged = sweep codec .lenient w ss merged)
  /-- The strict one fails with the first late row that the lenient one meets. -/
  | fails {path : String} {time : Int} (first : FirstMet (SweepMeets codec w ss merged) path time)
      (swept : (sweep codec .strict w ss merged).result = .error (.outOfOrder path time w))

theorem SweepRefines.closed {rest : List Source} (h : SweepRefines codec w rest merged)
    (path : String) : SweepRefines codec w (⟨path, none⟩ :: rest) merged := by
  have hzero : ∀ looks path' time,
      ¬ SweepMeets codec w (⟨path, none⟩ :: rest) merged 0 looks path' time := by
    intro looks path' time h
    obtain ⟨f, hf, -⟩ := sweepMeets_zero.1 h
    cases hf
  have hsucc : ∀ file looks path' time,
      SweepMeets codec w (⟨path, none⟩ :: rest) merged (file + 1) looks path' time ↔
        SweepMeets codec w rest merged file looks path' time :=
    fun _ _ _ _ => sweepMeets_succ_closed
  cases h with
  | same unmet swept => exact .same (unmet.of_later hzero hsucc) (by rw [sweep, sweep, swept])
  | fails first swept => exact .fails (first.of_later hzero hsucc) swept

/-- If the pass over the first file is the same, the files after it decide,
unless the pass fails and none of them is come to. -/
theorem SweepRefines.of_same {path : String} {rest : List Source}
    (unmet : ∀ looks time, ¬ PassMeets codec w f merged looks time)
    (pass : drain codec .strict w f merged = drain codec .lenient w f merged)
    (later : SweepRefines codec w rest (drain codec .lenient w f merged).merged) :
    SweepRefines codec w (⟨path, some f⟩ :: rest) merged := by
  have hzero : ∀ looks path' time,
      ¬ SweepMeets codec w (⟨path, some f⟩ :: rest) merged 0 looks path' time := by
    intro looks path' time h
    obtain ⟨g, hg, hmet⟩ := sweepMeets_zero.1 h
    cases hg
    exact unmet looks time hmet
  cases hresult : (drain codec .lenient w f merged).result with
  | error e =>
    refine .same ?_ ?_
    · intro file looks path' time h
      cases file with
      | zero => exact hzero looks path' time h
      | succ file =>
        obtain ⟨⟨waiting, hok⟩, -⟩ := sweepMeets_succ_open.1 h
        rw [hresult] at hok
        cases hok
    · rw [sweep_of_error (pass ▸ hresult), sweep_of_error hresult, pass]
  | ok waiting =>
    have hsucc : ∀ file looks path' time,
        SweepMeets codec w (⟨path, some f⟩ :: rest) merged (file + 1) looks path' time ↔
          SweepMeets codec w rest (drain codec .lenient w f merged).merged file looks path'
            time := by
      intro file looks path' time
      rw [sweepMeets_succ_open, and_iff_right ⟨waiting, hresult⟩]
    cases later with
    | same unmet' swept =>
      refine .same (unmet'.of_later hzero hsucc) ?_
      rw [sweep_of_ok (pass ▸ hresult), sweep_of_ok hresult, pass, swept]
    | fails first swept =>
      refine .fails (first.of_later hzero hsucc) ?_
      rw [sweep_of_ok (pass ▸ hresult), pass]
      exact swept

/-- A late row in the first file ends the strict sweep there. -/
theorem SweepRefines.of_fails {looks : Nat} {time : Int}
    (met : PassMeets codec w f merged looks time)
    (first : ∀ looks' time', PassMeets codec w f merged looks' time' → looks ≤ looks')
    (pass : (drain codec .strict w f merged).result = .error (.outOfOrder f.path time w))
    (rest : List Source) : SweepRefines codec w (⟨f.path, some f⟩ :: rest) merged := by
  refine .fails ⟨0, looks, sweepMeets_zero.2 ⟨f, rfl, met⟩, ?_⟩ (by rw [sweep_of_error pass])
  intro file' looks' path' time' h
  cases file' with
  | zero =>
    obtain ⟨g, hg, hmet⟩ := sweepMeets_zero.1 h
    cases hg
    exact .inr ⟨rfl, first looks' time' hmet⟩
  | succ file' => exact .inl (Nat.succ_pos file')

/-- **A strict sweep** refines the lenient one, file by file. -/
theorem sweep_refines (codec : Codec) (w : Int) : ∀ {ss : List Source}, Named ss →
    ∀ merged : Record, SweepRefines codec w ss merged := by
  intro ss
  induction ss with
  | nil =>
    intro _ merged
    refine .same ?_ rfl
    intro file looks path time h
    obtain ⟨-, f, hf, -⟩ := h
    cases hf
  | cons s rest ih =>
    intro hnamed merged
    obtain ⟨hs, hrest⟩ := List.forall_mem_cons.1 hnamed
    obtain ⟨path, feed⟩ := s
    cases feed with
    | none => exact (ih hrest merged).closed path
    | some f =>
      obtain rfl : f.path = path := hs f rfl
      cases pass_refines codec w f merged with
      | same unmet pass => exact .of_same unmet (pass f.remaining) (ih hrest _)
      | fails met first pass =>
        exact .of_fails met first (pass f.remaining (Nat.le_refl _)) rest

/-! ## §4. One step. -/

variable {m : Merge} {t : FileTree}

/-- The same merge, strict. -/
def strictly (m : Merge) : Merge := { m with strictness := .strict }

/-- The same merge, lenient. -/
def leniently (m : Merge) : Merge := { m with strictness := .lenient }

/-- Only a step at a watermark looks at rows. -/
theorem noneMet_of_phase (h : ∀ w, m.phase ≠ .connected (some w)) : NoneMet (Meets codec m) := by
  intro file looks path time hmeets
  obtain ⟨w, hw, -⟩ := hmeets
  exact h w hw

theorem meets_eq (hphase : m.phase = .connected (some w)) :
    Meets codec m = SweepMeets codec w m.sources [] := by
  funext file looks path time
  refine propext ⟨?_, fun h => ⟨w, hphase, h⟩⟩
  intro h
  obtain ⟨v, hv, h⟩ := h
  rw [hphase] at hv
  injection hv with hv
  injection hv with hv
  exact hv ▸ h

/-- **A strict step** is the lenient one, or fails with the first late row
that the lenient one meets. -/
theorem next_strict (codec : Codec) (hlenient : m.strictness = .lenient)
    (hnamed : Named m.sources) :
    (NoneMet (Meets codec m) ∧ m.strictly.next codec =
      ⟨(m.next codec).result, (m.next codec).state.strictly, (m.next codec).signals⟩) ∨
    ∃ path time w, FirstMet (Meets codec m) path time ∧ m.phase = .connected (some w) ∧
      (m.strictly.next codec).result = .error (.outOfOrder path time w) := by
  have hphase : m.strictly.phase = m.phase := rfl
  cases hm : m.phase with
  | unconnected | ended =>
    refine .inl ⟨noneMet_of_phase (by simp [hm]), ?_⟩
    simp only [next, hphase, hm]
  | connected watermark =>
    cases watermark with
    | none =>
      refine .inl ⟨noneMet_of_phase (by simp [hm]), ?_⟩
      simp only [next, hphase, hm]
      rfl
    | some w =>
      rw [meets_eq hm]
      cases sweep_refines codec w hnamed [] with
      | same unmet swept =>
        refine .inl ⟨unmet, ?_⟩
        have hswept : sweep codec m.strictly.strictness w m.strictly.sources [] =
            sweep codec m.strictness w m.sources [] := by
          rw [hlenient]
          exact swept
        simp only [next, hphase, hm, hswept]
        -- What comes after the sweep does not look at the strictness.
        generalize sweep codec m.strictness w m.sources [] = swept
        cases swept.result with
        | error e => rfl
        | ok u =>
          cases swept.merged.isEmpty with
          | true => rfl
          | false => rfl
      | @fails path time first swept =>
        have herror : (sweep codec m.strictly.strictness w m.strictly.sources []).result =
            .error (.outOfOrder path time w) := swept
        refine .inr ⟨path, time, w, first, rfl, ?_⟩
        simp only [next, hphase, hm, herror]

/-! ## §5. What is met is counted. -/

/-- A lenient pass that succeeds counts a skipped row iff it meets a late one. -/
theorem pass_skips (codec : Codec) (w : Int) (f : Feed) (merged : Record) {limit : Nat}
    (hlimit : f.remaining ≤ limit) {waiting : Option Int}
    (hok : (drainWithin codec .lenient w limit f merged).result = .ok waiting) :
    .count .rowsSkipped ∈ (drainWithin codec .lenient w limit f merged).signals ↔
      ∃ looks time, PassMeets codec w f merged looks time := by
  cases look codec w f merged with
  | @behind time late =>
    refine iff_of_true ?_ ⟨0, time, passMeets_zero.2 late⟩
    obtain ⟨row, hheld, htime, hlt⟩ := late
    cases limit with
    | zero => simp [Feed.remaining, hheld] at hlimit
    | succ limit =>
      have hahead : ¬ w < time := by omega
      have hdue : ¬ time = w := by omega
      simp only [drainWithin, hheld, verdict_eq, htime, if_neg hahead, if_neg hdue] at hok ⊢
      cases hadvance : f.advance with
      | mk result next =>
        cases result with
        | error e =>
          rw [hadvance] at hok
          cases hok
        | ok taken => exact List.mem_append_left _ List.mem_cons_self
  | stops reached held quiet pass =>
    refine iff_of_false ?_ ?_
    · cases limit with
      | zero => simp [drainWithin]
      | succ limit =>
        rw [pass, quiet]
        exact List.not_mem_nil
    · intro h
      obtain ⟨looks, time, h⟩ := h
      exact not_passMeets_of_stops reached held pass looks time h
  | @takes next united reached path remaining pass =>
    cases limit with
    | zero => omega
    | succ limit =>
      rw [pass] at hok ⊢
      have hlater := pass_skips codec w next united (by omega) hok
      show _ ∈ [Signal.count .rowsRead] ++
        (drainWithin codec .lenient w limit next united).signals ↔ _
      rw [List.mem_append, or_iff_right (by decide), hlater]
      constructor
      · intro h
        obtain ⟨looks, time, h⟩ := h
        exact ⟨looks + 1, time, (passMeets_succ_of_takes pass).2 h⟩
      · intro h
        obtain ⟨looks, time, h⟩ := h
        cases looks with
        | zero => exact absurd (passMeets_zero.1 h) (reached time)
        | succ looks => exact ⟨looks, time, (passMeets_succ_of_takes pass).1 h⟩
termination_by f.remaining

/-- A lenient sweep that succeeds counts a skipped row iff it meets a late one. -/
theorem sweep_skips (codec : Codec) (w : Int) : ∀ {ss : List Source} {merged : Record},
    (sweep codec .lenient w ss merged).result = .ok () →
      (.count .rowsSkipped ∈ (sweep codec .lenient w ss merged).signals ↔
        ∃ file looks path time, SweepMeets codec w ss merged file looks path time) := by
  intro ss
  induction ss with
  | nil =>
    intro merged _
    refine iff_of_false List.not_mem_nil ?_
    intro h
    obtain ⟨file, looks, path, time, -, f, hf, -⟩ := h
    cases hf
  | cons s rest ih =>
    intro merged hok
    obtain ⟨first, feed⟩ := s
    cases feed with
    | none =>
      rw [show _ ∈ (sweep codec .lenient w (⟨first, none⟩ :: rest) merged).signals ↔ _ from ih hok]
      constructor
      · intro h
        obtain ⟨file, h⟩ := h
        exact ⟨file + 1, h⟩
      · intro h
        obtain ⟨file, looks, path, time, h⟩ := h
        cases file with
        | zero =>
          obtain ⟨f, hf, -⟩ := sweepMeets_zero.1 h
          cases hf
        | succ file => exact ⟨file, looks, path, time, sweepMeets_succ_closed.1 h⟩
    | some f =>
      cases hresult : (drain codec .lenient w f merged).result with
      | error e =>
        rw [sweep_of_error hresult] at hok
        cases hok
      | ok waiting =>
        rw [sweep_of_ok hresult] at hok ⊢
        have hfirst : _ ∈ (drain codec .lenient w f merged).signals ↔ _ :=
          pass_skips codec w f merged (Nat.le_refl _) hresult
        show _ ∈ (drain codec .lenient w f merged).signals ++ _ ↔ _
        rw [List.mem_append, hfirst, ih hok]
        constructor
        · intro h
          rcases h with ⟨looks, time, h⟩ | ⟨file, looks, path, time, h⟩
          · exact ⟨0, looks, first, time, sweepMeets_zero.2 ⟨f, rfl, h⟩⟩
          · exact ⟨file + 1, looks, path, time, sweepMeets_succ_open.2 ⟨⟨waiting, hresult⟩, h⟩⟩
        · intro h
          obtain ⟨file, looks, path, time, h⟩ := h
          cases file with
          | zero =>
            obtain ⟨g, hg, hmet⟩ := sweepMeets_zero.1 h
            cases hg
            exact .inl ⟨looks, time, hmet⟩
          | succ file => exact .inr ⟨file, looks, path, time, (sweepMeets_succ_open.1 h).2⟩

/-- **What is met is counted**: a lenient step that does not fail counts a
skipped row iff it meets one behind its watermark. -/
theorem next_skips (codec : Codec) (hlenient : m.strictness = .lenient) {handed : Option Record}
    (hok : (m.next codec).result = .ok handed) :
    .count .rowsSkipped ∈ (m.next codec).signals ↔ ¬ NoneMet (Meets codec m) := by
  cases hphase : m.phase with
  | unconnected | ended =>
    refine iff_of_false ?_ (not_not.2 (noneMet_of_phase (by simp [hphase])))
    simp [next, hphase]
  | connected watermark =>
    cases watermark with
    | none =>
      refine iff_of_false ?_ (not_not.2 (noneMet_of_phase (by simp [hphase])))
      simp [next, hphase, finish, Event.signal]
    | some w =>
      have hskips := @sweep_skips codec w m.sources []
      rw [meets_eq hphase, not_noneMet_iff]
      simp only [next, hphase, hlenient] at hok ⊢
      generalize sweep codec .lenient w m.sources [] = swept at hok hskips ⊢
      cases hresult : swept.result with
      | error e =>
        rw [hresult] at hok
        cases hok
      | ok u =>
        rw [← hskips hresult]
        -- What a step reports after its sweep is no skipped row.
        cases swept.merged.isEmpty with
        | true => simp [finish, Event.signal]
        | false => simp [Event.signal]

/-! ## §6. Runs. -/

/-- Passing rows leaves the paths. -/
theorem Named.of_passed {ss ss' : List Source} (h : Named ss)
    (hpassed : SourcesPassed codec w ss ss') : Named ss' :=
  hpassed.keeps (P := fun path f => f.path = path) (fun hfirst hpath => hfirst.path.trans hpath) h

theorem named_next (codec : Codec) (h : Named m.sources) : Named (m.next codec).state.sources := by
  by_cases hw : ∃ w, m.phase = .connected (some w)
  · obtain ⟨w, hphase⟩ := hw
    exact h.of_passed (next_passed hphase)
  · rw [(next_idle codec (not_exists.1 hw)).2.1]
    exact h

theorem named_connect (t : FileTree) (m : Merge) : Named (m.connect t).state.sources := by
  have hclosed : Named m.disconnect.sources := by
    intro s hs f hf
    obtain ⟨source, -, rfl⟩ := List.mem_map.1 hs
    cases hf
  rcases connect_cases t m with ⟨e, -, -, hs⟩ | ⟨e, -, -, -, hs⟩ | ⟨w, hok, -, -, hs⟩
  · exact hs ▸ hclosed
  · exact hs ▸ hclosed
  · rw [hs]
    intro s hmem f hf
    obtain ⟨g, bytes, names, hg, -, hopened⟩ := (sources_of_openAll hok).2 s hmem
    rw [hg] at hf
    injection hf with hf
    exact hf ▸ hopened.path

theorem strictness_after (codec : Codec) (m : Merge) (k : Nat) :
    (m.after codec k).strictness = m.strictness := by
  induction k with
  | zero => rfl
  | succ k ih => exact (strictness_next codec _).trans ih

theorem named_after (codec : Codec) (h : Named m.sources) (k : Nat) :
    Named (m.after codec k).sources := by
  induction k with
  | zero => exact h
  | succ k ih => exact named_next codec ih

/-- A step that meets no late row is the same in a strict merge. -/
theorem next_strictly (hlenient : m.strictness = .lenient) (hnamed : Named m.sources)
    (hnone : NoneMet (Meets codec m)) :
    (m.strictly.next codec).result = (m.next codec).result ∧
      (m.strictly.next codec).state = (m.next codec).state.strictly := by
  rcases next_strict codec hlenient hnamed with ⟨-, hsame⟩ | ⟨path, time, w, hfirst, -, -⟩
  · rw [hsame]
    exact ⟨rfl, rfl⟩
  · exact absurd hnone hfirst.not_noneMet

/-- **As long as no late row is met the merges stay the same.** -/
theorem after_strictly (hlenient : m.strictness = .lenient) (hnamed : Named m.sources) {k : Nat}
    (hnone : ∀ j < k, NoneMet (Meets codec (m.after codec j))) :
    m.strictly.after codec k = (m.after codec k).strictly := by
  induction k with
  | zero => rfl
  | succ k ih =>
    have hk := ih fun j hj => hnone j (by omega)
    show ((m.strictly.after codec k).next codec).state =
      ((m.after codec k).next codec).state.strictly
    rw [hk]
    exact (next_strictly ((strictness_after codec m k).trans hlenient) (named_after codec hnamed k)
      (hnone k (Nat.lt_succ_self k))).2

/-- Connecting does not look at the strictness. -/
theorem connect_strictly (t : FileTree) (m : Merge) :
    m.strictly.connect t =
      ⟨(m.connect t).result, (m.connect t).state.strictly, (m.connect t).signals⟩ := by
  have hpaths : m.strictly.paths = m.paths := rfl
  have hclosed : m.strictly.disconnect = m.disconnect.strictly := rfl
  have hcount : m.strictly.sources.length = m.sources.length := rfl
  simp only [connect, hpaths, hclosed, hcount]
  cases (openAll t m.paths).result with
  | error e => rfl
  | ok u =>
    cases firstWatermark (openAll t m.paths).state with
    | error e => rfl
    | ok w => rfl

/-- A run goes to the first call that hands out no record; a call belongs to
it if each one before hands out one. -/
def InRun (codec : Codec) (m : Merge) (k : Nat) : Prop :=
  ∀ j < k, ∃ r, ((m.after codec j).next codec).result = .ok (some r)

theorem InRun.mono {j k : Nat} (h : InRun codec m k) (hjk : j ≤ k) : InRun codec m j :=
  fun i hi => h i (by omega)

/-- The runs of two merges have the same calls, and each comes to the same. -/
def SameRun (codec : Codec) (m m' : Merge) : Prop :=
  ∀ k, (InRun codec m' k ↔ InRun codec m k) ∧
    (InRun codec m k →
      ((m'.after codec k).next codec).result = ((m.after codec k).next codec).result)

/-- A call of a lenient run is the first to meet a late row, and the strict
run, the same before it, fails there with that row. -/
structure PartsAt (codec : Codec) (lenient strict : Merge) (k : Nat) (path : String) (time : Int)
    (w : Int) : Prop where
  reached : InRun codec lenient k
  before : ∀ j < k, NoneMet (Meets codec (lenient.after codec j))
  first : FirstMet (Meets codec (lenient.after codec k)) path time
  records : ∀ j < k, ∃ r, ((lenient.after codec j).next codec).result = .ok (some r) ∧
    ((strict.after codec j).next codec).result = .ok (some r)
  watermark : (lenient.after codec k).watermark = some w ∧
    (strict.after codec k).watermark = some w
  fails : ((strict.after codec k).next codec).result = .error (.outOfOrder path time w)

/-- The calls up to which no late row is met come to the same. -/
theorem result_strictly (hlenient : m.strictness = .lenient) (hnamed : Named m.sources) {k : Nat}
    (hnone : ∀ j ≤ k, NoneMet (Meets codec (m.after codec j))) :
    ((m.strictly.after codec k).next codec).result = ((m.after codec k).next codec).result := by
  rw [after_strictly hlenient hnamed fun j hj => hnone j (by omega)]
  exact (next_strictly ((strictness_after codec m k).trans hlenient) (named_after codec hnamed k)
    (hnone k (Nat.le_refl k))).1

theorem sameRun_strictly (hlenient : m.strictness = .lenient) (hnamed : Named m.sources)
    (hnone : ∀ k, InRun codec m k → NoneMet (Meets codec (m.after codec k))) :
    SameRun codec m m.strictly := by
  have hresult : ∀ k, InRun codec m k →
      ((m.strictly.after codec k).next codec).result = ((m.after codec k).next codec).result :=
    fun k hk => result_strictly hlenient hnamed fun j hj => hnone j (hk.mono hj)
  have hrun : ∀ k, InRun codec m.strictly k ↔ InRun codec m k := by
    intro k
    constructor
    · intro h
      induction k with
      | zero => exact fun j hj => absurd hj (Nat.not_lt_zero j)
      | succ k ih =>
        have hk : InRun codec m k := ih (h.mono (Nat.le_succ k))
        intro j hj
        rw [← hresult j (hk.mono (by omega))]
        exact h j hj
    · intro h j hj
      rw [hresult j (h.mono (by omega))]
      exact h j hj
  exact fun k => ⟨hrun k, hresult k⟩

/-- The first call that meets a late row is where the strict run fails. -/
theorem partsAt_strictly (hlenient : m.strictness = .lenient) (hnamed : Named m.sources) {k : Nat}
    (hreached : InRun codec m k) (hbefore : ∀ j < k, NoneMet (Meets codec (m.after codec j)))
    (hmet : ¬ NoneMet (Meets codec (m.after codec k))) :
    ∃ path time w, PartsAt codec m m.strictly k path time w := by
  have hsame := after_strictly hlenient hnamed hbefore
  rcases next_strict codec ((strictness_after codec m k).trans hlenient)
    (named_after codec hnamed k) with ⟨hnone, -⟩ | ⟨path, time, w, hfirst, hphase, herror⟩
  · exact absurd hnone hmet
  · have hwatermark : (m.after codec k).watermark = some w := by simp only [watermark, hphase]
    refine ⟨path, time, w, hreached, hbefore, hfirst, ?_, ⟨hwatermark, ?_⟩, ?_⟩
    · intro j hj
      obtain ⟨r, hr⟩ := hreached j hj
      refine ⟨r, hr, ?_⟩
      rw [result_strictly hlenient hnamed fun i hi => hbefore i (by omega), hr]
    · rw [hsame]
      exact hwatermark
    · rw [hsame]
      exact herror

/-- **Strict refines lenient.**  The two connect alike.  If the run of the
lenient merge meets no row behind its watermark, the run of the strict merge
is the same.  If it meets one, then up to the call that meets the first the
strict merge hands out the same records, and in that call it fails with the
path and the time of the first late row of the call, and the watermark.  A
lenient call that does not fail counts a skipped row iff it meets one. -/
theorem strict_refines_lenient (codec : Codec) (t : FileTree) (m : Merge) :
    let lenient := m.leniently.connect t
    let strict := m.strictly.connect t
    let meetsNone (k : Nat) := NoneMet (Meets codec (lenient.state.after codec k))
    strict.result = lenient.result ∧
    ((∀ k, InRun codec lenient.state k → meetsNone k) →
      SameRun codec lenient.state strict.state) ∧
    ((∃ k, InRun codec lenient.state k ∧ ¬ meetsNone k) →
      ∃ k path time w, PartsAt codec lenient.state strict.state k path time w) ∧
    ∀ k handed, ((lenient.state.after codec k).next codec).result = .ok handed →
      (.count .rowsSkipped ∈ ((lenient.state.after codec k).next codec).signals ↔
        ¬ meetsNone k) := by
  intro lenient strict meetsNone
  have hconnect : strict = ⟨lenient.result, lenient.state.strictly, lenient.signals⟩ :=
    connect_strictly t m.leniently
  have hlenient : lenient.state.strictness = .lenient := strictness_connect t m.leniently
  have hnamed : Named lenient.state.sources := named_connect t m.leniently
  rw [hconnect]
  refine ⟨rfl, sameRun_strictly hlenient hnamed, ?_, ?_⟩
  · intro hmet
    -- The first of the calls that meet one.
    classical
    obtain ⟨hreached, hfirst⟩ := Nat.find_spec hmet
    refine ⟨Nat.find hmet, partsAt_strictly hlenient hnamed hreached ?_ hfirst⟩
    intro j hj
    have hnot := Nat.find_min hmet hj
    by_contra hsome
    exact hnot ⟨hreached.mono (Nat.le_of_lt hj), hsome⟩
  · intro k handed hok
    exact next_skips codec ((strictness_after codec lenient.state k).trans hlenient) hok

/-- The first file has a row at 1 behind one at 2, so a strict merge fails in
its first step. -/
theorem strict_refines_lenient_unsortedPair :
    let lenient := unsortedMerge.leniently.connect unsortedPair
    let strict := unsortedMerge.strictly.connect unsortedPair
    strict.result = lenient.result ∧
      ∃ path time w, PartsAt Codec.power lenient.state strict.state 0 path time w := by
  intro lenient strict
  obtain ⟨hresult, -, hparts, -⟩ := strict_refines_lenient Codec.power unsortedPair unsortedMerge
  have hmet : ¬ NoneMet (Meets Codec.power lenient.state) := by
    intro hnone
    have hsame := (next_strictly (strictness_connect unsortedPair unsortedMerge.leniently)
      (named_connect unsortedPair unsortedMerge.leniently) hnone).1
    -- One of the steps hands out a record, and the other one fails.
    have hlenient : (lenient.state.next Codec.power).result.toOption.isSome = true := by
      decide +kernel
    have hstrict : (lenient.state.strictly.next Codec.power).result.toOption.isSome = false := by
      decide +kernel
    rw [hsame, hlenient] at hstrict
    cases hstrict
  have hstart : InRun Codec.power lenient.state 0 := fun j hj => absurd hj (Nat.not_lt_zero j)
  obtain ⟨k, path, time, w, hpart⟩ := hparts ⟨0, hstart, hmet⟩
  cases k with
  | zero => exact ⟨hresult, path, time, w, hpart⟩
  | succ k => exact absurd (hpart.before 0 (Nat.succ_pos k)) hmet

end Merge

end ReportStore
