/-
  ReportStore.Proofs.EveryRow
  ───────────────────────────
  **EVERY ROW OF A FILE IS GIVEN ONCE.**

  A feed can be looked at and asked for its time as often as one likes; only
  advances move it.  The row that an advance gives is not the one it reads:
  it gives the row held and reads the one after it, and a record that is no
  row is met while another row is held.  Still the account of any calls is
  exact, for the rows as for the records that are none:

      rows given ++ rows to come      = rows of the file
      faults met ++ faults to come    = records that are no rows

  The right sides are read off the records of the file, without its table.
-/
import ReportStore.Proofs.Csv.Table
import ReportStore.Proofs.Merge.Ending
import ReportStore.Proofs.Merge.Opening

namespace ReportStore

/-! ## §1. The rows among the records of a file. -/

/-- The fault of a result, if it is one. -/
def faultOf? {ε α : Type} : Except ε α → Option ε
  | .ok _ => none
  | .error e => some e

namespace Csv

/-- The cells of a record under so many columns, if it is a row: it has as
many fields, and each is UTF-8. -/
def cells? (width : Nat) (r : RawRecord) : Option (List String) :=
  if r.fields.length = width then r.fields.mapM Text.decode? else none

/-- Where the records stand that are no rows under so many columns, the first
of them having this number. -/
def malformedAt (width number : Nat) (rs : List RawRecord) : List Position :=
  (rs.zipIdx number).filterMap fun p =>
    if (cells? width p.1).isNone then some ⟨p.2, p.1.start⟩ else none

/-- Where the record of a fault stands. -/
def RowFault.position : RowFault → Position
  | .fieldCount position _ _ => position
  | .notUtf8 position _ _ => position

theorem mapM_decode?_eq_some_iff : ∀ {fields : List Bytes} {cells : List String},
    fields.mapM Text.decode? = some cells ↔ fields = cells.map Text.encode := by
  intro fields
  induction fields with
  | nil =>
    intro cells
    rw [List.mapM_nil, Option.pure_def, Option.some.injEq, eq_comm,
      eq_comm (a := ([] : List Bytes)), List.map_eq_nil_iff]
  | cons field rest ih =>
    intro cells
    rw [List.mapM_cons, Option.bind_eq_bind, Option.bind_eq_some_iff]
    constructor
    · rintro ⟨s, hs, h⟩
      obtain ⟨ss, hss, hcells⟩ := Option.bind_eq_some_iff.1 h
      injection hcells with hcells
      rw [← hcells, List.map_cons, ← ih.1 hss, ← Text.decode?_eq_some_iff.1 hs]
    · intro h
      obtain ⟨s, ss, rfl, rfl, hss⟩ := List.map_eq_cons_iff.1 h.symm
      exact ⟨s, Text.decode?_encode s, Option.bind_eq_some_iff.2 ⟨ss, ih.2 hss.symm, rfl⟩⟩

/-- **A record is read as a row** iff it is one. -/
theorem toOption_decodeRow (width number : Nat) (r : RawRecord) :
    (decodeRow width number r).toOption = cells? width r := by
  ext cells
  have hcells : cells? width r = some cells ↔
      r.fields = cells.map Text.encode ∧ cells.length = width := by
    unfold cells?
    by_cases hwidth : r.fields.length = width
    · rw [if_pos hwidth, mapM_decode?_eq_some_iff]
      refine ⟨fun h => ⟨h, ?_⟩, And.left⟩
      rw [← hwidth, h, List.length_map]
    · rw [if_neg hwidth]
      refine ⟨nofun, ?_⟩
      rintro ⟨h, rfl⟩
      rw [h, List.length_map] at hwidth
      exact absurd rfl hwidth
  rw [hcells, ← @decodeRow_ok_iff width number]
  cases decodeRow width number r with
  | error e => exact ⟨nofun, nofun⟩
  | ok cs => exact ⟨fun h => congrArg _ (Option.some.inj h), fun h => congrArg _ (Except.ok.inj h)⟩

theorem position_of_decodeRow {width number : Nat} {r : RawRecord} {e : RowFault}
    (h : decodeRow width number r = .error e) : e.position = ⟨number, r.start⟩ := by
  unfold decodeRow decodeRecord at h
  by_cases hwidth : r.fields.length = width
  · rw [if_pos hwidth] at h
    cases hfields : decodeFields 0 r.fields with
    | ok cells =>
      simp only [hfields, reduceCtorEq] at h
    | error at_ =>
      simp only [hfields, Except.error.injEq] at h
      rw [← h]
      rfl
  · rw [if_neg hwidth] at h
    injection h with h
    rw [← h]
    rfl

theorem filterMap_toOption_decodeRows (width : Nat) : ∀ (rs : List RawRecord) (number : Nat),
    (decodeRows width number rs).filterMap Except.toOption = rs.filterMap (cells? width) := by
  intro rs
  induction rs with
  | nil => exact fun _ => rfl
  | cons r rest ih =>
    intro number
    rw [decodeRows, List.filterMap_cons, List.filterMap_cons, toOption_decodeRow, ih]

theorem position_faults_decodeRows (width : Nat) : ∀ (rs : List RawRecord) (number : Nat),
    ((decodeRows width number rs).filterMap faultOf?).map RowFault.position =
      malformedAt width number rs := by
  intro rs
  induction rs with
  | nil => exact fun _ => rfl
  | cons r rest ih =>
    intro number
    unfold malformedAt at ih ⊢
    rw [decodeRows, List.filterMap_cons, List.zipIdx_cons, List.filterMap_cons,
      ← toOption_decodeRow width number]
    cases hrow : decodeRow width number r with
    | ok cells => exact ih (number + 1)
    | error e =>
      have hposition := position_of_decodeRow hrow
      simp only [faultOf?, Except.toOption, Option.isNone_none, if_true, List.map_cons,
        hposition, ih (number + 1)]

theorem length_decodeRows (width : Nat) : ∀ (rs : List RawRecord) (number : Nat),
    (decodeRows width number rs).length = rs.length := by
  intro rs
  induction rs with
  | nil => exact fun _ => rfl
  | cons r rest ih =>
    intro number
    rw [decodeRows, List.length_cons, List.length_cons, ih]

end Csv

namespace Feed

/-! ## §2. Calls and what they answer. -/

/-- What a feed is asked. -/
inductive Call where
  /-- For the row held. -/
  | peek
  /-- For the time of the row held. -/
  | time
  /-- To take the row held. -/
  | advance
  deriving DecidableEq

/-- What a feed answers. -/
inductive Answer where
  | shown (row : Option Row)
  | timed (time : Except Fault (Option Int))
  | took (result : Except Fault (Option Row))

/-- One call: only an advance moves the feed. -/
def call (f : Feed) : Call → Answer × Feed
  | .peek => (.shown f.held, f)
  | .time => (.timed f.heldTime, f)
  | .advance => (.took f.advance.1, f.advance.2)

/-- The answers to some calls, one after the other. -/
def answers (f : Feed) : List Call → List Answer
  | [] => []
  | c :: rest => (f.call c).1 :: (f.call c).2.answers rest

/-- The feed after some calls. -/
def afterCalls (f : Feed) : List Call → Feed
  | [] => f
  | c :: rest => (f.call c).2.afterCalls rest

/-- What a successful advance gave. -/
def Answer.given? : Answer → Option (Option Row)
  | .took (.ok row) => some row
  | _ => none

/-- Why an advance failed. -/
def Answer.fault? : Answer → Option Fault
  | .took (.error e) => some e
  | _ => none

/-- The rows that successful advances gave. -/
def given (answers : List Answer) : List Row := (answers.filterMap Answer.given?).reduceOption

/-- Why advances failed. -/
def failures (answers : List Answer) : List Fault := answers.filterMap Answer.fault?

/-! ## §3. One advance. -/

/-- Why records that are still to be read are no rows. -/
def faults (f : Feed) : List Csv.RowFault := f.rest.filterMap faultOf?

/-- A feed that holds no row has none to come. -/
def Primed (f : Feed) : Prop := f.held = none → f.rest = []

/-- What an advance comes to. -/
inductive Advancing (f : Feed) : Except Fault (Option Row) → Feed → Prop where
  /-- No row is left, and none for ever. -/
  | ended (held : f.held = none) : Advancing f (.ok none) f
  /-- The row held is given, and counted. -/
  | gave {row : Row} {next : Feed} (held : f.held = some row) (rows : f.rows = row :: next.rows)
      (faults : next.faults = f.faults) (taken : next.taken = f.taken + 1)
      (remaining : next.remaining + 1 = f.remaining) (path : next.path = f.path)
      (primed : next.Primed) : Advancing f (.ok (some row)) next
  /-- A record is no row: it is passed, and nothing else changes. -/
  | failed {cause : Csv.RowFault} {next : Feed} (held : next.held = f.held)
      (rows : next.rows = f.rows) (faults : f.faults = cause :: next.faults)
      (taken : next.taken = f.taken) (remaining : next.remaining + 1 = f.remaining)
      (path : next.path = f.path) (primed : next.Primed) :
      Advancing f (.error (.malformedRow f.path cause)) next

theorem advance_of_held_none {f : Feed} (h : f.Primed) (hheld : f.held = none) :
    f.advance = (.ok none, f) := by
  obtain ⟨path, fileName, header, held, rest, taken⟩ := f
  cases hheld
  cases h rfl
  rfl

/-- The rest of what an advance that succeeds leaves. -/
theorem faults_of_advance_ok {f next : Feed} {took : Option Row}
    (h : f.advance = (.ok took, next)) :
    took = f.held ∧ next.faults = f.faults ∧ next.Primed := by
  unfold advance at h
  cases hrest : f.rest with
  | nil =>
    simp only [hrest, Prod.mk.injEq, Except.ok.injEq] at h
    obtain ⟨rfl, rfl⟩ := h
    exact ⟨rfl, by simp only [faults, hrest], fun _ => rfl⟩
  | cons x rest =>
    cases x with
    | error cause => simp only [hrest, Prod.mk.injEq, reduceCtorEq, false_and] at h
    | ok row =>
      simp only [hrest, Prod.mk.injEq, Except.ok.injEq] at h
      obtain ⟨rfl, rfl⟩ := h
      exact ⟨rfl, by simp only [faults, hrest, List.filterMap_cons, faultOf?], nofun⟩

/-- The rest of what an advance that fails leaves. -/
theorem faults_of_advance_error {f next : Feed} {cause : Csv.RowFault}
    (h : f.advance = (.error (.malformedRow f.path cause), next)) :
    f.faults = cause :: next.faults ∧ next.held = f.held := by
  unfold advance at h
  cases hrest : f.rest with
  | nil => simp only [hrest, Prod.mk.injEq, reduceCtorEq, false_and] at h
  | cons x rest =>
    cases x with
    | ok row => simp only [hrest, Prod.mk.injEq, reduceCtorEq, false_and] at h
    | error cause' =>
      simp only [hrest, Prod.mk.injEq, Except.error.injEq, Fault.malformedRow.injEq] at h
      obtain ⟨⟨-, rfl⟩, rfl⟩ := h
      exact ⟨by simp only [faults, hrest, List.filterMap_cons, faultOf?], rfl⟩

theorem Primed.advance {f : Feed} (h : f.Primed) : Advancing f f.advance.1 f.advance.2 := by
  cases hheld : f.held with
  | none =>
    rw [advance_of_held_none h hheld]
    exact .ended hheld
  | some row =>
    -- What becomes of rows and counts is known; the faults and the row held are new.
    rcases hadvance : f.advance with ⟨e | took, next⟩
    · obtain ⟨hrows, hpath, -, cause, rfl⟩ := rows_of_advance_error hadvance
      obtain ⟨hfaults, hsame⟩ := faults_of_advance_error hadvance
      have hprimed : next.Primed := by
        intro hnone
        rw [hsame, hheld] at hnone
        cases hnone
      exact .failed hsame hrows hfaults (taken_of_advance_error hadvance)
        (remaining_of_advance_error hadvance) hpath hprimed
    · obtain ⟨hrows, hpath, -, hremaining⟩ := rows_of_advance_ok hheld hadvance
      obtain ⟨htook, hfaults, hprimed⟩ := faults_of_advance_ok hadvance
      rw [htook, hheld]
      exact .gave hheld hrows hfaults (taken_of_advance_ok hheld hadvance) hremaining hpath hprimed

/-! ## §4. The account of any calls. -/

variable {f : Feed} {answers : List Answer}

theorem failures_error (e : Fault) :
    failures (.took (.error e) :: answers) = e :: failures answers := rfl

/-- A feed, and what is left of it once rows were given, faults met and so many
advances made. -/
structure Account (f g : Feed) (gave : List Row) (met : List Csv.RowFault) (advances : Nat) :
    Prop where
  path : g.path = f.path
  rows : gave ++ g.rows = f.rows
  faults : met ++ g.faults = f.faults
  taken : g.taken = f.taken + gave.length
  remaining : g.remaining = f.remaining - advances
  primed : g.Primed

variable {g next : Feed} {rows : List Row} {causes : List Csv.RowFault} {row : Row}
  {cause : Csv.RowFault} {n : Nat}

theorem Account.refl (h : f.Primed) : Account f f [] [] 0 := ⟨rfl, rfl, rfl, rfl, rfl, h⟩

theorem remaining_eq_zero_iff (h : f.Primed) : f.remaining = 0 ↔ f.held = none := by
  unfold remaining
  cases hheld : f.held with
  | none => simp only [h hheld, List.length_nil, Option.isSome_none, Bool.false_eq_true, if_false]
  | some row => simp

/-- An advance past the end adds nothing. -/
theorem Account.ended (h : Account f g rows causes n) (hf : f.Primed) (hheld : f.held = none) :
    Account f g rows causes (n + 1) := by
  have hnone := (remaining_eq_zero_iff hf).2 hheld
  exact ⟨h.path, h.rows, h.faults, h.taken, by rw [h.remaining, hnone, Nat.zero_sub, Nat.zero_sub],
    h.primed⟩

theorem Account.gave (h : Account next g rows causes n) (hpath : next.path = f.path)
    (hrows : f.rows = row :: next.rows) (hfaults : next.faults = f.faults)
    (htaken : next.taken = f.taken + 1) (hremaining : next.remaining + 1 = f.remaining) :
    Account f g (row :: rows) causes (n + 1) where
  path := h.path.trans hpath
  rows := by rw [List.cons_append, h.rows, hrows]
  faults := h.faults.trans hfaults
  taken := by rw [h.taken, htaken, List.length_cons]; omega
  remaining := by rw [h.remaining]; omega
  primed := h.primed

theorem Account.failed (h : Account next g rows causes n) (hpath : next.path = f.path)
    (hrows : next.rows = f.rows) (hfaults : f.faults = cause :: next.faults)
    (htaken : next.taken = f.taken) (hremaining : next.remaining + 1 = f.remaining) :
    Account f g rows (cause :: causes) (n + 1) where
  path := h.path.trans hpath
  rows := h.rows.trans hrows
  faults := by rw [List.cons_append, h.faults, hfaults]
  taken := by rw [h.taken, htaken]
  remaining := by rw [h.remaining]; omega
  primed := h.primed

/-- **The account of any calls.**  By induction on the calls; only the advances
among them count. -/
theorem Primed.account : ∀ (calls : List Call) {f : Feed}, f.Primed →
    ∃ causes, failures (f.answers calls) = causes.map (.malformedRow f.path) ∧
      Account f (f.afterCalls calls) (given (f.answers calls)) causes (calls.count .advance) := by
  intro calls
  induction calls with
  | nil => exact fun h => ⟨[], rfl, .refl h⟩
  | cons c rest ih =>
    intro f h
    cases c with
    | peek | time =>
      rw [List.count_cons, if_neg (by decide), Nat.add_zero]
      exact ih h
    | advance =>
      rw [List.count_cons_self]
      simp only [answers, afterCalls, call]
      have hstep := h.advance
      generalize f.advance.1 = result, f.advance.2 = next at hstep
      cases hstep with
      | ended held =>
        obtain ⟨causes, hcauses, hrest⟩ := ih h
        exact ⟨causes, hcauses, hrest.ended h held⟩
      | gave held hrows hfaults taken remaining path primed =>
        obtain ⟨causes, hcauses, hrest⟩ := ih primed
        exact ⟨causes, path ▸ hcauses, hrest.gave path hrows hfaults taken remaining⟩
      | @failed cause _ held hrows hfaults taken remaining path primed =>
        obtain ⟨causes, hcauses, hrest⟩ := ih primed
        refine ⟨cause :: causes, ?_, hrest.failed path hrows hfaults taken remaining⟩
        rw [failures_error, hcauses, path, List.map_cons]

/-- **The next row to be given is the one held**, however many advances fail
before it is. -/
theorem Primed.held_of_given : ∀ (calls : List Call) {f : Feed}, f.Primed →
    ∀ row ∈ (f.answers calls).findSome? Answer.given?, row = f.held := by
  intro calls
  induction calls with
  | nil => exact fun _ _ hrow => nomatch hrow
  | cons c rest ih =>
    intro f h row hrow
    cases c with
    | peek | time => exact ih h row hrow
    | advance =>
      simp only [answers, call, List.findSome?_cons] at hrow
      have hstep := h.advance
      generalize f.advance.1 = result, f.advance.2 = next at hstep hrow
      cases hstep with
      | ended held =>
        injection hrow with hrow
        rw [← hrow, held]
      | gave held =>
        injection hrow with hrow
        rw [← hrow, held]
      | failed held hrows hfaults taken remaining path primed =>
        -- The row is still held, and the answer is that of the feed that is left.
        rw [← held]
        exact ih primed row hrow

/-- A feed that holds no row answers that there is none. -/
theorem Primed.answers_of_ended (h : f.Primed) (hheld : f.held = none) : ∀ calls : List Call,
    ∀ answer ∈ f.answers calls,
      answer = .shown none ∨ answer = .timed (.ok none) ∨ answer = .took (.ok none) := by
  intro calls
  induction calls with
  | nil => exact List.forall_mem_nil _
  | cons c rest ih =>
    cases c with
    | peek => exact List.forall_mem_cons.2 ⟨.inl (by rw [call, hheld]), ih⟩
    | time => exact List.forall_mem_cons.2 ⟨.inr (.inl (by rw [call, heldTime, hheld])), ih⟩
    | advance =>
      have hstay := advance_of_held_none h hheld
      refine List.forall_mem_cons.2 ⟨.inr (.inr (by rw [call, hstay])), ?_⟩
      rw [call, hstay]
      exact ih

/-- An answer is that of a call, asked of what the calls before it left. -/
theorem answers_eq_append : ∀ {before : List Answer} {f : Feed} {calls : List Call}
    {answer : Answer} {later : List Answer}, f.answers calls = before ++ answer :: later →
      ∃ earlier c rest, calls = earlier ++ c :: rest ∧
        answer = ((f.afterCalls earlier).call c).1 ∧
          later = ((f.afterCalls earlier).call c).2.answers rest := by
  intro before
  induction before with
  | nil =>
    intro f calls answer later h
    cases calls with
    | nil => cases h
    | cons c rest =>
      injection h with hanswer hlater
      exact ⟨[], c, rest, rfl, hanswer.symm, hlater.symm⟩
  | cons first before ih =>
    intro f calls answer later h
    cases calls with
    | nil => cases h
    | cons c rest =>
      injection h with _ hrest
      obtain ⟨earlier, c', rest', hcalls, hanswer, hlater⟩ := ih hrest
      exact ⟨c :: earlier, c', rest', by rw [hcalls, List.cons_append], hanswer, hlater⟩

end Feed

/-! ## §5. Files that are opened. -/

/-- A table whose header is read, and the records under it. -/
theorem Csv.ofBytes_of_header {bytes : Bytes} {header : List String}
    (h : (Table.ofBytes bytes).header = .ok header) :
    Table.ofBytes bytes =
      ⟨.ok header, decodeRows header.length 1 (rawRecords bytes).tail⟩ := by
  unfold Table.ofBytes at h ⊢
  cases hraw : rawRecords bytes with
  | nil =>
    simp only [hraw, Except.ok.injEq] at h
    rw [← h]
    rfl
  | cons first rest =>
    simp only [hraw] at h
    have hwidth : first.fields.length = header.length := by
      rw [decodeRecord_ok_iff.1 h, List.length_map]
    simp only [h, hwidth, List.tail_cons]

namespace Feed

/-- The rows among records. -/
def rowsAmong (header : List String) (records : List Csv.RawRecord) : List Row :=
  (records.filterMap (Csv.cells? header.length)).map (Row.ofCells header)

theorem filterMap_toOption_rowsOf (header : List String)
    (rs : List (Except Csv.RowFault (List String))) :
    (rowsOf header rs).filterMap Except.toOption =
      (rs.filterMap Except.toOption).map (Row.ofCells header) := by
  rw [rowsOf, List.filterMap_map, List.map_filterMap]
  refine congrArg (fun g => rs.filterMap g) (funext fun r => ?_)
  cases r <;> rfl

theorem filterMap_faultOf_rowsOf (header : List String)
    (rs : List (Except Csv.RowFault (List String))) :
    (rowsOf header rs).filterMap faultOf? = rs.filterMap faultOf? := by
  rw [rowsOf, List.filterMap_map]
  refine congrArg (fun g => rs.filterMap g) (funext fun r => ?_)
  cases r <;> rfl

/-- A feed at the start of some records. -/
structure AtStart (path : String) (header : List String) (records : List Csv.RawRecord)
    (f : Feed) : Prop where
  path : f.path = path
  taken : f.taken = 0
  rows : f.rows = rowsAmong header records
  faults : f.faults.map Csv.RowFault.position = Csv.malformedAt header.length 1 records
  remaining : f.remaining = records.length
  primed : f.Primed

/-- **A file is opened** if its header can be read and its first record under it,
if there is one, is a row. -/
theorem ofBytes_atStart (path : String) {bytes : Bytes} {header : List String}
    (hheader : (Csv.Table.ofBytes bytes).header = .ok header)
    (hfirst : ∀ r ∈ (Csv.rawRecords bytes).tail.head?, Csv.cells? header.length r ≠ none) :
    ∃ f, ofBytes path bytes = .ok f ∧ AtStart path header (Csv.rawRecords bytes).tail f := by
  unfold ofBytes
  simp only [Csv.ofBytes_of_header hheader]
  generalize (Csv.rawRecords bytes).tail = records at hfirst
  have hrows : (rowsOf header (Csv.decodeRows header.length 1 records)).filterMap
      Except.toOption = rowsAmong header records := by
    rw [filterMap_toOption_rowsOf, Csv.filterMap_toOption_decodeRows, rowsAmong]
  have hfaults : ((rowsOf header (Csv.decodeRows header.length 1 records)).filterMap
      faultOf?).map Csv.RowFault.position = Csv.malformedAt header.length 1 records := by
    rw [filterMap_faultOf_rowsOf, Csv.position_faults_decodeRows]
  have hlength : (rowsOf header (Csv.decodeRows header.length 1 records)).length =
      records.length := by
    rw [rowsOf, List.length_map, Csv.length_decodeRows]
  cases records with
  | nil => exact ⟨_, rfl, rfl, rfl, rfl, rfl, rfl, fun _ => rfl⟩
  | cons r rest =>
    obtain ⟨cells, hcells⟩ := Option.ne_none_iff_exists'.1 (hfirst r rfl)
    have hrow : Csv.decodeRow header.length 1 r = .ok cells :=
      eq_ok_of_toOption (by rw [Csv.toOption_decodeRow, hcells])
    have hsplit : rowsOf header (Csv.decodeRows header.length 1 (r :: rest)) =
        .ok (Row.ofCells header cells) :: rowsOf header (Csv.decodeRows header.length 2 rest) := by
      rw [Csv.decodeRows, hrow]
      rfl
    rw [hsplit] at hrows hfaults hlength ⊢
    exact ⟨_, rfl, rfl, rfl, hrows, hfaults, hlength, fun h => absurd h (Option.some_ne_none _)⟩

/-- The time shown of what is held. -/
def timeOf (path : String) : Option Row → Except Fault (Option Int)
  | none => .ok none
  | some row => (readTime path (timeCell row)).map some

/-- What any calls of a feed answer that was opened on a path, with these records
under its header. -/
structure GivesOnce (path : String) (header : List String) (records : List Csv.RawRecord)
    (f : Feed) (calls : List Call) : Prop where
  /-- The rows given are rows of the file, in its order. -/
  given : given (f.answers calls) <+: rowsAmong header records
  /-- They are counted. -/
  counted : (f.afterCalls calls).taken = (Feed.given (f.answers calls)).length
  /-- An advance fails over a record that is no row, each time another one, in the
  order of the file. -/
  failed : ∃ causes : List Csv.RowFault,
    failures (f.answers calls) = causes.map (.malformedRow path) ∧
      causes.map Csv.RowFault.position <+: Csv.malformedAt header.length 1 records
  /-- An advance that fails leaves the row held and the count. -/
  unchanged : ∀ e next, (f.afterCalls calls).advance = (.error e, next) →
    next.held = (f.afterCalls calls).held ∧ next.taken = (f.afterCalls calls).taken
  /-- The row shown is the one that the next successful advance gives. -/
  shown : ∀ before row later, f.answers calls = before ++ .shown row :: later →
    ∀ next ∈ later.findSome? Answer.given?, next = row
  /-- So is the row of the time shown. -/
  timed : ∀ before time later, f.answers calls = before ++ .timed time :: later →
    ∀ next ∈ later.findSome? Answer.given?, time = timeOf path next
  /-- The end is reached with as many advances as there are records. -/
  reached : (f.afterCalls calls).held = none ↔ records.length ≤ calls.count .advance
  /-- At the end every row was given, and every record that is none was met. -/
  whole : (f.afterCalls calls).held = none →
    Feed.given (f.answers calls) = rowsAmong header records ∧
      ∃ causes : List Csv.RowFault,
        failures (f.answers calls) = causes.map (.malformedRow path) ∧
          causes.map Csv.RowFault.position = Csv.malformedAt header.length 1 records
  /-- From there on every answer is that there is no row. -/
  ended : (f.afterCalls calls).held = none → ∀ more, ∀ answer ∈ (f.afterCalls calls).answers more,
    answer = .shown none ∨ answer = .timed (.ok none) ∨ answer = .took (.ok none)

theorem rows_of_ended {f : Feed} (h : f.Primed) (hheld : f.held = none) :
    f.rows = [] ∧ f.faults = [] := by
  simp only [rows, faults, hheld, h hheld, List.filterMap_nil, and_self]

theorem AtStart.givesOnce {path : String} {header : List String} {records : List Csv.RawRecord}
    {f : Feed} (h : AtStart path header records f) (calls : List Call) :
    f.GivesOnce path header records calls := by
  obtain ⟨causes, hcauses, account⟩ := h.primed.account calls
  have hrows := account.rows
  have hfaults := congrArg (List.map Csv.RowFault.position) account.faults
  rw [h.rows] at hrows
  rw [List.map_append, h.faults] at hfaults
  rw [h.path] at hcauses
  -- An answer in the middle is that of a feed that is primed as well.
  have hnext : ∀ {before answer later}, f.answers calls = before ++ answer :: later →
      ∃ g c rest, g.Primed ∧ g.path = path ∧ answer = (call g c).1 ∧
        later = (call g c).2.answers rest := by
    intro before answer later hsplit
    obtain ⟨earlier, c, rest, -, hanswer, hlater⟩ := answers_eq_append hsplit
    obtain ⟨_, -, hearlier⟩ := h.primed.account earlier
    exact ⟨_, c, rest, hearlier.primed, hearlier.path.trans h.path, hanswer, hlater⟩
  constructor
  case given => exact ⟨_, hrows⟩
  case counted => rw [account.taken, h.taken, Nat.zero_add]
  case failed => exact ⟨causes, hcauses, _, hfaults⟩
  case unchanged =>
    intro e next hadvance
    obtain ⟨-, -, -, cause, rfl⟩ := rows_of_advance_error hadvance
    exact ⟨(faults_of_advance_error hadvance).2, taken_of_advance_error hadvance⟩
  case shown =>
    intro before row later hsplit next hgiven
    obtain ⟨g, c, rest, hprimed, -, hanswer, rfl⟩ := hnext hsplit
    cases c with
    | peek =>
      injection hanswer with hrow
      rw [hrow]
      exact hprimed.held_of_given rest next hgiven
    | time | advance => cases hanswer
  case timed =>
    intro before time later hsplit next hgiven
    obtain ⟨g, c, rest, hprimed, hpath, hanswer, rfl⟩ := hnext hsplit
    cases c with
    | time =>
      injection hanswer with htime
      rw [htime, hprimed.held_of_given rest next hgiven, ← hpath]
      cases hheld : g.held with
      | none => simp only [heldTime, hheld, timeOf]
      | some row => simp only [heldTime, hheld, timeOf]
    | peek | advance => cases hanswer
  case reached =>
    rw [← remaining_eq_zero_iff account.primed, account.remaining, h.remaining,
      Nat.sub_eq_zero_iff_le]
  case whole =>
    intro hheld
    obtain ⟨hnone, hnofault⟩ := rows_of_ended account.primed hheld
    rw [hnone, List.append_nil] at hrows
    rw [hnofault, List.map_nil, List.append_nil] at hfaults
    exact ⟨hrows, causes, hcauses, hfaults⟩
  case ended => exact fun hheld => account.primed.answers_of_ended hheld

/-- **Every row of a file is given once.**  A file whose header can be read and whose
first record under it, if there is one, is a row, is opened; and however the
feed is looked at and advanced, the rows that it gives are those of the file,
each once and in order.  Every record that is no row, for its number of
fields or for its bytes, makes one advance fail, which changes neither the
row held nor the count; the row shown is always the one given next; and once
no row is left, no call finds one. -/
theorem openAt_gives_once {t : FileTree} {path : String} {bytes : Bytes} {header : List String}
    (hread : t.read path = .ok bytes) (hheader : (Csv.Table.ofBytes bytes).header = .ok header)
    (hfirst : ∀ r ∈ (Csv.rawRecords bytes).tail.head?, Csv.cells? header.length r ≠ none) :
    ∃ f, openAt t path = .ok f ∧
      ∀ calls, f.GivesOnce path header (Csv.rawRecords bytes).tail calls := by
  obtain ⟨f, hf, hstart⟩ := ofBytes_atStart path hheader hfirst
  exact ⟨f, by rw [Merge.openAt_eq_ofBytes hread, hf], hstart.givesOnce⟩

/-- Two rows, and three records that are none: one with a cell too few, one that
is no UTF-8, and at the end one with a cell too many. -/
def raggedBytes : Bytes :=
  Text.encode "timestamp,x\n1,a\n2\n" ++ 0xFF :: Text.encode ",b\n3,c\n4,d,e\n"

/-- Five advances, with looks in between. -/
def raggedCalls : List Call :=
  [.peek, .advance, .peek, .advance, .time, .advance, .advance, .peek, .advance]

/-- The third advance gives the first row, and the fifth the other one. -/
theorem openAt_gives_once_ragged :
    ∃ f, openAt ⟨[(["r.csv"], .file raggedBytes)]⟩ "r.csv" = .ok f ∧
      given (f.answers raggedCalls) =
        [["1", "a"], ["3", "c"]].map (Row.ofCells ["timestamp", "x"]) ∧
      ∃ causes : List Csv.RowFault,
        failures (f.answers raggedCalls) = causes.map (.malformedRow "r.csv") ∧
          causes.map (·.position.record) = [2, 3, 5] := by
  have hread : FileTree.read ⟨[(["r.csv"], .file raggedBytes)]⟩ "r.csv" = .ok raggedBytes := rfl
  have hheader : (Csv.Table.ofBytes raggedBytes).header = .ok ["timestamp", "x"] :=
    eq_ok_of_toOption (by decide +kernel)
  obtain ⟨f, hf, hgives⟩ := openAt_gives_once hread hheader (by decide +kernel)
  have h := hgives raggedCalls
  obtain ⟨hrows, causes, hcauses, hpositions⟩ := h.whole (h.reached.2 (by decide +kernel))
  refine ⟨f, hf, hrows.trans (congrArg (List.map _) (by decide +kernel)), causes, hcauses, ?_⟩
  have hrecords := congrArg (List.map Csv.Position.record) hpositions
  rw [List.map_map] at hrecords
  exact hrecords.trans (by decide +kernel)

end Feed

end ReportStore
