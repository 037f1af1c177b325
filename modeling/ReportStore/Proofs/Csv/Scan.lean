/-
  ReportStore.Proofs.Csv.Scan
  ───────────────────────────
  **WHAT WAS PRINTED IS READ BACK, WHATEVER STANDS BEFORE IT.**

  Records are appended to files that hold records already.  A scanner that
  stands between two records reads a printed record as the fields that were
  printed, and stands between two records again.  So a file that ends
  between two records may grow by any printed records:

      rawFields (old ++ printed records) = rawFields old ++ the records

  In a file that ends within a record the first byte that is appended
  becomes part of that record.  What a scanner has read is kept here without
  the marks, which only matter for messages.
-/
import ReportStore.Csv.Print

namespace ReportStore.Csv

/-! ## §1. One byte. -/

/-- What a scanner has read, marks left out. -/
structure Reading where
  site : Site
  field : Bytes
  fields : List Bytes
  finished : List (List Bytes)

/-- What a quote makes of it. -/
def Reading.quoteRead (r : Reading) : Reading :=
  match r.site with
  | .between | .fieldStart => { r with site := .quoted }
  | .bare => { r with field := quote :: r.field }
  | .quoted => { r with site := .afterQuote }
  | .afterQuote => { r with site := .quoted, field := quote :: r.field }

namespace Scan

/-- What a scanner has read. -/
def reading (s : Scan) : Reading := ⟨s.site, s.field, s.fields, s.finished.map (·.fields)⟩

variable {s : Scan} {site : Site} {f : Bytes} {fs : List Bytes} {done : List (List Bytes)}
  {b : UInt8}

/-- A byte between quotes. -/
theorem step_quoted (h : s.reading = ⟨.quoted, f, fs, done⟩) (hb : b ≠ quote) :
    (s.step b).reading = ⟨.quoted, b :: f, fs, done⟩ := by
  obtain ⟨site', field, fields, start, here, finished⟩ := s
  simp only [reading, Reading.mk.injEq] at h
  obtain ⟨rfl, rfl, rfl, rfl⟩ := h
  simp [step, count, take, reading, hb]

/-- A quote, wherever it stands. -/
theorem step_quote (h : s.reading = ⟨site, f, fs, done⟩) :
    (s.step quote).reading = Reading.quoteRead ⟨site, f, fs, done⟩ := by
  obtain ⟨site', field, fields, start, here, finished⟩ := s
  simp only [reading, Reading.mk.injEq] at h
  obtain ⟨rfl, rfl, rfl, rfl⟩ := h
  have hcomma : quote ≠ comma := by decide
  have hterminator : isTerminator quote = false := by decide
  cases site' <;>
    simp [step, count, opening, outside, take, reading, Reading.quoteRead, hcomma, hterminator]

theorem reading_outside (h : s.reading = ⟨site, f, fs, done⟩) :
    (s.outside b).reading =
      if b = comma then ⟨.fieldStart, [], f.reverse :: fs, done⟩
      else if isTerminator b then ⟨.between, [], [], (f.reverse :: fs).reverse :: done⟩
      else ⟨.bare, b :: f, fs, done⟩ := by
  simp only [reading, Reading.mk.injEq] at h
  obtain ⟨-, rfl, rfl, rfl⟩ := h
  unfold outside
  by_cases hcomma : b = comma
  · simp [hcomma, endField, reading]
  · by_cases hterminator : isTerminator b = true
    · simp [hcomma, hterminator, endRecord, reading]
    · simp [hcomma, hterminator, take, reading]

/-- **A byte outside quotes**: a comma ends the field, a line end the record. -/
theorem step_outside (h : s.reading = ⟨site, f, fs, done⟩) (hsite : site ≠ .quoted)
    (hb : b ≠ quote) (hskip : site = .between → isTerminator b = false) :
    (s.step b).reading =
      if b = comma then ⟨.fieldStart, [], f.reverse :: fs, done⟩
      else if isTerminator b then ⟨.between, [], [], (f.reverse :: fs).reverse :: done⟩
      else ⟨.bare, b :: f, fs, done⟩ := by
  have hcount : (s.count b).reading = ⟨site, f, fs, done⟩ := h
  rw [← reading_outside hcount]
  have hs : (s.count b).site = site := congrArg Reading.site hcount
  unfold step
  cases site with
  | quoted => exact absurd rfl hsite
  | between => simp only [hs, hskip rfl, Bool.false_eq_true, if_false, opening, hb]
  | fieldStart => simp only [hs, opening, hb, if_false]
  | bare => simp only [hs]
  | afterQuote => simp only [hs, hb, if_false]

theorem step_comma (h : s.reading = ⟨site, f, fs, done⟩) (hsite : site ≠ .quoted) :
    (s.step comma).reading = ⟨.fieldStart, [], f.reverse :: fs, done⟩ := by
  have hskip : site = .between → isTerminator comma = false := fun _ => by decide
  rw [step_outside h hsite (by decide) hskip, if_pos rfl]

/-- A line end between two records is skipped. -/
theorem step_skipped (h : s.reading = ⟨.between, f, fs, done⟩) (hb : isTerminator b = true) :
    (s.step b).reading = ⟨.between, f, fs, done⟩ := by
  obtain ⟨site', field, fields, start, here, finished⟩ := s
  simp only [reading, Reading.mk.injEq] at h
  obtain ⟨rfl, rfl, rfl, rfl⟩ := h
  simp [step, count, reading, hb]

theorem ne_of_isTerminator (hb : isTerminator b = true) : b ≠ quote ∧ b ≠ comma := by
  constructor
  all_goals
    rintro rfl
    revert hb
    decide

theorem step_terminator (h : s.reading = ⟨site, f, fs, done⟩) (hsite : site ≠ .quoted)
    (hbetween : site ≠ .between) (hb : isTerminator b = true) :
    (s.step b).reading = ⟨.between, [], [], (f.reverse :: fs).reverse :: done⟩ := by
  obtain ⟨hquote, hcomma⟩ := ne_of_isTerminator hb
  rw [step_outside h hsite hquote fun hs => absurd hs hbetween, if_neg hcomma, if_pos hb]

/-- A byte that needs no quotes becomes part of the field. -/
theorem step_plain (h : s.reading = ⟨site, f, fs, done⟩) (hb : isSpecial b = false) :
    (s.step b).reading = ⟨if site = .quoted then .quoted else .bare, b :: f, fs, done⟩ := by
  simp only [isSpecial, Bool.or_eq_false_iff, beq_eq_false_iff_ne] at hb
  obtain ⟨⟨hcomma, hquote⟩, hterminator⟩ := hb
  by_cases hsite : site = .quoted
  · subst hsite
    rw [step_quoted h hquote, if_pos rfl]
  · rw [step_outside h hsite hquote fun _ => hterminator, if_neg hcomma, hterminator, if_neg hsite]
    rfl

/-! ## §2. A printed field. -/

theorem run_cons (s : Scan) (b : UInt8) (bs : Bytes) : s.run (b :: bs) = (s.step b).run bs := rfl

theorem run_plain : ∀ (bs : Bytes) {s : Scan} {f : Bytes}, (∀ b ∈ bs, isSpecial b = false) →
    s.reading = ⟨.bare, f, fs, done⟩ →
      (s.run bs).reading = ⟨.bare, bs.reverse ++ f, fs, done⟩ := by
  intro bs
  induction bs with
  | nil => exact fun _ h => h
  | cons b bs ih =>
    intro s f hplain h
    have hstep := step_plain h (hplain b List.mem_cons_self)
    rw [run_cons, ih (fun c hc => hplain c (List.mem_cons_of_mem _ hc)) hstep]
    simp

/-- Between quotes doubled quotes stand for one. -/
theorem run_doubled : ∀ (bs : Bytes) {s : Scan} {f : Bytes},
    s.reading = ⟨.quoted, f, fs, done⟩ →
      (s.run (doubled bs)).reading = ⟨.quoted, bs.reverse ++ f, fs, done⟩ := by
  intro bs
  induction bs with
  | nil => exact fun h => h
  | cons b bs ih =>
    intro s f h
    have hdoubled : doubled (b :: bs) = (if b = quote then [quote, quote] else [b]) ++
        doubled bs := rfl
    have hrest : (s.run (if b = quote then [quote, quote] else [b])).reading =
        ⟨.quoted, b :: f, fs, done⟩ := by
      by_cases hb : b = quote
      · subst hb
        rw [if_pos rfl]
        exact step_quote (step_quote h)
      · rw [if_neg hb]
        exact step_quoted h hb
    rw [hdoubled, run_append, ih hrest]
    simp

/-- A field as it stands before the byte that ends it. -/
def AtEnd (s : Scan) (f : Bytes) (fs : List Bytes) (done : List (List Bytes)) : Prop :=
  ∃ site, site ≠ .quoted ∧ (site = .between ∨ site = .fieldStart → f = []) ∧
    s.reading = ⟨site, f.reverse, fs, done⟩

/-- **A printed field is read as the field**, at its end as at its start. -/
theorem run_printField (hsite : site = .between ∨ site = .fieldStart)
    (h : s.reading = ⟨site, [], fs, done⟩) (field : Bytes) :
    (s.run (printField field)).AtEnd field fs done := by
  unfold printField
  by_cases hspecial : field.any isSpecial = true
  · rw [if_pos hspecial]
    have hopen : (s.step quote).reading = ⟨.quoted, [], fs, done⟩ := by
      rw [step_quote h]
      rcases hsite with rfl | rfl <;> rfl
    have hbody := run_doubled field hopen
    rw [List.append_nil] at hbody
    refine ⟨.afterQuote, by decide, by simp, ?_⟩
    show (s.run ([quote] ++ doubled field ++ [quote])).reading = _
    rw [run_append, run_append]
    exact step_quote hbody
  · rw [if_neg hspecial]
    cases field with
    | nil =>
      refine ⟨site, ?_, fun _ => rfl, h⟩
      rcases hsite with rfl | rfl <;> decide
    | cons b bs =>
      have hplain : ∀ c ∈ b :: bs, isSpecial c = false := by simpa using hspecial
      have hne : site ≠ .quoted := by rcases hsite with rfl | rfl <;> decide
      have hfirst := step_plain h (hplain b List.mem_cons_self)
      rw [if_neg hne] at hfirst
      refine ⟨.bare, by decide, by simp, ?_⟩
      rw [run_cons, run_plain bs (fun c hc => hplain c (List.mem_cons_of_mem _ hc)) hfirst]
      simp

theorem AtEnd.comma {f : Bytes} (h : s.AtEnd f fs done) :
    (s.step comma).reading = ⟨.fieldStart, [], f :: fs, done⟩ := by
  obtain ⟨site, hsite, -, hreading⟩ := h
  rw [step_comma hreading hsite, List.reverse_reverse]

/-- A line feed ends the record, unless there is nothing of one. -/
theorem AtEnd.lineFeed {f : Bytes} (h : s.AtEnd f fs done)
    (hne : f = [] → s.site ≠ .between) :
    (s.step lineFeed).reading = ⟨.between, [], [], (f :: fs).reverse :: done⟩ := by
  obtain ⟨site, hsite, hempty, hreading⟩ := h
  have hs : s.site = site := congrArg Reading.site hreading
  have hbetween : site ≠ .between := by
    intro hb
    exact hne (hempty (.inl hb)) (hs.trans hb)
  rw [step_terminator hreading hsite hbetween (by decide), List.reverse_reverse]

/-! ## §3. A printed record. -/

/-- Fields after the first of a record, with the line end. -/
theorem run_printFields : ∀ (rest : List Bytes) {s : Scan} {fs : List Bytes} (field : Bytes),
    s.reading = ⟨.fieldStart, [], fs, done⟩ →
      (s.run (printFields (field :: rest) ++ [lineFeed])).reading =
        ⟨.between, [], [], (fs.reverse ++ field :: rest) :: done⟩ := by
  intro rest
  induction rest with
  | nil =>
    intro s fs field h
    have hend := run_printField (.inr rfl) h field
    rw [show printFields [field] = printField field from rfl, run_append]
    have hfeed := hend.lineFeed ?_
    · rw [show (s.run (printField field)).run [lineFeed] =
        (s.run (printField field)).step lineFeed from rfl, hfeed]
      simp
    · -- An empty field leaves the scanner at the start of the field.
      rintro rfl
      show s.site ≠ .between
      rw [show s.site = .fieldStart from congrArg Reading.site h]
      decide
  | cons next rest ih =>
    intro s fs field h
    have hend := run_printField (.inr rfl) h field
    rw [show printFields (field :: next :: rest) =
      printField field ++ comma :: printFields (next :: rest) from rfl, List.append_assoc,
      run_append, List.cons_append, run_cons, ih next hend.comma]
    simp

/-- **A printed record is read as its cells**, and the scanner stands between
two records again. -/
theorem run_printRecord (h : s.reading = ⟨.between, [], [], done⟩) {cells : List String}
    (hcells : cells ≠ []) :
    (s.run (printRecord cells)).reading =
      ⟨.between, [], [], cells.map Text.encode :: done⟩ := by
  unfold printRecord
  split
  · next hempty =>
    -- The record of one empty field is written as two quotes.
    rw [hempty]
    have hopen : (s.step quote).reading = ⟨.quoted, [], [], done⟩ := step_quote h
    have hclose : ((s.step quote).step quote).reading = ⟨.afterQuote, [], [], done⟩ :=
      step_quote hopen
    exact step_terminator hclose (by decide) (by decide) (by decide)
  · next fields hne =>
    cases hfields : cells.map Text.encode with
    | nil => exact absurd (List.map_eq_nil_iff.1 hfields) hcells
    | cons field rest =>
      have hend := run_printField (.inl rfl) h field
      cases rest with
      | nil =>
        rw [show printFields [field] = printField field from rfl, run_append]
        refine (hend.lineFeed ?_).trans rfl
        rintro rfl
        exact absurd hfields hne
      | cons next rest =>
        rw [show printFields (field :: next :: rest) =
          printField field ++ comma :: printFields (next :: rest) from rfl, List.append_assoc,
          run_append, List.cons_append, run_cons, run_printFields rest next hend.comma]
        rfl

theorem run_printRecords : ∀ (records : List (List String)) {s : Scan}
    {done : List (List Bytes)}, s.reading = ⟨.between, [], [], done⟩ →
      (∀ cells ∈ records, cells ≠ []) →
        (s.run (records.flatMap printRecord)).reading =
          ⟨.between, [], [], (records.map (List.map Text.encode)).reverse ++ done⟩ := by
  intro records
  induction records with
  | nil => exact fun h _ => h
  | cons cells records ih =>
    intro s done h hcells
    have hfirst := run_printRecord h (hcells cells List.mem_cons_self)
    rw [List.flatMap_cons, run_append,
      ih hfirst fun c hc => hcells c (List.mem_cons_of_mem _ hc)]
    simp

end Scan

end ReportStore.Csv
