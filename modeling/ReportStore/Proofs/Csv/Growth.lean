/-
  ReportStore.Proofs.Csv.Growth
  ─────────────────────────────
  **FILES THAT GROW.**

  A file is closed if it ends between two records: it is empty, or its last
  record has its line end.  Records printed at the end of a closed file are
  read back after the records that it held, and the file is closed again.

  A file that is not closed ends within a record, and the first byte that is
  appended goes into that record or ends it.  So a row appended there is not
  read as the row: the record before it has grown or, where an open quote
  was closed by the row itself, the row has lost its first byte.
-/
import ReportStore.Proofs.Csv.Scan
import ReportStore.Proofs.Text
import ReportStore.Csv.Table

namespace ReportStore.Csv

/-! ## §1. The end of a file. -/

/-- The scanner at the end of a file. -/
def Scan.ofFile (bs : Bytes) : Scan :=
  if bs.take 3 = byteOrderMark then Scan.run { Scan.initial with here := ⟨3, 1⟩ } (bs.drop 3)
  else Scan.initial.run bs

/-- The file ends between two records. -/
def Closed (bs : Bytes) : Prop := (Scan.ofFile bs).site = .between

instance (bs : Bytes) : Decidable (Closed bs) := inferInstanceAs (Decidable (_ = _))

/-- The fields of the records of a file. -/
def rawFields (bs : Bytes) : List (List Bytes) := (rawRecords bs).map (·.fields)

theorem rawRecords_eq (bs : Bytes) : rawRecords bs = (Scan.ofFile bs).records := by
  unfold rawRecords Scan.ofFile
  split <;> rfl

namespace Scan

variable {s : Scan} {site : Site} {f : Bytes} {fs : List Bytes} {done : List (List Bytes)}

/-- **What a byte can do**: it is skipped, opens or closes quotes, is taken
into the field, ends the field, or ends the record. -/
theorem step_cases (h : s.reading = ⟨site, f, fs, done⟩) (b : UInt8) :
    (site = .between ∧ (s.step b).reading = ⟨.between, f, fs, done⟩) ∨
    (∃ site', site' ≠ .between ∧ (s.step b).reading = ⟨site', f, fs, done⟩) ∨
    (∃ site', site' ≠ .between ∧ (s.step b).reading = ⟨site', b :: f, fs, done⟩) ∨
    (s.step b).reading = ⟨.fieldStart, [], f.reverse :: fs, done⟩ ∨
    (site ≠ .between ∧
      (s.step b).reading = ⟨.between, [], [], (f.reverse :: fs).reverse :: done⟩) := by
  by_cases hquote : b = quote
  · subst hquote
    have hstep := step_quote h
    cases site with
    | between => exact .inr (.inl ⟨.quoted, by decide, hstep⟩)
    | fieldStart => exact .inr (.inl ⟨.quoted, by decide, hstep⟩)
    | bare => exact .inr (.inr (.inl ⟨.bare, by decide, hstep⟩))
    | quoted => exact .inr (.inl ⟨.afterQuote, by decide, hstep⟩)
    | afterQuote => exact .inr (.inr (.inl ⟨.quoted, by decide, hstep⟩))
  · by_cases hquoted : site = .quoted
    · subst hquoted
      exact .inr (.inr (.inl ⟨.quoted, by decide, step_quoted h hquote⟩))
    · by_cases hskip : site = .between ∧ isTerminator b = true
      · obtain ⟨rfl, hb⟩ := hskip
        exact .inl ⟨rfl, step_skipped h hb⟩
      · have hstep := step_outside h hquoted hquote fun hs =>
          Bool.eq_false_iff.2 fun hb => hskip ⟨hs, hb⟩
        by_cases hcomma : b = comma
        · rw [if_pos hcomma] at hstep
          exact .inr (.inr (.inr (.inl hstep)))
        · rw [if_neg hcomma] at hstep
          by_cases hb : isTerminator b = true
          · rw [if_pos hb] at hstep
            exact .inr (.inr (.inr (.inr ⟨fun hs => hskip ⟨hs, hb⟩, hstep⟩)))
          · rw [if_neg hb] at hstep
            exact .inr (.inr (.inl ⟨.bare, by decide, hstep⟩))

/-- Between two records nothing of a record has been read. -/
def Clean (s : Scan) : Prop := s.site = .between → s.field = [] ∧ s.fields = []

theorem clean_iff (h : s.reading = ⟨site, f, fs, done⟩) :
    s.Clean ↔ (site = .between → f = [] ∧ fs = []) := by
  simp only [reading, Reading.mk.injEq] at h
  obtain ⟨rfl, rfl, rfl, -⟩ := h
  rfl

theorem clean_step (h : s.Clean) (b : UInt8) : (s.step b).Clean := by
  have hs : s.reading = ⟨s.site, s.field, s.fields, s.finished.map (·.fields)⟩ := rfl
  rcases step_cases hs b with ⟨hsite, hr⟩ | ⟨site', hne, hr⟩ | ⟨site', hne, hr⟩ | hr | ⟨-, hr⟩
  · rw [clean_iff hr]
    exact fun _ => h hsite
  · rw [clean_iff hr]
    exact fun hb => absurd hb hne
  · rw [clean_iff hr]
    exact fun hb => absurd hb hne
  · rw [clean_iff hr]
    exact fun hb => absurd hb (by decide)
  · rw [clean_iff hr]
    exact fun _ => ⟨rfl, rfl⟩

theorem clean_run : ∀ (bs : Bytes) {s : Scan}, s.Clean → (s.run bs).Clean := by
  intro bs
  induction bs with
  | nil => exact id
  | cons b bs ih => exact fun h => ih (clean_step h b)

theorem clean_ofFile (bs : Bytes) : (ofFile bs).Clean := by
  unfold ofFile
  split
  · exact clean_run _ fun _ => ⟨rfl, rfl⟩
  · exact clean_run _ fun _ => ⟨rfl, rfl⟩

/-! ## §2. The records that a scanner has. -/

theorem records_of_between (h : s.reading = ⟨.between, f, fs, done⟩) :
    s.records.map (·.fields) = done.reverse := by
  simp only [reading, Reading.mk.injEq] at h
  obtain ⟨hsite, -, -, rfl⟩ := h
  unfold records
  rw [hsite]
  exact List.map_reverse

/-- A record that the file ends in counts. -/
theorem records_of_open (h : s.reading = ⟨site, f, fs, done⟩) (hsite : site ≠ .between) :
    s.records.map (·.fields) = done.reverse ++ [fs.reverse ++ [f.reverse]] := by
  simp only [reading, Reading.mk.injEq] at h
  obtain ⟨rfl, rfl, rfl, rfl⟩ := h
  unfold records
  cases hs : s.site with
  | between => exact absurd hs hsite
  | fieldStart | bare | quoted | afterQuote =>
    simp only [endRecord, List.reverse_cons, List.map_append, List.map_reverse, List.map_cons,
      List.map_nil]

/-- What has been read stays read. -/
theorem records_run : ∀ (bs : Bytes) {s : Scan} {site : Site} {f : Bytes} {fs : List Bytes}
    {done : List (List Bytes)}, s.reading = ⟨site, f, fs, done⟩ →
      ∃ later, (s.run bs).records.map (·.fields) = done.reverse ++ later := by
  intro bs
  induction bs with
  | nil =>
    intro s site f fs done h
    by_cases hsite : site = .between
    · subst hsite
      exact ⟨[], by rw [List.append_nil]; exact records_of_between h⟩
    · exact ⟨_, records_of_open h hsite⟩
  | cons b bs ih =>
    intro s site f fs done h
    rw [run_cons]
    rcases step_cases h b with ⟨-, hr⟩ | ⟨_, -, hr⟩ | ⟨_, -, hr⟩ | hr | ⟨-, hr⟩
    · exact ih hr
    · exact ih hr
    · exact ih hr
    · exact ih hr
    · obtain ⟨later, hlater⟩ := ih hr
      exact ⟨(fs.reverse ++ [f.reverse]) :: later, by rw [hlater]; simp⟩

/-- **A record that has begun only grows**: the field that is being read gets
more bytes at its end, and more fields may follow it. -/
theorem records_run_of_open : ∀ (bs : Bytes) {s : Scan} {site : Site} {f : Bytes}
    {fs : List Bytes} {done : List (List Bytes)}, s.reading = ⟨site, f, fs, done⟩ →
      site ≠ .between →
        ∃ bytes fields later, (s.run bs).records.map (·.fields) =
          done.reverse ++ (fs.reverse ++ (f.reverse ++ bytes) :: fields) :: later := by
  intro bs
  induction bs with
  | nil =>
    intro s site f fs done h hsite
    exact ⟨[], [], [], by rw [List.append_nil]; exact records_of_open h hsite⟩
  | cons b bs ih =>
    intro s site f fs done h hsite
    rw [run_cons]
    rcases step_cases h b with ⟨hb, -⟩ | ⟨site', hne, hr⟩ | ⟨site', hne, hr⟩ | hr | ⟨-, hr⟩
    · exact absurd hb hsite
    · exact ih hr hne
    · obtain ⟨bytes, fields, later, hgrown⟩ := ih hr hne
      exact ⟨b :: bytes, fields, later, by rw [hgrown]; simp⟩
    · obtain ⟨bytes, fields, later, hgrown⟩ := ih hr (by decide)
      exact ⟨[], bytes :: fields, later, by rw [hgrown]; simp⟩
    · obtain ⟨later, hlater⟩ := records_run bs hr
      exact ⟨[], [], later, by rw [hlater]; simp⟩

end Scan

theorem rawFields_eq (bs : Bytes) : rawFields bs = (Scan.ofFile bs).records.map (·.fields) := by
  unfold rawFields
  rw [rawRecords_eq]

theorem reading_of_closed {bs : Bytes} (h : Closed bs) :
    (Scan.ofFile bs).reading = ⟨.between, [], [], (rawFields bs).reverse⟩ := by
  obtain ⟨hfield, hfields⟩ := Scan.clean_ofFile bs h
  have hreading : (Scan.ofFile bs).reading =
      ⟨.between, [], [], (Scan.ofFile bs).finished.map (·.fields)⟩ := by
    unfold Scan.reading
    rw [hfield, hfields, show (Scan.ofFile bs).site = .between from h]
  rw [hreading, rawFields_eq, Scan.records_of_between hreading, List.reverse_reverse]

/-! ## §3. Appending to a file. -/

/-- Only a file too short to have a header can become one with a byte order
mark. -/
theorem take_append_mark {old more : Bytes} (h : (old ++ more).take 3 = byteOrderMark) :
    old.take 3 = byteOrderMark ∨ old = [] ∨ old = [0xEF] ∨ old = [0xEF, 0xBB] := by
  rcases old with _ | ⟨a, _ | ⟨b, _ | ⟨c, rest⟩⟩⟩
  · exact .inr (.inl rfl)
  · simp [byteOrderMark] at h
    exact .inr (.inr (.inl (by rw [h.1])))
  · simp [byteOrderMark] at h
    exact .inr (.inr (.inr (by rw [h.1, h.2.1])))
  · exact .inl h

/-- Bytes that can be appended without making a byte order mark. -/
theorem mark_of_header {old more : Bytes} {header : List String}
    (hheader : (Table.ofBytes old).header = .ok header)
    (hmore : old = [] → more.head? ≠ some 0xEF)
    (h : (old ++ more).take 3 = byteOrderMark) : old.take 3 = byteOrderMark := by
  rcases take_append_mark h with hmark | rfl | rfl | rfl
  · exact hmark
  · refine absurd ?_ (hmore rfl)
    cases more with
    | nil => cases h
    | cons b more =>
      have hb : b = 0xEF := by
        simp [byteOrderMark] at h
        exact h.1
      rw [hb]
      rfl
  -- The first bytes of a mark alone are no text.
  · cases hheader
  · cases hheader

theorem ofFile_append {old more : Bytes}
    (hmark : (old ++ more).take 3 = byteOrderMark → old.take 3 = byteOrderMark) :
    Scan.ofFile (old ++ more) = (Scan.ofFile old).run more := by
  unfold Scan.ofFile
  by_cases h : old.take 3 = byteOrderMark
  · have hlength : 3 ≤ old.length := by
      have := congrArg List.length h
      simp [byteOrderMark] at this
      omega
    have htake : (old ++ more).take 3 = byteOrderMark := by
      rw [List.take_append_of_le_length hlength, h]
    rw [if_pos h, if_pos htake, List.drop_append_of_le_length hlength, Scan.run_append]
  · rw [if_neg h, if_neg (mt hmark h), Scan.run_append]

/-- **Records appended to a closed file** are read after the ones it held,
and the file is closed again. -/
theorem rawFields_append {old : Bytes} {records : List (List String)} (hclosed : Closed old)
    (hmark : (old ++ records.flatMap printRecord).take 3 = byteOrderMark →
      old.take 3 = byteOrderMark)
    (hne : ∀ cells ∈ records, cells ≠ []) :
    Closed (old ++ records.flatMap printRecord) ∧
      rawFields (old ++ records.flatMap printRecord) =
        rawFields old ++ records.map (List.map Text.encode) := by
  have hrun := Scan.run_printRecords records (reading_of_closed hclosed) hne
  rw [← ofFile_append hmark] at hrun
  refine ⟨congrArg Reading.site hrun, ?_⟩
  rw [rawFields_eq, Scan.records_of_between hrun]
  simp

/-! ## §4. Appending within a record. -/

/-- The field that was being read has got a byte more. -/
theorem not_isPrefix_of_taken {s u : Scan} {site site' : Site} {f : Bytes} {fs : List Bytes}
    {done : List (List Bytes)} (h : s.reading = ⟨site, f, fs, done⟩) (hsite : site ≠ .between)
    {b : UInt8} (hu : u.reading = ⟨site', b :: f, fs, done⟩) (hsite' : site' ≠ .between)
    (more : Bytes) (record : List Bytes) :
    ¬ s.records.map (·.fields) ++ [record] <+: (u.run more).records.map (·.fields) := by
  obtain ⟨bytes, fields, later, hgrown⟩ := Scan.records_run_of_open more hu hsite'
  rw [Scan.records_of_open h hsite, hgrown, List.append_assoc, List.prefix_append_right_inj]
  intro hprefix
  have hhead := (List.cons_prefix_cons.1 hprefix).1
  rw [List.append_right_inj] at hhead
  injection hhead with hfield
  have hlength := congrArg List.length hfield
  simp at hlength

/-- Line ends before the first byte of a record are skipped. -/
theorem run_skipped {done : List (List Bytes)} : ∀ (bs : Bytes) {s : Scan},
    (∀ b ∈ bs, isTerminator b = true) → s.reading = ⟨.between, [], [], done⟩ →
      (s.run bs).reading = ⟨.between, [], [], done⟩ := by
  intro bs
  induction bs with
  | nil => exact fun _ h => h
  | cons b bs ih =>
    intro s hb h
    exact ih (fun c hc => hb c (List.mem_cons_of_mem _ hc))
      (Scan.step_skipped h (hb b List.mem_cons_self))

/-- A text that needs quotes for its line ends only. -/
structure Unquoted (bs : Bytes) : Prop where
  quote : quote ∉ bs
  comma : comma ∉ bs
  visible : ∃ b ∈ bs, isTerminator b = false

theorem doubled_of_not_mem : ∀ {bs : Bytes}, quote ∉ bs → doubled bs = bs := by
  intro bs
  induction bs with
  | nil => exact fun _ => rfl
  | cons b bs ih =>
    intro h
    have hb : b ≠ quote := fun hb => h (hb ▸ List.mem_cons_self)
    have hrest := ih fun hmem => h (List.mem_cons_of_mem _ hmem)
    unfold doubled at hrest ⊢
    rw [List.flatMap_cons, if_neg hb, hrest]
    rfl

theorem exists_visible : ∀ {bs : Bytes} {c : UInt8}, c ∈ bs → isTerminator c = false →
    ∃ skip b rest, bs = skip ++ b :: rest ∧ (∀ x ∈ skip, isTerminator x = true) ∧
      isTerminator b = false := by
  intro bs
  induction bs with
  | nil => exact fun h => absurd h List.not_mem_nil
  | cons b bs ih =>
    intro c hc hvisible
    cases hb : isTerminator b with
    | false => exact ⟨[], b, bs, rfl, by simp, hb⟩
    | true =>
      have hcbs : c ∈ bs := by
        rcases List.mem_cons.1 hc with rfl | hc
        · rw [hb] at hvisible
          cases hvisible
        · exact hc
      obtain ⟨skip, d, rest, rfl, hskip, hd⟩ := ih hcbs hvisible
      refine ⟨b :: skip, d, rest, rfl, ?_, hd⟩
      intro x hx
      rcases List.mem_cons.1 hx with rfl | hx
      · exact hb
      · exact hskip x hx

/-- The line end of a row that closes an open quote: the row goes on as a
record that has lost its first byte. -/
theorem not_isPrefix_of_ended {s u : Scan} {f : Bytes} {fs : List Bytes} {done : List (List Bytes)}
    (h : s.reading = ⟨.quoted, f, fs, done⟩) {b : UInt8} {rest : Bytes}
    (hbs : Unquoted (b :: rest)) (hb : isTerminator b = true)
    (hu : u.reading = ⟨.between, [], [], (f.reverse :: fs).reverse :: done⟩) (more : Bytes)
    (fields : List Bytes) :
    ¬ s.records.map (·.fields) ++ [(b :: rest) :: fields] <+:
      (u.run (rest ++ more)).records.map (·.fields) := by
  -- What follows starts with a byte that is no line end.
  obtain ⟨c, hc, hvisible⟩ := hbs.visible
  have hcrest : c ∈ rest := by
    rcases List.mem_cons.1 hc with rfl | hc
    · rw [hb] at hvisible
      cases hvisible
    · exact hc
  obtain ⟨skip, d, rest', rfl, hskip, hd⟩ := exists_visible hcrest hvisible
  have hmem : d ∈ b :: (skip ++ d :: rest') := by simp
  have hplain : isSpecial d = false := by
    have hcomma : d ≠ comma := fun h => hbs.comma (h ▸ hmem)
    have hquote : d ≠ quote := fun h => hbs.quote (h ▸ hmem)
    simp [isSpecial, hcomma, hquote, hd]
  have hfirst := Scan.step_plain (run_skipped skip hskip hu) hplain
  obtain ⟨bytes, fields', later, hgrown⟩ :=
    Scan.records_run_of_open (rest' ++ more) hfirst (by decide)
  rw [List.append_assoc, Scan.run_append, List.cons_append, Scan.run_cons, hgrown,
    Scan.records_of_open h (by decide)]
  intro hprefix
  simp only [List.reverse_cons, List.append_assoc, List.prefix_append_right_inj,
    List.cons_append, List.nil_append, List.cons_prefix_cons, List.reverse_nil] at hprefix
  -- The cell would start with a line end and not with that byte.
  have hcells := hprefix.2.1
  injection hcells with hcell
  injection hcell with hbd
  rw [hbd, hd] at hb
  cases hb

/-- **A row appended within a record is not read as that row.** -/
theorem not_isPrefix_of_open {s : Scan} {site : Site} {f : Bytes} {fs : List Bytes}
    {done : List (List Bytes)} (h : s.reading = ⟨site, f, fs, done⟩) (hopen : site ≠ .between)
    {bs : Bytes} (hbs : Unquoted bs) (tail : Bytes) (fields : List Bytes) :
    ¬ s.records.map (·.fields) ++ [bs :: fields] <+:
      (s.run (printField bs ++ comma :: tail)).records.map (·.fields) := by
  obtain ⟨b, rest, rfl⟩ : ∃ b rest, bs = b :: rest := by
    obtain ⟨b, hb, -⟩ := hbs.visible
    exact List.exists_cons_of_ne_nil (List.ne_nil_of_mem hb)
  have hquote : b ≠ quote := fun hb => hbs.quote (hb ▸ List.mem_cons_self)
  have hcomma : b ≠ comma := fun hb => hbs.comma (hb ▸ List.mem_cons_self)
  unfold printField
  by_cases hspecial : (b :: rest).any isSpecial = true
  · rw [if_pos hspecial, doubled_of_not_mem hbs.quote]
    show ¬ _ <+: (((s.step quote).step b).run (rest ++ [quote] ++ comma :: tail)).records.map
      (·.fields)
    have hstep := Scan.step_quote h
    cases site with
    | between => exact absurd rfl hopen
    | bare =>
      have htaken : (s.step quote).reading = ⟨.bare, quote :: f, fs, done⟩ := hstep
      exact not_isPrefix_of_taken h (by decide) htaken (by decide)
        (b :: (rest ++ [quote] ++ comma :: tail)) _
    | afterQuote =>
      have htaken : (s.step quote).reading = ⟨.quoted, quote :: f, fs, done⟩ := hstep
      exact not_isPrefix_of_taken h (by decide) htaken (by decide)
        (b :: (rest ++ [quote] ++ comma :: tail)) _
    | fieldStart =>
      exact not_isPrefix_of_taken h (by decide) (Scan.step_quoted hstep hquote) (by decide) _ _
    | quoted =>
      -- The quote of the row closes the one that was open.
      by_cases hb : isTerminator b = true
      · have hended := Scan.step_terminator hstep (by decide) (by decide) hb
        rw [List.append_assoc]
        exact not_isPrefix_of_ended h hbs hb hended _ _
      · have htaken := Scan.step_outside (b := b) hstep (by decide) hquote (fun h => nomatch h)
        rw [if_neg hcomma, if_neg hb] at htaken
        exact not_isPrefix_of_taken h (by decide) htaken (by decide) _ _
  · rw [if_neg hspecial]
    have hplain : isSpecial b = false := by
      simp only [List.any_cons, Bool.or_eq_true, not_or] at hspecial
      simpa using hspecial.1
    have hsite' : (if site = .quoted then Site.quoted else .bare) ≠ .between := by
      split <;> decide
    exact not_isPrefix_of_taken h hopen (Scan.step_plain h hplain) hsite' _ _

/-- **Appending to a file that is not closed**: its records with the appended
row after them are not what is read. -/
theorem not_isPrefix_append {old more : Bytes} (hopen : ¬ Closed old)
    (hmark : (old ++ more).take 3 = byteOrderMark → old.take 3 = byteOrderMark)
    {cell : String} {cells : List String} (hcell : Unquoted (Text.encode cell))
    (hcells : cells ≠ []) {tail : Bytes} (hmore : more = printRecord (cell :: cells) ++ tail) :
    ¬ rawFields old ++ [(cell :: cells).map Text.encode] <+: rawFields (old ++ more) := by
  obtain ⟨next, rest, rfl⟩ := List.exists_cons_of_ne_nil hcells
  have hprinted : more = printField (Text.encode cell) ++
      comma :: (printFields ((next :: rest).map Text.encode) ++ lineFeed :: tail) := by
    rw [hmore]
    simp [printRecord, printFields]
  rw [rawFields_eq, rawFields_eq, ofFile_append hmark, hprinted]
  exact not_isPrefix_of_open rfl hopen hcell _ _

end ReportStore.Csv
