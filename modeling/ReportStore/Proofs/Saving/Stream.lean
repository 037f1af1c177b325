/-
  ReportStore.Proofs.Saving.Stream
  ────────────────────────────────
  **SAVING A STREAM IS SAVING ITS FIRST RECORDS.**

  The lines of a stream are read one by one while the records of the lines
  before them are saved.  So the stream is known by its first lines that are
  not blank, up to the first that is no text, no record, or a record that is
  refused: the records before that line are saved as they would be by hand,
  and what comes after it is never looked at.

      leading rs   →   saveLines  =  saveMany rs, and the fault of the next line

  A line that is no record is named by its number among all lines, blank ones
  counted.
-/
import ReportStore.Program
import ReportStore.Proofs.Merge.Rows
import ReportStore.Proofs.Saving.GroupFile

namespace ReportStore

namespace RecordLines

/-! ## §1. The lines that are not blank. -/

/-- Whether a line is a text of blanks. -/
def isBlankLine (line : Bytes) : Bool :=
  match Text.decode? line with
  | some s => s.toList.all Text.isBlank
  | none => false

/-- The lines that are not blank, each with its number among all lines. -/
def numbered (bs : Bytes) : List (Bytes × Nat) :=
  ((lines bs).zipIdx 1).filter fun l => !isBlankLine l.1

/-- The record of a line that is not blank. -/
def recordOf (l : Bytes × Nat) : Except LineFault Record :=
  match Text.decode? l.1 with
  | none => .error .notText
  | some s =>
    match Json.readRecord s.toList with
    | .ok r => .ok r
    | .error _ => .error (.notRecord l.2)

theorem ofLine?_eq (number : Nat) (line : Bytes) :
    ofLine? number line = if isBlankLine line then none else some (recordOf (line, number)) := by
  unfold ofLine? isBlankLine recordOf
  cases Text.decode? line with
  | none => rfl
  | some s =>
    by_cases hblank : s.toList.all Text.isBlank = true
    · simp only [hblank, if_true]
    · simp only [hblank, Bool.false_eq_true, if_false]
      cases Json.readRecord s.toList with
      | ok r => rfl
      | error cause => rfl

/-- **The records of a stream are those of its lines that are not blank**, each
read on its own. -/
theorem read_eq_map (bs : Bytes) : read bs = (numbered bs).map recordOf := by
  have hall : ∀ (ls : List Bytes) (number : Nat),
      ofLines number ls = ((ls.zipIdx number).filter fun l => !isBlankLine l.1).map recordOf := by
    intro ls
    induction ls with
    | nil => exact fun _ => rfl
    | cons line rest ih =>
      intro number
      rw [ofLines, ofLine?_eq, List.zipIdx_cons, List.filter_cons, ih]
      cases isBlankLine line with
      | true => rfl
      | false => rfl
  exact hall (lines bs) 1

end RecordLines

open RecordLines

/-! ## §2. The records that are saved. -/

variable {t : FileTree} {s : Store} {ls : List (Bytes × Nat)} {l : Bytes × Nat} {r : Record}
  {rs : List Record}

/-- What saving some records one by one leaves, for a record that comes next. -/
def Store.saveNext (t : FileTree) (s : Store) (rs : List Record) (r : Record) :
    Outcome (FileTree × Store) Unit :=
  (s.saveMany t rs).state.2.save (s.saveMany t rs).state.1 r

/-- **The records that lead a stream**: those of the first lines, accepted in
turn, and as many of them as possible. -/
structure Leading (t : FileTree) (s : Store) (ls : List (Bytes × Nat)) (rs : List Record) :
    Prop where
  read : (ls.take rs.length).map recordOf = rs.map .ok
  accepted : (s.saveMany t rs).result = .ok ()
  /-- The line that comes next has no record that is accepted. -/
  stops : ∀ l ∈ ls[rs.length]?, ∀ r, recordOf l = .ok r → (s.saveNext t rs r).result ≠ .ok ()

namespace Store

theorem saveMany_cons (h : (s.save t r).result = .ok ()) (rs : List Record) :
    let later := (s.save t r).state.2.saveMany (s.save t r).state.1 rs
    s.saveMany t (r :: rs) = { later with signals := (s.save t r).signals ++ later.signals } := by
  simp only [saveMany, h]

theorem saveNext_cons (h : (s.save t r).result = .ok ()) (rs : List Record) (r' : Record) :
    s.saveNext t (r :: rs) r' = (s.save t r).state.2.saveNext (s.save t r).state.1 rs r' := by
  unfold saveNext
  rw [saveMany_cons h]

end Store

namespace Leading

theorem nil_iff : Leading t s ls [] ↔
    ∀ l ∈ ls[0]?, ∀ r, recordOf l = .ok r → (s.save t r).result ≠ .ok () :=
  ⟨fun h => h.stops, fun h => ⟨rfl, rfl, h⟩⟩

/-- A record leads a stream if it is that of the first line and is accepted. -/
theorem cons_iff : Leading t s (l :: ls) (r :: rs) ↔
    recordOf l = .ok r ∧ (s.save t r).result = .ok () ∧
      Leading (s.save t r).state.1 (s.save t r).state.2 ls rs := by
  constructor
  · rintro ⟨hread, haccepted, hstops⟩
    obtain ⟨hl, hread⟩ := List.cons.inj hread
    have hsaved : (s.save t r).result = .ok () := (Store.saveMany_cons_ok haccepted).1
    rw [Store.saveMany_cons hsaved] at haccepted
    refine ⟨hl, hsaved, hread, haccepted, ?_⟩
    intro l' hl' r' hr'
    rw [← Store.saveNext_cons hsaved]
    exact hstops l' hl' r' hr'
  · rintro ⟨hl, hsaved, hread, haccepted, hstops⟩
    refine ⟨?_, ?_, ?_⟩
    · show recordOf l :: (ls.take rs.length).map recordOf = .ok r :: rs.map .ok
      rw [hl, hread]
    · rw [Store.saveMany_cons hsaved]
      exact haccepted
    · intro l' hl' r' hr'
      rw [Store.saveNext_cons hsaved]
      exact hstops l' hl' r' hr'

/-- **Some records lead a stream.** -/
theorem exists_leading : ∀ (ls : List (Bytes × Nat)) (t : FileTree) (s : Store),
    ∃ rs, Leading t s ls rs := by
  intro ls
  induction ls with
  | nil => exact fun t s => ⟨[], nil_iff.2 fun _ hl => nomatch hl⟩
  | cons l ls ih =>
    intro t s
    by_cases hnext : ∃ r, recordOf l = .ok r ∧ (s.save t r).result = .ok ()
    · obtain ⟨r, hl, hsaved⟩ := hnext
      obtain ⟨rs, hrs⟩ := ih (s.save t r).state.1 (s.save t r).state.2
      exact ⟨r :: rs, cons_iff.2 ⟨hl, hsaved, hrs⟩⟩
    · refine ⟨[], nil_iff.2 ?_⟩
      intro l' hl' r hr hsaved
      injection hl' with hl'
      exact hnext ⟨r, hl' ▸ hr, hsaved⟩

/-- No others do. -/
theorem unique : ∀ {ls : List (Bytes × Nat)} {t : FileTree} {s : Store} {rs rs' : List Record},
    Leading t s ls rs → Leading t s ls rs' → rs = rs' := by
  intro ls
  induction ls with
  | nil =>
    intro t s rs rs' h h'
    have hnil : ∀ {rs}, Leading t s [] rs → rs = [] := by
      intro rs h
      have hread := h.read
      rw [List.take_nil, List.map_nil] at hread
      exact List.map_eq_nil_iff.1 hread.symm
    rw [hnil h, hnil h']
  | cons l ls ih =>
    -- The first line decides whether there is a first record, and which.
    have hnone : ∀ {t s r rs}, Leading t s (l :: ls) [] → ¬ Leading t s (l :: ls) (r :: rs) := by
      intro t s r rs h h'
      obtain ⟨hl, hsaved, -⟩ := cons_iff.1 h'
      exact nil_iff.1 h l rfl r hl hsaved
    intro t s rs rs' h h'
    cases rs with
    | nil =>
      cases rs' with
      | nil => rfl
      | cons r' rs' => exact absurd h' (hnone h)
    | cons r rs =>
      cases rs' with
      | nil => exact absurd h (hnone h')
      | cons r' rs' =>
        obtain ⟨hl, -, hrs⟩ := cons_iff.1 h
        obtain ⟨hl', -, hrs'⟩ := cons_iff.1 h'
        obtain rfl : r = r' := Except.ok.inj (hl.symm.trans hl')
        rw [ih hrs hrs']

/-- Only the lines up to the one that stops a stream matter. -/
theorem congr {ls' : List (Bytes × Nat)} (h : Leading t s ls rs)
    (hsame : ls'.take (rs.length + 1) = ls.take (rs.length + 1)) : Leading t s ls' rs := by
  have htake : ls'.take rs.length = ls.take rs.length := by
    have hshort := congrArg (List.take rs.length) hsame
    rwa [List.take_take, List.take_take, Nat.min_eq_left (Nat.le_succ _)] at hshort
  have hnext : ls'[rs.length]? = ls[rs.length]? := by
    rw [← List.getElem?_take_of_succ, hsame, List.getElem?_take_of_succ]
  exact ⟨htake ▸ h.read, h.accepted, hnext ▸ h.stops⟩

end Leading

/-! ## §3. What saving the lines comes to. -/

/-- The same with some records saved before it. -/
def Saved.after (count : Nat) (signals : List Signal) (d : Saved) : Saved :=
  { d with count := d.count + count, signals := signals ++ d.signals }

/-- Records that are accepted in turn are saved, and the lines after them follow. -/
theorem Store.saveItems_append (rest : List (Except LineFault Record)) :
    ∀ {rs : List Record} {t : FileTree} {s : Store}, (s.saveMany t rs).result = .ok () →
      s.saveItems t (rs.map .ok ++ rest) =
        ((s.saveMany t rs).state.2.saveItems (s.saveMany t rs).state.1 rest).after rs.length
          (s.saveMany t rs).signals := by
  intro rs
  induction rs with
  | nil => exact fun _ => rfl
  | cons r rs ih =>
    intro t s haccepted
    have hsaved : (s.save t r).result = .ok () := (Store.saveMany_cons_ok haccepted).1
    rw [Store.saveMany_cons hsaved] at haccepted ⊢
    rw [List.map_cons, List.cons_append, Store.saveItems]
    simp only [hsaved, ih haccepted, Saved.after, List.length_cons, List.append_assoc,
      Nat.add_assoc]

/-- The fault of the line that comes next, if one does. -/
inductive NextFault (t : FileTree) (s : Store) :
    Option (Bytes × Nat) → Option CommandFault → Prop where
  /-- There is no line left. -/
  | atEnd : NextFault t s none none
  /-- The line is no UTF-8. -/
  | notText {line : Bytes} {number : Nat} (undecoded : Text.decode? line = none) :
      NextFault t s (some (line, number)) (some (.line .notText))
  /-- The line is no record; the fault carries its number. -/
  | notRecord {line : Bytes} {number : Nat} {text : String}
      (decoded : Text.decode? line = some text) (unread : ∀ r, Json.readRecord text.toList ≠ .ok r) :
      NextFault t s (some (line, number)) (some (.line (.notRecord number)))
  /-- The record of the line is refused. -/
  | refused {line : Bytes} {number : Nat} {text : String} {r : Record} {e : Fault}
      (decoded : Text.decode? line = some text) (read : Json.readRecord text.toList = .ok r)
      (refused : (s.save t r).result = .error e) :
      NextFault t s (some (line, number)) (some (.store e))

/-- A line that cannot be read has the fault that it is read with. -/
theorem NextFault.eq_of_error {fault : Option CommandFault} {e : LineFault}
    (h : NextFault t s (some l) fault) (he : recordOf l = .error e) : fault = some (.line e) := by
  unfold recordOf at he
  cases h with
  | notText undecoded =>
    simp only [undecoded, Except.error.injEq] at he
    rw [he]
  | notRecord decoded unread =>
    simp only [decoded] at he
    split at he
    · cases he
    · injection he with he
      rw [he]
  | refused decoded read refused => simp only [decoded, read, reduceCtorEq] at he

/-- A fault is one of the system's. -/
def CommandFault.IsSystem (f : CommandFault) : Prop := ∃ path cause, f = .store (.system path cause)

/-- **Lines that start with one that stops them** come to its fault, and to
nothing else: none is saved, and only the first is looked at. -/
theorem Store.saveItems_stops
    (hstops : ∀ l ∈ ls.head?, ∀ r, recordOf l = .ok r → (s.save t r).result ≠ .ok ()) :
    let d := s.saveItems t (ls.map recordOf)
    d.count = 0 ∧ NextFault t s ls.head? d.fault ∧
      ((∀ f ∈ d.fault, ¬ f.IsSystem) → d.tree = t) ∧
        s.saveItems t ((ls.take 1).map recordOf) = d := by
  cases ls with
  | nil => exact ⟨rfl, .atEnd, fun _ => rfl, rfl⟩
  | cons l rest =>
    obtain ⟨line, number⟩ := l
    have hhead : ((line, number) :: rest).head? = some (line, number) := rfl
    rw [List.map_cons, List.take_succ_cons, List.take_zero, List.map_cons, List.map_nil, hhead]
    cases hdecode : Text.decode? line with
    | none =>
      have hrecord : recordOf (line, number) = .error .notText := by
        simp only [recordOf, hdecode]
      rw [hrecord]
      exact ⟨rfl, .notText hdecode, fun _ => rfl, rfl⟩
    | some text =>
      cases hjson : Json.readRecord text.toList with
      | error cause =>
        have hrecord : recordOf (line, number) = .error (.notRecord number) := by
          simp only [recordOf, hdecode, hjson]
        have hunread : ∀ r, Json.readRecord text.toList ≠ .ok r := by
          intro r hr
          rw [hjson] at hr
          cases hr
        rw [hrecord]
        exact ⟨rfl, .notRecord hdecode hunread, fun _ => rfl, rfl⟩
      | ok r =>
        have hrecord : recordOf (line, number) = .ok r := by
          simp only [recordOf, hdecode, hjson]
        cases hsave : (s.save t r).result with
        | ok u => exact absurd hsave (hstops _ rfl r hrecord)
        | error e =>
          rw [hrecord]
          simp only [Store.saveItems, hsave]
          refine ⟨trivial, .refused hdecode hjson hsave, ?_, trivial⟩
          intro hsystem
          have hrefused : (saveBelow s.base s.codec t r).result = .error e := hsave
          refine (saveBelow_refused hrefused ?_).1
          rintro path cause rfl
          exact hsystem _ rfl ⟨path, cause, rfl⟩

/-- The lines after the records that lead a stream come to what they come to on
their own. -/
theorem Leading.saveItems (h : Leading t s ls rs) :
    s.saveItems t (ls.map recordOf) =
      ((s.saveMany t rs).state.2.saveItems (s.saveMany t rs).state.1
        ((ls.drop rs.length).map recordOf)).after rs.length (s.saveMany t rs).signals := by
  have hsplit : ls.map recordOf = rs.map .ok ++ (ls.drop rs.length).map recordOf := by
    rw [← h.read, ← List.map_append, List.take_append_drop]
  rw [hsplit, Store.saveItems_append _ h.accepted]

theorem Leading.stops_drop (h : Leading t s ls rs) :
    ∀ l ∈ (ls.drop rs.length).head?, ∀ r, recordOf l = .ok r →
      (s.saveNext t rs r).result ≠ .ok () := by
  rw [List.head?_drop]
  exact h.stops

/-- **Saving a stream is saving its first records.**  There is exactly one list of
records that lead the stream: those of its first lines that are not blank,
each a text and a record that is accepted after the ones before it, and the line
after them none such.  As many records are saved.  The fault is that
of the line that comes next, if one does, with the number it has among all
lines; and unless it is a fault of the system, the tree is left as saving those
records one by one leaves it.  Lines that come later do not matter. -/
theorem saveLines_leading (t : FileTree) (s : Store) (input : Bytes) :
    ∃ rs, Leading t s (numbered input) rs ∧
      (∀ rs', Leading t s (numbered input) rs' → rs' = rs) ∧
      let left := (s.saveMany t rs).state
      let d := s.saveLines t input
      d.count = rs.length ∧ NextFault left.1 left.2 (numbered input)[rs.length]? d.fault ∧
        ((∀ f ∈ d.fault, ¬ f.IsSystem) → d.tree = left.1) ∧
          ∀ input', (numbered input').take (rs.length + 1) =
            (numbered input).take (rs.length + 1) → s.saveLines t input' = d := by
  obtain ⟨rs, h⟩ := Leading.exists_leading (numbered input) t s
  refine ⟨rs, h, fun rs' h' => h'.unique h, ?_⟩
  intro left d
  obtain ⟨hcount, hfault, htree, hfirst⟩ := Store.saveItems_stops h.stops_drop
  have hd : d = _ := (congrArg (s.saveItems t) (read_eq_map input)).trans h.saveItems
  rw [List.head?_drop] at hfault
  refine ⟨?_, ?_, ?_, ?_⟩
  · rw [hd]
    simp only [Saved.after, hcount, Nat.zero_add]
  · rw [hd]
    exact hfault
  · rw [hd]
    exact htree
  · intro input' hsame
    have h' : Leading t s (numbered input') rs := h.congr hsame
    obtain ⟨-, -, -, hfirst'⟩ := Store.saveItems_stops h'.stops_drop
    have hd' : s.saveLines t input' = _ :=
      (congrArg (s.saveItems t) (read_eq_map input')).trans h'.saveItems
    rw [hd', hd, ← hfirst, ← hfirst', List.take_drop, List.take_drop, hsame]

/-- A line of a report. -/
def reportLine : String :=
  "\x7b\"timestamp\":1,\"sensor\":\"s\",\"target\":\"t\",\"socket\":\"0\",\"cpu\":\"0\"\x7d"

/-- A line with a number that is near the greatest double, and comes out too
large. -/
def tooLarge : String := "\x7b\"x\":1.7976931348623158e308\x7d"

/-- The first line twice, with blank lines before each, and between them the
other one. -/
def brokenStream : Bytes :=
  Text.encode ("\n" ++ reportLine ++ "\r\n \t\n" ++ tooLarge ++ "\n\n" ++ reportLine)

/-- The first report is saved, the fault is that of the fourth line, and it does
not matter what comes instead of the second report. -/
theorem saveLines_leading_brokenStream :
    let s : Store := ⟨"out", .power, .new .lenient, .zero⟩
    let r : Record := [("cpu", .text "0"), ("sensor", .text "s"), ("socket", .text "0"),
      ("target", .text "t"), ("timestamp", .int 1)]
    let d := s.saveLines .empty brokenStream
    d.count = 1 ∧ d.fault = some (.line (.notRecord 4)) ∧
      d.tree = (s.saveMany .empty [r]).state.1 ∧
        ∀ input, (numbered input).take 2 = (numbered brokenStream).take 2 →
          s.saveLines .empty input = d := by
  intro s r d
  obtain ⟨rs, -, hunique, hcount, hnext, htree, hlater⟩ := saveLines_leading .empty s brokenStream
  have hlines : (numbered brokenStream).take 2 =
      [(Text.encode reportLine, 2), (Text.encode tooLarge, 4)] := by decide +kernel
  have hsecond : (numbered brokenStream)[1]? = some (Text.encode tooLarge, 4) := by
    rw [← List.getElem?_take_of_succ, hlines]
    rfl
  have hread : recordOf (Text.encode reportLine, 2) = .ok r :=
    eq_ok_of_toOption (by decide +kernel)
  have hunread : recordOf (Text.encode tooLarge, 4) = .error (.notRecord 4) := by
    have hjson : (Json.readRecord tooLarge.toList).toOption = none := by decide +kernel
    unfold recordOf
    simp only [Text.decode?_encode]
    cases hread : Json.readRecord tooLarge.toList with
    | ok r =>
      rw [hread] at hjson
      cases hjson
    | error e => rfl
  have hlead : Leading .empty s (numbered brokenStream) [r] := by
    refine ⟨?_, eq_ok_of_toOption (by decide +kernel), ?_⟩
    · have hfirst : (numbered brokenStream).take 1 = [(Text.encode reportLine, 2)] := by
        have htake := congrArg (List.take 1) hlines
        rwa [List.take_take] at htake
      show ((numbered brokenStream).take 1).map recordOf = [.ok r]
      rw [hfirst, ← hread]
      rfl
    · intro l hl r' hr'
      obtain rfl : _ = l := Option.some.inj (hsecond.symm.trans hl)
      rw [hunread] at hr'
      cases hr'
  obtain rfl : [r] = rs := hunique _ hlead
  have hfault : d.fault = some (.line (.notRecord 4)) := by
    rw [show (numbered brokenStream)[[r].length]? = _ from hsecond] at hnext
    exact hnext.eq_of_error hunread
  refine ⟨hcount, hfault, htree ?_, hlater⟩
  rintro f hf ⟨path, cause, rfl⟩
  rw [hfault] at hf
  cases hf

end ReportStore
