/-
  ReportStore.Proofs.RecordLines
  ──────────────────────────────
  **RECORDS ARE READ BACK FROM THEIR LINES.**

  The lines of a stream are cut before they are read, and by their bytes.
  That takes no record apart: no character that is printed for one is a line
  feed, whatever its texts are, and the last is a brace, so that no carriage
  return is lost either.  Hence the lines are those that were written, none
  of them blank, and each is read as its record:

      read (text records) = records
-/
import ReportStore.Proofs.Json.Record
import ReportStore.Proofs.Text
import ReportStore.RecordLines

namespace ReportStore

/-! ## §1. What is printed is visible. -/

namespace Json

theorem visible_ofInt (n : Int) : Visible (Text.Digits.ofInt n) := by
  have hdigits : Visible (Text.Digits.ofNat n.natAbs) := by
    intro c hc hlow
    have hdigit := Text.Digits.isDigit_of_mem_ofNat hc
    simp only [Char.isDigit, Bool.and_eq_true, decide_eq_true_eq] at hdigit
    have hfrom : 48 ≤ c.toNat := hdigit.1
    omega
  unfold Text.Digits.ofInt
  split
  · exact visible_cons.2 ⟨by decide, hdigits⟩
  · exact hdigits

theorem visible_separated : ∀ {ms : List (List Char)}, (∀ m ∈ ms, Visible m) →
    Visible (separated ms) := by
  intro ms
  cases ms with
  | nil => exact fun _ => nofun
  | cons m ms =>
    intro h
    rw [separated_cons]
    obtain ⟨hm, hms⟩ := List.forall_mem_cons.1 h
    refine visible_append.2 ⟨hm, ?_⟩
    intro c hc
    obtain ⟨m', hm', hc⟩ := List.mem_flatMap.1 hc
    rcases List.mem_cons.1 hc with rfl | hc
    · decide
    · exact hms m' hm' c hc

mutual

theorem visible_printValue : ∀ v : Value, v.isFloatless = true → Visible (printValue v)
  | .int n, _ => by
    rw [printValue]
    exact visible_ofInt n.toInt
  | .float _, hfloatless => nomatch hfloatless
  | .text s, _ => by
    rw [printValue]
    exact visible_quote s
  | .map es, hfloatless => by
    rw [printValue, object]
    rw [Value.isFloatless] at hfloatless
    have hmembers := visible_separated (visible_printMembers es hfloatless)
    exact visible_append.2 ⟨visible_cons.2 ⟨by decide, hmembers⟩, visible_singleton.2 (by decide)⟩

theorem visible_printMembers : ∀ es : List (String × Value), Record.areFloatless es = true →
    ∀ m ∈ printMembers es, Visible m
  | [], _ => nofun
  | (k, v) :: es, hfloatless => by
    rw [Record.areFloatless, Bool.and_eq_true] at hfloatless
    rw [printMembers]
    refine List.forall_mem_cons.2 ⟨?_, visible_printMembers es hfloatless.2⟩
    exact visible_append.2 ⟨visible_quote k,
      visible_cons.2 ⟨by decide, visible_printValue v hfloatless.1⟩⟩

end

end Json

namespace RecordLines

/-! ## §2. Lines. -/

theorem cutAtLineFeeds_append {l : Bytes} (h : Csv.lineFeed ∉ l) (rest : Bytes) :
    cutAtLineFeeds (l ++ Csv.lineFeed :: rest) =
      (l :: (cutAtLineFeeds rest).1, (cutAtLineFeeds rest).2) := by
  induction l with
  | nil => simp only [List.nil_append, cutAtLineFeeds, if_true]
  | cons b l ih =>
    rw [List.mem_cons, not_or] at h
    simp only [List.cons_append, cutAtLineFeeds, ih h.2, if_neg (Ne.symm h.1)]

/-- The bytes of a record, without the end of its line. -/
def bytesOf (r : Record) : Bytes := Text.encode (String.ofList (Json.printRecord r))

theorem encode_text_cons (r : Record) (rs : List Record) :
    Text.encode (text (r :: rs)) = bytesOf r ++ Csv.lineFeed :: Text.encode (text rs) := by
  unfold text line
  rw [List.map_cons, String.join_cons, Text.encode_append, String.ofList_append, Text.encode_append,
    List.append_assoc]
  rfl

variable {r : Record} {rs : List Record}

theorem lineFeed_not_mem (hfloatless : Value.isFloatless (.map r) = true) :
    Csv.lineFeed ∉ bytesOf r := by
  intro h
  have hchar := Text.mem_of_mem_encode h (by decide)
  rw [String.toList_ofList] at hchar
  have hvisible := Json.visible_printValue _ hfloatless
  rw [Json.printValue] at hvisible
  exact hvisible _ hchar (by decide)

/-- The last byte of a record is a brace. -/
theorem getLast?_bytesOf (r : Record) : (bytesOf r).getLast? = some 0x7D := by
  have hbytes : bytesOf r =
      Text.encode (String.ofList ('\x7b' :: Json.separated (Json.printMembers r))) ++ [0x7D] := by
    unfold bytesOf Json.printRecord Json.object
    rw [String.ofList_append, Text.encode_append]
    rfl
  rw [hbytes, List.getLast?_append_of_ne_nil _ (List.cons_ne_nil _ _)]
  rfl

theorem dropReturn_bytesOf (r : Record) : dropReturn (bytesOf r) = bytesOf r := by
  unfold dropReturn
  rw [getLast?_bytesOf, if_neg (by decide)]

theorem cutAtLineFeeds_text : ∀ {rs : List Record},
    (∀ r ∈ rs, Value.isFloatless (.map r) = true) →
      cutAtLineFeeds (Text.encode (text rs)) = (rs.map bytesOf, []) := by
  intro rs
  induction rs with
  | nil => exact fun _ => rfl
  | cons r rs ih =>
    intro h
    obtain ⟨hr, hrs⟩ := List.forall_mem_cons.1 h
    rw [encode_text_cons, cutAtLineFeeds_append (lineFeed_not_mem hr), ih hrs, List.map_cons]

/-- **The lines are those that were written.** -/
theorem lines_text (h : ∀ r ∈ rs, Value.isFloatless (.map r) = true) :
    lines (Text.encode (text rs)) = rs.map bytesOf := by
  unfold lines
  simp only [cutAtLineFeeds_text h, List.isEmpty_nil, if_true, List.append_nil, List.map_map]
  exact List.map_congr_left fun r _ => dropReturn_bytesOf r

/-! ## §3. Reading. -/

/-- A record that is read back from its JSON is read from its line. -/
theorem ofLine?_bytesOf (number : Nat) (h : Json.readRecord (Json.printRecord r) = .ok r) :
    ofLine? number (bytesOf r) = some (.ok r) := by
  have hblank : (Json.printRecord r).all Text.isBlank = false := by
    unfold Json.printRecord Json.object
    rw [List.cons_append, List.all_cons]
    rfl
  -- A line that starts with a brace is not passed over.
  unfold ofLine? bytesOf
  simp only [Text.decode?_encode, String.toList_ofList, hblank, h, Bool.false_eq_true, if_false]

theorem ofLines_map : ∀ {rs : List Record} (number : Nat),
    (∀ r ∈ rs, Json.readRecord (Json.printRecord r) = .ok r) →
      ofLines number (rs.map bytesOf) = rs.map .ok := by
  intro rs
  induction rs with
  | nil => exact fun _ _ => rfl
  | cons r rs ih =>
    intro number h
    obtain ⟨hr, hrs⟩ := List.forall_mem_cons.1 h
    rw [List.map_cons, List.map_cons, ofLines]
    simp only [ofLine?_bytesOf number hr, ih (number + 1) hrs]

/-- **Records are read back from their lines.**  The records are maps at every depth,
they hold integers and texts of any kind, and maps are nested no deeper than
the reader goes, the record itself counted.  The lines that are written for
them, one after the other, are then read as these records, each of them
without a fault. -/
theorem read_text {rs : List Record} (hordered : ∀ r ∈ rs, r.Ordered)
    (hfloatless : ∀ r ∈ rs, Value.isFloatless (.map r) = true)
    (hdepth : ∀ r ∈ rs, Value.depth (.map r) ≤ Json.depthLimit) :
    read (Text.encode (text rs)) = rs.map .ok := by
  unfold read
  rw [lines_text hfloatless]
  refine ofLines_map 1 ?_
  exact fun r hr =>
    Json.readRecord_printRecord (hordered r hr) (hfloatless r hr) (hdepth r hr)

/-- A record with so many maps inside each other below it. -/
def nested : Nat → Record
  | 0 => []
  | n + 1 => [("m", .map (nested n))]

/-- The least integer, texts that hold line ends, quotes and control characters
or look like numbers, an empty map, an empty record, and a hundred maps. -/
def tangledRecords : List Record :=
  [[("", .text "\r\n"), ("a \"\n", .text "\x00\\u0022\x1f"), ("empty", .map []),
      ("least", .int (-9223372036854775808)), ("number", .text "-12.50e3"),
      ("é", .map [("\n", .int 0), ("\u2028", .text "😀\r")])],
    [], nested 100]

theorem read_text_tangled :
    (∀ r ∈ tangledRecords, r.Ordered) ∧
      (∀ r ∈ tangledRecords, Value.isFloatless (.map r) = true) ∧
        (∀ r ∈ tangledRecords, Value.depth (.map r) ≤ Json.depthLimit) ∧
          read (Text.encode (text tangledRecords)) = tangledRecords.map .ok := by
  have hordered : ∀ r ∈ tangledRecords, r.Ordered := by decide +kernel
  have hfloatless : ∀ r ∈ tangledRecords, Value.isFloatless (.map r) = true := by decide +kernel
  have hdepth : ∀ r ∈ tangledRecords, Value.depth (.map r) ≤ Json.depthLimit := by decide +kernel
  exact ⟨hordered, hfloatless, hdepth, read_text hordered hfloatless hdepth⟩

end RecordLines

end ReportStore
