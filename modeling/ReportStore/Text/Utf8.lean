/-
  ReportStore.Text.Utf8
  ─────────────────────
  **TEXT AS BYTES.**

  Files and input streams hold bytes; cells and lines are texts.  `encode`
  and `decode?` are inverse to each other on the bytes that are valid UTF-8,
  and `validLength` says how far the bytes stay valid, which is where an
  error report points.

      decode? (encode s) = some s
-/

namespace ReportStore

/-- The bytes of a file, a line or a field. -/
abbrev Bytes := List UInt8

namespace Text

/-- The UTF-8 bytes of a text. -/
def encode (s : String) : Bytes := s.toList.flatMap String.utf8EncodeChar

/-- The text that some bytes spell in UTF-8, if they do. -/
def decode? (bs : Bytes) : Option String := String.fromUTF8? bs.toByteArray

/-- The character at the start of some bytes. -/
def firstChar? (bs : Bytes) : Option Char := (bs.take 4).toByteArray.utf8DecodeChar? 0

/-- The length of the longest part at the start that is valid UTF-8. -/
def validLength (bs : Bytes) : Nat :=
  match bs with
  | [] => 0
  | b :: rest =>
    match firstChar? (b :: rest) with
    | none => 0
    | some c => c.utf8Size + validLength (rest.drop (c.utf8Size - 1))
termination_by bs.length
decreasing_by simp only [List.length_drop, List.length_cons]; omega

theorem encode_append (s t : String) : encode (s ++ t) = encode s ++ encode t := by
  simp [encode]

theorem toByteArray_encode (s : String) : (encode s).toByteArray = s.toByteArray :=
  String.utf8Encode_toList

theorem decode?_encode (s : String) : decode? (encode s) = some s := by
  simp only [decode?, String.fromUTF8?, toByteArray_encode]
  rw [dif_pos s.isValidUTF8]
  rfl

end Text

end ReportStore
