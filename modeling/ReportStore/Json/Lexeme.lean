/-
  ReportStore.Json.Lexeme
  ───────────────────────
  **STRINGS, NUMBERS AND WORDS OF JSON TEXT.**

  Readers take the characters of a text and give back what they read and the
  rest.  A text is refused for one of three causes: it is malformed, it ends
  too early, or it is JSON of a shape that is not wanted.  Every reader
  stops at the first problem from left to right.
-/
import ReportStore.Number.Scaled

namespace ReportStore.Json

/-- Why a text is refused. -/
inductive Refusal where
  /-- It is no JSON. -/
  | malformed
  /-- It ends too early. -/
  | ended
  /-- It has not the shape that is wanted. -/
  | misfit
  deriving DecidableEq

/-- Something read, and the characters after it. -/
abbrev Reading (α : Type) := Except Refusal (α × List Char)

/-! ## §1. Blanks and words. -/

/-- The characters that may stand between lexemes. -/
def isBlank (c : Char) : Bool := c == ' ' || c == '\t' || c == '\n' || c == '\r'

/-- Drops the blanks at the start. -/
def skipBlanks (cs : List Char) : List Char := cs.dropWhile isBlank

/-- Reads the letters of a word. -/
def word : List Char → List Char → Except Refusal (List Char)
  | [], cs => .ok cs
  | _ :: _, [] => .error .ended
  | w :: ws, c :: cs => if c = w then word ws cs else .error .malformed

/-- Reads the character `c`, blanks before it apart. -/
def punctuation (c : Char) (cs : List Char) : Except Refusal (List Char) :=
  match skipBlanks cs with
  | [] => .error .ended
  | d :: rest => if d = c then .ok rest else .error .malformed

/-! ## §2. Strings. -/

/-- The value of a hexadecimal digit. -/
def hexValue? (c : Char) : Option Nat :=
  let n := c.toNat
  if 48 ≤ n ∧ n ≤ 57 then some (n - 48)
  else if 97 ≤ n ∧ n ≤ 102 then some (n - 87)
  else if 65 ≤ n ∧ n ≤ 70 then some (n - 55)
  else none

/-- The number of four hexadecimal digits. -/
def unit? (a b c d : Char) : Option Nat :=
  match hexValue? a, hexValue? b, hexValue? c, hexValue? d with
  | some a, some b, some c, some d => some (((a * 16 + b) * 16 + c) * 16 + d)
  | _, _, _, _ => none

/-- The first half of a pair that denotes one character. -/
def isHighHalf (n : Nat) : Bool := decide (0xD800 ≤ n ∧ n ≤ 0xDBFF)

/-- The second half of such a pair. -/
def isLowHalf (n : Nat) : Bool := decide (0xDC00 ≤ n ∧ n ≤ 0xDFFF)

/-- The character of a pair. -/
def pairedChar (high low : Nat) : Char :=
  Char.ofNat (0x10000 + (high - 0xD800) * 0x400 + (low - 0xDC00))

/-- What a letter after a backslash stands for. -/
def escape? (c : Char) : Option Char :=
  if c = '"' then some '"'
  else if c = '\\' then some '\\'
  else if c = '/' then some '/'
  else if c = 'b' then some '\x08'
  else if c = 'f' then some '\x0c'
  else if c = 'n' then some '\n'
  else if c = 'r' then some '\r'
  else if c = 't' then some '\t'
  else none

/-- Fewer than four characters where four digits are due: the text ends too
early if they are fewer than four bytes as well. -/
def shortUnit (cs : List Char) : Refusal :=
  if (String.ofList cs).utf8ByteSize < 4 then .ended else .malformed

/-- Puts a character before a string. -/
def consReading (c : Char) : Reading (List Char) → Reading (List Char)
  | .ok (s, rest) => .ok (c :: s, rest)
  | .error e => .error e

/-- Reads a string whose opening quote is read.  A number of the range of
halves has to stand in a pair. -/
def stringBody : List Char → Reading (List Char)
  | [] => .error .ended
  | '"' :: cs => .ok ([], cs)
  | ['\\'] => .error .ended
  | '\\' :: 'u' :: a :: b :: c :: d :: cs =>
    match unit? a b c d with
    | none => .error .malformed
    | some n =>
      if isLowHalf n then .error .malformed
      else if isHighHalf n then
        match cs with
        | [] => .error .ended
        | ['\\'] => .error .ended
        | '\\' :: 'u' :: a' :: b' :: c' :: d' :: cs' =>
          match unit? a' b' c' d' with
          | none => .error .malformed
          | some n' =>
            if isLowHalf n' then consReading (pairedChar n n') (stringBody cs')
            else .error .malformed
        | '\\' :: 'u' :: few => .error (shortUnit few)
        | _ => .error .malformed
      else consReading (Char.ofNat n) (stringBody cs)
  | '\\' :: 'u' :: few => .error (shortUnit few)
  | '\\' :: c :: cs =>
    match escape? c with
    | some e => consReading e (stringBody cs)
    | none => .error .malformed
  | c :: cs => if c.toNat < 0x20 then .error .malformed else consReading c (stringBody cs)

/-- Passes over a string whose opening quote is read; its numbers may be of
any range. -/
def scanString : List Char → Except Refusal (List Char)
  | [] => .error .ended
  | '"' :: cs => .ok cs
  | ['\\'] => .error .ended
  | '\\' :: 'u' :: a :: b :: c :: d :: cs =>
    match unit? a b c d with
    | none => .error .malformed
    | some _ => scanString cs
  | '\\' :: 'u' :: few => .error (shortUnit few)
  | '\\' :: c :: cs =>
    match escape? c with
    | some _ => scanString cs
    | none => .error .malformed
  | c :: cs => if c.toNat < 0x20 then .error .malformed else scanString cs

/-! ## §3. Numbers. -/

/-- A number as it is written. -/
structure Numeral where
  negative : Bool
  /-- The digits before the point. -/
  whole : List Char
  /-- The digits after the point. -/
  part : List Char
  exponent : Option Int

/-- One or more digits.  `atEnd` is the cause if the text ends instead. -/
def someDigits (atEnd : Refusal) (cs : List Char) : Reading (List Char) :=
  match Decimal.spanDigits cs with
  | ([], []) => .error atEnd
  | ([], _ :: _) => .error .malformed
  | (digits, rest) => .ok (digits, rest)

/-- The digits before the point: no zero before another digit. -/
def wholeDigits (atEnd : Refusal) (cs : List Char) : Reading (List Char) :=
  match someDigits atEnd cs with
  | .ok ('0' :: _ :: _, _) => .error .malformed
  | other => other

/-- The digits after a point, if one follows. -/
def partDigits (atEnd : Refusal) : List Char → Reading (List Char)
  | '.' :: cs => someDigits atEnd cs
  | cs => .ok ([], cs)

/-- The digits of an exponent whose letter is read. -/
def exponentDigits (atEnd : Refusal) : List Char → Reading Int
  | '-' :: cs => (someDigits atEnd cs).map fun (ds, rest) => (-Nat.ofDigitChars 10 ds 0, rest)
  | '+' :: cs => (someDigits atEnd cs).map fun (ds, rest) => (Nat.ofDigitChars 10 ds 0, rest)
  | cs => (someDigits atEnd cs).map fun (ds, rest) => (Nat.ofDigitChars 10 ds 0, rest)

/-- The exponent, if one follows. -/
def exponentPart (atEnd : Refusal) : List Char → Reading (Option Int)
  | 'e' :: cs => (exponentDigits atEnd cs).map fun (e, rest) => (some e, rest)
  | 'E' :: cs => (exponentDigits atEnd cs).map fun (e, rest) => (some e, rest)
  | cs => .ok (none, cs)

/-- Reads a number without its sign. -/
def unsignedNumeral (atEnd : Refusal) (negative : Bool) (cs : List Char) : Reading Numeral :=
  match wholeDigits atEnd cs with
  | .error e => .error e
  | .ok (whole, cs) =>
    match partDigits atEnd cs with
    | .error e => .error e
    | .ok (part, cs) =>
      match exponentPart atEnd cs with
      | .error e => .error e
      | .ok (exponent, cs) => .ok (⟨negative, whole, part, exponent⟩, cs)

/-- Reads a number.  `atEnd` is the cause if the text ends within it. -/
def numeral (atEnd : Refusal) : List Char → Reading Numeral
  | '-' :: cs => unsignedNumeral atEnd true cs
  | cs => unsignedNumeral atEnd false cs

/-- Whether a character can start a number. -/
def startsNumber (c : Char) : Bool := c == '-' || c.isDigit

namespace Numeral

/-- Puts digits behind a number as long as it fits in 64 bits.  The answer is
the number and how many digits are left over. -/
def appendDigits (m : Nat) : List Char → Nat × Nat
  | [] => (m, 0)
  | c :: cs =>
    let longer := Nat.ofDigitChars 10 [c] m
    if longer < twoTo 64 then appendDigits longer cs else (m, cs.length + 1)

/-- The digits that count, and the power of ten.  Digits that are left over count
as zeros: those before the point raise the power, those behind it do nothing. -/
def decimal (n : Numeral) : Decimal :=
  let (m, left) := appendDigits 0 n.whole
  let (digits, left') := appendDigits m n.part
  ⟨digits, left - (n.part.length - left' : Nat) + n.exponent.getD 0⟩

/-- The double of a number, unless it is too large for one.  It is scaled in
doubles, so it is near the number and not always the nearest. -/
def binary64? (n : Numeral) : Option Binary64 :=
  (Binary64.ofNat n.negative n.decimal.digits).scaled? n.decimal.exponent

/-- The integer of a number without point and exponent, if it fits in 64
bits; minus zero is no integer. -/
def int64? (n : Numeral) : Option Int64 :=
  if n.part ≠ [] ∨ n.exponent.isSome then none
  else
    let m := Nat.ofDigitChars 10 n.whole 0
    let i : Int := if n.negative then -m else m
    if n.negative ∧ m = 0 then none
    else if Text.Digits.FitsInt64 i then some (Int64.ofInt i)
    else none

end Numeral

end ReportStore.Json
