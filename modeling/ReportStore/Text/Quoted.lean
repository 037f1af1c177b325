/-
  ReportStore.Text.Quoted
  ───────────────────────
  **TEXTS QUOTED IN MESSAGES.**

  A message that lists column names writes each between double quotes, with
  a backslash form for every character that would not show: the quote and
  the backslash themselves, the usual control characters by letter, and
  whatever is unseen or extends a grapheme by its hexadecimal code point.
-/
import ReportStore.Text.Unprintable

namespace ReportStore.Text

/-- A code point in lower case hexadecimal between braces, after `\u`. -/
def codePointForm (c : Char) : List Char :=
  '\\' :: 'u' :: '\x7b' :: Nat.toDigits 16 c.toNat ++ ['\x7d']

/-- One character as it stands in a quoted text. -/
def quotedChar (c : Char) : List Char :=
  if c = '"' then ['\\', '"']
  else if c = '\\' then ['\\', '\\']
  else if c = '\x00' then ['\\', '0']
  else if c = '\t' then ['\\', 't']
  else if c = '\n' then ['\\', 'n']
  else if c = '\r' then ['\\', 'r']
  else if isUnseen c || extendsGrapheme c then codePointForm c
  else [c]

/-- A text between double quotes. -/
def quoted (s : String) : String :=
  String.ofList ('"' :: s.toList.flatMap quotedChar ++ ['"'])

/-- Quoted texts between brackets. -/
def quotedList (xs : List String) : String :=
  "[" ++ ", ".intercalate (xs.map quoted) ++ "]"

end ReportStore.Text
