/-
  ReportStore.Json.Quote
  ──────────────────────
  **STRINGS AS JSON WRITES THEM.**

  Between double quotes only the quote, the backslash and the characters
  below the space are escaped: five of them by a letter, the others as
  `\u` with four digits.
-/

namespace ReportStore.Json

/-- A digit in lower case hexadecimal. -/
def hexDigit (n : Nat) : Char := Nat.digitChar (n % 16)

/-- One character inside a string. -/
def quotedChar (c : Char) : List Char :=
  if c = '"' then ['\\', '"']
  else if c = '\\' then ['\\', '\\']
  else if c = '\x08' then ['\\', 'b']
  else if c = '\t' then ['\\', 't']
  else if c = '\n' then ['\\', 'n']
  else if c = '\x0c' then ['\\', 'f']
  else if c = '\r' then ['\\', 'r']
  else if c.toNat < 0x20 then
    ['\\', 'u', '0', '0', hexDigit (c.toNat / 16), hexDigit c.toNat]
  else [c]

/-- A string with its quotes. -/
def quote (s : String) : List Char := '"' :: s.toList.flatMap quotedChar ++ ['"']

/-- A member of an object whose value is a string. -/
def textMember (key value : String) : List Char := quote key ++ ':' :: quote value

/-- Members with commas between them. -/
def separated : List (List Char) → List Char
  | [] => []
  | [m] => m
  | m :: rest => m ++ ',' :: separated rest

/-- An object of members that are written already. -/
def object (members : List (List Char)) : List Char := '\x7b' :: separated members ++ ['\x7d']

end ReportStore.Json
