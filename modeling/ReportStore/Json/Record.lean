/-
  ReportStore.Json.Record
  ───────────────────────
  **RECORDS AS JSON OBJECTS.**

  A record is an object whose values are strings, numbers and again such
  objects; a number without point and exponent is an integer if it fits.  Of
  two members with one key the later counts.  Objects may be nested to a
  depth of 127.
-/
import ReportStore.Json.Lexeme
import ReportStore.Json.Quote
import ReportStore.Value.Cell

namespace ReportStore.Json

/-! ## §1. Writing. -/

mutual

/-- The JSON of a value. -/
def printValue : Value → List Char
  | .int n => Text.Digits.ofInt n.toInt
  | .float x => (Layout.json.text x).toList
  | .text s => quote s
  | .map entries => object (printMembers entries)

/-- The members of an object. -/
def printMembers : List (String × Value) → List (List Char)
  | [] => []
  | (k, v) :: rest => (quote k ++ ':' :: printValue v) :: printMembers rest

end

/-- The JSON of a record. -/
def printRecord (r : Record) : List Char := object (printMembers r)

/-! ## §2. Reading. -/

/-- The scalar that a number is read as. -/
def numberValue (n : Numeral) : Except Refusal Value :=
  match n.int64? with
  | some i => .ok (.int i)
  | none =>
    match n.binary64? with
    | some x => .ok (.float x)
    | none => .error .malformed

/-- The greatest depth of nested objects. -/
def depthLimit : Nat := 127

mutual

/-- Reads a value, going down at most `depth` levels.  Every step passes a
character, so a limit of the number of characters is never met. -/
def value : (limit depth : Nat) → List Char → Reading Value
  | 0, _, _ => .error .malformed
  | limit + 1, depth, cs =>
    match skipBlanks cs with
    | [] => .error .ended
    | '"' :: cs => (stringBody cs).map fun (s, rest) => (.text (String.ofList s), rest)
    | '\x7b' :: cs =>
      -- Each level of nesting takes one off the depth that is left.
      match depth with
      | 0 => .error .malformed
      | depth + 1 => (members limit depth true [] cs).map fun (r, rest) => (.map r, rest)
    | c :: cs =>
      if startsNumber c then
        match numeral .ended (c :: cs) with
        | .error e => .error e
        | .ok (n, rest) => (numberValue n).map fun v => (v, rest)
      else .error .misfit

/-- Reads the members of an object up to its closing brace. -/
def members : (limit depth : Nat) → (first : Bool) → Record → List Char → Reading Record
  | 0, _, _, _, _ => .error .malformed
  | limit + 1, depth, first, r, cs =>
    match skipBlanks cs with
    | [] => .error .ended
    | '\x7d' :: cs => .ok (r, cs)
    | c :: cs =>
      let key : Except Refusal (List Char) :=
        if first then (if c = '"' then .ok cs else .error .malformed)
        else if c = ',' then punctuation '"' cs
        else .error .malformed
      match key with
      | .error e => .error e
      | .ok cs =>
        match stringBody cs with
        | .error e => .error e
        | .ok (k, cs) =>
          match punctuation ':' cs with
          | .error e => .error e
          | .ok cs =>
            match value limit depth cs with
            | .error e => .error e
            | .ok (v, cs) =>
              members limit depth false (Dict.insert r (String.ofList k) v) cs

end

/-- Reads a record that is a whole text. -/
def readRecord (cs : List Char) : Except Refusal Record :=
  match value (cs.length + 1) depthLimit cs with
  | .ok (.map r, rest) => if skipBlanks rest = [] then .ok r else .error .malformed
  | .ok _ => .error .misfit
  | .error e => .error e

end ReportStore.Json
