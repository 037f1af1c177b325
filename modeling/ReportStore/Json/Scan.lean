/-
  ReportStore.Json.Scan
  ─────────────────────
  **PASSING OVER A VALUE NOBODY ASKED FOR.**

  A member whose key is not known is skipped, but its value has to be JSON.
  Scanning is freer than reading: depth is not limited, a number may be too
  large for a double, and a string may hold half of a pair.  A number that
  the end of the text cuts short counts as malformed.
-/
import ReportStore.Json.Lexeme

namespace ReportStore.Json

mutual

/-- Passes over a value.  Every step passes a character, so a limit of the
number of characters is never met. -/
def scanValue : (limit : Nat) → List Char → Except Refusal (List Char)
  | 0, _ => .error .malformed
  | limit + 1, cs =>
    match skipBlanks cs with
    | [] => .error .ended
    | 'n' :: cs => word "ull".toList cs
    | 't' :: cs => word "rue".toList cs
    | 'f' :: cs => word "alse".toList cs
    | '"' :: cs => scanString cs
    | '[' :: cs =>
      match skipBlanks cs with
      | ']' :: cs => .ok cs
      | cs => scanElements limit cs
    | '\x7b' :: cs =>
      match skipBlanks cs with
      | '\x7d' :: cs => .ok cs
      | cs => scanMembers limit cs
    | c :: cs =>
      if startsNumber c then (numeral .malformed (c :: cs)).map (·.2) else .error .malformed

/-- Passes over the elements of an array up to its closing bracket. -/
def scanElements : (limit : Nat) → List Char → Except Refusal (List Char)
  | 0, _ => .error .malformed
  | limit + 1, cs =>
    match scanValue limit cs with
    | .error e => .error e
    | .ok cs =>
      match skipBlanks cs with
      | [] => .error .ended
      | c :: cs =>
        if c = ',' then scanElements limit cs
        else if c = ']' then .ok cs
        else .error .malformed

/-- Passes over the members of an object up to its closing brace. -/
def scanMembers : (limit : Nat) → List Char → Except Refusal (List Char)
  | 0, _ => .error .malformed
  | limit + 1, cs =>
    match punctuation '"' cs with
    | .error e => .error e
    | .ok cs =>
      match scanString cs with
      | .error e => .error e
      | .ok cs =>
        match punctuation ':' cs with
        | .error e => .error e
        | .ok cs =>
          match scanValue limit cs with
          | .error e => .error e
          | .ok cs =>
            match skipBlanks cs with
            | [] => .error .ended
            | c :: cs =>
              if c = ',' then scanMembers limit cs
              else if c = '\x7d' then .ok cs
              else .error .malformed

end

/-- Passes over a value. -/
def skipValue (cs : List Char) : Except Refusal (List Char) := scanValue (2 * cs.length + 1) cs

end ReportStore.Json
