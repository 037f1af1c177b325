/-
  ReportStore.Json.Shape
  ──────────────────────
  **VALUES OF A SHAPE THAT IS WANTED.**

  Settings want strings, lists of strings, truth values and names out of a
  fixed choice.  A value of another shape is a misfit, once it is seen to be
  JSON at its start: a number or a string is read to its end, of an array or
  an object only the bracket.
-/
import ReportStore.Json.Scan

namespace ReportStore.Json

/-! ## §1. Misfits. -/

/-- The cause for which a value that starts here is refused where another
shape is wanted. -/
def misfit (cs : List Char) : Refusal :=
  let afterWord (letters : String) (cs : List Char) : Refusal :=
    match word letters.toList cs with
    | .ok _ => .misfit
    | .error e => e
  match skipBlanks cs with
  | [] => .ended
  | 'n' :: cs => afterWord "ull" cs
  | 't' :: cs => afterWord "rue" cs
  | 'f' :: cs => afterWord "alse" cs
  | '"' :: cs =>
    match stringBody cs with
    | .ok _ => .misfit
    | .error e => e
  | '[' :: _ | '\x7b' :: _ => .misfit
  | c :: cs =>
    if startsNumber c then
      match numeral .ended (c :: cs) with
      | .ok (n, _) => if n.binary64?.isSome then .misfit else .malformed
      | .error e => e
    else .malformed

/-! ## §2. The shapes. -/

/-- Reads a string. -/
def text (cs : List Char) : Reading String :=
  match skipBlanks cs with
  | '"' :: rest => (stringBody rest).map fun (s, rest) => (String.ofList s, rest)
  | _ => .error (misfit cs)

/-- Reads `true` or `false`. -/
def truth (cs : List Char) : Reading Bool :=
  match skipBlanks cs with
  | 't' :: rest => (word "rue".toList rest).map fun rest => (true, rest)
  | 'f' :: rest => (word "alse".toList rest).map fun rest => (false, rest)
  | _ => .error (misfit cs)

/-- Goes to the next element of an array, or to its end.  The answer is
whether an element follows. -/
def toElement (first : Bool) (cs : List Char) : Reading Bool :=
  match skipBlanks cs with
  | [] => .error .ended
  | ']' :: rest => .ok (false, ']' :: rest)
  | c :: rest =>
    if first then .ok (true, c :: rest)
    else if c = ',' then
      match skipBlanks rest with
      | [] => .error .ended
      | ']' :: _ => .error .malformed
      | rest => .ok (true, rest)
    else .error .malformed

/-- Reads the strings of an array up to its closing bracket. -/
def textElements : (limit : Nat) → (first : Bool) → List Char → Reading (List String)
  | 0, _, _ => .error .malformed
  | limit + 1, first, cs =>
    match toElement first cs with
    | .error e => .error e
    | .ok (false, rest) => .ok ([], rest.drop 1)
    | .ok (true, rest) =>
      match text rest with
      | .error e => .error e
      | .ok (s, rest) =>
        (textElements limit false rest).map fun (ss, rest) => (s :: ss, rest)

/-- Reads an array of strings. -/
def texts (cs : List Char) : Reading (List String) :=
  match skipBlanks cs with
  | '[' :: rest => textElements (rest.length + 1) true rest
  | _ => .error (misfit cs)

/-- What a name of a choice stands for. -/
def chosen {α : Type} (options : List (String × α)) (name : String) : Except Refusal α :=
  match options.lookup name with
  | some a => .ok a
  | none => .error .misfit

/-- Reads `null`. -/
def null (cs : List Char) : Except Refusal (List Char) :=
  match skipBlanks cs with
  | 'n' :: rest => word "ull".toList rest
  | _ => .error (misfit cs)

/-- Reads a key of an object; what is no string is no key. -/
def key (cs : List Char) : Reading String :=
  match punctuation '"' cs with
  | .error e => .error e
  | .ok rest => (stringBody rest).map fun (s, rest) => (String.ofList s, rest)

/-- Reads a name out of a choice: a string, or an object with the name as
its only key and `null` as its value. -/
def choice {α : Type} (options : List (String × α)) (cs : List Char) : Reading α :=
  match skipBlanks cs with
  | [] => .error .ended
  | '"' :: rest =>
    match stringBody rest with
    | .error e => .error e
    | .ok (s, rest) => (chosen options (String.ofList s)).map fun a => (a, rest)
  | '\x7b' :: rest =>
    match key rest with
    | .error e => .error e
    | .ok (s, rest) =>
      match chosen options s with
      | .error e => .error e
      | .ok a =>
        match punctuation ':' rest with
        | .error e => .error e
        | .ok rest =>
          match null rest with
          | .error e => .error e
          | .ok rest => (punctuation '\x7d' rest).map fun rest => (a, rest)
  | _ => .error .malformed

end ReportStore.Json
