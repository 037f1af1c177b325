/-
  ReportStore.Proofs.Journal
  ──────────────────────────
  **WHAT A LINE OF THE JOURNAL SAYS.**

  A line is an object whose first two members are the event and its
  severity.  Both are words that JSON writes as they are, so they can be
  read off the text of the line, whatever its fields are:

      pieces at the quotes  =  {, event, :, NAME, ,, severity, :, LABEL, …

  The severity of an event does not depend on its fields, so neither does
  what a least severity lets pass.
-/
import ReportStore.Proofs.Path
import ReportStore.Journal.Basic

namespace ReportStore

open Text

/-! ## §1. Words between quotes. -/

/-- What stands before the first quote is a piece. -/
theorem Text.pieces_of_not_mem_append {sep : Char} {a : List Char} (h : sep ∉ a)
    (b : List Char) : pieces sep (a ++ sep :: b) = a :: pieces sep b := by
  rw [pieces_append_cons, pieces_of_not_mem h]
  rfl

/-- A word that is written as it is. -/
structure Json.Plain (s : String) : Prop where
  written : s.toList.flatMap quotedChar = s.toList
  noQuote : '"' ∉ s.toList

theorem Event.plain_name (e : Event) : Json.Plain e.name := by
  cases e <;> exact ⟨by decide, by decide⟩

theorem Severity.plain_label (s : Severity) : Json.Plain s.label := by
  cases s <;> exact ⟨by decide, by decide⟩

/-- The pieces of a member whose key and value are plain, and of what follows
it. -/
theorem Json.pieces_textMember {key value : String} (hkey : Plain key) (hvalue : Plain value)
    {before : List Char} (hbefore : '"' ∉ before) (tail : List Char) :
    pieces '"' (before ++ textMember key value ++ tail) =
      before :: key.toList :: [':'] :: value.toList :: pieces '"' tail := by
  have hshape : before ++ textMember key value ++ tail =
      before ++ '"' :: (key.toList ++ '"' :: ([':'] ++ '"' :: (value.toList ++ '"' :: tail))) := by
    unfold textMember quote
    rw [hkey.written, hvalue.written]
    simp only [List.append_assoc, List.cons_append, List.nil_append]
  rw [hshape, pieces_of_not_mem_append hbefore, pieces_of_not_mem_append hkey.noQuote,
    pieces_of_not_mem_append (by decide), pieces_of_not_mem_append hvalue.noQuote]

/-- An object goes on somehow after its first two members. -/
theorem Json.exists_tail (a b : List Char) (rest : List (List Char)) :
    ∃ tail, object (a :: b :: rest) = ['\x7b'] ++ a ++ ([','] ++ b ++ tail) := by
  cases rest with
  | nil => exact ⟨['\x7d'], by simp [object, separated]⟩
  | cons c more =>
    exact ⟨',' :: separated (c :: more) ++ ['\x7d'], by simp [object, separated]⟩

/-! ## §2. Reading a line. -/

/-- The text at a place among those that the quotes of a line cut out. -/
def wordAt (place : Nat) (line : String) : Option String :=
  (pieces '"' line.toList)[place]?.map String.ofList

/-- The severity with a label. -/
def Severity.ofLabel? (label : String) : Option Severity :=
  [trace, info, warn, error].find? fun s => s.label = label

theorem Severity.ofLabel?_label (s : Severity) : ofLabel? s.label = some s := by
  cases s <;> decide

/-- The name of the event that a line is about. -/
def lineEvent (line : String) : Option String := wordAt 3 line

/-- The severity that a line carries. -/
def lineSeverity (line : String) : Option Severity := (wordAt 7 line).bind Severity.ofLabel?

/-- **A line names its event and its severity**, whatever its fields are. -/
theorem words_of_line (e : Event) (fields : List (String × String)) :
    wordAt 3 (e.entry fields).line = some e.name ∧
      wordAt 7 (e.entry fields).line = some e.severity.label := by
  obtain ⟨tail, hobject⟩ := Json.exists_tail (Json.textMember "event" e.name)
    (Json.textMember "severity" e.severity.label)
    ((Dict.ofPairs fields).map fun f => Json.textMember f.1 f.2)
  have hline : (e.entry fields).line.toList =
      ['\x7b'] ++ Json.textMember "event" e.name ++
        ([','] ++ Json.textMember "severity" e.severity.label ++ tail) := by
    rw [← hobject]
    exact String.toList_ofList
  have hevent : Json.Plain "event" := ⟨by decide, by decide⟩
  have hseverity : Json.Plain "severity" := ⟨by decide, by decide⟩
  have hbrace : '"' ∉ ['\x7b'] := by decide
  have hcomma : '"' ∉ [','] := by decide
  have hpieces := Json.pieces_textMember hevent e.plain_name hbrace
    ([','] ++ Json.textMember "severity" e.severity.label ++ tail)
  rw [Json.pieces_textMember hseverity e.severity.plain_label hcomma, ← hline] at hpieces
  unfold wordAt
  rw [hpieces]
  exact ⟨congrArg some String.ofList_toList, congrArg some String.ofList_toList⟩

theorem lineEvent_line (e : Event) (fields : List (String × String)) :
    lineEvent (e.entry fields).line = some e.name := (words_of_line e fields).1

theorem lineSeverity_line (e : Event) (fields : List (String × String)) :
    lineSeverity (e.entry fields).line = some e.severity := by
  unfold lineSeverity
  rw [(words_of_line e fields).2]
  exact Severity.ofLabel?_label e.severity

/-- Events have different names. -/
theorem Event.name_injective {e e' : Event} (h : e.name = e'.name) : e = e' := by
  revert h
  cases e <;> cases e' <;> decide

/-! ## §3. What a least severity lets pass. -/

/-- Whether a line matters under a least severity, going by what it says. -/
def Severity.passesLine (least : Severity) (line : String) : Bool :=
  (lineSeverity line).any least.passes

/-- Signals whose entries are those of events. -/
def Known (signals : List Signal) : Prop :=
  ∀ entry ∈ entries signals, ∃ (e : Event) (fields : List (String × String)),
    entry = e.entry fields

/-- What a line says lets it pass iff its severity does. -/
theorem passesLine_line (least : Severity) (e : Event) (fields : List (String × String)) :
    least.passesLine (e.entry fields).line = least.passes e.severity := by
  unfold Severity.passesLine
  rw [lineSeverity_line, Option.any_some]

/-- Everything is written under the lowest severity. -/
theorem journalLines_trace (signals : List Signal) :
    journalLines .trace signals = (entries signals).map Entry.line := by
  have hall : ∀ entry ∈ entries signals, Severity.trace.passes entry.severity = true :=
    fun _ _ => decide_eq_true (Nat.zero_le _)
  unfold journalLines
  rw [List.filter_eq_self.2 hall]

/-- **A least severity leaves lines out and does nothing else**: which ones
can be told from the lines that are written under the lowest. -/
theorem journalLines_eq_filter {signals : List Signal} (h : Known signals) (least : Severity) :
    journalLines least signals = (journalLines .trace signals).filter least.passesLine := by
  have hsame : (entries signals).filter (fun entry => least.passes entry.severity) =
      (entries signals).filter (least.passesLine ∘ Entry.line) := by
    refine List.filter_congr fun entry hentry => ?_
    obtain ⟨e, fields, rfl⟩ := h entry hentry
    rw [Function.comp_apply, passesLine_line]
    rfl
  rw [journalLines_trace, List.filter_map]
  unfold journalLines
  rw [hsame]

end ReportStore
