/-
  ReportStore.Proofs.EntryLines
  ─────────────────────────────
  **AN ENTRY IS READ BACK FROM ITS LINE.**

  The line of an entry is an object of texts: the event, the severity, and
  the fields by key, for each key the value that was given last.  No character
  of it is a line feed, whatever the fields hold, and the object is
  read as what was put into it:

      line of (event, severity, fields)  ──read──▶  event, severity, last value of each key

  An object may have two members with one key, and the later counts when it
  is read.  So a field that is named `event` or `severity` hides the event
  or the severity of the entry, unless it says the same.
-/
import Mathlib.Data.List.Induction
import Mathlib.Data.List.Nodup
import ReportStore.Journal.Basic
import ReportStore.Proofs.RecordLines

namespace ReportStore

/-! ## §1. The value given last. -/

namespace Dict

variable {α : Type} {pairs pairs' : List (String × α)} {key : String} {v : α}

/-- The value that is given last for a key. -/
def lastGiven? (pairs : List (String × α)) (key : String) : Option α :=
  (pairs.filter fun p => p.1 = key).getLast?.map (·.2)

theorem lastGiven?_concat (pairs : List (String × α)) (p : String × α) :
    lastGiven? (pairs ++ [p]) key = if key = p.1 then some p.2 else lastGiven? pairs key := by
  unfold lastGiven?
  rw [List.filter_append]
  by_cases hkey : key = p.1
  · simp [hkey]
  · simp [hkey, Ne.symm hkey]

/-- **Of two bindings of a key the later counts.** -/
theorem get?_ofPairs (pairs : List (String × α)) (key : String) :
    get? (ofPairs pairs) key = lastGiven? pairs key := by
  induction pairs using List.reverseRecOn with
  | nil => rfl
  | append_singleton pairs p ih =>
    have hinsert : ofPairs (pairs ++ [p]) = Dict.insert (ofPairs pairs) p.1 p.2 := by
      unfold ofPairs
      rw [List.foldl_append, List.foldl_cons, List.foldl_nil]
    rw [hinsert, get?_insert, lastGiven?_concat, ih]

theorem mem_of_lastGiven? (h : lastGiven? pairs key = some v) : (key, v) ∈ pairs := by
  obtain ⟨p, hlast, rfl⟩ := Option.map_eq_some_iff.1 h
  obtain ⟨hmem, hkey⟩ := List.mem_filter.1 (List.mem_of_getLast? hlast)
  exact of_decide_eq_true hkey ▸ hmem

/-- A key that is not repeated has one value. -/
theorem lastGiven?_eq_some_iff (hdistinct : (keys pairs).Nodup) :
    lastGiven? pairs key = some v ↔ (key, v) ∈ pairs := by
  refine ⟨mem_of_lastGiven?, ?_⟩
  intro hmem
  cases hlast : lastGiven? pairs key with
  | none =>
    have hnot : (pairs.filter fun p => p.1 = key) = [] :=
      List.getLast?_eq_none_iff.1 (Option.map_eq_none_iff.1 hlast)
    have hin : (key, v) ∈ pairs.filter fun p => p.1 = key :=
      List.mem_filter.2 ⟨hmem, decide_eq_true rfl⟩
    rw [hnot] at hin
    cases hin
  | some w =>
    have hsame := List.inj_on_of_nodup_map hdistinct hmem (mem_of_lastGiven? hlast) rfl
    injection hsame with _ hvalue
    rw [hvalue]

/-- **The order of bindings does not matter**, if no key is repeated. -/
theorem ofPairs_of_perm (hperm : pairs.Perm pairs') (hdistinct : (keys pairs).Nodup) :
    ofPairs pairs = ofPairs pairs' := by
  have hdistinct' : (keys pairs').Nodup := (List.Perm.nodup_iff (hperm.map Prod.fst)).1 hdistinct
  refine eq_of_get? (sorted_ofPairs pairs) (sorted_ofPairs pairs') ?_
  intro key
  rw [get?_ofPairs, get?_ofPairs]
  apply Option.ext
  intro v
  rw [lastGiven?_eq_some_iff hdistinct, lastGiven?_eq_some_iff hdistinct', hperm.mem_iff]

end Dict

/-! ## §2. Objects of texts. -/

/-- Texts as the values of a record. -/
def Record.ofTexts (texts : List (String × String)) : List (String × Value) :=
  Dict.mapValues .text texts

namespace Json

theorem printMembers_ofTexts (texts : List (String × String)) :
    printMembers (Record.ofTexts texts) = texts.map fun f => textMember f.1 f.2 := by
  induction texts with
  | nil => rfl
  | cons f rest ih =>
    show (quote f.1 ++ ':' :: printValue (.text f.2)) :: printMembers (Record.ofTexts rest) = _
    rw [ih, printValue]
    rfl

theorem areFloatless_ofTexts (texts : List (String × String)) :
    Record.areFloatless (Record.ofTexts texts) = true := by
  induction texts with
  | nil => rfl
  | cons f rest ih => exact ih

theorem deepest_ofTexts (texts : List (String × String)) :
    Record.deepest (Record.ofTexts texts) = 0 := by
  induction texts with
  | nil => rfl
  | cons f rest ih =>
    show max 0 (Record.deepest (Record.ofTexts rest)) = 0
    rw [ih, Nat.max_self]

theorem followersReadBack_ofTexts (texts : List (String × String)) :
    FollowersReadBack (Record.ofTexts texts) := by
  induction texts with
  | nil => exact followersReadBack_nil
  | cons f rest ih => exact followersReadBack_cons (readsBack_text f.2) ih

/-- **An object of texts is read as the map of its members.** -/
theorem readRecord_ofTexts {f : String × String} {texts : List (String × String)}
    {rest : List Char} (hrest : skipBlanks rest = []) :
    readRecord (printRecord (Record.ofTexts (f :: texts)) ++ rest) =
      .ok (Dict.ofPairs (Record.ofTexts (f :: texts))) := by
  have hdepth : Value.depth (.map (Record.ofTexts (f :: texts))) ≤ depthLimit := by
    rw [Value.depth, deepest_ofTexts]
    decide
  exact readRecord_members (readsBack_text f.2) (followersReadBack_ofTexts texts) hdepth hrest

end Json

/-! ## §3. Entries. -/

namespace Entry

/-- The members of the line of an entry. -/
def members (e : Entry) : List (String × String) :=
  ("event", e.event) :: ("severity", e.severity.label) :: Dict.ofPairs e.fields

theorem toList_line (e : Entry) : e.line.toList = Json.printRecord (Record.ofTexts e.members) := by
  unfold Json.printRecord
  rw [Json.printMembers_ofTexts]
  exact String.toList_ofList

theorem toList_ended (e : Entry) :
    (ended e.line).toList = Json.printRecord (Record.ofTexts e.members) ++ ['\n'] := by
  unfold ended
  rw [String.toList_append, toList_line]
  rfl

/-- **A line has no line feed in it.** -/
theorem lineFeed_not_mem_line (e : Entry) : '\n' ∉ e.line.toList := by
  intro h
  have hvisible := Json.visible_printValue (.map (Record.ofTexts e.members))
    (Json.areFloatless_ofTexts e.members)
  rw [Json.printValue] at hvisible
  rw [toList_line] at h
  exact hvisible _ h (by decide)

/-- **The line of an entry is read**, with the line feed at its end. -/
theorem readRecord_ended (e : Entry) : Json.readRecord (ended e.line).toList =
    .ok (Dict.ofPairs (Record.ofTexts e.members)) := by
  rw [toList_ended]
  exact Json.readRecord_ofTexts rfl

/-- A reader finds the fields first, since they come last in the line. -/
theorem get?_members (e : Entry) (key : String) :
    Dict.get? (Dict.ofPairs (Record.ofTexts e.members)) key =
      ((Dict.lastGiven? e.fields key).map .text).or
        (if key = "severity" then some (.text e.severity.label)
          else if key = "event" then some (.text e.event) else none) := by
  let head : Record := Dict.insert (Dict.insert [] "event" (.text e.event)) "severity"
    (.text e.severity.label)
  have hsorted : Dict.Sorted (Record.ofTexts (Dict.ofPairs e.fields)) :=
    Dict.sorted_mapValues _ (Dict.sorted_ofPairs e.fields)
  have hfields : Dict.get? (Record.ofTexts (Dict.ofPairs e.fields)) key =
      (Dict.lastGiven? e.fields key).map .text := by
    unfold Record.ofTexts
    rw [Dict.get?_mapValues, Dict.get?_ofPairs]
  have hhead := Dict.get?_foldl_insert_of_sorted hsorted key head
  rw [hfields, Dict.get?_insert, Dict.get?_insert, Dict.get?_nil] at hhead
  exact hhead

/-- What a reader of a line is told of the entry: its event, its severity, the
value given last for each other key, and nothing else. -/
structure Told (e : Entry) (r : Record) : Prop where
  event : Dict.get? r "event" = some (.text e.event)
  severity : Dict.get? r "severity" = some (.text e.severity.label)
  fields : ∀ key, key ≠ "event" → key ≠ "severity" →
    Dict.get? r key = (Dict.lastGiven? e.fields key).map .text

/-- A field has the name of the event or of the severity and says something else. -/
def Shadowed (e : Entry) : Prop :=
  (∃ text, Dict.lastGiven? e.fields "event" = some text ∧ text ≠ e.event) ∨
    ∃ text, Dict.lastGiven? e.fields "severity" = some text ∧ text ≠ e.severity.label

/-- What is found first is the text iff nothing else was given. -/
theorem or_eq_text_iff {given : Option String} {text : String} :
    (given.map Value.text).or (some (.text text)) = some (.text text) ↔
      ¬ ∃ other, given = some other ∧ other ≠ text := by
  cases given with
  | none => simp
  | some other => simp

theorem fields_members (e : Entry) (key : String) (hevent : key ≠ "event")
    (hseverity : key ≠ "severity") : Dict.get? (Dict.ofPairs (Record.ofTexts e.members)) key =
      (Dict.lastGiven? e.fields key).map .text := by
  rw [get?_members, if_neg hseverity, if_neg hevent, Option.or_none]

/-- **A reader is told the entry iff no field hides what comes before it.** -/
theorem told_members_iff (e : Entry) :
    e.Told (Dict.ofPairs (Record.ofTexts e.members)) ↔ ¬ e.Shadowed := by
  have hevent : Dict.get? (Dict.ofPairs (Record.ofTexts e.members)) "event" =
      ((Dict.lastGiven? e.fields "event").map .text).or (some (.text e.event)) :=
    e.get?_members "event"
  have hseverity : Dict.get? (Dict.ofPairs (Record.ofTexts e.members)) "severity" =
      ((Dict.lastGiven? e.fields "severity").map .text).or (some (.text e.severity.label)) :=
    e.get?_members "severity"
  unfold Shadowed
  rw [not_or, ← or_eq_text_iff, ← or_eq_text_iff, ← hevent, ← hseverity]
  exact ⟨fun h => ⟨h.event, h.severity⟩, fun h => ⟨h.1, h.2, e.fields_members⟩⟩

theorem line_of_perm {e : Entry} {fields : List (String × String)} (hperm : e.fields.Perm fields)
    (hdistinct : (Dict.keys e.fields).Nodup) : line ⟨e.severity, e.event, fields⟩ = e.line := by
  unfold line
  rw [Dict.ofPairs_of_perm hperm hdistinct]

/-- **An entry is written as one line, and told by it unless a field is in the
way.**  For every severity, event and list of fields, the text that is
written has one line feed, its last character; fields with distinct keys
may come in any order; and the text is read as an object that holds, for
every key but `event` and `severity`, the value given last and no other
key.  It tells the event and the severity as well iff no field that is
named like one of them says something else. -/
theorem line_told_iff (e : Entry) :
    (ended e.line).toList.count '\n' = 1 ∧ (ended e.line).toList.getLast? = some '\n' ∧
      (∀ fields, e.fields.Perm fields → (Dict.keys e.fields).Nodup →
        line ⟨e.severity, e.event, fields⟩ = e.line) ∧
      ∃ r, Json.readRecord (ended e.line).toList = .ok r ∧
        (∀ key, key ≠ "event" → key ≠ "severity" →
          Dict.get? r key = (Dict.lastGiven? e.fields key).map .text) ∧
        (e.Told r ↔ ¬ e.Shadowed) := by
  have hended : (ended e.line).toList = e.line.toList ++ ['\n'] := String.toList_append
  have hcount : (ended e.line).toList.count '\n' = 1 := by
    rw [hended, List.count_append, List.count_eq_zero.2 e.lineFeed_not_mem_line]
    rfl
  have hlast : (ended e.line).toList.getLast? = some '\n' := by
    rw [hended, List.getLast?_concat]
  exact ⟨hcount, hlast, fun _ => line_of_perm, _, e.readRecord_ended, e.fields_members,
    e.told_members_iff⟩

/-- A key that is given twice, a quote, a line feed and a control character. -/
example : line ⟨.error, "SAVE_FAILED", [("why", "a"), ("cell", "\x01"), ("why", "\"b\"\n")]⟩ =
    "\x7b\"event\":\"SAVE_FAILED\",\"severity\":\"ERROR\",\"cell\":\"\\u0001\"," ++
      "\"why\":\"\\\"b\\\"\\n\"\x7d" := by
  decide +kernel

/-- An entry with a field that has the name of its event. -/
def shadowedEvent : Entry := ⟨.warn, "EV", [("event", "x")]⟩

/-- **A reader of its line is not told its event.** -/
theorem not_told_shadowedEvent :
    ¬ ∃ r, Json.readRecord (ended shadowedEvent.line).toList = .ok r ∧ shadowedEvent.Told r := by
  rintro ⟨r, hread, htold⟩
  rw [readRecord_ended] at hread
  injection hread with hread
  rw [← hread, told_members_iff] at htold
  exact htold (.inl ⟨"x", by decide, by decide⟩)

end Entry

end ReportStore
