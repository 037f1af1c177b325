/-
  ReportStore.Proofs.Json.Record
  ──────────────────────────────
  **A RECORD IS READ BACK FROM ITS JSON.**

  A reader is given what was printed and whatever may follow it, reads the
  value and leaves the rest.  An integer needs something after it that does
  not go on as a number, which a comma and a brace do not; an object needs
  its keys in order, for members are inserted one by one; and a record may
  be as deep as the reader goes.

      value (print v ++ rest) = (v, rest)

  Doubles are left out: not each of them has a numeral in JSON.
-/
import ReportStore.Proofs.Json.Quote
import ReportStore.Proofs.Number.ReadBack
import ReportStore.Proofs.Union
import ReportStore.Json.Record

namespace ReportStore

/-! ## §1. Values that can be read back. -/

mutual

/-- Whether a value has no double in it, at any depth. -/
def Value.isFloatless : Value → Bool
  | .float _ => false
  | .map entries => Record.areFloatless entries
  | .int _ | .text _ => true

/-- Whether no value of some entries has a double in it. -/
def Record.areFloatless : List (String × Value) → Bool
  | [] => true
  | (_, v) :: rest => Value.isFloatless v && Record.areFloatless rest

end

mutual

/-- How many maps stand inside each other in a value, itself included. -/
def Value.depth : Value → Nat
  | .map entries => Record.deepest entries + 1
  | .int _ | .float _ | .text _ => 0

/-- The depth of the deepest value of some entries. -/
def Record.deepest : List (String × Value) → Nat
  | [] => 0
  | (_, v) :: rest => max (Value.depth v) (Record.deepest rest)

end

namespace Json

/-! ## §2. Integers. -/

theorem head?_ofNat {n : Nat} (hn : 0 < n) : (Text.Digits.ofNat n).head? ≠ some '0' := by
  unfold Text.Digits.ofNat
  induction n using Nat.strongRecOn with
  | ind n ih =>
    by_cases hlt : n < 10
    · rw [Nat.toDigits_of_lt_base hlt, List.head?_cons, ne_eq, Option.some.injEq,
        Nat.digitChar_eq_zero]
      omega
    · rw [Nat.toDigits_of_base_le (by decide) (by omega),
        List.head?_append_of_ne_nil _ Nat.toDigits_ne_nil]
      exact ih (n / 10) (by omega) (by omega)

/-- A numeral has no zero before another digit. -/
theorem ofNat_ne_zero_cons (n : Nat) (c : Char) (cs : List Char) :
    Text.Digits.ofNat n ≠ '0' :: c :: cs := by
  intro h
  rcases Nat.eq_zero_or_pos n with rfl | hn
  · cases h
  · exact head?_ofNat hn (by rw [h, List.head?_cons])

/-- What follows a numeral and does not go on with it. -/
def EndsNumber (rest : List Char) : Prop :=
  ∀ c ∈ rest.head?, c.isDigit = false ∧ c ≠ '.' ∧ c ≠ 'e' ∧ c ≠ 'E'

variable {atEnd : Refusal} {rest : List Char}

theorem wholeDigits_ofNat (n : Nat) (h : EndsNumber rest) :
    wholeDigits atEnd (Text.Digits.ofNat n ++ rest) = .ok (Text.Digits.ofNat n, rest) := by
  have hspan : Decimal.spanDigits (Text.Digits.ofNat n ++ rest) = (Text.Digits.ofNat n, rest) :=
    Decimal.spanDigits_append (fun _ hc => Text.Digits.isDigit_of_mem_ofNat hc)
      (fun c hc => (h c hc).1)
  have hsome : someDigits atEnd (Text.Digits.ofNat n ++ rest) =
      .ok (Text.Digits.ofNat n, rest) := by
    unfold someDigits
    rw [hspan]
    cases hdigits : Text.Digits.ofNat n with
    | nil => exact absurd hdigits (Text.Digits.ofNat_ne_nil n)
    | cons c cs => rfl
  unfold wholeDigits
  rw [hsome]
  split
  · -- Digits that start with a zero are refused, unless it is the only one.
    next hzero =>
    injection hzero with hzero
    injection hzero with hzero
    exact absurd hzero (ofNat_ne_zero_cons n _ _)
  · rfl

theorem unsignedNumeral_ofNat (negative : Bool) (n : Nat) (h : EndsNumber rest) :
    unsignedNumeral atEnd negative (Text.Digits.ofNat n ++ rest) =
      .ok (⟨negative, Text.Digits.ofNat n, [], none⟩, rest) := by
  have hpart : partDigits atEnd rest = .ok ([], rest) := by
    unfold partDigits
    split
    · exact absurd rfl (h '.' rfl).2.1
    · rfl
  have hexponent : exponentPart atEnd rest = .ok (none, rest) := by
    unfold exponentPart
    split
    · exact absurd rfl (h 'e' rfl).2.2.1
    · exact absurd rfl (h 'E' rfl).2.2.2
    · rfl
  unfold unsignedNumeral
  simp only [wholeDigits_ofNat n h, hpart, hexponent]

/-- The digits of a natural number start with a digit. -/
theorem exists_ofNat (n : Nat) : ∃ c cs, Text.Digits.ofNat n = c :: cs ∧ c.isDigit = true := by
  obtain ⟨c, cs, hdigits⟩ := List.exists_cons_of_ne_nil (Text.Digits.ofNat_ne_nil n)
  exact ⟨c, cs, hdigits, Text.Digits.isDigit_of_mem_ofNat (hdigits ▸ List.mem_cons_self)⟩

/-- **The numeral of an integer** is read as one. -/
theorem numeral_ofInt (n : Int) (h : EndsNumber rest) :
    numeral atEnd (Text.Digits.ofInt n ++ rest) =
      .ok (⟨decide (n < 0), Text.Digits.ofNat n.natAbs, [], none⟩, rest) := by
  unfold Text.Digits.ofInt
  by_cases hneg : n < 0
  · rw [if_pos hneg, decide_eq_true hneg, List.cons_append, numeral, unsignedNumeral_ofNat true _ h]
  · rw [if_neg hneg, decide_eq_false hneg, ← unsignedNumeral_ofNat false _ h]
    obtain ⟨c, cs, hdigits, hdigit⟩ := exists_ofNat n.natAbs
    rw [hdigits, List.cons_append, numeral]
    -- A digit is no minus sign.
    intro _ hminus
    injection hminus with hminus
    rw [hminus] at hdigit
    cases hdigit

/-- It is the integer itself, not a double. -/
theorem numberValue_toInt (n : Int64) :
    numberValue ⟨decide (n.toInt < 0), Text.Digits.ofNat n.toInt.natAbs, [], none⟩ =
      .ok (.int n) := by
  have hfits : Text.Digits.FitsInt64 n.toInt := by
    have hlow := n.le_toInt
    have hhigh := n.toInt_lt
    exact ⟨by omega, by omega⟩
  have hdigits : Nat.ofDigitChars 10 (Text.Digits.ofNat n.toInt.natAbs) 0 = n.toInt.natAbs :=
    Nat.ofDigitChars_ten_toDigits
  have hsign : (if n.toInt < 0 then -(n.toInt.natAbs : Int) else n.toInt.natAbs) = n.toInt := by
    omega
  have hzero : ¬ (n.toInt < 0 ∧ n.toInt.natAbs = 0) := by omega
  have hint : Numeral.int64? ⟨decide (n.toInt < 0), Text.Digits.ofNat n.toInt.natAbs, [], none⟩ =
      some n := by
    simp only [Numeral.int64?, ne_eq, not_true_eq_false, Option.isSome_none, Bool.false_eq_true,
      or_false, if_false, hdigits, decide_eq_true_eq, hsign, if_neg hzero, if_pos hfits,
      Int64.ofInt_toInt]
  rw [numberValue, hint]

/-! ## §3. One step of the reader. -/

/-- A character that a number starts with starts nothing else. -/
theorem apart_of_startsNumber {c : Char} (h : startsNumber c = true) :
    isBlank c = false ∧ c ≠ '"' ∧ c ≠ '\x7b' := by
  refine ⟨Bool.eq_false_iff.2 ?_, ?_, ?_⟩
  · intro hblank
    simp only [isBlank, Bool.or_eq_true, beq_iff_eq] at hblank
    rcases hblank with ((rfl | rfl) | rfl) | rfl <;> cases h
  · rintro rfl
    cases h
  · rintro rfl
    cases h

theorem skipBlanks_cons {c : Char} (h : isBlank c = false) (cs : List Char) :
    skipBlanks (c :: cs) = c :: cs := by
  rw [skipBlanks, List.dropWhile_cons_of_neg (by rw [h]; decide)]

variable {limit depth : Nat}

theorem value_of_numeral {c : Char} {cs : List Char} {n : Numeral} {v : Value}
    (h : startsNumber c = true) (hnumeral : numeral .ended (c :: cs) = .ok (n, rest))
    (hv : numberValue n = .ok v) : value (limit + 1) depth (c :: cs) = .ok (v, rest) := by
  obtain ⟨hblank, hquote, hbrace⟩ := apart_of_startsNumber h
  rw [value]
  simp only [skipBlanks_cons hblank]
  rw [if_pos h]
  simp only [hnumeral, hv]
  rfl

theorem exists_ofInt (n : Int) :
    ∃ c cs, Text.Digits.ofInt n = c :: cs ∧ startsNumber c = true := by
  unfold Text.Digits.ofInt
  split
  · exact ⟨'-', _, rfl, rfl⟩
  · obtain ⟨c, cs, hdigits, hdigit⟩ := exists_ofNat n.natAbs
    exact ⟨c, cs, hdigits, by rw [startsNumber, hdigit, Bool.or_true]⟩

/-- **An integer is read back.** -/
theorem value_ofInt (n : Int64) (h : EndsNumber rest) :
    value (limit + 1) depth (Text.Digits.ofInt n.toInt ++ rest) = .ok (.int n, rest) := by
  have hnumeral := @numeral_ofInt .ended _ n.toInt h
  obtain ⟨c, cs, hchars, hstarts⟩ := exists_ofInt n.toInt
  rw [hchars, List.cons_append] at hnumeral ⊢
  exact value_of_numeral hstarts hnumeral (numberValue_toInt n)

/-- **A text is read back.** -/
theorem value_quote (s : String) :
    value (limit + 1) depth (quote s ++ rest) = .ok (.text s, rest) := by
  rw [quote_append, value]
  simp only [skipBlanks_cons (c := '"') (by decide), stringBody_flatMap]
  show Except.ok (Value.text (String.ofList s.toList), rest) = _
  rw [String.ofList_toList]

theorem punctuation_cons {c : Char} (h : isBlank c = false) (cs : List Char) :
    punctuation c (c :: cs) = .ok cs := by
  unfold punctuation
  rw [skipBlanks_cons h]
  exact if_pos rfl

/-- **One member**, up to whose key the text was read. -/
theorem members_of_key {first : Bool} {acc : Record} {k : String} {v : Value} {c : Char}
    {cs more : List Char} (hblank : isBlank c = false) (hbrace : c ≠ '\x7d')
    (hkey : (if first then (if c = '"' then .ok cs else .error .malformed)
      else if c = ',' then punctuation '"' cs
      else .error .malformed) =
        Except.ok (k.toList.flatMap quotedChar ++ '"' :: ':' :: (printValue v ++ more)))
    (hv : value limit depth (printValue v ++ more) = .ok (v, more)) :
    members (limit + 1) depth first acc (c :: cs) =
      members limit depth false (Dict.insert acc k v) more := by
  rw [members]
  simp only [skipBlanks_cons hblank, hkey, stringBody_flatMap,
    punctuation_cons (c := ':') (by decide), hv, String.ofList_toList]

theorem members_first {acc : Record} {k : String} {v : Value} {more : List Char}
    (hv : value limit depth (printValue v ++ more) = .ok (v, more)) :
    members (limit + 1) depth true acc (quote k ++ ':' :: (printValue v ++ more)) =
      members limit depth false (Dict.insert acc k v) more := by
  rw [quote_append]
  exact members_of_key (by decide) (by decide) rfl hv

theorem members_next {acc : Record} {k : String} {v : Value} {more : List Char}
    (hv : value limit depth (printValue v ++ more) = .ok (v, more)) :
    members (limit + 1) depth false acc (',' :: (quote k ++ ':' :: (printValue v ++ more))) =
      members limit depth false (Dict.insert acc k v) more := by
  rw [quote_append]
  exact members_of_key (by decide) (by decide) rfl hv

theorem members_nil {first : Bool} {acc : Record} :
    members (limit + 1) depth first acc ('\x7d' :: rest) = .ok (acc, rest) := by
  rw [members]
  simp only [skipBlanks_cons (c := '\x7d') (by decide)]

/-! ## §4. Records. -/

/-- Members that follow another one. -/
def following (es : List (String × Value)) : List Char := (printMembers es).flatMap (',' :: ·)

theorem separated_cons (m : List Char) : ∀ ms : List (List Char),
    separated (m :: ms) = m ++ ms.flatMap (',' :: ·) := by
  intro ms
  induction ms generalizing m with
  | nil => rw [separated, List.flatMap_nil, List.append_nil]
  | cons m' ms ih => rw [separated, ih, List.flatMap_cons, List.cons_append]; exact nofun

theorem following_cons (k : String) (v : Value) (es : List (String × Value)) (rest : List Char) :
    following ((k, v) :: es) ++ rest =
      ',' :: (quote k ++ ':' :: (printValue v ++ (following es ++ rest))) := by
  unfold following
  rw [printMembers, List.flatMap_cons]
  simp only [List.append_assoc, List.cons_append]

theorem endsNumber_following (es : List (String × Value)) :
    EndsNumber (following es ++ '\x7d' :: rest) := by
  cases es with
  | nil => exact fun c hc => Option.mem_some.1 hc ▸ (by decide)
  | cons e es =>
    obtain ⟨k, v⟩ := e
    rw [following_cons]
    exact fun c hc => Option.mem_some.1 hc ▸ (by decide)

theorem length_following_cons (k : String) (v : Value) (es : List (String × Value)) :
    (printValue v).length + (following es).length < (following ((k, v) :: es)).length := by
  have h := congrArg List.length (following_cons k v es [])
  simp only [List.append_nil, List.length_append, List.length_cons] at h
  omega

theorem printValue_map (k : String) (v : Value) (es : List (String × Value)) :
    printValue (.map ((k, v) :: es)) ++ rest =
      '\x7b' :: (quote k ++ ':' :: (printValue v ++ (following es ++ '\x7d' :: rest))) := by
  rw [printValue, object, printMembers, separated_cons]
  simp only [following, List.append_assoc, List.cons_append, List.nil_append]

/-- A value is read back, by a reader that goes deep enough. -/
def ReadsBack (v : Value) : Prop := ∀ {limit depth : Nat} {rest : List Char}, v.depth ≤ depth →
  (printValue v).length ≤ limit → EndsNumber rest →
    value limit depth (printValue v ++ rest) = .ok (v, rest)

/-- Members that follow others are read back and inserted, one after the other. -/
def FollowersReadBack (es : List (String × Value)) : Prop := ∀ {limit depth : Nat} {acc : Record}
  {rest : List Char}, Record.deepest es ≤ depth → (following es).length < limit →
    members limit depth false acc (following es ++ '\x7d' :: rest) =
      .ok (es.foldl (fun d p => Dict.insert d p.1 p.2) acc, rest)

theorem readsBack_int (n : Int64) : ReadsBack (.int n) := by
  intro limit depth rest _ hlimit hrest
  rw [printValue] at hlimit ⊢
  cases limit with
  | zero =>
    obtain ⟨c, cs, hchars, -⟩ := exists_ofInt n.toInt
    rw [hchars] at hlimit
    cases hlimit
  | succ limit => exact value_ofInt n hrest

theorem readsBack_text (s : String) : ReadsBack (.text s) := by
  intro limit depth rest _ hlimit _
  rw [printValue] at hlimit ⊢
  cases limit with
  | zero => cases hlimit
  | succ limit => exact value_quote s

theorem value_object {depth : Nat} {r : Record} {cs : List Char}
    (h : members limit depth true [] cs = .ok (r, rest)) :
    value (limit + 1) (depth + 1) ('\x7b' :: cs) = .ok (.map r, rest) := by
  rw [value]
  simp only [skipBlanks_cons (c := '\x7b') (by decide), h]
  rfl

theorem readsBack_empty : ReadsBack (.map []) := by
  intro limit depth rest hdepth hlimit _
  obtain ⟨limit, rfl⟩ : ∃ l, limit = l + 2 := Nat.exists_eq_add_of_le' hlimit
  obtain ⟨depth, rfl⟩ : ∃ d, depth = d + 1 :=
    Nat.exists_eq_add_of_le' (Nat.le_of_add_left_le hdepth)
  exact value_object members_nil

/-- **Members are read in turn**, and of two with one key the later counts. -/
theorem value_members {k : String} {v : Value} {es : List (String × Value)} (hv : ReadsBack v)
    (hes : FollowersReadBack es) (hdepth : Value.depth (.map ((k, v) :: es)) ≤ depth)
    (hlimit : (printValue (.map ((k, v) :: es))).length ≤ limit) :
    value limit depth (printValue (.map ((k, v) :: es)) ++ rest) =
      .ok (.map (Dict.ofPairs ((k, v) :: es)), rest) := by
  have hlength := congrArg List.length (@printValue_map [] k v es)
  simp only [List.append_nil, List.length_append, List.length_cons] at hlength
  obtain ⟨limit, rfl⟩ : ∃ l, limit = l + 2 := Nat.exists_eq_add_of_le' (by omega)
  rw [Value.depth, Record.deepest] at hdepth
  obtain ⟨depth, rfl⟩ : ∃ d, depth = d + 1 := Nat.exists_eq_add_of_le' (by omega)
  have hread : members limit depth false (Dict.insert [] k v) (following es ++ '\x7d' :: rest) =
      .ok (es.foldl (fun d p => Dict.insert d p.1 p.2) (Dict.insert [] k v), rest) :=
    hes (by omega) (by omega)
  rw [printValue_map]
  refine value_object ?_
  rw [members_first (hv (by omega) (by omega) (endsNumber_following es)), hread]
  rfl

theorem readsBack_map {k : String} {v : Value} {es : List (String × Value)}
    (hsorted : Dict.Sorted ((k, v) :: es)) (hv : ReadsBack v) (hes : FollowersReadBack es) :
    ReadsBack (.map ((k, v) :: es)) := by
  intro limit depth rest hdepth hlimit _
  -- Members that come in key order are inserted at the end, each of them.
  rw [value_members hv hes hdepth hlimit, Dict.ofPairs_of_sorted hsorted]

theorem followersReadBack_nil : FollowersReadBack [] := by
  intro limit depth acc rest _ hlimit
  cases limit with
  | zero => cases hlimit
  | succ limit => exact members_nil

theorem followersReadBack_cons {k : String} {v : Value} {es : List (String × Value)}
    (hv : ReadsBack v) (hes : FollowersReadBack es) : FollowersReadBack ((k, v) :: es) := by
  intro limit depth acc rest hdepth hlimit
  have hlength := length_following_cons k v es
  cases limit with
  | zero => omega
  | succ limit =>
    rw [Record.deepest, Nat.max_le] at hdepth
    rw [following_cons, members_next (hv hdepth.1 (by omega) (endsNumber_following es)),
      hes hdepth.2 (by omega), List.foldl_cons]

mutual

/-- **A value is read back**, if it has no double and its maps are in key order. -/
theorem readsBack : ∀ v : Value, v.isOrdered = true → v.isFloatless = true → ReadsBack v
  | .int n, _, _ => readsBack_int n
  | .float _, _, hfloatless => nomatch hfloatless
  | .text s, _, _ => readsBack_text s
  | .map [], _, _ => readsBack_empty
  | .map ((k, v) :: es), hordered, hfloatless => by
    simp only [Value.isOrdered, Record.areOrdered, Bool.and_eq_true, decide_eq_true_eq] at hordered
    simp only [Value.isFloatless, Record.areFloatless, Bool.and_eq_true] at hfloatless
    exact readsBack_map hordered.1 (readsBack v hordered.2.1 hfloatless.1)
      (followersReadBack es hordered.2.2 hfloatless.2)

theorem followersReadBack : ∀ es : List (String × Value), Record.areOrdered es = true →
    Record.areFloatless es = true → FollowersReadBack es
  | [], _, _ => followersReadBack_nil
  | (k, v) :: es, hordered, hfloatless => by
    simp only [Record.areOrdered, Bool.and_eq_true] at hordered
    simp only [Record.areFloatless, Bool.and_eq_true] at hfloatless
    exact followersReadBack_cons (readsBack v hordered.1 hfloatless.1)
      (followersReadBack es hordered.2 hfloatless.2)

end

/-- **An object is read as the map of its members**, whatever their order and
whether or not a key is repeated; blanks may follow it. -/
theorem readRecord_members {k : String} {v : Value} {es : List (String × Value)}
    (hv : ReadsBack v) (hes : FollowersReadBack es)
    (hdepth : Value.depth (.map ((k, v) :: es)) ≤ depthLimit) (hrest : skipBlanks rest = []) :
    readRecord (printRecord ((k, v) :: es) ++ rest) = .ok (Dict.ofPairs ((k, v) :: es)) := by
  have hlimit : (printValue (.map ((k, v) :: es))).length ≤
      (printValue (.map ((k, v) :: es)) ++ rest).length + 1 := by
    rw [List.length_append]
    omega
  have hread : value _ depthLimit (printValue (.map ((k, v) :: es)) ++ rest) = _ :=
    value_members hv hes hdepth hlimit
  rw [printValue] at hread
  unfold readRecord printRecord
  simp only [hread, hrest, if_true]

/-- **A record is read back from its JSON**: its maps are in key order, it has no
double, and it is no deeper than the reader goes. -/
theorem readRecord_printRecord {r : Record} (hordered : r.Ordered)
    (hfloatless : Value.isFloatless (.map r) = true) (hdepth : Value.depth (.map r) ≤ depthLimit) :
    readRecord (printRecord r) = .ok r := by
  have hread := readsBack (.map r) hordered hfloatless hdepth (Nat.le_succ _)
    (show EndsNumber [] from nofun)
  rw [List.append_nil, printValue] at hread
  unfold readRecord printRecord
  simp only [hread]
  rfl

end Json

end ReportStore
