/-
  ReportStore.Proofs.Text
  ───────────────────────
  **TEXTS AND THEIR BYTES.**

  A text and its UTF-8 bytes determine each other, so two records with the
  same bytes have the same cells.  A byte below 128 stands for itself only,
  so a byte that is special in a file comes from the character of that code.
  For a time stamp that is written without quotes this leaves blanks, a sign
  and digits.

      decode? bs = some s  ↔  bs = encode s
-/
import ReportStore.Text.Utf8
import ReportStore.Timestamp

namespace ReportStore

namespace Text

/-! ## §1. Encoding and decoding. -/

theorem decode?_eq_some_iff {bs : Bytes} {s : String} : decode? bs = some s ↔ bs = encode s := by
  constructor
  · intro h
    simp only [decode?, String.fromUTF8?] at h
    split at h
    · injection h with h
      subst h
      -- Both sides spell the text that was decoded.
      apply List.toByteArray_inj.1
      rw [toByteArray_encode]
      rfl
    · cases h
  · rintro rfl
    exact decode?_encode s

theorem encode_injective {s t : String} (h : encode s = encode t) : s = t := by
  have hs := decode?_encode s
  rw [h, decode?_encode] at hs
  injection hs with hs
  exact hs.symm

theorem map_encode_injective : ∀ {a b : List String}, a.map encode = b.map encode → a = b := by
  intro a
  induction a with
  | nil =>
    intro b h
    exact (List.map_eq_nil_iff.1 h.symm).symm
  | cons s a ih =>
    intro b h
    cases b with
    | nil => cases h
    | cons t b =>
      injection h with hhead htail
      rw [encode_injective hhead, ih htail]

/-! ## §2. Bytes below 128. -/

/-- **A byte below 128 stands for itself only.** -/
theorem toNat_of_mem_utf8EncodeChar {c : Char} {b : UInt8} (hb : b ∈ String.utf8EncodeChar c)
    (hsmall : b.toNat < 128) : c.toNat = b.toNat := by
  have hc : c.toNat = c.val.toNat := rfl
  have hbig : ∀ m : Nat, 128 ≤ m → m < 256 → b ≠ UInt8.ofNat m := by
    rintro m hlow hhigh rfl
    rw [UInt8.toNat_ofNat'] at hsmall
    omega
  -- All bytes of a longer sequence have the top bit set.
  revert hb
  fun_cases String.utf8EncodeChar c with
  | case1 v hone =>
    intro hb
    have hv : v ≤ 127 := hone
    rw [hc, List.mem_singleton.1 hb, UInt8.toNat_ofNat']
    omega
  | case2 v =>
    intro hb
    simp only [List.mem_cons, List.not_mem_nil, or_false] at hb
    rcases hb with hb | hb
    all_goals exact absurd hb (hbig _ (by omega) (by omega))
  | case3 v =>
    intro hb
    simp only [List.mem_cons, List.not_mem_nil, or_false] at hb
    rcases hb with hb | hb | hb
    all_goals exact absurd hb (hbig _ (by omega) (by omega))
  | case4 v =>
    intro hb
    simp only [List.mem_cons, List.not_mem_nil, or_false] at hb
    rcases hb with hb | hb | hb | hb
    all_goals exact absurd hb (hbig _ (by omega) (by omega))

theorem mem_of_mem_encode {s : String} {b : UInt8} (hb : b ∈ encode s) (hsmall : b.toNat < 128) :
    Char.ofNat b.toNat ∈ s.toList := by
  unfold encode at hb
  obtain ⟨c, hc, hbc⟩ := List.mem_flatMap.1 hb
  rw [← toNat_of_mem_utf8EncodeChar hbc hsmall, Char.ofNat_toNat]
  exact hc

theorem mem_encode_of_mem {s : String} {c : Char} (hc : c ∈ s.toList) (hsmall : c.toNat < 128) :
    UInt8.ofNat c.toNat ∈ encode s := by
  have hone : c.val.toNat ≤ 127 := by
    show c.toNat ≤ 127
    omega
  refine List.mem_flatMap.2 ⟨c, hc, ?_⟩
  unfold String.utf8EncodeChar
  rw [if_pos hone]
  exact List.mem_singleton.2 rfl

/-! ## §3. Blanks around a text. -/

theorem mem_of_mem_dropWhile {p : Char → Bool} {cs : List Char} {c : Char} (h : c ∈ cs) :
    p c = true ∨ c ∈ cs.dropWhile p := by
  induction cs with
  | nil => cases h
  | cons x cs ih =>
    rw [List.dropWhile_cons]
    by_cases hx : p x = true
    · rw [if_pos hx]
      rcases List.mem_cons.1 h with rfl | h
      · exact .inl hx
      · exact ih h
    · rw [if_neg hx]
      exact .inr h

/-- A trimmed text has lost blanks only. -/
theorem isBlank_or_mem_trim {cs : List Char} {c : Char} (h : c ∈ cs) :
    isBlank c = true ∨ c ∈ trim cs := by
  rcases mem_of_mem_dropWhile (p := isBlank) h with hblank | hfirst
  · exact .inl hblank
  · rcases mem_of_mem_dropWhile (p := isBlank) (List.mem_reverse.2 hfirst) with hblank | hlast
    · exact .inl hblank
    · exact .inr (List.mem_reverse.2 hlast)

theorem mem_of_mem_trim {cs : List Char} {c : Char} (h : c ∈ trim cs) : c ∈ cs := by
  have hlast := List.dropWhile_sublist isBlank |>.mem (List.mem_reverse.1 h)
  exact (List.dropWhile_sublist isBlank).mem (List.mem_reverse.1 hlast)

end Text

/-! ## §4. The characters of a time stamp. -/

namespace Text.Digits

/-- What can stand in a numeral. -/
def isNumeral (c : Char) : Bool := c.isDigit || c == '+' || c == '-'

theorem nat?_chars {cs : List Char} {n : Nat} (h : nat? cs = some n) :
    cs ≠ [] ∧ ∀ c ∈ cs, c.isDigit = true := by
  unfold nat? at h
  split at h
  · next hcs => exact ⟨hcs.1, fun c hc => List.all_eq_true.1 hcs.2 c hc⟩
  · cases h

theorem int?_chars {cs : List Char} {n : Int} (h : int? cs = some n) :
    (∀ c ∈ cs, isNumeral c = true) ∧ ∃ c ∈ cs, c.isDigit = true := by
  -- A sign apart, all of a numeral are digits.
  have hdigits : ∀ {ds : List Char} {m : Nat}, nat? ds = some m →
      (∀ c ∈ ds, isNumeral c = true) ∧ ∃ c ∈ ds, c.isDigit = true := by
    intro ds m hm
    obtain ⟨hne, hall⟩ := nat?_chars hm
    obtain ⟨d, ds', rfl⟩ := List.exists_cons_of_ne_nil hne
    refine ⟨?_, d, List.mem_cons_self, hall d List.mem_cons_self⟩
    intro c hc
    simp [isNumeral, hall c hc]
  unfold int? at h
  split at h
  all_goals
    obtain ⟨m, hm, -⟩ := Option.map_eq_some_iff.1 h
    obtain ⟨hall, d, hd, hdigit⟩ := hdigits hm
  · refine ⟨?_, d, List.mem_cons_of_mem _ hd, hdigit⟩
    intro c hc
    rcases List.mem_cons.1 hc with rfl | hc
    · rfl
    · exact hall c hc
  · refine ⟨?_, d, List.mem_cons_of_mem _ hd, hdigit⟩
    intro c hc
    rcases List.mem_cons.1 hc with rfl | hc
    · rfl
    · exact hall c hc
  · exact ⟨hall, d, hd, hdigit⟩

theorem isBlank_of_isNumeral {c : Char} (h : isNumeral c = true) : isBlank c = false := by
  have hcode : 43 ≤ c.toNat ∧ c.toNat ≤ 57 := by
    simp only [isNumeral, Char.isDigit, Bool.or_eq_true, Bool.and_eq_true, decide_eq_true_eq,
      beq_iff_eq] at h
    rcases h with (⟨hlow, hhigh⟩ | rfl) | rfl
    · have hlow' : (48 : Nat) ≤ c.toNat := hlow
      have hhigh' : c.toNat ≤ 57 := hhigh
      omega
    · decide
    · decide
  simp only [isBlank, Bool.or_eq_false_iff, Bool.and_eq_false_iff, decide_eq_false_iff_not,
    beq_eq_false_iff_ne]
  omega

/-- A numeral has no blanks to lose. -/
theorem trim_ofInt (n : Int) : trim (ofInt n) = ofInt n := by
  have hnumeral := (int?_chars (int?_ofInt n)).1
  exact trim_of_ends (fun c hc => isBlank_of_isNumeral (hnumeral c (List.mem_of_mem_head? hc)))
    fun c hc => isBlank_of_isNumeral (hnumeral c (List.mem_of_mem_getLast? hc))

end Text.Digits

/-- **A time stamp is a numeral with blanks around it.** -/
theorem chars_of_timeOfCell? {cell : String} {time : Int} (h : timeOfCell? cell = some time) :
    (∀ c ∈ cell.toList, Text.isBlank c = true ∨ Text.Digits.isNumeral c = true) ∧
      ∃ c ∈ cell.toList, c.isDigit = true := by
  unfold timeOfCell? Text.Digits.int64? at h
  cases hint : Text.Digits.int? (Text.trim cell.toList) with
  | none => simp [hint] at h
  | some n =>
    obtain ⟨hall, d, hd, hdigit⟩ := Text.Digits.int?_chars hint
    refine ⟨?_, d, Text.mem_of_mem_trim hd, hdigit⟩
    intro c hc
    rcases Text.isBlank_or_mem_trim hc with hblank | htrim
    · exact .inl hblank
    · exact .inr (hall c htrim)

end ReportStore
