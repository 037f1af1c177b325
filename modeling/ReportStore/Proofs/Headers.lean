/-
  ReportStore.Proofs.Headers
  ──────────────────────────
  **A HEADER STANDS FOR A SET OF FIELDS.**

  Whatever the order in which fields come, and however often, their header
  is the same: the common columns, then the other names, each once, in the
  order of their bytes.  Texts are compared here by their characters, which
  comes to the same, since UTF-8 keeps the order: sequences of one length
  count up like numbers to the base 64, and the first byte of a longer
  sequence is greater.

      s < t                 →  bytes of s < bytes of t
      header a = header b   ↔  a and b have the same names, the common ones apart
-/
import ReportStore.Proofs.Columns
import ReportStore.Proofs.Text

namespace ReportStore

/-! ## §1. The order of bytes. -/

namespace Text

/-- Two sequences differ in a byte, and the first in which they do is less in
the first sequence.  Neither of them is the beginning of the other, so
what follows them does not matter. -/
inductive Below : Bytes → Bytes → Prop where
  /-- They differ at once. -/
  | here {b c : UInt8} (h : b < c) (x y : Bytes) : Below (b :: x) (c :: y)
  /-- They start with the same byte. -/
  | later {x y : Bytes} (b : UInt8) (h : Below x y) : Below (b :: x) (b :: y)

variable {x y : Bytes}

theorem Below.append (h : Below x y) (x' y' : Bytes) : Below (x ++ x') (y ++ y') := by
  induction h with
  | here h x y => exact .here h _ _
  | later b h ih => exact .later b ih

theorem Below.prepend (h : Below x y) (shared : Bytes) : Below (shared ++ x) (shared ++ y) := by
  induction shared with
  | nil => exact h
  | cons b shared ih => exact .later b ih

theorem Below.lt (h : Below x y) : x < y := by
  induction h with
  | here h x y => exact .rel h
  | later b h ih => exact .cons ih

theorem below_ofNat {m n : Nat} (hlt : m < n) (hn : n < 256) (x y : Bytes) :
    Below (UInt8.ofNat m :: x) (UInt8.ofNat n :: y) := by
  refine .here ?_ x y
  rw [UInt8.lt_iff_toNat_lt, UInt8.toNat_ofNat', UInt8.toNat_ofNat']
  omega

/-- A way of writing numbers up to a bound, in which greater numbers come later. -/
def Ascends (write : Nat → Bytes) (bound : Nat) : Prop :=
  ∀ m n, m < n → n < bound → Below (write m) (write n)

/-- A first byte counts from a base of its own. -/
theorem ascends_lead (base size : Nat) (hfit : base + size ≤ 256) :
    Ascends (fun n => [UInt8.ofNat (n % size + base)]) size := by
  intro m n hlt hn
  have hm : m % size = m := Nat.mod_eq_of_lt (by omega)
  have hn' : n % size = n := Nat.mod_eq_of_lt hn
  show Below [UInt8.ofNat (m % size + base)] [UInt8.ofNat (n % size + base)]
  rw [hm, hn']
  exact below_ofNat (by omega) (by omega) [] []

/-- **One more byte is one more digit** to the base 64. -/
theorem Ascends.extend {write : Nat → Bytes} {bound : Nat} (h : Ascends write bound) :
    Ascends (fun n => write (n / 64) ++ [UInt8.ofNat (n % 64 + 128)]) (bound * 64) := by
  intro m n hlt hn
  show Below (write (m / 64) ++ _) (write (n / 64) ++ _)
  by_cases hfront : m / 64 = n / 64
  · -- The bytes before are the same, and the last digit decides.
    rw [hfront]
    exact (below_ofNat (by omega) (by omega) [] []).prepend _
  · exact (h _ _ (by omega) (by omega)).append _ _

theorem ascends_one : Ascends (fun n => [UInt8.ofNat n]) 128 := by
  intro m n hlt hn
  exact below_ofNat hlt (by omega) [] []

theorem ascends_two :
    Ascends (fun n => [UInt8.ofNat (n / 64 % 32 + 192), UInt8.ofNat (n % 64 + 128)]) 2048 :=
  (ascends_lead 192 32 (by decide)).extend

theorem ascends_three :
    Ascends (fun n => [UInt8.ofNat (n / 4096 % 16 + 224), UInt8.ofNat (n / 64 % 64 + 128),
      UInt8.ofNat (n % 64 + 128)]) 65536 := by
  have h := (ascends_lead 224 16 (by decide)).extend.extend
  simp only [Nat.div_div_eq_div_mul] at h
  exact h

theorem ascends_four :
    Ascends (fun n => [UInt8.ofNat (n / 262144 % 8 + 240), UInt8.ofNat (n / 4096 % 64 + 128),
      UInt8.ofNat (n / 64 % 64 + 128), UInt8.ofNat (n % 64 + 128)]) 2097152 := by
  have h := (ascends_lead 240 8 (by decide)).extend.extend.extend
  simp only [Nat.div_div_eq_div_mul] at h
  exact h

/-- **Characters are in the order of their bytes.** -/
theorem below_utf8EncodeChar {c d : Char} (h : c < d) :
    Below (String.utf8EncodeChar c) (String.utf8EncodeChar d) := by
  have hlt : c.val.toNat < d.val.toNat := h
  have hd : d.val.toNat < 2097152 := by
    rcases d.valid with hlow | ⟨-, hhigh⟩
    · omega
    · omega
  -- Sequences of one length count up; of two lengths the first bytes decide.
  fun_cases String.utf8EncodeChar c with
  | case1 v hv =>
    fun_cases String.utf8EncodeChar d with
    | case1 w => exact ascends_one v w hlt (by omega)
    | case2 w => exact below_ofNat (by omega) (by omega) _ _
    | case3 w => exact below_ofNat (by omega) (by omega) _ _
    | case4 w => exact below_ofNat (by omega) (by omega) _ _
  | case2 v =>
    fun_cases String.utf8EncodeChar d with
    | case1 w => omega
    | case2 w => exact ascends_two v w hlt (by omega)
    | case3 w => exact below_ofNat (by omega) (by omega) _ _
    | case4 w => exact below_ofNat (by omega) (by omega) _ _
  | case3 v =>
    fun_cases String.utf8EncodeChar d with
    | case1 w => omega
    | case2 w => omega
    | case3 w => exact ascends_three v w hlt (by omega)
    | case4 w => exact below_ofNat (by omega) (by omega) _ _
  | case4 v =>
    fun_cases String.utf8EncodeChar d with
    | case1 w => omega
    | case2 w => omega
    | case3 w => omega
    | case4 w => exact ascends_four v w hlt hd

/-- **The order of texts is the order of their bytes.** -/
theorem encode_lt {s t : String} (h : s < t) : encode s < encode t := by
  have hchars : ∀ {cs ds : List Char}, List.Lex (· < ·) cs ds →
      cs.flatMap String.utf8EncodeChar < ds.flatMap String.utf8EncodeChar := by
    intro cs ds hlex
    induction hlex with
    | @nil d ds =>
      -- A character has at least one byte.
      obtain ⟨b, bytes, hbytes⟩ :=
        List.exists_cons_of_ne_nil (String.utf8EncodeChar_ne_nil (c := d))
      rw [List.flatMap_nil, List.flatMap_cons, hbytes, List.cons_append]
      exact List.nil_lt_cons _ _
    | rel hcd => exact ((below_utf8EncodeChar hcd).append _ _).lt
    | cons _ ih => exact List.append_left_lt ih
  exact hchars h

end Text

/-! ## §2. Headers. -/

namespace Columns

theorem isCommon_eq_false_iff {name : String} : isCommon name = false ↔ name ∉ common := by
  rw [← isCommon_iff, Bool.not_eq_true]

theorem requireCommon_header (path : String) (fields : List String) :
    requireCommon path (header fields) = .ok () := by
  unfold requireCommon
  rw [missingCommon_header]

/-- The header of a header is the header. -/
theorem header_header (fields : List String) : header (header fields) = header fields := by
  rw [header_eq_iff]
  intro name hname
  rw [mem_header]
  exact or_iff_right (isCommon_eq_false_iff.1 hname)

/-- **A header stands for the set of the fields that are no common columns.**
It is the common columns, then these names, each once and ascending as
bytes; two lists of fields have one header iff these names are the same; it
is its own header; and it has the columns that every file needs. -/
theorem header_canonical (a b : List String) (path : String) :
    (∃ names, header a = common ++ names ∧
      names.Pairwise (fun s t => Text.encode s < Text.encode t) ∧
        ∀ name, name ∈ names ↔ name ∈ a ∧ name ∉ common) ∧
      (header a = header b ↔
        ∀ name, name ∈ a ∧ name ∉ common ↔ name ∈ b ∧ name ∉ common) ∧
      header (header a) = header a ∧
      requireCommon path (header a) = .ok () := by
  have hmem : ∀ name, name ∈ own a ↔ name ∈ a ∧ name ∉ common := by
    intro name
    rw [mem_own, isCommon_eq_false_iff]
  have hascending : (own a).Pairwise fun s t => Text.encode s < Text.encode t :=
    (own_pairwise a).imp Text.encode_lt
  have hsame : (∀ name, isCommon name = false → (name ∈ a ↔ name ∈ b)) ↔
      ∀ name, name ∈ a ∧ name ∉ common ↔ name ∈ b ∧ name ∉ common := by
    refine forall_congr' ?_
    intro name
    rw [isCommon_eq_false_iff, and_congr_left_iff]
  exact ⟨⟨own a, rfl, hascending, hmem⟩, header_eq_iff.trans hsame, header_header a,
    requireCommon_header path a⟩

/-- A letter outside of ASCII comes after all within, and a name that starts like
another comes after it. -/
example : header ["é", "z", "cpu", "ab", "a", "z"] = common ++ ["a", "ab", "z", "é"] := by
  decide +kernel

end Columns

end ReportStore
