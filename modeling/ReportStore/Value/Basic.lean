/-
  ReportStore.Value.Basic
  ───────────────────────
  **RECORDS AND THE VALUES THEY HOLD.**

  A record maps field names to values; a value is a scalar (integer, double,
  text) or again a map.  Two readings of equality live here: the decidable
  equality of the data, and `agrees`, in which doubles compare as numbers.
  `Record.at?` looks a value up by a path of keys.
-/
import ReportStore.Dict
import ReportStore.Number.Binary64

namespace ReportStore

/-- A field value. -/
inductive Value where
  /-- An integer of 64 bits. -/
  | int (n : Int64)
  /-- A double. -/
  | float (x : Binary64)
  /-- A text. -/
  | text (s : String)
  /-- A nested map, in key order. -/
  | map (entries : List (String × Value))

/-- Field names to values. -/
abbrev Record := Dict Value

namespace Value

/-! ## §1. Projections. -/

/-- The nested map, if the value is one. -/
def map? : Value → Option Record
  | .map entries => some entries
  | _ => none

/-- The integer, if the value is one. -/
def int? : Value → Option Int64
  | .int n => some n
  | _ => none

/-- Whether the value is no map. -/
def isScalar : Value → Bool
  | .map _ => false
  | _ => true

/-! ## §2. Equality of the data. -/

mutual

/-- Decides equality of values. -/
def decEq : (a b : Value) → Decidable (a = b)
  | .int m, .int n => decidable_of_iff (m = n) ⟨fun h => h ▸ rfl, fun h => by injection h⟩
  | .float x, .float y => decidable_of_iff (x = y) ⟨fun h => h ▸ rfl, fun h => by injection h⟩
  | .text s, .text t => decidable_of_iff (s = t) ⟨fun h => h ▸ rfl, fun h => by injection h⟩
  | .map d, .map e =>
    match decEqEntries d e with
    | isTrue h => isTrue (h ▸ rfl)
    | isFalse h => isFalse fun heq => h (by injection heq)
  | .int _, .float _ | .int _, .text _ | .int _, .map _ => isFalse nofun
  | .float _, .int _ | .float _, .text _ | .float _, .map _ => isFalse nofun
  | .text _, .int _ | .text _, .float _ | .text _, .map _ => isFalse nofun
  | .map _, .int _ | .map _, .float _ | .map _, .text _ => isFalse nofun

/-- Decides equality of entries. -/
def decEqEntries : (d e : List (String × Value)) → Decidable (d = e)
  | [], [] => isTrue rfl
  | [], _ :: _ => isFalse nofun
  | _ :: _, [] => isFalse nofun
  | (k, v) :: d, (k', v') :: e =>
    if hk : k = k' then
      match decEq v v', decEqEntries d e with
      | isTrue hv, isTrue hd => isTrue (by rw [hk, hv, hd])
      | isFalse hv, _ => isFalse fun h => hv (by injection h with h _; injection h)
      | _, isFalse hd => isFalse fun h => hd (by injection h)
    else isFalse fun h => hk (by injection h with h _; injection h)

end

instance : DecidableEq Value := decEq

/-! ## §3. Equality of the numbers held. -/

mutual

/-- Equality in which doubles compare as numbers: a NaN differs from itself
and the two zeros are equal.  An integer never equals a double. -/
def agrees : Value → Value → Bool
  | .int m, .int n => m == n
  | .float x, .float y => x.agrees y
  | .text s, .text t => s == t
  | .map d, .map e => entriesAgree d e
  | _, _ => false

/-- The same keys with values that agree. -/
def entriesAgree : List (String × Value) → List (String × Value) → Bool
  | [], [] => true
  | (k, v) :: d, (k', v') :: e => k == k' && agrees v v' && entriesAgree d e
  | _, _ => false

end

end Value

/-! ## §4. Paths. -/

/-- The value at a path of keys; the empty path names no value. -/
def Record.at? (r : Record) : List String → Option Value
  | [] => none
  | [k] => Dict.get? r k
  | k :: path =>
    match Dict.get? r k with
    | some (.map nested) => Record.at? nested path
    | _ => none

end ReportStore
