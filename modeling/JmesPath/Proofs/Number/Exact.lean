import JmesPath.Json.Basic
import JmesPath.Proofs.Number.Rounding
import Mathlib.Algebra.Order.Field.Rat
import Mathlib.Tactic.NormNum.Pow

/-! # The exact values of numbers

* `Binary64.value?`, `Json.Number.value?` — the rational number that a number stands for
* `Json.Number.Exact` — a number of a document that is a binary64 number
* `value?_toBinary64` — such a number is read without rounding
* `ofNumber_eq` — what becomes of a number that is written to a document: one value is
  missed, and all others are kept
-/

namespace JmesPath

namespace Binary64

/-- The rational number that a finite number stands for. -/
def value? : Binary64 → Option ℚ
  | .finite negative m _ => some ((signed negative m : ℤ) / (one : ℕ))
  | _ => none

theorem one_cast_ne_zero : ((one : ℕ) : ℚ) ≠ 0 := Nat.cast_ne_zero.2 (Nat.ne_of_gt one_pos)

theorem value?_eq_some {x : Binary64} {v : ℚ} (h : x.value? = some v) :
    ∃ negative m, ∃ fits : Representable m,
      x = .finite negative m fits ∧ v = (signed negative m : ℤ) / (one : ℕ) := by
  cases x with
  | nan | infinity => cases h
  | finite negative m fits => exact ⟨negative, m, fits, rfl, (Option.some.inj h).symm⟩

theorem natAbs_signed (negative : Bool) (m : ℕ) : (signed negative m).natAbs = m := by
  cases negative <;> simp [signed]

/-- A number of ones as the sign and the magnitude of an integer. -/
theorem signed_natAbs (i : ℤ) (k : ℕ) :
    signed (decide (i < 0)) (i.natAbs * k) = i * k := by
  by_cases h : i < 0
  · simp only [signed, h, decide_true, if_true]
    push_cast
    rw [abs_of_neg h, neg_mul, neg_neg]
  · simp only [signed, h, decide_false, Bool.false_eq_true, if_false]
    push_cast
    rw [abs_of_nonneg (not_lt.1 h)]

theorem signed_mul (negative : Bool) (m k : ℕ) :
    signed negative (m * k) = signed negative m * k := by
  cases negative <;> simp [signed]

/-- An integer that is a binary64 number is read without rounding. -/
theorem value?_ofInt {i : ℤ} (h : ∃ x : Binary64, x.value? = some (i : ℚ)) :
    (ofInt i).value? = some (i : ℚ) := by
  obtain ⟨x, hx⟩ := h
  obtain ⟨negative, m, fits, -, hvalue⟩ := value?_eq_some hx
  have hunits : signed negative m = i * one := by
    rw [eq_div_iff one_cast_ne_zero] at hvalue
    exact_mod_cast hvalue.symm
  have hm : m = i.natAbs * one := by
    rw [← natAbs_signed negative m, hunits, Int.natAbs_mul, Int.natAbs_natCast]
  have hnearest : nearest (i.natAbs * one) 1 = i.natAbs * one :=
    nearest_of_representable (hm ▸ fits)
  have hfits : Representable (nearest (i.natAbs * one) 1) := by rwa [hnearest, ← hm]
  rw [ofInt, ofRatio, ofUnits_eq _ hfits, value?, hnearest, signed_natAbs]
  push_cast
  rw [mul_div_cancel_right₀ _ one_cast_ne_zero]

end Binary64

open Binary64

/-- The rational number that a number of a document stands for. -/
def Json.Number.value? : Json.Number → Option ℚ
  | .integer i => some i
  | .float x => x.value?

/-- A number of a document stands for the same rational number as a binary64 number. -/
def Json.Number.Exact (n : Json.Number) : Prop :=
  ∃ (v : ℚ) (x : Binary64), n.value? = some v ∧ x.value? = some v

theorem exact_integer {i : ℤ} (h : Representable (i.natAbs * one)) :
    (Json.Number.integer i).Exact := by
  refine ⟨i, .finite (decide (i < 0)) _ h, rfl, ?_⟩
  rw [Binary64.value?, signed_natAbs]
  push_cast
  rw [mul_div_cancel_right₀ _ one_cast_ne_zero]

theorem exact_float {x : Binary64} (h : x.isFinite) : (Json.Number.float x).Exact := by
  cases x with
  | nan | infinity => cases h
  | finite negative m fits => exact ⟨_, .finite negative m fits, rfl, rfl⟩

/-- A number that is a binary64 number is read without rounding. -/
theorem value?_toBinary64 {n : Json.Number} (h : n.Exact) : n.toBinary64.value? = n.value? := by
  obtain ⟨v, x, hn, hx⟩ := h
  cases n with
  | integer i =>
    cases hn
    exact value?_ofInt ⟨x, hx⟩
  | float y => rfl

/-- The bound of the 64 bits with a sign.  It is a binary64 number itself, but no integer of
    64 bits with a sign. -/
def signedBound : ℚ := 2 ^ 63

/-- The value that a document has for a value: the largest integer of 64 bits with a sign in
    place of the bound that lies one above it, and every other value as it is. -/
def documentValue (v : ℚ) : ℚ := if v = signedBound then signedBound - 1 else v

theorem documentValue_eq_iff (v : ℚ) : documentValue v = v ↔ v ≠ signedBound := by
  unfold documentValue
  split
  · next h =>
    subst h
    simp
  · next h => exact iff_of_true rfl h

/-- Integers up to the bound become integers. -/
theorem documentValue_intCast {i : ℤ} (h : i.natAbs ≤ 1 <<< 63) :
    documentValue i = ((min i Int64.maxValue.toInt : ℤ) : ℚ) := by
  have hmax : Int64.maxValue.toInt = 2 ^ 63 - 1 := by decide
  have hle : i ≤ 2 ^ 63 := by
    have : (1 : ℕ) <<< 63 = 2 ^ 63 := by decide
    omega
  rw [hmax]
  unfold documentValue
  split
  · next heq =>
    have hi : i = 2 ^ 63 := by
      unfold signedBound at heq
      exact_mod_cast heq
    rw [hi, min_eq_right (by omega)]
    norm_num [signedBound]
  · next hne =>
    have hi : i ≠ 2 ^ 63 := by
      rintro rfl
      exact hne (by norm_num [signedBound])
    rw [min_eq_left (by omega)]

/-- A finite number becomes a number of the document. -/
theorem ofNumber_eq {x : Binary64} {v : ℚ} (h : x.value? = some v) :
    ∃ n : Json.Number, Json.ofNumber x = .number n ∧ n.value? = some (documentValue v) := by
  obtain ⟨negative, m, fits, rfl, hv⟩ := value?_eq_some h
  have hfloat (hne : v ≠ signedBound) :
      (Json.Number.float (.finite negative m fits)).value? = some (documentValue v) := by
    rw [(documentValue_eq_iff v).2 hne]
    exact h
  by_cases hwhole : m % one = 0
  · have hinteger : (Binary64.finite negative m fits).integer? = some (signed negative (m / one)) :=
      if_pos hwhole
    have hvalue : v = (signed negative (m / one) : ℤ) := by
      rw [hv, div_eq_iff one_cast_ne_zero]
      have hunits := signed_mul negative (m / one) one
      rw [Nat.div_mul_cancel (Nat.dvd_of_mod_eq_zero hwhole)] at hunits
      exact_mod_cast hunits
    simp only [Json.ofNumber, hinteger]
    split
    · next hle =>
      refine ⟨_, rfl, ?_⟩
      rw [hvalue, documentValue_intCast hle, Json.Number.value?]
    · next hgt =>
      refine ⟨_, rfl, hfloat fun heq => hgt ?_⟩
      have hbound : signed negative (m / one) = 2 ^ 63 := by
        rw [hvalue, signedBound] at heq
        exact_mod_cast heq
      rw [hbound]
      decide
  · have hinteger : (Binary64.finite negative m fits).integer? = none := if_neg hwhole
    simp only [Json.ofNumber, hinteger]
    refine ⟨_, rfl, hfloat fun heq => hwhole ?_⟩
    -- The bound is a whole number of ones.
    have hunits : signed negative m = 2 ^ 63 * one := by
      rw [hv, signedBound, div_eq_iff one_cast_ne_zero] at heq
      exact_mod_cast heq
    rw [← natAbs_signed negative m, hunits, Int.natAbs_mul, Int.natAbs_natCast]
    exact Nat.mul_mod_left _ _

end JmesPath
