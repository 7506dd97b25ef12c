import DistSys.Schemes.GoString
import Mathlib.Data.Int.Notation
import Mathlib.Order.Defs.LinearOrder

/-! @scheme strconv | family:machine-integers | round-trip:decimal

    The 64-bit integers of Go. What an operation leaves is its result without a bound, wrapped
    around; a decimal text is read only if the number fits.

        wrap        2⁶³ - 1 + 1  ──▶  -2⁶³
        formatInt   -7           ──▶  "-7"
        parseInt    "-7" ──▶ -7    "+7", "07" ──▶ 7    "7.0", "", "9223372036854775808" ──▶ none -/

namespace DistSys.Strconv
open GoString (itoa atoi atoi_itoa itoa_digits itoa_ne_nil itoa_cons IsDigit)

/-! ### Machine integers -/

/-- The values of an `int`. -/
def Fits (z : ℤ) : Prop := -2 ^ 63 ≤ z ∧ z < 2 ^ 63

instance decidableFits : DecidablePred Fits := fun z =>
  inferInstanceAs (Decidable (-2 ^ 63 ≤ z ∧ z < 2 ^ 63))

/-- The `int` that is left of a result without a bound. -/
def wrap (z : ℤ) : ℤ := z.bmod (2 ^ 64)

theorem wrap_of_fits {z : ℤ} (h : Fits z) : wrap z = z :=
  Int.bmod_eq_of_le (by have := h.1; omega) (by have := h.2; omega)

theorem fits_wrap (z : ℤ) : Fits (wrap z) := by
  have hlow : -(((2 ^ 64 : ℕ) : ℤ) / 2) ≤ z.bmod (2 ^ 64) := Int.le_bmod (by decide)
  have hhigh : z.bmod (2 ^ 64) < (((2 ^ 64 : ℕ) : ℤ) + 1) / 2 := Int.bmod_lt (by decide)
  rw [Fits, wrap]
  omega

theorem wrap_emod (z : ℤ) : wrap z % 2 ^ 64 = z % 2 ^ 64 := Int.bmod_emod

theorem fits_natCast {n : ℕ} (h : n < 2 ^ 63) : Fits n := ⟨by omega, by omega⟩

instance instLinearOrderInt64 : LinearOrder Int64 where
  le_refl := Int64.le_refl
  le_trans _ _ _ := Int64.le_trans
  lt_iff_le_not_ge a b := by simp only [Int64.lt_iff_toInt_lt, Int64.le_iff_toInt_le]; omega
  le_antisymm _ _ := Int64.le_antisymm
  le_total := Int64.le_total
  toDecidableLE := inferInstance
  toDecidableLT := inferInstance
  toDecidableEq := inferInstance

theorem fits_toInt (z : Int64) : Fits z.toInt := ⟨z.le_toInt, z.toInt_lt⟩

theorem toInt_ofInt {z : ℤ} (h : Fits z) : (Int64.ofInt z).toInt = z :=
  Int64.toInt_ofInt_of_le h.1 h.2

theorem ofInt_inj {y z : ℤ} (hy : Fits y) (hz : Fits z) (h : Int64.ofInt y = Int64.ofInt z) :
    y = z := by
  rw [← toInt_ofInt hy, h, toInt_ofInt hz]

/-! ### Decimal texts -/

/-- `FormatInt(z, 10)`. -/
def formatInt : ℤ → GoString
  | .ofNat n => itoa n
  | .negSucc n => 0x2D :: itoa (n + 1)

/-- Digits, and at least one. -/
def parseDigits (text : GoString) : Option ℕ :=
  if !text.isEmpty && text.all (fun b => IsDigit b) then some (atoi text) else none

/-- `ParseUint(text, 10, 64)`; none on an error. -/
def parseUint (text : GoString) : Option ℕ := (parseDigits text).filter fun n => n < 2 ^ 64

/-- A sign may stand before the digits. -/
def parseSigned : GoString → Option ℤ
  | 0x2D :: text => (parseDigits text).map fun n => -(n : ℤ)
  | 0x2B :: text => (parseDigits text).map fun n => (n : ℤ)
  | text => (parseDigits text).map fun n => (n : ℤ)

/-- `ParseInt(text, 10, 64)`; none on an error. -/
def parseInt (text : GoString) : Option ℤ := (parseSigned text).filter fun z => Fits z

theorem parseDigits_itoa (n : ℕ) : parseDigits (itoa n) = some n := by
  have hdigits : (!(itoa n).isEmpty && (itoa n).all fun b => IsDigit b) = true := by
    simpa [itoa_ne_nil n] using itoa_digits n
  rw [parseDigits, if_pos hdigits, atoi_itoa]

theorem parseUint_itoa {n : ℕ} (h : n < 2 ^ 64) : parseUint (itoa n) = some n := by
  rw [parseUint, parseDigits_itoa, Option.filter_some, if_pos (by simpa using h)]

theorem parseSigned_itoa (n : ℕ) : parseSigned (itoa n) = some (n : ℤ) := by
  obtain ⟨b, s, hitoa, hb, -⟩ := itoa_cons n
  have hminus : b ≠ 0x2D := by rintro rfl; exact absurd hb (by decide)
  have hplus : b ≠ 0x2B := by rintro rfl; exact absurd hb (by decide)
  have hparse := parseDigits_itoa n
  rw [hitoa] at hparse ⊢
  simp [parseSigned, hminus, hplus, hparse]

theorem parseSigned_formatInt (z : ℤ) : parseSigned (formatInt z) = some z := by
  cases z with
  | ofNat n => exact parseSigned_itoa n
  | negSucc n =>
    rw [formatInt, parseSigned, parseDigits_itoa]
    rfl

/-- A number is read back if it fits. -/
theorem parseInt_formatInt {z : ℤ} (h : Fits z) : parseInt (formatInt z) = some z := by
  rw [parseInt, parseSigned_formatInt, Option.filter_some, if_pos (decide_eq_true h)]

theorem formatInt_injective {y z : ℤ} (h : formatInt y = formatInt z) : y = z := by
  have hparse := congrArg parseSigned h
  rwa [parseSigned_formatInt, parseSigned_formatInt, Option.some.injEq] at hparse

example : parseInt (.lit "+7") = some 7 ∧ parseInt (.lit "9223372036854775808") = none ∧
    parseInt (.lit "-9223372036854775808") = some (-2 ^ 63) := by decide +kernel

end DistSys.Strconv
