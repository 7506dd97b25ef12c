import Mathlib.Data.List.Lex
import Mathlib.Data.Nat.Notation
import Mathlib.Order.Defs.LinearOrder
import Mathlib.Tactic.Ring

/-! @scheme gostring | family:bytes | round-trip:itoa

    A Go string is a sequence of bytes, compared byte by byte. Decimal numbers are printed with the
    digits '0' to '9' only, and no two numbers are printed alike. -/

namespace DistSys

instance instLawfulBEqByte : LawfulBEq UInt8 := inferInstance

instance instLinearOrderByte : LinearOrder UInt8 where
  le_refl := UInt8.le_refl
  le_trans _ _ _ := UInt8.le_trans
  lt_iff_le_not_ge a b := by simp only [UInt8.lt_iff_toNat_lt, UInt8.le_iff_toNat_le]; omega
  le_antisymm _ _ := UInt8.le_antisymm
  le_total := UInt8.le_total
  toDecidableLE := inferInstance
  toDecidableLT := inferInstance
  toDecidableEq := inferInstance

/-- A Go `string`: any bytes, UTF-8 or not. -/
abbrev GoString := List UInt8

namespace GoString

/-- A string literal of the source (ASCII). -/
def lit (s : String) : GoString := s.toList.map fun c => UInt8.ofNat c.toNat

/-- `%d` of a number that is not negative. -/
def itoa (n : ℕ) : GoString := (Nat.toDigits 10 n).map fun c => UInt8.ofNat c.toNat

/-- A decimal digit as a byte. -/
def IsDigit (b : UInt8) : Prop := 48 ≤ b.toNat ∧ b.toNat ≤ 57

instance : DecidablePred IsDigit :=
  fun b => inferInstanceAs (Decidable (48 ≤ b.toNat ∧ b.toNat ≤ 57))

theorem digitChar_byte {d : ℕ} (hd : d < 10) :
    (UInt8.ofNat (Nat.digitChar d).toNat).toNat = 48 + d := by
  revert d; decide

theorem itoa_of_lt {n : ℕ} (h : n < 10) : itoa n = [UInt8.ofNat (Nat.digitChar n).toNat] := by
  rw [itoa, Nat.toDigits_of_lt_base h]; rfl

theorem itoa_of_le {n : ℕ} (h : 10 ≤ n) :
    itoa n = itoa (n / 10) ++ [UInt8.ofNat (Nat.digitChar (n % 10)).toNat] := by
  rw [itoa, itoa, Nat.toDigits_of_base_le (by decide) h, List.map_append]; rfl

theorem itoa_digits (n : ℕ) : ∀ b ∈ itoa n, IsDigit b := by
  induction n using Nat.strongRecOn with
  | ind n ih =>
    intro b hb
    rcases Nat.lt_or_ge n 10 with h | h
    · rw [itoa_of_lt h, List.mem_singleton] at hb
      rw [hb, IsDigit, digitChar_byte h]; omega
    · rw [itoa_of_le h, List.mem_append, List.mem_singleton] at hb
      rcases hb with hb | rfl
      · exact ih (n / 10) (by omega) b hb
      · rw [IsDigit, digitChar_byte (Nat.mod_lt n (by decide))]; omega

theorem itoa_ne_nil (n : ℕ) : itoa n ≠ [] := by simp [itoa]

/-- A number begins with a digit, which is a zero only if it is all there is. -/
theorem itoa_cons (n : ℕ) : ∃ b s, itoa n = b :: s ∧ IsDigit b ∧ (b = 0x30 → n = 0 ∧ s = []) := by
  induction n using Nat.strongRecOn with
  | ind n ih =>
    rcases Nat.lt_or_ge n 10 with h | h
    · have hbyte := digitChar_byte h
      refine ⟨_, [], itoa_of_lt h, by rw [IsDigit, hbyte]; omega, fun hzero => ⟨?_, rfl⟩⟩
      rw [hzero] at hbyte
      have : (0x30 : UInt8).toNat = 48 := rfl
      omega
    · obtain ⟨b, s, hs, hb, hzero⟩ := ih (n / 10) (by omega)
      refine ⟨b, s ++ [_], by rw [itoa_of_le h, hs]; rfl, hb, fun h0 => ?_⟩
      have := (hzero h0).1
      omega

/-- Reading digits back, most significant first. -/
def atoi (s : GoString) : ℕ := s.foldl (fun acc b => acc * 10 + (b.toNat - 48)) 0

theorem atoi_itoa (n : ℕ) : atoi (itoa n) = n := by
  induction n using Nat.strongRecOn with
  | ind n ih =>
    rcases Nat.lt_or_ge n 10 with h | h
    · rw [itoa_of_lt h]; simp only [atoi, List.foldl_cons, List.foldl_nil]
      rw [digitChar_byte h]; omega
    · rw [itoa_of_le h, atoi, List.foldl_append]
      have hrec := ih (n / 10) (by omega)
      rw [atoi] at hrec
      simp only [hrec, List.foldl_cons, List.foldl_nil]
      rw [digitChar_byte (Nat.mod_lt n (by decide))]; omega

theorem itoa_injective {m n : ℕ} (h : itoa m = itoa n) : m = n := by
  rw [← atoi_itoa m, h, atoi_itoa]

/-- Two strings that are digits up to a first byte that is no digit split at the same place. -/
theorem digits_append_inj {a b : GoString} {x y : UInt8} {s t : GoString} (ha : ∀ d ∈ a, IsDigit d)
    (hb : ∀ d ∈ b, IsDigit d) (hx : ¬ IsDigit x) (hy : ¬ IsDigit y)
    (h : a ++ x :: s = b ++ y :: t) :
    a = b ∧ x :: s = y :: t := by
  induction a generalizing b with
  | nil =>
    cases b with
    | nil => exact ⟨rfl, h⟩
    | cons e b =>
      simp only [List.nil_append, List.cons_append, List.cons.injEq] at h
      exact absurd (h.1 ▸ hb e List.mem_cons_self) hx
  | cons d a ih =>
    cases b with
    | nil =>
      simp only [List.nil_append, List.cons_append, List.cons.injEq] at h
      exact absurd (h.1 ▸ ha d List.mem_cons_self) hy
    | cons e b =>
      simp only [List.cons_append, List.cons.injEq] at h
      obtain ⟨hab, hst⟩ := ih (fun z hz => ha z (List.mem_cons_of_mem _ hz))
        (fun z hz => hb z (List.mem_cons_of_mem _ hz)) h.2
      exact ⟨by rw [h.1, hab], hst⟩

end GoString

end DistSys
