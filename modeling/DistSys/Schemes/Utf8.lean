import DistSys.Schemes.GoString

/-! @scheme utf8 | scan:one rune per round

    UTF-8 as a loop over the runes of a byte string sees it. A round looks at the first byte, which
    says how many continuation bytes follow and in which range the first of them lies; a byte that
    starts no well-formed sequence is a round of its own.

        61 │ C3 A9 │ FF │ E2 80 A8 │ …        some [61], some [C3, A9], none, some [E2, 80, A8], …
                     └ invalid: one byte, read as U+FFFD -/

namespace DistSys.Utf8

/-- U+FFFD, which stands for an invalid byte. -/
def replacement : GoString := [0xEF, 0xBF, 0xBD]

/-- Continuation bytes after a first byte of a longer sequence, with the range of the first of
    them. -/
def lead (a : UInt8) : Option (ℕ × UInt8 × UInt8) :=
  if a < 0xC2 then none
  else if a ≤ 0xDF then some (1, 0x80, 0xBF)
  else if a = 0xE0 then some (2, 0xA0, 0xBF)
  else if a = 0xED then some (2, 0x80, 0x9F)
  else if a ≤ 0xEF then some (2, 0x80, 0xBF)
  else if a = 0xF0 then some (3, 0x90, 0xBF)
  else if a ≤ 0xF3 then some (3, 0x80, 0xBF)
  else if a = 0xF4 then some (3, 0x80, 0x8F)
  else none

/-- The next `n` bytes continue a sequence, the first of them within `lo` and `hi`. -/
def continues : ℕ → UInt8 → UInt8 → GoString → Bool
  | 0, _, _, _ => true
  | _ + 1, _, _, [] => false
  | n + 1, lo, hi, b :: s => lo ≤ b && b ≤ hi && continues n 0x80 0xBF s

/-- Bytes of the rune at the head beyond the first; `none` when the first byte is invalid. -/
def runeTail : GoString → Option ℕ
  | [] => none
  | a :: s =>
      if a < 0x80 then some 0
      else match lead a with
        | some (n, lo, hi) => if continues n lo hi s then some n else none
        | none => none

/-- The rounds over a string of which the first `k` bytes are already consumed. -/
def runesFrom : ℕ → GoString → List (Option GoString)
  | _, [] => []
  | k + 1, _ :: s => runesFrom k s
  | 0, a :: s =>
      match runeTail (a :: s) with
      | some n => some (a :: s.take n) :: runesFrom n s
      | none => none :: runesFrom 0 s

/-- The runes of a string, `none` for each invalid byte. -/
def runes (s : GoString) : List (Option GoString) := runesFrom 0 s

/-- Every byte belongs to a well-formed sequence. -/
def Valid (s : GoString) : Prop := none ∉ runes s

instance (s : GoString) : Decidable (Valid s) := inferInstanceAs (Decidable (_ ∉ _))

/-- The string with U+FFFD for each invalid byte. -/
def toValid (s : GoString) : GoString := (runes s).flatMap (·.getD replacement)

/-- The bytes of one rune. -/
def IsRune (bs : GoString) : Prop := bs ≠ [] ∧ runeTail bs = some (bs.length - 1)

/-! ### What a rune is -/

theorem continues_length {n : ℕ} {lo hi : UInt8} {s : GoString} (h : continues n lo hi s = true) :
    n ≤ s.length := by
  induction n generalizing lo hi s with
  | zero => exact Nat.zero_le _
  | succ n ih =>
    cases s with
    | nil => simp [continues] at h
    | cons b s =>
      simp only [continues, Bool.and_eq_true] at h
      simpa using ih h.2

/-- Only the `n` bytes matter. -/
theorem continues_take {n : ℕ} {lo hi : UInt8} {s t : GoString} (h : continues n lo hi s = true) :
    continues n lo hi (s.take n ++ t) = true := by
  induction n generalizing lo hi s with
  | zero => rfl
  | succ n ih =>
    cases s with
    | nil => simp [continues] at h
    | cons b s =>
      simp only [continues, Bool.and_eq_true] at h
      simp only [List.take_succ_cons, List.cons_append, continues, Bool.and_eq_true]
      exact ⟨h.1, ih h.2⟩

theorem le_of_continues {n : ℕ} {lo hi : UInt8} {s : GoString} (h : continues n lo hi s = true)
    (hlo : 0x80 ≤ lo) : ∀ b ∈ s.take n, 0x80 ≤ b := by
  induction n generalizing lo hi s with
  | zero =>
    intro b hb
    simp at hb
  | succ n ih =>
    intro b hb
    cases s with
    | nil => simp [continues] at h
    | cons a s =>
      simp only [continues, Bool.and_eq_true, decide_eq_true_eq] at h
      rcases List.mem_cons.mp hb with rfl | hb
      · exact hlo.trans h.1.1
      · exact ih h.2 (le_refl _) b hb

theorem lead_bounds {a lo hi : UInt8} {n : ℕ} (h : lead a = some (n, lo, hi)) :
    0 < n ∧ 0x80 ≤ lo := by
  rw [lead] at h
  split at h
  · simp at h
  iterate 7
    split at h
    · cases h; exact ⟨by decide, by decide⟩
  simp at h

theorem runeTail_append {a : UInt8} {s : GoString} {n : ℕ}
    (h : runeTail (a :: s) = some n) (t : GoString) :
    n ≤ s.length ∧ runeTail (a :: (s.take n ++ t)) = some n := by
  simp only [runeTail] at h ⊢
  split at h
  · cases h; simp_all
  · rename_i hge
    rw [if_neg hge]
    cases hl : lead a with
    | none => simp [hl] at h
    | some p =>
      obtain ⟨m, lo, hi⟩ := p
      simp only [hl] at h ⊢
      split at h
      · rename_i hc
        cases h
        exact ⟨continues_length hc, by rw [if_pos (continues_take hc)]⟩
      · simp at h

theorem isRune_head {a : UInt8} {s : GoString} {n : ℕ} (h : runeTail (a :: s) = some n) :
    IsRune (a :: s.take n) := by
  obtain ⟨hle, hr⟩ := runeTail_append h []
  refine ⟨by simp, ?_⟩
  rw [List.append_nil] at hr
  simp [hr, hle]

/-- A rune stays one whatever follows. -/
theorem IsRune.runeTail_append {bs : GoString} (h : IsRune bs) (t : GoString) :
    runeTail (bs ++ t) = some (bs.length - 1) := by
  obtain ⟨hne, hr⟩ := h
  cases bs with
  | nil => exact absurd rfl hne
  | cons a s =>
    have := (Utf8.runeTail_append hr t).2
    simpa using this

/-- A rune is one byte below 0x80, or several bytes from there on. -/
theorem IsRune.bytes {bs : GoString} (h : IsRune bs) :
    (∃ a, a < 0x80 ∧ bs = [a]) ∨ 2 ≤ bs.length ∧ ∀ b ∈ bs, 0x80 ≤ b := by
  obtain ⟨hne, hr⟩ := h
  cases bs with
  | nil => exact absurd rfl hne
  | cons a s =>
    simp only [runeTail] at hr
    split at hr
    · rename_i ha
      refine Or.inl ⟨a, ha, ?_⟩
      simp only [List.length_cons, Nat.add_sub_cancel, Option.some.injEq] at hr
      rw [List.eq_nil_of_length_eq_zero hr.symm]
    · rename_i ha
      cases hl : lead a with
      | none => simp [hl] at hr
      | some p =>
        obtain ⟨n, lo, hi⟩ := p
        obtain ⟨hn, hlo⟩ := lead_bounds hl
        simp only [hl] at hr
        split at hr
        · rename_i hc
          simp only [List.length_cons, Nat.add_sub_cancel, Option.some.injEq] at hr
          refine Or.inr ⟨by simp only [List.length_cons]; omega, fun b hb => ?_⟩
          rcases List.mem_cons.mp hb with rfl | hb
          · exact not_lt.mp ha
          · refine le_of_continues hc hlo b ?_
            rwa [hr, List.take_length]
        · simp at hr

/-! ### The runes of a string -/

theorem isRune_of_mem {k : ℕ} {s bs : GoString} (h : some bs ∈ runesFrom k s) : IsRune bs := by
  induction s generalizing k with
  | nil => simp [runesFrom] at h
  | cons a s ih =>
    cases k with
    | succ k => exact ih h
    | zero =>
      rw [runesFrom] at h
      cases hr : runeTail (a :: s) with
      | some n =>
        simp only [hr, List.mem_cons, Option.some.injEq] at h
        rcases h with rfl | h
        · exact isRune_head hr
        · exact ih h
      | none =>
        simp only [hr, List.mem_cons, reduceCtorEq, false_or] at h
        exact ih h

theorem flatMap_runesFrom {k : ℕ} {s : GoString} (h : none ∉ runesFrom k s) :
    (runesFrom k s).flatMap (·.getD replacement) = s.drop k := by
  induction s generalizing k with
  | nil => simp [runesFrom]
  | cons a s ih =>
    cases k with
    | succ k => exact ih h
    | zero =>
      rw [runesFrom] at h ⊢
      cases hr : runeTail (a :: s) with
      | some n =>
        simp only [hr, List.mem_cons, reduceCtorEq, false_or] at h
        simp [ih h]
      | none => simp [hr] at h

/-- A valid string is what it was. -/
theorem toValid_of_valid {s : GoString} (h : Valid s) : toValid s = s := flatMap_runesFrom h

/-- Each invalid byte becomes three. -/
theorem length_flatMap_runesFrom (k : ℕ) (s : GoString) :
    ((runesFrom k s).flatMap (·.getD replacement)).length =
      (s.drop k).length + 2 * (runesFrom k s).count none := by
  induction s generalizing k with
  | nil => simp [runesFrom]
  | cons a s ih =>
    cases k with
    | succ k => exact ih k
    | zero =>
      rw [runesFrom]
      cases hr : runeTail (a :: s) with
      | some n =>
        have hle := (runeTail_append hr []).1
        simp only [List.flatMap_cons, List.length_append, ih n, Option.getD_some, List.length_cons,
          List.length_take, List.length_drop, List.drop_zero,
          List.count_cons_of_ne (Option.some_ne_none _)]
        omega
      | none =>
        have hlen : replacement.length = 3 := rfl
        simp only [List.flatMap_cons, List.length_append, ih 0, hlen,
          Option.getD_none, List.drop_zero, List.length_cons, List.count_cons_self]
        omega

/-- Only a valid string is what it was. -/
theorem toValid_eq_iff {s : GoString} : toValid s = s ↔ Valid s := by
  refine ⟨fun h => ?_, toValid_of_valid⟩
  have hlen := length_flatMap_runesFrom 0 s
  rw [← runes, ← toValid, h, List.drop_zero] at hlen
  rw [Valid, ← List.count_eq_zero]
  omega

/-! ### Strings made of runes -/

theorem runesFrom_drop (k : ℕ) (s : GoString) : runesFrom k s = runes (s.drop k) := by
  induction s generalizing k with
  | nil => cases k <;> rfl
  | cons a s ih =>
    cases k with
    | zero => rfl
    | succ k => exact ih k

/-- A rune is the first round, whatever follows. -/
theorem runes_append {bs : GoString} (h : IsRune bs) (t : GoString) :
    runes (bs ++ t) = some bs :: runes t := by
  have hr := h.runeTail_append t
  cases bs with
  | nil => exact absurd rfl h.1
  | cons a s =>
    rw [List.length_cons, Nat.add_sub_cancel, List.cons_append] at hr
    rw [runes, List.cons_append, runesFrom]
    simp only [hr]
    rw [List.take_left, runesFrom_drop, List.drop_left]

theorem runes_flatten {l : List GoString} (h : ∀ bs ∈ l, IsRune bs) :
    runes l.flatten = l.map some := by
  induction l with
  | nil => rfl
  | cons bs l ih =>
    rw [List.flatten_cons, runes_append (h bs List.mem_cons_self),
      ih fun x hx => h x (List.mem_cons_of_mem _ hx), List.map_cons]

theorem valid_flatten {l : List GoString} (h : ∀ bs ∈ l, IsRune bs) : Valid l.flatten := by
  rw [Valid, runes_flatten h]
  simp

/-- A valid string is the runes it is made of. -/
theorem valid_iff_flatten {s : GoString} :
    Valid s ↔ ∃ l : List GoString, (∀ bs ∈ l, IsRune bs) ∧ s = l.flatten := by
  constructor
  · intro h
    have hsome : ∀ r ∈ runes s, r = some (r.getD replacement) := by
      intro r hr
      cases r with
      | none => exact absurd hr h
      | some bs => rfl
    refine ⟨(runes s).map (·.getD replacement), ?_, ?_⟩
    · refine List.forall_mem_map.mpr ?_
      intro r hr
      exact isRune_of_mem (k := 0) (hsome r hr ▸ hr)
    · rw [← List.flatMap_def]
      exact (toValid_of_valid h).symm
  · rintro ⟨l, hl, rfl⟩
    exact valid_flatten hl

theorem Valid.append {s t : GoString} (hs : Valid s) (ht : Valid t) : Valid (s ++ t) := by
  obtain ⟨l, hl, rfl⟩ := valid_iff_flatten.mp hs
  obtain ⟨l', hl', rfl⟩ := valid_iff_flatten.mp ht
  rw [← List.flatten_append]
  refine valid_flatten ?_
  intro bs hbs
  exact (List.mem_append.mp hbs).elim (hl bs) (hl' bs)

theorem IsRune.valid {bs : GoString} (h : IsRune bs) : Valid bs :=
  valid_iff_flatten.mpr ⟨[bs], by simpa using h, by simp⟩

/-- ASCII is valid. -/
theorem valid_of_ascii {s : GoString} (h : ∀ b ∈ s, b < 0x80) : Valid s := by
  refine valid_iff_flatten.mpr ⟨s.map fun b => [b], List.forall_mem_map.mpr ?_, ?_⟩
  swap
  · rw [← List.flatMap_def, List.flatMap_singleton']
  intro b hb
  exact ⟨List.cons_ne_nil b [], by rw [runeTail, if_pos (h b hb)]; rfl⟩

theorem valid_itoa (n : ℕ) : Valid (GoString.itoa n) := by
  refine valid_of_ascii ?_
  intro b hb
  exact UInt8.lt_iff_toNat_lt.mpr (lt_of_le_of_lt (GoString.itoa_digits n b hb).2 (by decide))

end DistSys.Utf8
