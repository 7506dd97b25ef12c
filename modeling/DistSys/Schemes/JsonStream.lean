import DistSys.Schemes.Json

/-! @scheme json | scan:stream | stable:append

    A stream of JSON values, read one after the other. Reading a value takes at least one byte off
    the front, and what has been read stays what it is when more bytes follow. Only a number needs a
    byte after it, since more digits may come.

        s   = │ value │ rest │
        s·t = │ value │ rest │ t │ -/

namespace DistSys.Json

/-! ### White space and tokens -/

theorem skipSpace_append {s : GoString} {c : UInt8} {r : GoString}
    (h : skipSpace s = c :: r) (t : GoString) : skipSpace (s ++ t) = c :: (r ++ t) := by
  induction s with
  | nil => simp [skipSpace] at h
  | cons b s ih =>
    rw [skipSpace] at h
    rw [List.cons_append, skipSpace]
    split at h
    · rename_i hb
      rw [if_pos hb]
      exact ih h
    · rename_i hb
      cases h
      rw [if_neg hb]

theorem length_skipSpace (s : GoString) : (skipSpace s).length ≤ s.length := by
  induction s with
  | nil => exact Nat.le_refl _
  | cons b s ih =>
    rw [skipSpace]
    split
    · exact Nat.le_succ_of_le ih
    · exact Nat.le_refl _

theorem length_of_skipSpace {s r : GoString} {c : UInt8} (h : skipSpace s = c :: r) :
    r.length < s.length := by
  have := length_skipSpace s
  rw [h, List.length_cons] at this
  exact this

theorem ne_nil_of_skipSpace {s r : GoString} {c : UInt8} (h : skipSpace s = c :: r) : s ≠ [] := by
  rintro rfl
  cases h

theorem expect_iff {p s rest : GoString} : expect p s = some rest ↔ s = p ++ rest := by
  rw [expect]
  constructor
  · intro h
    split at h
    · rename_i hp
      obtain ⟨u, rfl⟩ := hp
      simpa using h
    · cases h
  · rintro rfl
    simp

theorem token_iff {b : UInt8} {s rest : GoString} : expect [b] (skipSpace s) = some rest ↔
    skipSpace s = b :: rest := expect_iff

theorem token_none {b c : UInt8} {s r : GoString} (h : skipSpace s = c :: r) (hne : c ≠ b) :
    expect [b] (skipSpace s) = none := by
  rw [Option.eq_none_iff_forall_not_mem]
  intro rest hrest
  rw [Option.mem_def, token_iff, h] at hrest
  exact hne (List.cons_eq_cons.mp hrest).1

theorem token_none_append {b : UInt8} {s : GoString} (h : expect [b] (skipSpace s) = none)
    (hs : skipSpace s ≠ []) (t : GoString) : expect [b] (skipSpace (s ++ t)) = none := by
  obtain ⟨c, r, hcr⟩ := List.exists_cons_of_ne_nil hs
  refine token_none (skipSpace_append hcr t) ?_
  rintro rfl
  rw [token_iff.mpr hcr] at h
  cases h

/-! ### Strings -/

theorem scanString_stable {st : StrState} {s raw rest : GoString}
    (h : scanString st s = some (raw, rest)) : rest.length < s.length ∧ ∀ t,
      scanString st (s ++ t) = some (raw, rest ++ t) := by
  induction s generalizing st raw with
  | nil => simp [scanString] at h
  | cons b s ih =>
    rw [scanString] at h
    split at h
    · rename_i hb
      cases h
      exact ⟨Nat.lt_succ_self _, fun t => by rw [List.cons_append, scanString, if_pos hb]⟩
    · rename_i hb
      obtain ⟨st', hnext, h⟩ := Option.bind_eq_some_iff.mp h
      obtain ⟨⟨raw', rest'⟩, hscan, heq⟩ := Option.map_eq_some_iff.mp h
      cases heq
      obtain ⟨hlen, happ⟩ := ih hscan
      refine ⟨Nat.lt_succ_of_lt hlen, ?_⟩
      intro t
      rw [List.cons_append, scanString, if_neg hb, hnext, Option.bind_some, happ]
      rfl

theorem stringLit_stable {s str rest : GoString} (h : stringLit s = some (str, rest)) :
    rest.length < s.length ∧ ∀ t, stringLit (s ++ t) = some (str, rest ++ t) := by
  obtain ⟨⟨raw, rest'⟩, hscan, h⟩ := Option.bind_eq_some_iff.mp h
  obtain ⟨str', hun, heq⟩ := Option.map_eq_some_iff.mp h
  cases heq
  obtain ⟨hlen, happ⟩ := scanString_stable hscan
  refine ⟨hlen, fun t => ?_⟩
  rw [stringLit, happ, Option.bind_some, hun]
  rfl

/-! ### Numbers -/

/-- A reader of part of a number: it never gives bytes back, and a byte left over protects it. -/
def Part (f : GoString → Option GoString) : Prop :=
  ∀ s rest, f s = some rest → rest.length ≤ s.length ∧
    (rest ≠ [] → ∀ t, f (s ++ t) = some (rest ++ t))

theorem Part.bind {f g : GoString → Option GoString} (hf : Part f) (hg : Part g) :
    Part fun s => (f s).bind g := fun s rest h => by
  obtain ⟨r, hr, hrest⟩ := Option.bind_eq_some_iff.mp h
  obtain ⟨hlen, happ⟩ := hf s r hr
  obtain ⟨hlen', happ'⟩ := hg r rest hrest
  refine ⟨hlen'.trans hlen, fun hne t => ?_⟩
  have hr_ne : r ≠ [] := by
    rintro rfl
    exact hne (List.eq_nil_of_length_eq_zero (Nat.le_zero.mp hlen'))
  show (f (s ++ t)).bind g = _
  rw [happ hr_ne, Option.bind_some, happ' hne]

theorem digits1_stable {s ds rest : GoString} (h : digits1 s = some (ds, rest)) :
    rest.length < s.length ∧ (rest ≠ [] → ∀ t, digits1 (s ++ t) = some (ds, rest ++ t)) := by
  rw [digits1, List.span_eq_takeWhile_dropWhile] at h
  split at h
  · cases h
  · rename_i hds
    cases h
    have hlen : (s.takeWhile isDigit).length + (s.dropWhile isDigit).length = s.length := by
      rw [← List.length_append, List.takeWhile_append_dropWhile]
    have hpos : 0 < (s.takeWhile isDigit).length := List.length_pos_iff.mpr (by simpa using hds)
    refine ⟨by omega, fun hne t => ?_⟩
    have hpos' : 0 < (s.dropWhile isDigit).length := List.length_pos_iff.mpr hne
    have htake : (s ++ t).takeWhile isDigit = s.takeWhile isDigit := by
      rw [List.takeWhile_append, if_neg (by omega)]
    have hdrop : (s ++ t).dropWhile isDigit = s.dropWhile isDigit ++ t := by
      rw [List.dropWhile_append, if_neg (by simpa using hne)]
    rw [digits1, List.span_eq_takeWhile_dropWhile, htake, hdrop, if_neg hds]

theorem part_digits : Part fun s => (digits1 s).map (·.2) := fun s rest h => by
  obtain ⟨⟨ds, r⟩, hds, rfl⟩ := Option.map_eq_some_iff.mp h
  obtain ⟨hlen, happ⟩ := digits1_stable hds
  refine ⟨hlen.le, fun hne t => ?_⟩
  dsimp only at hne ⊢
  rw [happ hne]
  rfl

theorem part_sign : Part fun s => some ((expect [0x2D] s).getD s) := fun s rest h => by
  cases s with
  | nil =>
    cases h
    exact ⟨Nat.le_refl _, fun hne => absurd rfl hne⟩
  | cons c s =>
    rcases eq_or_ne c 0x2D with rfl | hc
    · have hexpect : ∀ u, expect [0x2D] (0x2D :: u) = some u := fun u => expect_cons u 0x2D
      simp only [hexpect, Option.getD_some, Option.some.injEq, List.cons_append] at h ⊢
      subst h
      exact ⟨Nat.le_succ _, fun _ _ => rfl⟩
    · have hexpect : ∀ u, expect [0x2D] (c :: u) = none := fun u => by simp [expect, hc.symm]
      simp only [hexpect, Option.getD_none, Option.some.injEq, List.cons_append] at h ⊢
      subst h
      exact ⟨Nat.le_refl _, fun _ _ => rfl⟩

theorem part_integer : Part integer := fun s rest h => by
  cases s with
  | nil => cases h
  | cons b s =>
    rw [integer] at h
    split at h
    · rename_i hb
      cases h
      exact ⟨Nat.le_succ _, fun _ t => by rw [List.cons_append, integer, if_pos hb]⟩
    · rename_i hb
      obtain ⟨hlen, happ⟩ := part_digits (b :: s) rest h
      exact ⟨hlen, fun hne t => by rw [List.cons_append, integer, if_neg hb]; exact happ hne t⟩

theorem length_integer {s rest : GoString} (h : integer s = some rest) :
    rest.length < s.length := by
  cases s with
  | nil => cases h
  | cons b s =>
    rw [integer] at h
    split at h
    · cases h
      exact Nat.lt_succ_self _
    · obtain ⟨⟨ds, r⟩, hds, rfl⟩ := Option.map_eq_some_iff.mp h
      exact (digits1_stable hds).1

theorem part_fraction : Part fraction := fun s rest h => by
  cases s with
  | nil =>
    cases h
    exact ⟨Nat.le_refl _, fun hne => absurd rfl hne⟩
  | cons b s =>
    rcases eq_or_ne b 0x2E with rfl | hb
    · obtain ⟨hlen, happ⟩ := part_digits s rest h
      exact ⟨Nat.le_succ_of_le hlen, happ⟩
    · have heq : ∀ u, fraction (b :: u) = some (b :: u) := fun u => by simp [fraction, hb]
      rw [heq] at h
      cases h
      exact ⟨Nat.le_refl _, fun _ t => heq _⟩

theorem part_exponent : Part exponent := fun s rest h => by
  cases s with
  | nil =>
    cases h
    exact ⟨Nat.le_refl _, fun hne => absurd rfl hne⟩
  | cons e s =>
    simp only [exponent, List.cons_append] at h ⊢
    split at h
    · rename_i he
      simp only [if_pos he]
      cases s with
      | nil => cases h
      | cons g s =>
        simp only [List.cons_append]
        rcases em (g = 0x2B ∨ g = 0x2D) with hg | hg
        · simp only [if_pos hg] at h ⊢
          obtain ⟨hlen, happ⟩ := part_digits s rest h
          exact ⟨Nat.le_succ_of_le (Nat.le_succ_of_le hlen), happ⟩
        · simp only [if_neg hg] at h ⊢
          obtain ⟨hlen, happ⟩ := part_digits (g :: s) rest h
          exact ⟨Nat.le_succ_of_le hlen, happ⟩
    · rename_i he
      cases h
      exact ⟨Nat.le_refl _, fun _ t => if_neg he⟩

theorem number_stable {s text rest : GoString} (h : number s = some (text, rest)) :
    rest.length < s.length ∧ (rest ≠ [] → ∀ t, number (s ++ t) = some (text, rest ++ t)) := by
  have hpart := (part_sign.bind part_integer).bind (part_fraction.bind part_exponent)
  rw [number_eq] at h
  obtain ⟨rest', hread, heq⟩ := Option.map_eq_some_iff.mp h
  cases heq
  obtain ⟨-, happ⟩ := hpart s rest hread
  obtain ⟨r, hint, htail⟩ := Option.bind_eq_some_iff.mp hread
  have hsign := (part_sign s _ rfl).1
  have hlen := length_integer hint
  have hlen' := (part_fraction.bind part_exponent r rest htail).1
  refine ⟨by omega, fun hne t => ?_⟩
  have htext :
      (s ++ t).take ((s ++ t).length - (rest ++ t).length) = s.take (s.length - rest.length) := by
    rw [List.length_append, List.length_append, Nat.add_sub_add_right,
      List.take_append_of_le_length (by omega)]
  rw [number_eq]
  exact Option.map_eq_some_iff.mpr ⟨rest ++ t, happ hne t, by rw [htext]⟩

/-! ### Values -/

/-- A value of which the first byte is known. -/
def valueAt (d n : ℕ) (c : UInt8) (s : GoString) : Option (Value × GoString) :=
  if c = 0x7B then
    if d = 0 then none
    else match expect [0x7D] (skipSpace s) with
      | some rest => some (.object [], rest)
      | none => (members (d - 1) n s).map fun p => (.object p.1, p.2)
  else if c = 0x5B then
    if d = 0 then none
    else match expect [0x5D] (skipSpace s) with
      | some rest => some (.array [], rest)
      | none => (elements (d - 1) n s).map fun p => (.array p.1, p.2)
  else if c = 0x22 then (stringLit s).map fun p => (.string p.1, p.2)
  else if c = 0x74 then (expect (GoString.lit "rue") s).map fun rest => (.bool true, rest)
  else if c = 0x66 then (expect (GoString.lit "alse") s).map fun rest => (.bool false, rest)
  else if c = 0x6E then (expect (GoString.lit "ull") s).map fun rest => (.null, rest)
  else (number (c :: s)).map fun p => (.number p.1, p.2)

theorem value_eq {d n : ℕ} {c : UInt8} {s r : GoString} (h : skipSpace s = c :: r) :
    value d (n + 1) s = valueAt d n c r := by
  rw [value, h]
  rfl

theorem skipSpace_of_value {d n : ℕ} {s : GoString} {p : Value × GoString}
    (h : value d n s = some p) : skipSpace s ≠ [] := by
  intro hs
  cases n with
  | zero => simp [value] at h
  | succ n => simp [value, hs] at h

/-- After an item: a comma and more of them, which `f` reads, or the closing bracket. -/
def Continues {α : Type} (f : GoString → Option (List α × GoString)) (close : UInt8)
    (x : α) (s : GoString) (xs : List α) (rest : GoString) : Prop :=
  (∃ s' xs', skipSpace s = 0x2C :: s' ∧ f s' = some (xs', rest) ∧ xs = x :: xs') ∨
  skipSpace s = close :: rest ∧ xs = [x]

section continues
variable {α : Type} {f f' : GoString → Option (List α × GoString)} {close : UInt8}
  {x : α} {s rest : GoString} {xs : List α}

theorem continues_iff (hclose : close ≠ 0x2C) :
    (match expect [0x2C] (skipSpace s) with
      | some s' => (f s').map fun p => (x :: p.1, p.2)
      | none => (expect [close] (skipSpace s)).map fun s' => ([x], s')) = some (xs, rest) ↔
    Continues f close x s xs rest := by
  constructor
  · intro h
    split at h
    · rename_i s' hs'
      obtain ⟨⟨xs', rest'⟩, hxs, heq⟩ := Option.map_eq_some_iff.mp h
      cases heq
      exact Or.inl ⟨s', xs', token_iff.mp hs', hxs, rfl⟩
    · obtain ⟨rest', hs', heq⟩ := Option.map_eq_some_iff.mp h
      cases heq
      exact Or.inr ⟨token_iff.mp hs', rfl⟩
  · rintro (⟨s', xs', hs', hxs, rfl⟩ | ⟨hs', rfl⟩)
    · simp only [token_iff.mpr hs', hxs, Option.map_some]
    · simp only [token_none hs' hclose, token_iff.mpr hs', Option.map_some]

theorem Continues.ne_nil (h : Continues f close x s xs rest) : s ≠ [] := by
  rcases h with ⟨s', xs', hs', -⟩ | ⟨hs', -⟩
  · exact ne_nil_of_skipSpace hs'
  · exact ne_nil_of_skipSpace hs'

theorem Continues.length_lt (h : Continues f close x s xs rest)
    (hf : ∀ s' xs', f s' = some (xs', rest) → rest.length < s'.length) :
    rest.length < s.length := by
  rcases h with ⟨s', xs', hs', hxs, -⟩ | ⟨hs', -⟩
  · exact (hf s' xs' hxs).trans (length_of_skipSpace hs')
  · exact length_of_skipSpace hs'

theorem Continues.append (h : Continues f close x s xs rest) {t : GoString}
    (hf : ∀ s' xs', f s' = some (xs', rest) → f' (s' ++ t) = some (xs', rest ++ t)) :
    Continues f' close x (s ++ t) xs (rest ++ t) := by
  rcases h with ⟨s', xs', hs', hxs, rfl⟩ | ⟨hs', rfl⟩
  · exact Or.inl ⟨s' ++ t, xs', skipSpace_append hs' t, hf s' xs' hxs, rfl⟩
  · exact Or.inr ⟨skipSpace_append hs' t, rfl⟩

end continues

theorem members_iff {d n : ℕ} {s rest : GoString} {ms : List (GoString × Value)} :
    members d (n + 1) s = some (ms, rest) ↔ ∃ s₁ name s₂ s₃ v s₄, skipSpace s = 0x22 :: s₁ ∧
      stringLit s₁ = some (name, s₂) ∧ skipSpace s₂ = 0x3A :: s₃ ∧ value d n s₃ = some (v, s₄) ∧
      Continues (members d n) 0x7D (name, v) s₄ ms rest := by
  rw [members]
  simp only [bind, Option.bind_eq_some_iff, token_iff]
  constructor
  · rintro ⟨⟨name, s₂⟩, ⟨s₁, h₁, h₂⟩, s₃, h₃, ⟨v, s₄⟩, h₄, h⟩
    exact ⟨s₁, name, s₂, s₃, v, s₄, h₁, h₂, h₃, h₄, (continues_iff (by decide)).mp h⟩
  · rintro ⟨s₁, name, s₂, s₃, v, s₄, h₁, h₂, h₃, h₄, h⟩
    exact ⟨(name, s₂), ⟨s₁, h₁, h₂⟩, s₃, h₃, (v, s₄), h₄, (continues_iff (by decide)).mpr h⟩

theorem elements_iff {d n : ℕ} {s rest : GoString} {xs : List Value} :
    elements d (n + 1) s = some (xs, rest) ↔ ∃ v s₁, value d n s = some (v, s₁) ∧
      Continues (elements d n) 0x5D v s₁ xs rest := by
  rw [elements]
  simp only [bind, Option.bind_eq_some_iff]
  constructor
  · rintro ⟨⟨v, s₁⟩, hv, h⟩
    exact ⟨v, s₁, hv, (continues_iff (by decide)).mp h⟩
  · rintro ⟨v, s₁, hv, h⟩
    exact ⟨(v, s₁), hv, (continues_iff (by decide)).mpr h⟩

theorem skipSpace_of_members {d n : ℕ} {s : GoString} {p : List (GoString × Value) × GoString}
    (h : members d n s = some p) : skipSpace s ≠ [] := by
  cases n with
  | zero => simp [members] at h
  | succ n =>
    obtain ⟨s₁, _, _, _, _, _, h₁, -⟩ := members_iff.mp h
    simp [h₁]

theorem skipSpace_of_elements {d n : ℕ} {s : GoString} {p : List Value × GoString}
    (h : elements d n s = some p) : skipSpace s ≠ [] := by
  cases n with
  | zero => simp [elements] at h
  | succ n =>
    obtain ⟨v, s₁, hv, -⟩ := elements_iff.mp h
    exact skipSpace_of_value hv

/-- What reading does, whatever the rounds allowed: bytes are taken off, and more rounds and more
    bytes change nothing. -/
structure Stable (n : ℕ) : Prop where
  value : ∀ d s v rest, Json.value d n s = some (v, rest) → rest.length < s.length ∧
    ((∀ text, v = .number text → rest ≠ []) →
      ∀ n' t, n ≤ n' → Json.value d n' (s ++ t) = some (v, rest ++ t))
  members : ∀ d s ms rest, Json.members d n s = some (ms, rest) → rest.length < s.length ∧
    ∀ n' t, n ≤ n' → Json.members d n' (s ++ t) = some (ms, rest ++ t)
  elements : ∀ d s xs rest, Json.elements d n s = some (xs, rest) → rest.length < s.length ∧
    ∀ n' t, n ≤ n' → Json.elements d n' (s ++ t) = some (xs, rest ++ t)

theorem stable_zero : Stable 0 where
  value := fun _ _ _ _ h => by simp [Json.value] at h
  members := fun _ _ _ _ h => by simp [Json.members] at h
  elements := fun _ _ _ _ h => by simp [Json.elements] at h

theorem Stable.members_succ {n : ℕ} (ih : Stable n) {d : ℕ} {s rest : GoString}
    {ms : List (GoString × Value)} (h : Json.members d (n + 1) s = some (ms, rest)) :
    rest.length < s.length ∧ ∀ n' t, n + 1 ≤ n' →
    Json.members d n' (s ++ t) = some (ms, rest ++ t) := by
  obtain ⟨s₁, name, s₂, s₃, v, s₄, h₁, h₂, h₃, h₄, h⟩ := members_iff.mp h
  have hlen₁ := length_of_skipSpace h₁
  obtain ⟨hlen₂, happ₂⟩ := stringLit_stable h₂
  have hlen₃ := length_of_skipSpace h₃
  obtain ⟨hlen₄, happ₄⟩ := ih.value d s₃ v s₄ h₄
  have hlen := h.length_lt fun s' ms' hms => (ih.members d s' ms' rest hms).1
  refine ⟨by omega, fun n' t hn => ?_⟩
  obtain ⟨n', rfl⟩ := Nat.exists_eq_add_of_le' (show 1 ≤ n' by omega)
  exact members_iff.mpr ⟨_, name, _, _, v, _, skipSpace_append h₁ t, happ₂ t, skipSpace_append h₃ t,
    happ₄ (fun _ _ => h.ne_nil) n' t (by omega),
    h.append fun s' ms' hms => (ih.members d s' ms' rest hms).2 n' t (by omega)⟩

theorem Stable.elements_succ {n : ℕ} (ih : Stable n) {d : ℕ} {s rest : GoString} {xs : List Value}
    (h : Json.elements d (n + 1) s = some (xs, rest)) : rest.length < s.length ∧
    ∀ n' t, n + 1 ≤ n' → Json.elements d n' (s ++ t) = some (xs, rest ++ t) := by
  obtain ⟨v, s₁, hv, h⟩ := elements_iff.mp h
  obtain ⟨hlen₁, happ₁⟩ := ih.value d s v s₁ hv
  have hlen := h.length_lt fun s' xs' hxs => (ih.elements d s' xs' rest hxs).1
  refine ⟨by omega, fun n' t hn => ?_⟩
  obtain ⟨n', rfl⟩ := Nat.exists_eq_add_of_le' (show 1 ≤ n' by omega)
  exact elements_iff.mpr ⟨v, _, happ₁ (fun _ _ => h.ne_nil) n' t (by omega),
    h.append fun s' xs' hxs => (ih.elements d s' xs' rest hxs).2 n' t (by omega)⟩

theorem expect_stable {p s rest : GoString} (h : expect p s = some rest) :
    rest.length ≤ s.length ∧ ∀ t, expect p (s ++ t) = some (rest ++ t) := by
  obtain rfl := expect_iff.mp h
  exact ⟨by simp, fun t => expect_iff.mpr (List.append_assoc _ _ _)⟩

/-- An object or an array: closed at once, or read by what reads its inside. -/
theorem enclosed_stable {b : UInt8} {s rest : GoString} {empty v : Value}
    {o : Option (Value × GoString)} (h : (match expect [b] (skipSpace s) with
      | some r => some (empty, r)
      | none => o) = some (v, rest))
    (ho : o = some (v, rest) → skipSpace s ≠ [] ∧ rest.length ≤ s.length) :
    rest.length ≤ s.length ∧ ∀ t o', (o = some (v, rest) → o' = some (v, rest ++ t)) →
      (match expect [b] (skipSpace (s ++ t)) with
        | some r => some (empty, r)
        | none => o') = some (v, rest ++ t) := by
  split at h
  · rename_i r hr
    cases h
    have hlen := length_of_skipSpace (token_iff.mp hr)
    exact ⟨hlen.le, fun t _ _ => by rw [token_iff.mpr (skipSpace_append (token_iff.mp hr) t)]⟩
  · rename_i hr
    obtain ⟨hs, hlen⟩ := ho h
    exact ⟨hlen, fun t _ ho' => by rw [token_none_append hr hs]; exact ho' h⟩

theorem Stable.object {n : ℕ} (ih : Stable n) {d : ℕ} {s rest : GoString} {v : Value}
    (h : (Json.members d n s).map (fun p => (Value.object p.1, p.2)) = some (v, rest)) :
    (skipSpace s ≠ [] ∧ rest.length ≤ s.length) ∧ ∀ n' t, n ≤ n' →
      (Json.members d n' (s ++ t)).map (fun p => (Value.object p.1, p.2)) =
        some (v, rest ++ t) := by
  obtain ⟨⟨ms, r⟩, hms, heq⟩ := Option.map_eq_some_iff.mp h
  cases heq
  obtain ⟨hlen, happ⟩ := ih.members _ _ _ _ hms
  exact ⟨⟨skipSpace_of_members hms, hlen.le⟩, fun n' t hn => by rw [happ n' t hn]; rfl⟩

theorem Stable.array {n : ℕ} (ih : Stable n) {d : ℕ} {s rest : GoString} {v : Value}
    (h : (Json.elements d n s).map (fun p => (Value.array p.1, p.2)) = some (v, rest)) :
    (skipSpace s ≠ [] ∧ rest.length ≤ s.length) ∧ ∀ n' t, n ≤ n' →
      (Json.elements d n' (s ++ t)).map (fun p => (Value.array p.1, p.2)) =
        some (v, rest ++ t) := by
  obtain ⟨⟨xs, r⟩, hxs, heq⟩ := Option.map_eq_some_iff.mp h
  cases heq
  obtain ⟨hlen, happ⟩ := ih.elements _ _ _ _ hxs
  exact ⟨⟨skipSpace_of_elements hxs, hlen.le⟩, fun n' t hn => by rw [happ n' t hn]; rfl⟩

theorem Stable.valueAt {n : ℕ} (ih : Stable n) {d : ℕ} {c : UInt8} {s rest : GoString} {v : Value}
    (h : Json.valueAt d n c s = some (v, rest)) : rest.length ≤ s.length ∧
    ((∀ text, v = .number text → rest ≠ []) →
      ∀ n' t, n ≤ n' → Json.valueAt d n' c (s ++ t) = some (v, rest ++ t)) := by
  unfold Json.valueAt at h ⊢
  split at h
  · rename_i hc
    obtain ⟨hd, h⟩ := Option.ite_none_left_eq_some.mp h
    simp only [if_pos hc, if_neg hd]
    obtain ⟨hlen, happ⟩ := enclosed_stable h fun ho => (ih.object ho).1
    exact ⟨hlen, fun _ n' t hn => happ t _ fun ho => (ih.object ho).2 n' t hn⟩
  rename_i hobject
  simp only [if_neg hobject]
  split at h
  · rename_i hc
    obtain ⟨hd, h⟩ := Option.ite_none_left_eq_some.mp h
    simp only [if_pos hc, if_neg hd]
    obtain ⟨hlen, happ⟩ := enclosed_stable h fun ho => (ih.array ho).1
    exact ⟨hlen, fun _ n' t hn => happ t _ fun ho => (ih.array ho).2 n' t hn⟩
  rename_i harray
  simp only [if_neg harray]
  split at h
  · rename_i hc
    obtain ⟨⟨str, r⟩, hstr, heq⟩ := Option.map_eq_some_iff.mp h
    cases heq
    obtain ⟨hlen, happ⟩ := stringLit_stable hstr
    exact ⟨hlen.le, fun _ n' t _ => by rw [if_pos hc, happ]; rfl⟩
  rename_i hstring
  simp only [if_neg hstring]
  iterate 3
    split at h
    · rename_i hc
      obtain ⟨r, hr, heq⟩ := Option.map_eq_some_iff.mp h
      cases heq
      obtain ⟨hlen, happ⟩ := expect_stable hr
      exact ⟨hlen, fun _ n' t _ => by simp only [hc, if_true, happ]; rfl⟩
    rename_i hc
    simp only [if_neg hc]
  obtain ⟨⟨text, r⟩, htext, heq⟩ := Option.map_eq_some_iff.mp h
  cases heq
  obtain ⟨hlen, happ⟩ := number_stable htext
  refine ⟨Nat.le_of_lt_succ hlen, fun hrest n' t _ => ?_⟩
  rw [← List.cons_append, happ (hrest text rfl)]
  rfl

theorem stable (n : ℕ) : Stable n := by
  induction n with
  | zero => exact stable_zero
  | succ n ih =>
    refine ⟨fun d s v rest h => ?_, fun _ _ _ _ => ih.members_succ, fun _ _ _ _ => ih.elements_succ⟩
    obtain ⟨c, r, hs⟩ := List.exists_cons_of_ne_nil (skipSpace_of_value h)
    rw [value_eq hs] at h
    obtain ⟨hlen, happ⟩ := ih.valueAt h
    refine ⟨hlen.trans_lt (length_of_skipSpace hs), fun hrest n' t hn => ?_⟩
    obtain ⟨n', rfl⟩ := Nat.exists_eq_add_of_le' (show 1 ≤ n' by omega)
    rw [value_eq (skipSpace_append hs t)]
    exact happ hrest n' t (by omega)

/-- CORRECT: a value takes at least one byte, and is the same when more follows. -/
theorem next_append {s rest : GoString} {v : Value} (h : next s = some (v, rest)) :
    rest.length < s.length ∧
    ((∀ text, v = .number text → rest ≠ []) → ∀ t, next (s ++ t) = some (v, rest ++ t)) := by
  obtain ⟨hlen, happ⟩ := (stable _).value _ _ _ _ h
  exact ⟨hlen, fun hrest t => happ hrest _ t (by simp)⟩

theorem next_none {s : GoString} (h : skipSpace s = []) : next s = none := by
  cases hn : next s with
  | none => rfl
  | some p => exact absurd h (skipSpace_of_value hn)

end DistSys.Json
