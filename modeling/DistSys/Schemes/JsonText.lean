import DistSys.Schemes.JsonStream
import DistSys.Schemes.Strconv

/-! @scheme json | round-trip:values

    Writing a JSON value without any space, and reading it back: whatever the tree, as long as it is
    not nested too deep. Strings come back made valid.

        v ──text──▶ {"a":[1,2],"b":null} ──value──▶ toValid v

    A value takes fewer rounds to read than it has bytes. A text that is one value is decoded into a
    variable: an object into a struct member by member, a number into an integer if it fits. -/

namespace DistSys.Json
open GoString (lit itoa itoa_cons IsDigit)
open Strconv (Fits formatInt parseInt parseInt_formatInt parseUint parseUint_itoa)

/-! ### Writing values -/

mutual

/-- The text of a value. -/
def Value.text : Value → GoString
  | .null => lit "null"
  | .bool b => if b then lit "true" else lit "false"
  | .number text => text
  | .string s => quote s
  | .array xs => 0x5B :: (List.intercalate [0x2C] (texts xs) ++ [0x5D])
  | .object ms => 0x7B :: (List.intercalate [0x2C] (memberTexts ms) ++ [0x7D])

def texts : List Value → List GoString
  | [] => []
  | x :: xs => x.text :: texts xs

def memberTexts : List (GoString × Value) → List GoString
  | [] => []
  | (name, x) :: ms => (quote name ++ 0x3A :: x.text) :: memberTexts ms

end

mutual

/-- The value with all its strings made valid. -/
def Value.toValid : Value → Value
  | .null => .null
  | .bool b => .bool b
  | .number text => .number text
  | .string s => .string (Utf8.toValid s)
  | .array xs => .array (allValid xs)
  | .object ms => .object (membersValid ms)

def allValid : List Value → List Value
  | [] => []
  | x :: xs => x.toValid :: allValid xs

def membersValid : List (GoString × Value) → List (GoString × Value)
  | [] => []
  | (name, x) :: ms => (Utf8.toValid name, x.toValid) :: membersValid ms

end

/-- A text that is read as a number, whatever ends it. -/
structure IsNumber (text : GoString) : Prop where
  head : ∃ b s, text = b :: s ∧ (IsDigit b ∨ b = 0x2D)
  scanned : ∀ c t, Ends c → number (text ++ c :: t) = some (text, c :: t)

/-- Values of numbers that can be read, nested at most `d` deep. -/
inductive Readable : ℕ → Value → Prop
  | null (d : ℕ) : Readable d .null
  | bool (d : ℕ) (b : Bool) : Readable d (.bool b)
  | number (d : ℕ) {text : GoString} (h : IsNumber text) : Readable d (.number text)
  | string (d : ℕ) (s : GoString) : Readable d (.string s)
  | array {d : ℕ} {xs : List Value} (h : ∀ x ∈ xs, Readable d x) : Readable (d + 1) (.array xs)
  | object {d : ℕ} {ms : List (GoString × Value)} (h : ∀ m ∈ ms, Readable d m.2) :
      Readable (d + 1) (.object ms)

/-! ### Numbers -/

theorem isNumber_itoa (n : ℕ) : IsNumber (itoa n) := by
  obtain ⟨b, s, hitoa, hb, -⟩ := itoa_cons n
  exact ⟨⟨b, s, hitoa, Or.inl hb⟩, fun c t hc => number_itoa n hc t⟩

/-- A sign is read before the number. -/
theorem number_neg {text t : GoString} {c : UInt8} (hhead : ∃ b s, text = b :: s ∧ IsDigit b)
    (h : number (text ++ c :: t) = some (text, c :: t)) :
    number (0x2D :: text ++ c :: t) = some (0x2D :: text, c :: t) := by
  obtain ⟨b, s, rfl, hb⟩ := hhead
  have hne : b ≠ 0x2D := by rintro rfl; exact absurd hb (by decide)
  have hplain : expect [0x2D] (b :: s ++ c :: t) = none := by simp [expect, hne.symm]
  have hsign : expect [0x2D] (0x2D :: (b :: s) ++ c :: t) = some (b :: s ++ c :: t) :=
    expect_cons _ _
  rw [number_eq, hplain, Option.getD_none] at h
  rw [number_eq, hsign, Option.getD_some]
  obtain ⟨rest, hread, heq⟩ := Option.map_eq_some_iff.mp h
  obtain ⟨-, rfl⟩ := Prod.ext_iff.mp heq
  have htake : (0x2D :: (b :: s) ++ c :: t).take
      ((0x2D :: (b :: s) ++ c :: t).length - (c :: t).length) = 0x2D :: b :: s := by
    rw [List.length_append, Nat.add_sub_cancel, List.take_left]
  rw [hread, Option.map_some, htake]

theorem isNumber_neg (n : ℕ) : IsNumber (0x2D :: itoa n) := by
  obtain ⟨b, s, hitoa, hb, -⟩ := itoa_cons n
  exact ⟨⟨0x2D, itoa n, rfl, Or.inr rfl⟩,
    fun c t hc => number_neg ⟨b, s, hitoa, hb⟩ (number_itoa n hc t)⟩

/-! ### Items separated by commas -/

theorem intercalate_cons (x : GoString) (xs : List GoString) (hxs : xs ≠ []) :
    List.intercalate [0x2C] (x :: xs) = x ++ 0x2C :: List.intercalate [0x2C] xs := by
  obtain ⟨y, ys, rfl⟩ := List.exists_cons_of_ne_nil hxs
  rw [List.intercalate_cons_cons, List.append_assoc, List.singleton_append]

/-- What a text may start with. -/
def Starts (b : UInt8) : Prop := b ≠ 0x20 ∧ b ≠ 0x09 ∧ b ≠ 0x0A ∧ b ≠ 0x0D ∧ b ≠ 0x5D

instance instDecidableStarts : DecidablePred Starts :=
  fun _ => inferInstanceAs (Decidable (_ ∧ _ ∧ _ ∧ _ ∧ _))

theorem Starts.skipSpace {b : UInt8} (h : Starts b) (s : GoString) :
    Json.skipSpace (b :: s) = b :: s := by
  rw [Json.skipSpace, if_neg]
  simp [h.1, h.2.1, h.2.2.1, h.2.2.2.1]

theorem starts_of_isDigit {b : UInt8} (h : IsDigit b) : Starts b := by
  refine ⟨?_, ?_, ?_, ?_, ?_⟩ <;> (rintro rfl; exact absurd h (by decide))

theorem text_head {d : ℕ} {v : Value} (h : Readable d v) : ∃ b s, v.text = b :: s ∧ Starts b := by
  cases h with
  | null => exact ⟨_, _, rfl, by decide⟩
  | bool d b => cases b <;> exact ⟨_, _, rfl, by decide⟩
  | number d h =>
    obtain ⟨b, s, rfl, hb | rfl⟩ := h.head
    · exact ⟨b, s, by rw [Value.text], starts_of_isDigit hb⟩
    · exact ⟨_, s, by rw [Value.text], by decide⟩
  | string d s => exact ⟨_, _, by rw [Value.text, quote]; rfl, by decide⟩
  | array => exact ⟨_, _, by rw [Value.text], by decide⟩
  | object => exact ⟨_, _, by rw [Value.text], by decide⟩

/-- What follows a value: it matters for a number only. -/
def Follows (v : Value) (t : GoString) : Prop :=
  ∀ text, v = .number text → ∃ c t', t = c :: t' ∧ Ends c

theorem follows_of_ends {c : UInt8} (hc : Ends c) (v : Value) (t : GoString) : Follows v (c :: t) :=
  fun _ _ => ⟨c, t, rfl, hc⟩

/-- Reading the text of `x` gives it back. -/
def Reads (d : ℕ) (x : Value) : Prop :=
  ∀ n t, x.text.length < n → Follows x t → value d n (x.text ++ t) = some (x.toValid, t)

/-- The elements of an array. -/
theorem elements_texts {d : ℕ} {xs : List Value} (hne : xs ≠ []) (hxs : ∀ x ∈ xs, Reads d x)
    (n : ℕ) (t : GoString) (hn : (List.intercalate [0x2C] (texts xs)).length + 1 < n) :
    elements d n (List.intercalate [0x2C] (texts xs) ++ 0x5D :: t) = some (allValid xs, t) := by
  induction xs generalizing n with
  | nil => exact absurd rfl hne
  | cons x xs ih =>
    obtain ⟨n, rfl⟩ := Nat.exists_eq_succ_of_ne_zero (Nat.ne_of_gt (Nat.zero_lt_of_lt hn))
    have hx := hxs x List.mem_cons_self
    cases xs with
    | nil =>
      rw [texts, texts, List.intercalate_singleton] at hn ⊢
      rw [elements, hx n (0x5D :: t) (by omega) (follows_of_ends (by decide) _ _)]
      rfl
    | cons y ys =>
      have hcons : texts (y :: ys) ≠ [] := by rw [texts]; exact List.cons_ne_nil _ _
      rw [texts, intercalate_cons _ _ hcons] at hn ⊢
      simp only [List.length_append, List.length_cons] at hn
      have hrest :=
        ih (List.cons_ne_nil y ys) (fun z hz => hxs z (List.mem_cons_of_mem _ hz)) n (by omega)
      rw [List.append_assoc, List.cons_append, elements,
        hx n _ (by omega) (follows_of_ends (by decide) _ _)]
      simp only [bind, Option.bind_some]
      rw [show expect [0x2C]
        (skipSpace (0x2C :: (List.intercalate [0x2C] (texts (y :: ys)) ++ 0x5D :: t))) =
        some (List.intercalate [0x2C] (texts (y :: ys)) ++ 0x5D :: t) from expect_cons _ _]
      simp only [hrest, Option.map_some]
      rfl

/-- The members of an object. -/
theorem members_texts {d : ℕ} {ms : List (GoString × Value)} (hne : ms ≠ [])
    (hms : ∀ m ∈ ms, Reads d m.2) (n : ℕ) (t : GoString)
    (hn : (List.intercalate [0x2C] (memberTexts ms)).length + 1 < n) :
    members d n (List.intercalate [0x2C] (memberTexts ms) ++ 0x7D :: t) =
      some (membersValid ms, t) := by
  induction ms generalizing n with
  | nil => exact absurd rfl hne
  | cons m ms ih =>
    obtain ⟨name, x⟩ := m
    have hx : Reads d x := hms (name, x) List.mem_cons_self
    obtain ⟨k, rfl⟩ : ∃ k, n = k + 2 := ⟨n - 2, by omega⟩
    cases ms with
    | nil =>
      rw [memberTexts, memberTexts, List.intercalate_singleton] at hn ⊢
      simp only [List.length_append, List.length_cons] at hn
      rw [List.append_assoc, List.cons_append, members_brace d k name t
        (hx (k + 1) _ (by omega) (follows_of_ends (by decide) _ _))]
      rfl
    | cons m' ms =>
      have hcons : memberTexts (m' :: ms) ≠ [] := by
        obtain ⟨name', x'⟩ := m'
        rw [memberTexts]
        exact List.cons_ne_nil _ _
      rw [memberTexts, intercalate_cons _ _ hcons] at hn ⊢
      simp only [List.length_append, List.length_cons] at hn
      have hrest :=
        ih (List.cons_ne_nil m' ms) (fun m hm => hms m (List.mem_cons_of_mem _ hm))
        (k + 1) (by omega)
      rw [List.append_assoc, List.append_assoc, List.cons_append, List.cons_append,
        members_comma d k name _ (hx (k + 1) _ (by omega) (follows_of_ends (by decide) _ _)), hrest]
      rfl

/-- A value that starts with `b`. -/
theorem value_cons {b : UInt8} (hb : Starts b) (d n : ℕ) (s : GoString) :
    value d (n + 1) (b :: s) = valueAt d n b s := value_eq (hb.skipSpace s)

theorem reads_number {text : GoString} (h : IsNumber text) (d : ℕ) : Reads d (.number text) := by
  intro n t hn hfollows
  obtain ⟨n, rfl⟩ := Nat.exists_eq_succ_of_ne_zero (Nat.ne_of_gt (Nat.zero_lt_of_lt hn))
  obtain ⟨c, t, rfl, hc⟩ := hfollows text rfl
  obtain ⟨b, s, rfl, hb⟩ := h.head
  have hscanned := h.scanned c t hc
  have hstarts : Starts b := hb.elim starts_of_isDigit fun hb => hb ▸ by decide
  have hnot : ∀ x : UInt8, ¬ IsDigit x → x ≠ 0x2D → b ≠ x := by
    rintro x hx hsign rfl
    exact hb.elim hx hsign
  rw [Value.text, List.cons_append, value_cons hstarts, valueAt,
    if_neg (hnot 0x7B (by decide) (by decide)), if_neg (hnot 0x5B (by decide) (by decide)),
    if_neg (hnot 0x22 (by decide) (by decide)), if_neg (hnot 0x74 (by decide) (by decide)),
    if_neg (hnot 0x66 (by decide) (by decide)), if_neg (hnot 0x6E (by decide) (by decide)),
    ← List.cons_append, hscanned]
  rfl

theorem reads_array {d : ℕ} {xs : List Value} (h : ∀ x ∈ xs, Readable d x)
    (hxs : ∀ x ∈ xs, Reads d x) : Reads (d + 1) (.array xs) := by
  intro n t hn _
  obtain ⟨n, rfl⟩ := Nat.exists_eq_succ_of_ne_zero (Nat.ne_of_gt (Nat.zero_lt_of_lt hn))
  rw [Value.text, List.length_cons, List.length_append, List.length_singleton] at hn
  rw [Value.text, List.cons_append, value_cons (by decide), valueAt, if_neg (by decide), if_pos rfl,
    if_neg (Nat.succ_ne_zero d), List.append_assoc, List.singleton_append]
  cases xs with
  | nil => rfl
  | cons x xs =>
    obtain ⟨b, s, hb, hstarts⟩ := text_head (h x List.mem_cons_self)
    have hclose : expect [0x5D]
        (skipSpace (List.intercalate [0x2C] (texts (x :: xs)) ++ 0x5D :: t)) = none := by
      obtain ⟨r, hr⟩ : ∃ r, List.intercalate [0x2C] (texts (x :: xs)) = b :: r := by
        rw [texts, hb]
        cases texts xs with
        | nil => exact ⟨s, List.intercalate_singleton⟩
        | cons y ys => exact ⟨_, intercalate_cons _ _ (List.cons_ne_nil y ys)⟩
      rw [hr]
      exact token_none (hstarts.skipSpace _) hstarts.2.2.2.2
    simp only [hclose, Nat.add_sub_cancel]
    rw [elements_texts (List.cons_ne_nil x xs) hxs n t (by omega)]
    rfl

theorem reads_object {d : ℕ} {ms : List (GoString × Value)} (hms : ∀ m ∈ ms, Reads d m.2) :
    Reads (d + 1) (.object ms) := by
  intro n t hn _
  obtain ⟨n, rfl⟩ := Nat.exists_eq_succ_of_ne_zero (Nat.ne_of_gt (Nat.zero_lt_of_lt hn))
  rw [Value.text, List.length_cons, List.length_append, List.length_singleton] at hn
  rw [Value.text, List.cons_append, value_cons (by decide), valueAt, if_pos rfl,
    if_neg (Nat.succ_ne_zero d), List.append_assoc, List.singleton_append]
  cases ms with
  | nil => rfl
  | cons m ms =>
    have hclose :
        expect [0x7D] (skipSpace (List.intercalate [0x2C] (memberTexts (m :: ms)) ++ 0x7D :: t)) =
          none := by
      obtain ⟨r, hr⟩ : ∃ r, List.intercalate [0x2C] (memberTexts (m :: ms)) = 0x22 :: r := by
        obtain ⟨name, x⟩ := m
        rw [memberTexts]
        cases memberTexts ms with
        | nil => exact ⟨_, List.intercalate_singleton⟩
        | cons y ys => exact ⟨_, intercalate_cons _ _ (List.cons_ne_nil y ys)⟩
      rw [hr]
      exact token_none (c := 0x22) (r := r ++ 0x7D :: t) rfl (by decide)
    simp only [hclose, Nat.add_sub_cancel]
    rw [members_texts (List.cons_ne_nil m ms) hms n t (by omega)]
    rfl

/-- CORRECT: every value is read back from its text. -/
theorem reads_of_readable {d : ℕ} {v : Value} (h : Readable d v) : Reads d v := by
  induction h with
  | null d =>
    intro n t hn _
    obtain ⟨n, rfl⟩ := Nat.exists_eq_succ_of_ne_zero (Nat.ne_of_gt (Nat.zero_lt_of_lt hn))
    have hrest : expect (lit "ull") (lit "ull" ++ t) = some t := expect_iff.mpr rfl
    rw [Value.text, show lit "null" ++ t = 0x6E :: (lit "ull" ++ t) from rfl,
      value_cons (by decide), valueAt]
    simp [hrest, Value.toValid]
  | bool d b =>
    intro n t hn _
    obtain ⟨n, rfl⟩ := Nat.exists_eq_succ_of_ne_zero (Nat.ne_of_gt (Nat.zero_lt_of_lt hn))
    have htrue : expect (lit "rue") (lit "rue" ++ t) = some t := expect_iff.mpr rfl
    have hfalse : expect (lit "alse") (lit "alse" ++ t) = some t := expect_iff.mpr rfl
    cases b with
    | true =>
      rw [Value.text, if_pos rfl, show lit "true" ++ t = 0x74 :: (lit "rue" ++ t) from rfl,
        value_cons (by decide), valueAt]
      simp [htrue, Value.toValid]
    | false =>
      rw [Value.text, if_neg (by decide),
        show lit "false" ++ t = 0x66 :: (lit "alse" ++ t) from rfl, value_cons (by decide), valueAt]
      simp [hfalse, Value.toValid]
  | number d h => exact reads_number h d
  | string d s =>
    intro n t hn _
    obtain ⟨n, rfl⟩ := Nat.exists_eq_succ_of_ne_zero (Nat.ne_of_gt (Nat.zero_lt_of_lt hn))
    rw [Value.text, value_quote, Value.toValid]
  | array h ih => exact reads_array h ih
  | object h ih => exact reads_object ih

/-- An array or an object alone in a text. -/
theorem next_text {v : Value} (h : Readable maxNestingDepth v) (hv : ∀ text, v ≠ .number text) :
    next v.text = some (v.toValid, []) := by
  have hreads := reads_of_readable h (v.text.length + 1) [] (Nat.lt_succ_self _)
    fun text heq => absurd heq (hv text)
  rwa [List.append_nil] at hreads

/-! ### Lists -/

theorem allValid_eq_map (xs : List Value) : allValid xs = xs.map Value.toValid := by
  induction xs with
  | nil => rfl
  | cons x xs ih => rw [allValid, ih, List.map_cons]

/-- A list decoded element by element, each from what it was encoded to. -/
theorem mapM_map_eq {α β : Type} {f : β → Option α} {g : α → β} {l : List α}
    (h : ∀ a ∈ l, f (g a) = some a) : (l.map g).mapM f = some l := by
  induction l with
  | nil => rfl
  | cons a l ih =>
    rw [List.map_cons, List.mapM_cons, h a List.mem_cons_self,
      ih fun b hb => h b (List.mem_cons_of_mem _ hb)]
    rfl

theorem membersValid_eq_map (ms : List (GoString × Value)) :
    membersValid ms = ms.map fun m => (Utf8.toValid m.1, m.2.toValid) := by
  induction ms with
  | nil => rfl
  | cons m ms ih => rw [membersValid, ih, List.map_cons]

/-! ### Decoding into variables -/

/-- `json.Unmarshal`: the text is one value, with nothing but space after it; none on an error. -/
def unmarshal {α : Type} (decode : Value → Option α) (s : GoString) : Option α := do
  let (v, rest) ← next s
  if skipSpace rest = [] then decode v else none

/-- An object into a struct, member by member; `null` leaves the struct as it is. -/
def decodeStruct {α : Type} (setField : α → GoString × Value → Option α) (a : α) : Value → Option α
  | .null => some a
  | .object ms => ms.foldlM setField a
  | _ => none

/-- A number into an `int` that holds `z`. -/
def decodeInt (z : ℤ) : Value → Option ℤ
  | .number text => parseInt text
  | .null => some z
  | _ => none

/-- A number into a `uint64` that holds `n`. -/
def decodeUint (n : ℕ) : Value → Option ℕ
  | .number text => parseUint text
  | .null => some n
  | _ => none

theorem unmarshal_text {α : Type} (decode : Value → Option α) {v : Value}
    (h : Readable maxNestingDepth v) (hv : ∀ text, v ≠ .number text) :
    unmarshal decode v.text = decode v.toValid := by
  rw [unmarshal, next_text h hv]
  rfl

theorem isNumber_formatInt (z : ℤ) : IsNumber (formatInt z) := by
  cases z with
  | ofNat n => exact isNumber_itoa n
  | negSucc n => exact isNumber_neg (n + 1)

theorem decodeInt_formatInt {z : ℤ} (h : Fits z) (z' : ℤ) :
    decodeInt z' (.number (formatInt z)) = some z := parseInt_formatInt h

theorem decodeUint_itoa {n : ℕ} (h : n < 2 ^ 64) (n' : ℕ) :
    decodeUint n' (.number (itoa n)) = some n := parseUint_itoa h

end DistSys.Json
