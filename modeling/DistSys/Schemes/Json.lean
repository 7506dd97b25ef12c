import DistSys.Schemes.Utf8
import Mathlib.Data.List.TakeDrop

/-! @scheme json | round-trip:strings | scan:one byte per round

    JSON text: how strings are written, and how one value is read off the front of a stream. A
    string literal is read in two passes, first to its closing quote, then the escapes are undone.
    Writing turns each invalid byte into the escape of U+FFFD, so what comes back is the string made
    valid.

        s ──quote──▶ "…" ──scanString──▶ raw ──unquote──▶ toValid s -/

namespace DistSys.Json
open GoString (lit itoa itoa_digits itoa_ne_nil itoa_cons IsDigit)
open Utf8 (runes runeTail replacement IsRune)

/-- A JSON value. The members of an object keep their order and their repetitions. -/
inductive Value where
  | null
  | bool (b : Bool)
  | number (text : GoString)
  | string (s : GoString)
  | array (xs : List Value)
  | object (ms : List (GoString × Value))

/-! ### Writing strings -/

def hexDigit (n : ℕ) : UInt8 := if n < 10 then UInt8.ofNat (48 + n) else UInt8.ofNat (87 + n)

/-- An ASCII byte within a literal: quote, backslash and control characters are escaped, and so are
    `<`, `>` and `&`. -/
def escapeByte (b : UInt8) : GoString :=
  if b = 0x22 ∨ b = 0x5C then [0x5C, b]
  else if b = 0x08 then lit "\\b"
  else if b = 0x0C then lit "\\f"
  else if b = 0x0A then lit "\\n"
  else if b = 0x0D then lit "\\r"
  else if b = 0x09 then lit "\\t"
  else if b < 0x20 ∨ b = 0x3C ∨ b = 0x3E ∨ b = 0x26 then
    lit "\\u00" ++ [hexDigit (b.toNat / 16), hexDigit (b.toNat % 16)]
  else [b]

/-- A rune within a literal: invalid bytes, U+2028 and U+2029 are escaped. -/
def escapeRune : Option GoString → GoString
  | none => lit "\\ufffd"
  | some [b] => escapeByte b
  | some bs =>
      if bs = [0xE2, 0x80, 0xA8] then lit "\\u2028"
      else if bs = [0xE2, 0x80, 0xA9] then lit "\\u2029"
      else bs

/-- The inside of a literal. -/
def escape (s : GoString) : GoString := (runes s).flatMap escapeRune

/-- A string literal. -/
def quote (s : GoString) : GoString := 0x22 :: escape s ++ [0x22]

/-! ### Reading strings -/

def hexValue (b : UInt8) : Option ℕ :=
  if 0x30 ≤ b ∧ b ≤ 0x39 then some (b.toNat - 0x30)
  else if 0x61 ≤ b ∧ b ≤ 0x66 then some (b.toNat - 0x57)
  else if 0x41 ≤ b ∧ b ≤ 0x46 then some (b.toNat - 0x37)
  else none

/-- Where the scanner is within a literal: `hex n` expects a hexadecimal digit and `n` more. -/
inductive StrState where | plain | esc | hex (n : ℕ)
  deriving DecidableEq

def strNext : StrState → UInt8 → Option StrState
  | .plain, b => if b = 0x5C then some .esc else if b < 0x20 then none else some .plain
  | .esc, b =>
      if b = 0x75 then some (.hex 3)
      else if b ∈ lit "bfnrt\\/\"" then some .plain
      else none
  | .hex 0, b => if (hexValue b).isSome then some .plain else none
  | .hex (n + 1), b => if (hexValue b).isSome then some (.hex n) else none

/-- The bytes up to the closing quote, and what follows it. -/
def scanString : StrState → GoString → Option (GoString × GoString)
  | _, [] => none
  | st, b :: s =>
      if st = .plain ∧ b = 0x22 then some ([], s)
      else (strNext st b).bind fun st' => (scanString st' s).map fun p => (b :: p.1, p.2)

/-- The number four hexadecimal digits stand for. -/
def hex4 : GoString → Option ℕ
  | a :: b :: c :: d :: _ => do
      let a ← hexValue a
      let b ← hexValue b
      let c ← hexValue c
      let d ← hexValue d
      return ((a * 16 + b) * 16 + c) * 16 + d
  | _ => none

/-- UTF-8 of a code point. -/
def encodeRune (r : ℕ) : GoString :=
  if r < 0x80 then [UInt8.ofNat r]
  else if r < 0x800 then [UInt8.ofNat (0xC0 + r / 64), UInt8.ofNat (0x80 + r % 64)]
  else if 0xD800 ≤ r ∧ r < 0xE000 ∨ 0x110000 ≤ r then replacement
  else if r < 0x10000 then
    [UInt8.ofNat (0xE0 + r / 4096), UInt8.ofNat (0x80 + r / 64 % 64), UInt8.ofNat (0x80 + r % 64)]
  else [UInt8.ofNat (0xF0 + r / 262144), UInt8.ofNat (0x80 + r / 4096 % 64),
    UInt8.ofNat (0x80 + r / 64 % 64), UInt8.ofNat (0x80 + r % 64)]

def simpleEscape (b : UInt8) : Option UInt8 :=
  if b ∈ lit "\"\\/" ∨ b = 0x27 then some b
  else if b = 0x62 then some 0x08
  else if b = 0x66 then some 0x0C
  else if b = 0x6E then some 0x0A
  else if b = 0x72 then some 0x0D
  else if b = 0x74 then some 0x09
  else none

/-- What `\u` followed by `s`, whose digits stand for `r`, is read as, and how many bytes beyond the
    backslash it takes: a surrogate needs its other half. -/
def unicodeEscape (r : ℕ) (s : GoString) : GoString × ℕ :=
  if 0xD800 ≤ r ∧ r < 0xE000 then
    match s.drop 4 with
    | b :: u :: t =>
      match hex4 t with
      | some r' =>
        if b = 0x5C ∧ u = 0x75 ∧ r < 0xDC00 ∧ 0xDC00 ≤ r' ∧ r' < 0xE000 then
          (encodeRune (0x10000 + (r - 0xD800) * 0x400 + (r' - 0xDC00)), 11)
        else (replacement, 5)
      | none => (replacement, 5)
    | _ => (replacement, 5)
  else (encodeRune r, 5)

/-- One round over the inside of a literal: what it stands for, and how many bytes beyond the
    first. -/
def unquoteHead : GoString → Option (GoString × ℕ)
  | [] => none
  | c :: s =>
      if c = 0x5C then
        match s with
        | [] => none
        | e :: s =>
          if e = 0x75 then (hex4 s).map fun r => unicodeEscape r s
          else (simpleEscape e).map fun b => ([b], 1)
      else if c = 0x22 ∨ c < 0x20 then none
      else match runeTail (c :: s) with
        | some n => some (c :: s.take n, n)
        | none => some (replacement, 0)

/-- The rounds, the first `k` bytes being already consumed. -/
def unquoteFrom : ℕ → GoString → Option GoString
  | _, [] => some []
  | k + 1, _ :: s => unquoteFrom k s
  | 0, c :: s => (unquoteHead (c :: s)).bind fun p =>
    (unquoteFrom p.2 s).map fun rest => p.1 ++ rest

/-- The string of a literal of which the opening quote has been read. -/
def stringLit (s : GoString) : Option (GoString × GoString) :=
  (scanString .plain s).bind fun p => (unquoteFrom 0 p.1).map fun str => (str, p.2)

/-! ### Reading values -/

def skipSpace : GoString → GoString
  | [] => []
  | b :: s => if b = 0x20 ∨ b = 0x09 ∨ b = 0x0A ∨ b = 0x0D then skipSpace s else b :: s

/-- `s` without `p`, which it must start with. -/
def expect (p s : GoString) : Option GoString := if p <+: s then some (s.drop p.length) else none

def isDigit (b : UInt8) : Bool := 0x30 ≤ b && b ≤ 0x39

/-- One digit or more. -/
def digits1 (s : GoString) : Option (GoString × GoString) :=
  if (s.takeWhile isDigit).isEmpty then none else some (s.span isDigit)

/-- `-`, an integer part without superfluous zeros, a fraction, an exponent. -/
def number (s : GoString) : Option (GoString × GoString) := do
  let unsigned := (expect [0x2D] s).getD s
  let rest ← match unsigned with
    | [] => none
    | b :: t => if b = 0x30 then some t else (digits1 unsigned).map (·.2)
  let rest ← match rest with
    | 0x2E :: t => (digits1 t).map (·.2)
    | _ => some rest
  let rest ← match rest with
    | e :: t =>
      if e = 0x65 ∨ e = 0x45 then
        match t with
        | g :: t' => (digits1 (if g = 0x2B ∨ g = 0x2D then t' else t)).map (·.2)
        | [] => none
      else some rest
    | [] => some rest
  return (s.take (s.length - rest.length), rest)

mutual

/-- One value; `d` bounds the nesting of arrays and objects, the other number the rounds. -/
def value : ℕ → ℕ → GoString → Option (Value × GoString)
  | _, 0, _ => none
  | d, n + 1, s =>
      match skipSpace s with
      | [] => none
      | c :: s =>
        if c = 0x7B then
          if d = 0 then none
          else match expect [0x7D] (skipSpace s) with
            | some rest => some (.object [], rest)
            | none => (members (d - 1) n s).map fun p => (.object p.1, p.2)
        else if c = 0x5B then
          if d = 0 then none
          else match expect [0x5D] (skipSpace s) with
            | some rest => some (.array [], rest)
            | none => (elements (d - 1) n s).map fun p => (.array p.1, p.2)
        else if c = 0x22 then (stringLit s).map fun p => (.string p.1, p.2)
        else if c = 0x74 then (expect (lit "rue") s).map fun rest => (.bool true, rest)
        else if c = 0x66 then (expect (lit "alse") s).map fun rest => (.bool false, rest)
        else if c = 0x6E then (expect (lit "ull") s).map fun rest => (.null, rest)
        else (number (c :: s)).map fun p => (.number p.1, p.2)

/-- The members of an object and its closing brace. -/
def members : ℕ → ℕ → GoString → Option (List (GoString × Value) × GoString)
  | _, 0, _ => none
  | d, n + 1, s => do
      let (name, s) ← (expect [0x22] (skipSpace s)).bind stringLit
      let s ← expect [0x3A] (skipSpace s)
      let (v, s) ← value d n s
      match expect [0x2C] (skipSpace s) with
      | some s => (members d n s).map fun p => ((name, v) :: p.1, p.2)
      | none => (expect [0x7D] (skipSpace s)).map fun s => ([(name, v)], s)

/-- The elements of an array and its closing bracket. -/
def elements : ℕ → ℕ → GoString → Option (List Value × GoString)
  | _, 0, _ => none
  | d, n + 1, s => do
      let (v, s) ← value d n s
      match expect [0x2C] (skipSpace s) with
      | some s => (elements d n s).map fun p => (v :: p.1, p.2)
      | none => (expect [0x5D] (skipSpace s)).map fun s => ([v], s)

end

/-- Arrays and objects nest this deep at most. -/
def maxNestingDepth : ℕ := 10000

/-- The value at the front of a stream. Each round consumes a byte, so there are enough of them. -/
def next (s : GoString) : Option (Value × GoString) := value maxNestingDepth (s.length + 1) s

/-- A member name with the case of its letters folded; U+017F is an `S`, and the Kelvin sign a
    `K`. -/
def foldName : GoString → GoString
  | [] => []
  | 0xC5 :: 0xBF :: s => 0x53 :: foldName s
  | 0xE2 :: 0x84 :: 0xAA :: s => 0x4B :: foldName s
  | b :: s => (if 0x61 ≤ b ∧ b ≤ 0x7A then b - 0x20 else b) :: foldName s

/-! ### A literal is read back -/

/-- The scanner's state after bytes none of which closes the literal. -/
def strRun : StrState → GoString → Option StrState
  | st, [] => some st
  | st, b :: s => if st = .plain ∧ b = 0x22 then none
      else (strNext st b).bind fun st' => strRun st' s

theorem scanString_append {st st' : StrState} {e : GoString} (u : GoString)
    (h : strRun st e = some st') :
    scanString st (e ++ u) = (scanString st' u).map fun p => (e ++ p.1, p.2) := by
  induction e generalizing st with
  | nil =>
    cases Option.some.inj h
    simp
  | cons b e ih =>
    rw [strRun] at h
    split at h
    · simp at h
    · rename_i hne
      obtain ⟨st₁, h₁, h₂⟩ := Option.bind_eq_some_iff.mp h
      rw [List.cons_append, scanString, if_neg hne, h₁, Option.bind_some, ih h₂]
      cases scanString st' u <;> rfl

theorem hexValue_hexDigit {n : ℕ} (h : n < 16) : hexValue (hexDigit n) = some n := by
  revert n; decide

theorem strRun_escapeByte (b : UInt8) : strRun .plain (escapeByte b) = some .plain := by
  rw [escapeByte]
  split
  · rename_i h
    rcases h with rfl | rfl <;> rfl
  iterate 5
    split
    · rfl
  split
  · have h₁ := hexValue_hexDigit (n := b.toNat / 16) (by have := b.toNat_lt; omega)
    have h₂ := hexValue_hexDigit (n := b.toNat % 16) (Nat.mod_lt _ (by decide))
    have hd : ∀ t, strRun .plain (lit "\\u00" ++ t) = strRun (.hex 1) t := fun _ => rfl
    rw [hd]
    simp [strRun, strNext, h₁, h₂]
  · rename_i h₀ _ _ _ _ _ h₁
    rw [not_or] at h₀ h₁
    simp [strRun, strNext, h₀.1, h₀.2, h₁.1]

theorem strRun_plain {bs : GoString} (h : ∀ b ∈ bs, 0x80 ≤ b) : strRun .plain bs = some .plain := by
  induction bs with
  | nil => rfl
  | cons b bs ih =>
    have hb := h b (by simp)
    have h₁ : b ≠ 0x22 := by rintro rfl; exact absurd hb (by decide)
    have h₂ : b ≠ 0x5C := by rintro rfl; exact absurd hb (by decide)
    have h₃ : ¬b < 0x20 := fun hlt => absurd (hb.trans_lt hlt) (by decide)
    simp [strRun, strNext, h₁, h₂, h₃, ih fun b hb => h b (List.mem_cons_of_mem _ hb)]

/-- What the writer made of a rune leaves the scanner inside the literal. -/
theorem strRun_escapeRune : ∀ {r : Option GoString}, (∀ bs, r = some bs → IsRune bs) →
    strRun .plain (escapeRune r) = some .plain
  | none, _ => rfl
  | some [], h => absurd rfl (h [] rfl).1
  | some [b], _ => strRun_escapeByte b
  | some (a :: b :: bs), h => by
      rcases (h _ rfl).bytes with ⟨c, _, hc⟩ | ⟨_, hge⟩
      · simp at hc
      · simp only [escapeRune]
        split
        · rfl
        split
        · rfl
        · exact strRun_plain hge

theorem unquoteHead_escapeByte {b : UInt8} (hb : b < 0x80) (u : GoString) :
    unquoteHead (escapeByte b ++ u) = some ([b], (escapeByte b).length - 1) := by
  rw [escapeByte]
  split
  · rename_i h
    rcases h with rfl | rfl <;> rfl
  iterate 5
    split
    · rename_i h; subst h; rfl
  split
  · have h₁ := hexValue_hexDigit (n := b.toNat / 16) (by have := b.toNat_lt; omega)
    have h₂ := hexValue_hexDigit (n := b.toNat % 16) (Nat.mod_lt _ (by decide))
    have hd : ∀ t, unquoteHead (lit "\\u00" ++ t) = (hex4 (0x30 :: 0x30 :: t)).map
        fun r => unicodeEscape r (0x30 :: 0x30 :: t) := fun _ => rfl
    have h₀ : hexValue 0x30 = some 0 := by decide
    have hlt : b.toNat < 128 := by simpa [UInt8.lt_iff_toNat_lt] using hb
    rw [List.append_assoc, hd]
    simp only [List.cons_append, List.nil_append, hex4, h₀, h₁, h₂, bind, Option.bind_some]
    have hsum : ((0 * 16 + 0) * 16 + b.toNat / 16) * 16 + b.toNat % 16 = b.toNat := by omega
    simp only [pure, Option.map_some, hsum, unicodeEscape, encodeRune]
    rw [if_neg (by omega), if_pos hlt]
    simp [lit]
  · rename_i h₀ _ _ _ _ _ h₁
    rw [not_or] at h₀ h₁
    simp [unquoteHead, h₀.1, h₀.2, h₁.1, runeTail, hb]

/-- What the writer made of a rune is read in one round. -/
theorem unquoteHead_escapeRune : ∀ {r : Option GoString}, (∀ bs, r = some bs → IsRune bs) →
    ∀ u, unquoteHead (escapeRune r ++ u) = some (r.getD replacement, (escapeRune r).length - 1)
  | none, _, u => by
      show (some (unicodeEscape 0xFFFD _) : Option (GoString × ℕ)) = _
      rfl
  | some [], h, _ => absurd rfl (h [] rfl).1
  | some [b], h, u => by
      rcases (h _ rfl).bytes with ⟨c, hlt, hc⟩ | ⟨hlen, _⟩
      · cases hc; exact unquoteHead_escapeByte hlt u
      · simp at hlen
  | some (a :: b :: bs), h, u => by
      have hrune := h _ rfl
      rcases hrune.bytes with ⟨c, _, hc⟩ | ⟨_, hge⟩
      · simp at hc
      · simp only [escapeRune]
        split
        · rename_i he; rw [he]; rfl
        split
        · rename_i he; rw [he]; rfl
        · have ha := hge a (by simp)
          have h₁ : a ≠ 0x22 := by rintro rfl; exact absurd ha (by decide)
          have h₂ : a ≠ 0x5C := by rintro rfl; exact absurd ha (by decide)
          have h₃ : ¬a < 0x20 := fun hlt => absurd (ha.trans_lt hlt) (by decide)
          have htail := hrune.runeTail_append u
          simp only [List.cons_append, List.length_cons, Nat.add_sub_cancel] at htail ⊢
          simp [unquoteHead, h₁, h₂, h₃, htail]

theorem unquoteFrom_drop (k : ℕ) (s : GoString) : unquoteFrom k s = unquoteFrom 0 (s.drop k) := by
  induction k generalizing s with
  | zero => rfl
  | succ k ih =>
    cases s with
    | nil => simp [unquoteFrom]
    | cons b s => rw [unquoteFrom, ih, List.drop_succ_cons]

theorem unquoteFrom_append {e u out : GoString} (hne : e ≠ [])
    (h : unquoteHead (e ++ u) = some (out, e.length - 1)) :
    unquoteFrom 0 (e ++ u) = (unquoteFrom 0 u).map (out ++ ·) := by
  cases e with
  | nil => exact absurd rfl hne
  | cons c e =>
    rw [List.cons_append] at h ⊢
    rw [unquoteFrom, h, Option.bind_some, unquoteFrom_drop]
    simp

theorem escapeRune_ne_nil : ∀ {r : Option GoString},
    (∀ bs, r = some bs → IsRune bs) → escapeRune r ≠ []
  | none, _ => by decide
  | some [], h => absurd rfl (h [] rfl).1
  | some [b], _ => by
      simp only [escapeRune, escapeByte]
      repeat' split
      all_goals simp [lit]
  | some (a :: b :: bs), _ => by
      simp only [escapeRune]
      repeat' split
      all_goals simp [lit]

/-- The literal of a list of runes is scanned to its end and unquoted. -/
theorem read_escapeRunes {rs : List (Option GoString)}
    (h : ∀ bs, some bs ∈ rs → IsRune bs) (t : GoString) :
    scanString .plain (rs.flatMap escapeRune ++ 0x22 :: t) = some (rs.flatMap escapeRune, t) ∧
    unquoteFrom 0 (rs.flatMap escapeRune) = some (rs.flatMap (·.getD replacement)) := by
  induction rs with
  | nil => exact ⟨rfl, rfl⟩
  | cons r rs ih =>
    have hr : ∀ bs, r = some bs → IsRune bs := fun bs hbs => h bs (by simp [hbs])
    obtain ⟨hscan, hun⟩ := ih fun bs hbs => h bs (List.mem_cons_of_mem _ hbs)
    constructor
    · rw [List.flatMap_cons, List.append_assoc, scanString_append _ (strRun_escapeRune hr), hscan]
      rfl
    · rw [List.flatMap_cons,
        unquoteFrom_append (escapeRune_ne_nil hr) (unquoteHead_escapeRune hr _), hun]
      rfl

/-- A string is read back made valid. -/
theorem stringLit_escape (s t : GoString) :
    stringLit (escape s ++ 0x22 :: t) = some (Utf8.toValid s, t) := by
  obtain ⟨hscan, hun⟩ := read_escapeRunes (fun bs (h : some bs ∈ runes s) => Utf8.isRune_of_mem h) t
  rw [stringLit, escape, hscan]
  simp [hun, Utf8.toValid]

/-! ### An object of strings is read back -/

section object
variable (d n : ℕ) (name s t : GoString)

theorem quote_append : quote s ++ t = 0x22 :: (escape s ++ 0x22 :: t) := by simp [quote]

theorem skipSpace_quote : skipSpace (quote s ++ t) = quote s ++ t := by
  rw [quote_append]; rfl

theorem expect_cons (b : UInt8) : expect [b] (b :: s) = some s := by simp [expect]

theorem value_newline : value d (n + 1) (0x0A :: s) = value d (n + 1) s := by
  rw [value, value, skipSpace, if_pos (by decide)]

theorem value_quote : value d (n + 1) (quote s ++ t) = some (.string (Utf8.toValid s), t) := by
  rw [value, skipSpace_quote, quote_append]
  simp [stringLit_escape]

theorem value_object (hd : d ≠ 0) :
    value d (n + 1) (0x7B :: (quote s ++ t)) =
      (members (d - 1) n (quote s ++ t)).map fun p => (.object p.1, p.2) := by
  rw [value, skipSpace, if_neg (by decide)]
  simp only [if_true, if_neg hd, skipSpace_quote]
  rw [quote_append]
  rfl

theorem members_name : (expect [0x22] (skipSpace (quote name ++ t))).bind stringLit =
    some (Utf8.toValid name, t) := by
  rw [skipSpace_quote, quote_append, expect_cons, Option.bind_some, stringLit_escape]

/-- A member followed by a comma, whatever its value. -/
theorem members_comma {text : GoString} {v : Value}
    (hv : value d (n + 1) (text ++ 0x2C :: t) = some (v, 0x2C :: t)) :
    members d (n + 2) (quote name ++ 0x3A :: (text ++ 0x2C :: t)) =
      (members d (n + 1) t).map fun p => ((Utf8.toValid name, v) :: p.1, p.2) := by
  rw [members, members_name]
  simp only [bind, Option.bind_some]
  rw [skipSpace, if_neg (by decide), expect_cons, Option.bind_some, hv, Option.bind_some]
  rfl

/-- The last member, whatever its value. -/
theorem members_brace {text : GoString} {v : Value}
    (hv : value d (n + 1) (text ++ 0x7D :: t) = some (v, 0x7D :: t)) :
    members d (n + 2) (quote name ++ 0x3A :: (text ++ 0x7D :: t)) =
      some ([(Utf8.toValid name, v)], t) := by
  rw [members, members_name]
  simp only [bind, Option.bind_some]
  rw [skipSpace, if_neg (by decide), expect_cons, Option.bind_some, hv, Option.bind_some]
  rfl

theorem members_more : members d (n + 2) (quote name ++ 0x3A :: (quote s ++ 0x2C :: t)) =
    (members d (n + 1) t).map fun p =>
      ((Utf8.toValid name, .string (Utf8.toValid s)) :: p.1, p.2) :=
  members_comma d n name t (value_quote d n s _)

theorem members_last : members d (n + 2) (quote name ++ 0x3A :: (quote s ++ 0x7D :: t)) =
    some ([(Utf8.toValid name, .string (Utf8.toValid s))], t) :=
  members_brace d n name t (value_quote d n s _)

end object

/-! ### A number is read back -/

theorem isDigit_iff {b : UInt8} : isDigit b = true ↔ IsDigit b := by
  simp [isDigit, IsDigit, UInt8.le_iff_toNat_le]

theorem digits1_itoa (n : ℕ) {c : UInt8} (hc : isDigit c = false) (t : GoString) :
    digits1 (itoa n ++ c :: t) = some (itoa n, c :: t) := by
  have hdigits : ∀ b ∈ itoa n, isDigit b = true := fun b hb => isDigit_iff.mpr (itoa_digits n b hb)
  have htake : (itoa n ++ c :: t).takeWhile isDigit = itoa n := by
    rw [List.takeWhile_append_of_pos hdigits,
      List.takeWhile_cons_of_neg (by simp [hc]), List.append_nil]
  have hdrop : (itoa n ++ c :: t).dropWhile isDigit = c :: t := by
    rw [List.dropWhile_append_of_pos hdigits, List.dropWhile_cons_of_neg (by simp [hc])]
  rw [digits1, htake, if_neg (by simp [itoa_ne_nil]),
    List.span_eq_takeWhile_dropWhile, htake, hdrop]

/-- The integer part of a number, its fraction and its exponent. -/
def integer : GoString → Option GoString
  | [] => none
  | b :: t => if b = 0x30 then some t else (digits1 (b :: t)).map (·.2)

def fraction (s : GoString) : Option GoString :=
  match s with
  | 0x2E :: t => (digits1 t).map (·.2)
  | _ => some s

def exponent (s : GoString) : Option GoString :=
  match s with
  | e :: t =>
    if e = 0x65 ∨ e = 0x45 then
      match t with
      | g :: t' => (digits1 (if g = 0x2B ∨ g = 0x2D then t' else t)).map (·.2)
      | [] => none
    else some s
  | [] => some s

section
variable {β : Type} (k : GoString → Option β)

theorem integer_bind (s : GoString) : (integer s).bind k =
    match s with
    | [] => none
    | b :: t => if b = 0x30 then k t else ((digits1 s).map (·.2)).bind k := by
  unfold integer
  repeat' split
  all_goals rfl

theorem fraction_bind (s : GoString) : (fraction s).bind k =
    match s with
    | 0x2E :: t => ((digits1 t).map (·.2)).bind k
    | _ => k s := by
  unfold fraction
  split <;> rfl

theorem exponent_bind (s : GoString) : (exponent s).bind k =
    match s with
    | e :: t =>
      if e = 0x65 ∨ e = 0x45 then
        match t with
        | g :: t' => ((digits1 (if g = 0x2B ∨ g = 0x2D then t' else t)).map (·.2)).bind k
        | [] => none
      else k s
    | [] => k s := by
  unfold exponent
  repeat' split
  all_goals rfl

end

/-- A number is read part by part. -/
theorem number_eq (s : GoString) : number s =
    (((some ((expect [0x2D] s).getD s)).bind integer).bind fun r => (fraction r).bind exponent).map
      fun rest => (s.take (s.length - rest.length), rest) := by
  simp only [Option.map_eq_bind, Option.bind_assoc]
  simp only [Option.bind_some, integer_bind, fraction_bind, exponent_bind]
  rfl

/-- What ends a number without being part of it. -/
def Ends (c : UInt8) : Prop := isDigit c = false ∧ c ≠ 0x2E ∧ c ≠ 0x65 ∧ c ≠ 0x45

instance : DecidablePred Ends := fun _ => inferInstanceAs (Decidable (_ ∧ _ ∧ _ ∧ _))

theorem number_itoa (n : ℕ) {c : UInt8} (hc : Ends c) (t : GoString) :
    number (itoa n ++ c :: t) = some (itoa n, c :: t) := by
  obtain ⟨hdigit, hdot, he, hE⟩ := hc
  obtain ⟨b, s, hitoa, hb, hzero⟩ := itoa_cons n
  have hsign : expect [0x2D] (itoa n ++ c :: t) = none := by
    have : b ≠ 0x2D := by rintro rfl; exact absurd hb (by decide)
    simp [expect, hitoa, this.symm]
  have hinteger : integer (itoa n ++ c :: t) = some (c :: t) := by
    rcases eq_or_ne b 0x30 with rfl | hne
    · rw [(hzero rfl).2] at hitoa
      rw [hitoa]
      rfl
    · have hdigits := digits1_itoa n hdigit t
      rw [hitoa, List.cons_append] at hdigits ⊢
      rw [integer, if_neg hne, hdigits]
      rfl
  have hfraction : fraction (c :: t) = some (c :: t) := by simp [fraction, hdot]
  have hexponent : exponent (c :: t) = some (c :: t) := if_neg (not_or.mpr ⟨he, hE⟩)
  have htake : (itoa n ++ c :: t).take ((itoa n ++ c :: t).length - (c :: t).length) = itoa n := by
    rw [List.length_append, Nat.add_sub_cancel, List.take_left]
  rw [number_eq, hsign, Option.getD_none, Option.bind_some, hinteger, Option.bind_some, hfraction,
    Option.bind_some, hexponent, Option.map_some, htake]

end DistSys.Json
