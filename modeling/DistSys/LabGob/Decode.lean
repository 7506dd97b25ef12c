import DistSys.LabGob.Types
import Mathlib.Data.Set.Card
import Mathlib.Data.List.Nodup

/-! @go labgob/labgob.go | name:Decode, checkValue, checkDefault | scheme:depth-limited-walk

    Before it decodes into a variable, `Decode` checks the variable's type, and then warns if the
    variable holds something already. The second check follows struct fields and pointers, three
    levels deep, and compares each basic value it meets with the zero value of its type.

        Decode(e)     checkValue(e)     TypeOf(nil).Kind()               panics
                      checkDefault(e)   Interface() of a read-only value panics, zero or not

        Outer { inner { X } }    .inner   embedded, lower case     read-only (embedRO)
                                 .X       upper case               not read-only: embedRO is cleared
        T { no { X } }           .no      lower case, not embedded read-only (stickyRO)
                                 .X       upper case               read-only: stickyRO stays

    Values are the nodes of a graph of any size, so that pointers may lead back. -/

namespace DistSys.LabGob
open GoString (lit)
open Machine (run)

/-- A value of a basic kind; a float is given by its bits. -/
inductive Basic where
  | bool (b : Bool)
  | int (n : ℤ)
  | uint (n : ℕ)
  | float32 (bits : BitVec 32)
  | float64 (bits : BitVec 64)
  | string (s : GoString)

/-- `reflect.DeepEqual` with the zero value of the type: `-0.0` is equal to it, a NaN is not. -/
def Basic.isZero : Basic → Bool
  | .bool b => !b
  | .int n => n == 0
  | .uint n => n == 0
  | .float32 bits => bits <<< 1 == 0
  | .float64 bits => bits <<< 1 == 0
  | .string s => s.isEmpty

/-- A field of a struct value; of the embedded fields the type is the name. -/
structure StructField (V : Type) where
  name : GoString
  embedded : Bool
  value : V

/-- What `Kind`, `Field`, `IsNil`, `Elem` and `Interface` tell of a value. -/
inductive Shape (V : Type) where
  | struct (fields : List (StructField V))
  | ptr (elem : Option V)
  | basic (b : Basic)
  | other

structure Memory (T V : Type) where
  type : V → T
  shape : V → Shape V

/-- A `reflect.Value`: which value, and the two flags for what was obtained through an unexported
    field, one of them for embedded fields. -/
structure Value (V : Type) where
  ref : V
  stickyRO : Bool
  embedRO : Bool

/-- `flagRO`: `Interface` panics if either flag is set. -/
def Value.ro {V : Type} (x : Value V) : Bool := x.stickyRO || x.embedRO

/-- `reflect.ValueOf`. -/
def valueOf {V : Type} (v : V) : Value V := ⟨v, false, false⟩

/-- The error count, and the warnings of `checkDefault` that were printed. -/
structure Defaults where
  errorCount : ℕ
  printed : List GoString

def Defaults.warn (s : Defaults) (what : GoString) : Defaults :=
  ⟨s.errorCount + 1, if s.errorCount < 1 then s.printed ++
    [lit "labgob warning: Decoding into a non-default variable/field " ++
      what ++ lit " may not work\n"]
    else s.printed⟩

section definitions
variable {T V : Type} (ty : Types T) (m : Memory T V)

/-- `value.Field(i)`. A field is exported if its name starts with an upper-case letter. Of the flags
    of the struct only the sticky one is inherited. -/
def Types.field (x : Value V) (f : StructField V) : Value V :=
  let exported := ty.isUpper (firstRune f.name)
  { ref := f.value
    stickyRO := x.stickyRO || (!exported && !f.embedded)
    embedRO := !exported && f.embedded }

/-- `value.Elem()` of a pointer: both flags are inherited. -/
def Value.elem (x : Value V) (elem : V) : Value V := { x with ref := elem }

/-- `checkDefault1`, with the number of levels left (`4 - depth`); `none` is a panic. -/
def checkDefault1 : ℕ → Value V → GoString → Defaults → Option Defaults
  | 0, _, _, s => some s
  | levels + 1, x, name, s =>
    match m.shape x.ref with
    | .struct fields =>
      run (fun s f => checkDefault1 levels (ty.field x f)
        (if name ≠ [] then name ++ lit "." ++ f.name else f.name) s) s fields
    | .ptr none => some s
    | .ptr (some elem) => checkDefault1 levels (x.elem elem) name s
    | .basic b =>
      -- `Interface` is called before anything is compared
      if x.ro then none
      else if b.isZero = false then
        some (s.warn (if name = [] then ty.name (m.type x.ref) else name))
      else some s
    | .other => some s

/-- `checkDefault`. -/
def checkDefault (value : Option V) (s : Defaults) : Option Defaults :=
  match value with
  | none => some s
  | some v => checkDefault1 ty m 3 (valueOf v) [] s

/-- `checkValue`; the type of `nil` has no kind. -/
def checkValue [DecidableEq T] (fuel : ℕ) (value : Option V) (s : Checks T) : Option (Checks T) :=
  match value with
  | none => none
  | some v => checkType ty fuel (m.type v) s

/-- `Decode`, up to the decoding itself. -/
def decode [DecidableEq T] (fuel : ℕ) (e : Option V) (s : Checks T) (printed : List GoString) :
    Option (Checks T × Defaults) :=
  (checkValue ty m fuel e s).bind fun s' =>
    (checkDefault ty m e ⟨s'.errorCount, printed⟩).map (s', ·)

/-! ### What can be reached -/

/-- One step from a value to the next. -/
inductive Step where
  | field (i : ℕ)
  | elem
  deriving DecidableEq

/-- The values one step away. -/
def next (x : Value V) : List (Step × Value V) :=
  match m.shape x.ref with
  | .struct fields => fields.zipIdx.map fun f => (.field f.2, ty.field x f.1)
  | .ptr (some elem) => [(.elem, x.elem elem)]
  | _ => []

/-- Following the path leads from one value to the other. -/
inductive Leads : Value V → List Step → Value V → Prop
  | here (x) : Leads x [] x
  | step {x y z p a} : (a, y) ∈ next ty m x → Leads y p z → Leads x (a :: p) z

def Memory.basic? (v : V) : Option Basic :=
  match m.shape v with
  | .basic b => some b
  | _ => none

/-- A basic value that differs from the zero value. -/
def Memory.nonZero (v : V) : Bool := (m.basic? v).any fun b => !b.isZero

/-- The path leads to a basic value, within three levels. -/
def Reached (v : V) (p : List Step) (y : Value V) : Prop :=
  p.length < 3 ∧ Leads ty m (valueOf v) p y ∧ (m.basic? y.ref).isSome

/-- The paths to basic values within the given levels. -/
def basics : ℕ → Value V → List (List Step × Value V)
  | 0, _ => []
  | levels + 1, x =>
    if (m.basic? x.ref).isSome then [([], x)]
    else (next ty m x).flatMap fun a => (basics levels a.2).map fun y => (a.1 :: y.1, y.2)

end definitions

/-! ### The paths -/

section paths
variable {T V : Type} (ty : Types T) (m : Memory T V)

theorem next_of_basic {x : Value V} (hx : (m.basic? x.ref).isSome) : next ty m x = [] := by
  unfold Memory.basic? at hx
  unfold next
  cases hshape : m.shape x.ref with
  | basic b => rfl
  | struct fields => simp [hshape] at hx
  | ptr elem => simp [hshape] at hx
  | other => rfl

theorem nodup_next (x : Value V) : ((next ty m x).map Prod.fst).Nodup := by
  unfold next
  split
  · next fields _ =>
    have hindex : (fields.zipIdx.map fun f => (Step.field f.2, ty.field x f.1)).map Prod.fst =
        (List.range' 0 fields.length).map Step.field := by
      rw [← List.zipIdx_map_snd, List.map_map, List.map_map]
      rfl
    rw [hindex]
    exact (List.nodup_range').map fun i j h => Step.field.inj h
  · exact List.nodup_singleton _
  · exact List.nodup_nil

/-- The list of paths is complete, and has nothing else. -/
theorem mem_basics (levels : ℕ) (x : Value V) (p : List Step) (y : Value V) :
    (p, y) ∈ basics ty m levels x ↔
      p.length < levels ∧ Leads ty m x p y ∧ (m.basic? y.ref).isSome := by
  induction levels generalizing x p with
  | zero => simp [basics]
  | succ levels ih =>
    rw [basics]
    split
    · next hx =>
      -- nothing is below a basic value
      rw [List.mem_singleton, Prod.mk.injEq]
      constructor
      · rintro ⟨rfl, rfl⟩
        exact ⟨Nat.succ_pos _, .here _, hx⟩
      · rintro ⟨-, hleads, -⟩
        cases hleads with
        | here => exact ⟨rfl, rfl⟩
        | step hmem _ => simp [next_of_basic ty m hx] at hmem
    · next hx =>
      simp only [List.mem_flatMap, List.mem_map, Prod.mk.injEq]
      constructor
      · rintro ⟨⟨a, z⟩, hz, ⟨q, y'⟩, hq, rfl, rfl⟩
        obtain ⟨hlen, hleads, hy⟩ := (ih z q).mp hq
        exact ⟨Nat.succ_lt_succ hlen, .step hz hleads, hy⟩
      · rintro ⟨hlen, hleads, hy⟩
        cases hleads with
        | here => exact absurd hy hx
        | @step _ z _ q a hz hleads =>
          exact ⟨(a, z), hz, (q, y),
            (ih z q).mpr ⟨Nat.lt_of_succ_lt_succ hlen, hleads, hy⟩, rfl, rfl⟩

theorem nodup_basics (levels : ℕ) (x : Value V) : ((basics ty m levels x).map Prod.fst).Nodup := by
  induction levels generalizing x with
  | zero => exact List.nodup_nil
  | succ levels ih =>
    rw [basics]
    split
    · exact List.nodup_singleton _
    · rw [List.map_flatMap, List.nodup_flatMap]
      constructor
      · intro a _
        have hcons : ((basics ty m levels a.2).map fun y => (a.1 :: y.1, y.2)).map Prod.fst =
            ((basics ty m levels a.2).map Prod.fst).map (a.1 :: ·) := by
          rw [List.map_map, List.map_map]
          rfl
        rw [hcons]
        exact (ih a.2).map List.cons_injective
      · -- paths to different values start with different steps
        refine (List.pairwise_map.mp (nodup_next ty m x)).imp fun {a a'} hne p hp hp' => ?_
        simp only [List.mem_map] at hp hp'
        obtain ⟨_, ⟨y, -, rfl⟩, rfl⟩ := hp
        obtain ⟨_, ⟨y', -, rfl⟩, heq⟩ := hp'
        exact hne (List.cons.inj heq).1.symm

/-- The list counts the non-zero values by their paths. -/
theorem countP_basics (levels : ℕ) (x : Value V) :
    ((basics ty m levels x).map Prod.snd).countP (fun y => m.nonZero y.ref) =
      {p | ∃ y, p.length < levels ∧ Leads ty m x p y ∧ m.nonZero y.ref}.ncard := by
  let found := (basics ty m levels x).filter fun a => m.nonZero a.2.ref
  have hnodup : (found.map Prod.fst).Nodup :=
    (nodup_basics ty m levels x).sublist (List.filter_sublist.map _)
  have hset : {p | ∃ y, p.length < levels ∧ Leads ty m x p y ∧ m.nonZero y.ref} =
      ((found.map Prod.fst).toFinset : Set (List Step)) := by
    ext p
    simp only [Set.mem_ofPred_eq, List.coe_toFinset, List.mem_map, List.mem_filter, found]
    constructor
    · rintro ⟨y, hlen, hleads, hy⟩
      have hbasic : (m.basic? y.ref).isSome := Option.isSome_of_any hy
      exact ⟨(p, y), ⟨(mem_basics ty m levels x p y).mpr ⟨hlen, hleads, hbasic⟩, hy⟩, rfl⟩
    · rintro ⟨⟨q, y⟩, ⟨hmem, hy⟩, rfl⟩
      obtain ⟨hlen, hleads, -⟩ := (mem_basics ty m levels x q y).mp hmem
      exact ⟨y, hlen, hleads, hy⟩
  rw [hset, Set.ncard_coe_finset, List.toFinset_card_of_nodup hnodup,
    List.length_map, List.countP_map, List.countP_eq_length_filter]
  rfl

end paths

/-! ### The walk -/

section walk
variable {T V : Type} (ty : Types T) (m : Memory T V)

/-- What a check has to do with the basic values it meets: panic if one of them is read-only, and
    otherwise count those that are not zero. -/
def Memory.Reports (s : Defaults) (values : List (Value V)) : Option Defaults → Prop
  | none => ∃ y ∈ values, y.ro = true
  | some s' => (∀ y ∈ values, y.ro = false) ∧
      s'.errorCount = s.errorCount + values.countP fun y => m.nonZero y.ref

theorem reports_nil (s : Defaults) : m.Reports s [] (some s) :=
  ⟨fun _ h => absurd h List.not_mem_nil, rfl⟩

/-- One check after the other. -/
theorem reports_bind {s : Defaults} {xs ys : List (Value V)} {r : Option Defaults}
    {f : Defaults → Option Defaults} (hr : m.Reports s xs r) (hf : ∀ s', m.Reports s' ys (f s')) :
    m.Reports s (xs ++ ys) (r.bind f) := by
  cases r with
  | none =>
    obtain ⟨y, hy, hro⟩ := hr
    exact ⟨y, List.mem_append_left _ hy, hro⟩
  | some s' =>
    obtain ⟨hxs, hcount⟩ := hr
    have hrest := hf s'
    rw [Option.bind_some]
    cases hfs : f s' with
    | none =>
      rw [hfs] at hrest
      obtain ⟨y, hy, hro⟩ := hrest
      exact ⟨y, List.mem_append_right _ hy, hro⟩
    | some s'' =>
      rw [hfs] at hrest
      obtain ⟨hys, hcount'⟩ := hrest
      refine ⟨fun y hy => (List.mem_append.mp hy).elim (hxs y) (hys y), ?_⟩
      rw [hcount', hcount, List.countP_append, Nat.add_assoc]

/-- Over the fields of a struct. -/
theorem reports_run {F : Type} {check : Defaults → F → Option Defaults}
    {values : F → List (Value V)} (hcheck : ∀ s f, m.Reports s (values f) (check s f))
    (s : Defaults) (fields : List F) :
    m.Reports s (fields.flatMap values) (run check s fields) := by
  induction fields generalizing s with
  | nil => exact reports_nil m s
  | cons f fields ih =>
    rw [List.flatMap_cons]
    exact reports_bind m (hcheck s f) fun s' => ih s'

theorem values_of_struct {x : Value V} {fields : List (StructField V)} (levels : ℕ)
    (hx : m.shape x.ref = .struct fields) : (basics ty m (levels + 1) x).map Prod.snd =
      fields.flatMap fun f => (basics ty m levels (ty.field x f)).map Prod.snd := by
  have hbasic : m.basic? x.ref = none := by rw [Memory.basic?, hx]
  have hnext : next ty m x = fields.zipIdx.map fun f => (.field f.2, ty.field x f.1) := by
    rw [next, hx]
  rw [basics, hbasic, if_neg (by simp), hnext, List.flatMap_map, List.map_flatMap]
  conv_rhs => rw [← List.zipIdx_map_fst 0 fields, List.flatMap_map]
  exact List.flatMap_congr fun f _ => by rw [List.map_map]; rfl

theorem values_of_ptr {x : Value V} {elem : V} (levels : ℕ)
    (hx : m.shape x.ref = .ptr (some elem)) : (basics ty m (levels + 1) x).map Prod.snd =
      (basics ty m levels (x.elem elem)).map Prod.snd := by
  have hbasic : m.basic? x.ref = none := by rw [Memory.basic?, hx]
  have hnext : next ty m x = [(.elem, x.elem elem)] := by rw [next, hx]
  rw [basics, hbasic, if_neg (by simp), hnext, List.flatMap_singleton, List.map_map]
  rfl

theorem values_of_leaf {x : Value V} (levels : ℕ) (hbasic : m.basic? x.ref = none)
    (hnext : next ty m x = []) : (basics ty m (levels + 1) x).map Prod.snd = [] := by
  rw [basics, hbasic, if_neg (by simp), hnext]
  rfl

/-- The walk reports on the basic values within its levels. -/
theorem checkDefault1_reports (levels : ℕ) (x : Value V) (name : GoString) (s : Defaults) :
    m.Reports s ((basics ty m levels x).map Prod.snd) (checkDefault1 ty m levels x name s) := by
  induction levels generalizing x name s with
  | zero => exact reports_nil m s
  | succ levels ih =>
    rw [checkDefault1]
    cases hx : m.shape x.ref with
    | struct fields =>
      rw [values_of_struct ty m levels hx]
      exact reports_run m (fun s f => ih (ty.field x f) _ s) s fields
    | ptr elem =>
      cases elem with
      | none =>
        rw [values_of_leaf ty m levels (by rw [Memory.basic?, hx]) (by rw [next, hx])]
        exact reports_nil m s
      | some elem =>
        rw [values_of_ptr ty m levels hx]
        exact ih (x.elem elem) name s
    | basic b =>
      have hbasic : m.basic? x.ref = some b := by rw [Memory.basic?, hx]
      have hnonZero : m.nonZero x.ref = !b.isZero := by rw [Memory.nonZero, hbasic]; rfl
      rw [basics, hbasic, if_pos Option.isSome_some]
      cases hro : x.ro with
      | true => exact ⟨x, List.mem_singleton_self x, hro⟩
      | false =>
        have hvisible : ∀ y ∈ [x], y.ro = false := fun y hy => List.mem_singleton.mp hy ▸ hro
        dsimp only
        rw [if_neg Bool.false_ne_true]
        cases hzero : b.isZero with
        | true => exact ⟨hvisible, by simp [hnonZero, hzero]⟩
        | false => exact ⟨hvisible, by simp [hnonZero, hzero, Defaults.warn]⟩
    | other =>
      rw [values_of_leaf ty m levels (by rw [Memory.basic?, hx]) (by rw [next, hx])]
      exact reports_nil m s

end walk

/-! ### Both checks -/

section both
variable {T V : Type} [DecidableEq T] [Fintype T] (ty : Types T) (m : Memory T V)

theorem decode_some (v : V) (s : Checks T) : ∃ s', ∀ printed fuel, Fintype.card T < fuel →
    decode ty m fuel (some v) s printed =
      (checkDefault1 ty m 3 (valueOf v) [] ⟨s'.errorCount, printed⟩).map (s', ·) := by
  obtain ⟨s', hs'⟩ := checkType_returns ty (m.type v) s
  refine ⟨s', fun printed fuel hfuel => ?_⟩
  rw [decode, checkValue, hs' fuel hfuel]
  rfl

omit [DecidableEq T] [Fintype T] in
/-- What the walk does, in terms of what can be reached. -/
theorem checkDefault1_iff (v : V) (s : Defaults) :
    (∃ d, checkDefault1 ty m 3 (valueOf v) [] s = some d ∧
      d.errorCount = s.errorCount + {p | ∃ y, Reached ty m v p y ∧ m.nonZero y.ref}.ncard) ↔
    ∀ p y, Reached ty m v p y → y.ro = false := by
  have hreports := checkDefault1_reports ty m 3 (valueOf v) [] s
  have hset : {p | ∃ y, Reached ty m v p y ∧ m.nonZero y.ref} =
      {p | ∃ y, p.length < 3 ∧ Leads ty m (valueOf v) p y ∧ m.nonZero y.ref} := by
    ext p
    constructor
    · rintro ⟨y, ⟨hlen, hleads, -⟩, hy⟩
      exact ⟨y, hlen, hleads, hy⟩
    · rintro ⟨y, hlen, hleads, hy⟩
      exact ⟨y, ⟨hlen, hleads, Option.isSome_of_any hy⟩, hy⟩
  rw [hset, ← countP_basics]
  constructor
  · rintro ⟨d, hd, -⟩ p y hy
    rw [hd] at hreports
    exact hreports.1 y (List.mem_map.mpr ⟨(p, y), (mem_basics ty m 3 _ p y).mpr hy, rfl⟩)
  · intro hvisible
    cases hd : checkDefault1 ty m 3 (valueOf v) [] s with
    | some d =>
      rw [hd] at hreports
      exact ⟨d, rfl, hreports.2⟩
    | none =>
      rw [hd] at hreports
      obtain ⟨y, hy, hro⟩ := hreports
      obtain ⟨⟨p, y'⟩, hmem, rfl⟩ := List.mem_map.mp hy
      exact absurd hro (by simp [hvisible p y' ((mem_basics ty m 3 _ p y').mp hmem)])

/-- CORRECT: for an argument of any type, from any state, the checks of `Decode` return, with any
    stack that can hold all types, and count the non-zero basic values within three levels, exactly
    when the argument is not `nil` and none of the basic values within three levels, zero or not, is
    read-only: below an unexported field that is not embedded, or an unexported embedded field
    itself, followed by pointers only. -/
theorem decode_warns_iff (e : Option V) (s : Checks T) (printed : List GoString) :
    (∃ s' d, (∀ fuel, Fintype.card T < fuel → decode ty m fuel e s printed = some (s', d)) ∧
      d.errorCount = s'.errorCount +
        {p | ∃ v y, e = some v ∧ Reached ty m v p y ∧ m.nonZero y.ref}.ncard) ↔
    ∃ v, e = some v ∧ ∀ p y, Reached ty m v p y → y.ro = false := by
  cases e with
  | none =>
    constructor
    · rintro ⟨s', d, hdecode, -⟩
      have hnone : none = some (s', d) := hdecode _ (Nat.lt_succ_self _)
      cases hnone
    · rintro ⟨v, hv, -⟩
      cases hv
  | some v =>
    obtain ⟨s', hs'⟩ := decode_some ty m v s
    have hwalk := checkDefault1_iff ty m v ⟨s'.errorCount, printed⟩
    constructor
    · rintro ⟨s'', d, hdecode, hcount⟩
      have heq := hdecode _ (Nat.lt_succ_self _)
      rw [hs' printed _ (Nat.lt_succ_self _), Option.map_eq_some_iff] at heq
      obtain ⟨d', hd', hpair⟩ := heq
      obtain ⟨rfl, rfl⟩ := Prod.mk.inj hpair
      refine ⟨v, rfl, hwalk.mp ⟨d', hd', ?_⟩⟩
      simpa using hcount
    · rintro ⟨v', hv', hvisible⟩
      cases hv'
      obtain ⟨d, hd, hcount⟩ := hwalk.mpr hvisible
      refine ⟨s', d, fun fuel hfuel => ?_, ?_⟩
      · rw [hs' printed fuel hfuel, hd]
        rfl
      · simpa using hcount

/-- The types of `[]map[*T4]int`, where `T4` has fields `Yes` and `no`. -/
def capital : Types (Fin 5) where
  kind
    | 0 => .slice 1
    | 1 => .map 4 2
    | 2 => .ptr 3
    | 3 => .struct [⟨lit "Yes", 4⟩, ⟨lit "no", 4⟩]
    | 4 => .other
  name t := if t = 3 then lit "T4" else if t = 4 then lit "int" else []
  isUpper rune := lit "A" ≤ rune ∧ rune ≤ lit "Z"

example : (checkType capital 6 0 ⟨∅, 0, []⟩).map (fun s => (s.checked, s.errorCount)) =
    some (Finset.univ, 1) := by decide +kernel

/-- A new variable of the type `T4`, by its address: both fields are zero. -/
def fresh : Memory (Fin 5) (Fin 4) where
  type
    | 0 => 2
    | 1 => 3
    | 2 | 3 => 4
  shape
    | 0 => .ptr (some 1)
    | 1 => .struct [⟨lit "Yes", false, 2⟩, ⟨lit "no", false, 3⟩]
    | 2 | 3 => .basic (.int 0)

/-- Decoding into `nil` panics in `checkValue`; decoding into a new variable passes `checkValue` and
    panics in `checkDefault`, at the field `no`. -/
theorem decode_panics :
    (∀ fuel, checkValue capital fresh fuel none ⟨∅, 0, []⟩ = none) ∧
    (checkValue capital fresh 6 (some 0) ⟨∅, 0, []⟩).isSome ∧
    decode capital fresh 6 (some 0) ⟨∅, 0, []⟩ [] = none :=
  ⟨fun _ => rfl, by decide +kernel, by decide +kernel⟩

/-- The types of `struct Outer { inner; S string }`; `inner` has the one field `X`, an `int`. -/
def outer : Types (Fin 4) where
  kind
    | 0 => .struct [⟨lit "inner", 1⟩, ⟨lit "S", 3⟩]
    | 1 => .struct [⟨lit "X", 2⟩]
    | 2 | 3 => .other
  name t := if t = 0 then lit "Outer" else if t = 1 then lit "inner" else []
  isUpper := capital.isUpper

/-- The value `Outer{inner{5}, ""}`. -/
def promoted : Memory (Fin 4) (Fin 4) where
  type v := v
  shape
    | 0 => .struct [⟨lit "inner", true, 1⟩, ⟨lit "S", false, 3⟩]
    | 1 => .struct [⟨lit "X", false, 2⟩]
    | 2 => .basic (.int 5)
    | 3 => .basic (.string [])

-- one warning for the name `inner`, and one for the field `X`, which is not read-only
example : (decode outer promoted 5 (some 0) ⟨∅, 0, []⟩ []).map (fun r =>
    (r.1.errorCount, r.2.errorCount)) = some (1, 2) := by decide +kernel

end both

end DistSys.LabGob
