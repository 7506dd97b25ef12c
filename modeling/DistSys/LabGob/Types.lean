import DistSys.Schemes.Search
import DistSys.Schemes.Utf8
import Mathlib.Algebra.BigOperators.Group.Finset.Basic

/-! @go labgob/labgob.go | name:checkType | scheme:search

    Before a value is encoded or decoded, its type is searched for fields that start with a
    lower-case letter, which gob would drop. Each type is marked as it is entered and searched once,
    over all calls; so a recursive type ends the search, and a field is complained about once.

        struct          fields in order, each with a warning if need be
        slice, array, pointer      element
        map             element, key

    The search is the depth-first search of the library, with a warning on some of the edges. Types
    are the nodes of a finite graph; `unicode.IsUpper` may be any predicate of a rune in UTF-8. -/

namespace DistSys.LabGob
open GoString (lit)
open Machine (run run_map)
open Search (Reaches Walk visit visit_explores visit_mono Searched searched_run)

structure Field (T : Type) where
  name : GoString
  type : T

/-- What `Kind`, `Field`, `Elem` and `Key` tell of a type. -/
inductive Kind (T : Type) where
  | struct (fields : List (Field T))
  | slice (elem : T)
  | array (elem : T)
  | ptr (elem : T)
  | map (elem key : T)
  | other

structure Types (T : Type) where
  kind : T → Kind T
  name : T → GoString
  isUpper : GoString → Bool

/-- A warning, by the field that it is about. -/
structure Warning (T : Type) where
  type : T
  index : ℕ
  text : GoString
  deriving DecidableEq

/-- The variables of the package, and what was printed. -/
structure Checks (T : Type) where
  checked : Finset T
  errorCount : ℕ
  printed : List (Warning T)

section definitions
variable {T : Type} (ty : Types T)

/-- `utf8.DecodeRuneInString`: the first rune, or the replacement character. -/
def firstRune (name : GoString) : GoString :=
  ((Utf8.runes name).head?.bind id).getD Utf8.replacement

/-- The warning that field `i` of `t` deserves. -/
def Types.warning (t : T) (i : ℕ) (f : Field T) : Option (Warning T) :=
  if ty.isUpper (firstRune f.name) = false then
    some ⟨t, i, lit "labgob error: lower-case field " ++ f.name ++ lit " of " ++ ty.name t ++
      lit " in RPC or persist/snapshot will break your Raft\n"⟩
  else none

def Checks.warn (s : Checks T) : Option (Warning T) → Checks T
  | some w => { s with errorCount := s.errorCount + 1, printed := s.printed ++ [w] }
  | none => s

/-- `checkType`, with a stack of bounded depth. -/
def checkType [DecidableEq T] : ℕ → T → Checks T → Option (Checks T)
  | 0, _, _ => none
  | fuel + 1, t, s =>
    if t ∈ s.checked then some s
    else
      let s := { s with checked := insert t s.checked }
      match ty.kind t with
      | .struct fields =>
        run (fun s (f : Field T × ℕ) => checkType fuel f.1.type (s.warn (ty.warning t f.2 f.1)))
          s fields.zipIdx
      | .slice elem | .array elem | .ptr elem => checkType fuel elem s
      | .map elem key => (checkType fuel elem s).bind fun s => checkType fuel key s
      | .other => some s

/-- The types that `checkType` goes on to. -/
def Types.children (t : T) : List T :=
  match ty.kind t with
  | .struct fields => fields.map Field.type
  | .slice elem | .array elem | .ptr elem => [elem]
  | .map elem key => [elem, key]
  | .other => []

def Types.fields (t : T) : List (Field T) :=
  match ty.kind t with
  | .struct fields => fields
  | _ => []

/-- The warning on an edge of the graph. -/
def Types.lower (e : T × ℕ) : Option (Warning T) := (ty.fields e.1)[e.2]?.bind (ty.warning e.1 e.2)

/-- The warnings that one type deserves. -/
def Types.lowerFields (t : T) : List (Warning T) :=
  (List.range (ty.fields t).length).filterMap fun i => ty.lower (t, i)

end definitions

/-! ### The search behind it -/

section search
variable {T : Type} (ty : Types T)

/-- What the package knows after a walk, if it knew `s₀` before. -/
def Types.checks (s₀ : Checks T) (w : Walk T) : Checks T :=
  ⟨w.seen, s₀.errorCount + (w.edges.filterMap ty.lower).length,
    s₀.printed ++ w.edges.filterMap ty.lower⟩

theorem checks_follow (s₀ : Checks T) (w : Walk T) (t : T) (i : ℕ) :
    ty.checks s₀ (w.follow t i) = (ty.checks s₀ w).warn (ty.lower (t, i)) := by
  cases hlower : ty.lower (t, i) with
  | none => simp [Types.checks, Walk.follow, Checks.warn, hlower]
  | some warning =>
    simp [Types.checks, Walk.follow, Checks.warn, hlower, Nat.add_assoc, List.append_assoc]

/-- There is no warning on the edges of a type that is not a struct. -/
theorem checks_follow_of_not_struct (s₀ : Checks T) (w : Walk T) {t : T}
    (ht : ty.fields t = []) (i : ℕ) : ty.checks s₀ (w.follow t i) = ty.checks s₀ w := by
  rw [checks_follow, Types.lower, ht]
  rfl

variable [DecidableEq T]

/-- `checkType` is a depth-first search. -/
theorem checkType_eq_visit (s₀ : Checks T) (fuel : ℕ) (t : T) (w : Walk T) :
    checkType ty fuel t (ty.checks s₀ w) =
      (visit ty.children fuel t w).map (ty.checks s₀) := by
  induction fuel generalizing t w with
  | zero => rfl
  | succ fuel ih =>
    rw [checkType, visit]
    by_cases ht : t ∈ w.seen
    · rw [if_pos ht, if_pos (show t ∈ (ty.checks s₀ w).checked from ht)]
      rfl
    · rw [if_neg ht, if_neg (show t ∉ (ty.checks s₀ w).checked from ht)]
      have henter : { ty.checks s₀ w with checked := insert t (ty.checks s₀ w).checked } =
        ty.checks s₀ (w.enter t) := rfl
      rw [henter]
      -- off the structs, both go over the same children
      have hplain : ty.fields t = [] →
          run (fun s (c : T × ℕ) => checkType ty fuel c.1 s) (ty.checks s₀ (w.enter t))
            (ty.children t).zipIdx =
          (run (fun w (c : T × ℕ) => visit ty.children fuel c.1 (w.follow t c.2)) (w.enter t)
            (ty.children t).zipIdx).map (ty.checks s₀) := fun hfields => by
        conv_rhs => rw [← List.map_id (ty.children t).zipIdx]
        refine run_map (ty.children t).zipIdx (fun w c _ => ?_) (w.enter t)
        rw [id, ← ih, checks_follow_of_not_struct ty s₀ w hfields]
      cases hkind : ty.kind t with
      | struct fields =>
        have hfields : ty.fields t = fields := by simp only [Types.fields, hkind]
        have hchildren : (ty.children t).zipIdx = fields.zipIdx.map (Prod.map Field.type id) := by
          simp only [Types.children, hkind, List.zipIdx_map]
        rw [hchildren]
        refine run_map fields.zipIdx (fun w f hf => ?_) (w.enter t)
        have hget : fields[f.2]? = some f.1 := List.mem_zipIdx_iff_getElem?.mp hf
        rw [Prod.map_fst, Prod.map_snd, id, ← ih, checks_follow, Types.lower, hfields,
          hget, Option.bind_some]
      | slice elem | array elem | ptr elem =>
        have hfields : ty.fields t = [] := by simp only [Types.fields, hkind]
        have hchildren : ty.children t = [elem] := by simp only [Types.children, hkind]
        rw [← hplain hfields, hchildren]
        simp only [List.zipIdx_cons, List.zipIdx_nil, run, Option.bind_fun_some]
      | map elem key =>
        have hfields : ty.fields t = [] := by simp only [Types.fields, hkind]
        have hchildren : ty.children t = [elem, key] := by simp only [Types.children, hkind]
        rw [← hplain hfields, hchildren]
        simp only [List.zipIdx_cons, List.zipIdx_nil, run, Option.bind_fun_some]
      | other =>
        have hchildren : ty.children t = [] := by simp only [Types.children, hkind]
        rw [hchildren]
        rfl

end search

/-! ### Counting the warnings -/

section counting
variable {T : Type} (ty : Types T)

/-- A warning tells which edge it is on. -/
theorem lower_eq_some {e : T × ℕ} {warning : Warning T} (h : ty.lower e = some warning) :
    e = (warning.type, warning.index) := by
  obtain ⟨f, -, hw⟩ := Option.bind_eq_some_iff.mp h
  simp only [Types.warning, Option.ite_none_right_eq_some, Option.some.injEq] at hw
  obtain ⟨-, rfl⟩ := hw
  rfl

theorem lower_lt {t : T} {i : ℕ} {warning : Warning T} (h : ty.lower (t, i) = some warning) :
    i < (ty.fields t).length := by
  obtain ⟨f, hf, -⟩ := Option.bind_eq_some_iff.mp h
  exact (List.getElem?_eq_some_iff.mp hf).1

/-- Only structs have fields, and each field is a child. -/
theorem length_fields_le (t : T) : (ty.fields t).length ≤ (ty.children t).length := by
  cases hkind : ty.kind t with
  | struct fields => simp [Types.fields, Types.children, hkind]
  | slice elem | array elem | ptr elem | map elem key | other => simp [Types.fields, hkind]

theorem mem_lowerFields {t : T} {warning : Warning T} :
    warning ∈ ty.lowerFields t ↔ warning.type = t ∧ ty.lower (t, warning.index) = some warning := by
  simp only [Types.lowerFields, List.mem_filterMap, List.mem_range]
  constructor
  · rintro ⟨i, -, hw⟩
    obtain ⟨rfl, rfl⟩ := Prod.mk.inj (lower_eq_some ty hw)
    exact ⟨rfl, hw⟩
  · rintro ⟨-, hw⟩
    exact ⟨_, lower_lt ty hw, hw⟩

theorem nodup_lowerFields (t : T) : (ty.lowerFields t).Nodup := by
  refine List.nodup_range.filterMap fun i i' warning hw hw' => ?_
  exact (Prod.mk.inj ((lower_eq_some ty hw).trans (lower_eq_some ty hw').symm)).2

variable {roots : List T} {w : Walk T}

/-- After a search, the warnings are those that the types seen deserve, each of them once. -/
theorem printed_search (h : Searched ty.children roots w) :
    (w.edges.filterMap ty.lower).Nodup ∧ ∀ warning, warning ∈ w.edges.filterMap ty.lower ↔
      warning.type ∈ w.seen ∧ warning ∈ ty.lowerFields warning.type := by
  refine ⟨h.nodup.filterMap fun e e' warning hw hw' => ?_, fun warning => ?_⟩
  · exact (lower_eq_some ty hw).trans (lower_eq_some ty hw').symm
  · rw [List.mem_filterMap, mem_lowerFields]
    constructor
    · rintro ⟨⟨t, i⟩, he, hw⟩
      obtain ⟨rfl, rfl⟩ := Prod.mk.inj (lower_eq_some ty hw)
      exact ⟨((h.edges _ _).mp he).1, rfl, hw⟩
    · rintro ⟨hseen, -, hw⟩
      exact ⟨_, (h.edges _ _).mpr ⟨hseen, (lower_lt ty hw).trans_le (length_fields_le ty _)⟩, hw⟩

variable [DecidableEq T]

/-- So there are as many as these types have lower-case fields. -/
theorem length_printed_search (h : Searched ty.children roots w) :
    (w.edges.filterMap ty.lower).length = ∑ t ∈ w.seen, (ty.lowerFields t).length := by
  obtain ⟨hnodup, hmem⟩ := printed_search ty h
  have hunion : (w.edges.filterMap ty.lower).toFinset =
      w.seen.biUnion fun t => (ty.lowerFields t).toFinset := by
    ext warning
    simp only [List.mem_toFinset, hmem, Finset.mem_biUnion]
    constructor
    · rintro ⟨hseen, hw⟩
      exact ⟨_, hseen, hw⟩
    · rintro ⟨t, hseen, hw⟩
      obtain rfl := ((mem_lowerFields ty).mp hw).1
      exact ⟨hseen, hw⟩
  have hdisjoint : ∀ t ∈ w.seen, ∀ t' ∈ w.seen, t ≠ t' →
      Disjoint (ty.lowerFields t).toFinset (ty.lowerFields t').toFinset := by
    intro t _ t' _ hne
    rw [Finset.disjoint_left]
    intro warning hw hw'
    rw [List.mem_toFinset, mem_lowerFields] at hw hw'
    exact hne (hw.1.symm.trans hw'.1)
  calc (w.edges.filterMap ty.lower).length
      = (w.edges.filterMap ty.lower).toFinset.card := (List.toFinset_card_of_nodup hnodup).symm
    _ = ∑ t ∈ w.seen, (ty.lowerFields t).toFinset.card := by
      rw [hunion, Finset.card_biUnion hdisjoint]
    _ = ∑ t ∈ w.seen, (ty.lowerFields t).length :=
        Finset.sum_congr rfl fun t _ => List.toFinset_card_of_nodup (nodup_lowerFields ty t)

end counting

/-! ### Calls one after the other -/

section calls
variable {T : Type} [DecidableEq T] [Fintype T] (ty : Types T)

/-- A call returns whatever has been checked before. -/
theorem checkType_returns (t : T) (s : Checks T) :
    ∃ s', ∀ fuel, Fintype.card T < fuel → checkType ty fuel t s = some s' := by
  have hstart : s = ty.checks s ⟨s.checked, []⟩ := by simp [Types.checks]
  have hcard : (Finset.univ \ s.checked).card < Fintype.card T + 1 :=
    Nat.lt_succ_of_le (Finset.card_le_univ _)
  obtain ⟨u, hu, -⟩ :=
    @visit_explores T _ ty.children _ (Fintype.card T + 1) t ⟨s.checked, []⟩ hcard
  refine ⟨ty.checks s u, fun fuel hfuel => ?_⟩
  rw [hstart, checkType_eq_visit, visit_mono hfuel hu, ← hstart]
  rfl

/-- CORRECT: on any finite graph of types and for any sequence of calls, each call returns, with any
    stack that can hold all types; afterwards the types checked are those that can be reached from
    the types asked for, each lower-case field among them has been warned about once, and the error
    count has gone up by their number. -/
theorem checkType_exact (roots : List T) (errorCount : ℕ) : ∃ s : Checks T,
    (∀ fuel, Fintype.card T < fuel →
      run (fun s t => checkType ty fuel t s) ⟨∅, errorCount, []⟩ roots = some s) ∧
    (∀ t, t ∈ s.checked ↔ ∃ r ∈ roots, Reaches ty.children r t) ∧
    s.errorCount = errorCount + ∑ t ∈ s.checked, (ty.lowerFields t).length ∧
    s.printed.Nodup ∧
    ∀ warning, warning ∈ s.printed ↔ warning.type ∈ s.checked ∧
      warning ∈ ty.lowerFields warning.type := by
  obtain ⟨w, hrun, hw⟩ := searched_run ty.children roots
  obtain ⟨hnodup, hmem⟩ := printed_search ty hw
  refine ⟨ty.checks ⟨∅, errorCount, []⟩ w, fun fuel hfuel => ?_, hw.seen, ?_, hnodup, hmem⟩
  · have hsim :
      run (fun s t => checkType ty fuel t s) (ty.checks ⟨∅, errorCount, []⟩ ⟨∅, []⟩) roots =
        (run (fun w t => visit ty.children fuel t w) ⟨∅, []⟩ (roots.map id)).map
          (ty.checks ⟨∅, errorCount, []⟩) :=
      run_map roots (fun w t _ => checkType_eq_visit ty _ fuel t w) _
    rw [List.map_id, hrun fuel hfuel] at hsim
    exact hsim
  · exact congrArg (errorCount + ·) (length_printed_search ty hw)

end calls

end DistSys.LabGob
