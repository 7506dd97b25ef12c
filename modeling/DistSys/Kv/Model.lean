import DistSys.Schemes.GoMap
import DistSys.Schemes.GoString
import DistSys.Schemes.Linear

/-! @go models1/kv.go, kvtest1/porcupine.go | name:KvModel, checkPorcupine | scheme:linear |
    refines:store

    The model of a key/value server that recorded histories are checked against. It is the model of
    one key; `Partition` splits the history by key, and the checker looks at each part alone. For
    the whole store that is no restriction.

        history   a:x  b:y  c:x  d:z  e:y         Partition   x ↦ a c    y ↦ b e    z ↦ d -/

namespace DistSys.Kv
open GoString (lit)
open Machine (run)
open Linear (InTime Linearizable storeStep locality)

/-- `Op` is 0 for a get and 1 for a put. -/
structure KvInput where
  op : UInt8
  key : GoString
  value : GoString
  version : UInt64
  deriving DecidableEq

structure KvOutput where
  value : GoString
  version : UInt64
  err : GoString
  deriving DecidableEq

structure KvState where
  value : GoString
  version : UInt64
  deriving DecidableEq

/-- `porcupine.Operation`, with the input and output types of this model. -/
structure Operation where
  clientId : ℤ
  input : KvInput
  call : ℤ
  output : KvOutput
  ret : ℤ
  deriving DecidableEq

/-- `m[key] = append(m[key], v)`. -/
def addOp (m : GoMap GoString (List Operation)) (v : Operation) : GoMap GoString (List Operation) :=
  m.insert v.input.key ((m.lookup v.input.key).getD [] ++ [v])

/-- The map `Partition` builds. -/
def byKey (history : List Operation) : GoMap GoString (List Operation) :=
  history.foldl addOp ∅

/-- `KvModel.Partition`; `o` is the order of the `range` over the map. -/
def partition (o : RangeOrder GoString) (history : List Operation) : List (List Operation) :=
  (o.visit (byKey history).keys).mergeSort.map fun k => ((byKey history).lookup k).getD []

/-- `KvModel.Init`. -/
def init : KvState := ⟨[], 0⟩

/-- `KvModel.Step`; no state stands for the string it returns for another operation. -/
def modelStep (st : KvState) (inp : KvInput) (out : KvOutput) : Bool × Option KvState :=
  if inp.op = 0 then (out.value = st.value, some st)
  else if inp.op = 1 then
    if st.version = inp.version then
      (out.err = lit "OK" || out.err = lit "ErrMaybe", some ⟨inp.value, st.version + 1⟩)
    else (out.err = lit "ErrVersion" || out.err = lit "ErrMaybe", some st)
  else (false, none)

/-- One operation of a fold of `KvModel.Step`. -/
def accept (st : KvState) (v : KvInput × KvOutput) : Option KvState :=
  if (modelStep st v.1 v.2).1 then (modelStep st v.1 v.2).2 else none

def Operation.step (st : KvState) (v : Operation) : Option KvState := accept st (v.input, v.output)

/-- There is an order of the operations, respecting time, that the fold of `Step` accepts. -/
def KeyLinearizable (history : List Operation) : Prop :=
  Linearizable Operation.call Operation.ret (fun l => (run Operation.step init l).isSome) history

/-- The same for the store with a state for every key. -/
def StoreLinearizable (history : List Operation) : Prop :=
  Linearizable Operation.call Operation.ret
    (fun l => (run (storeStep Operation.step fun v => v.input.key) (fun _ => init) l).isSome)
      history

/-! ### Partition -/

theorem lookup_foldl_addOp (k : GoString) (history : List Operation)
    (m : GoMap GoString (List Operation)) : ((history.foldl addOp m).lookup k).getD [] =
      (m.lookup k).getD [] ++ history.filter (·.input.key = k) := by
  induction history generalizing m with
  | nil => simp
  | cons v history ih =>
    rw [List.foldl_cons, ih, addOp]
    rcases eq_or_ne v.input.key k with rfl | hne
    · simp
    · simp [Finmap.lookup_insert_of_ne _ hne.symm, hne]

theorem mem_foldl_addOp (k : GoString) (history : List Operation)
    (m : GoMap GoString (List Operation)) : k ∈ history.foldl addOp m ↔ k ∈ m ∨
      ∃ v ∈ history, v.input.key = k := by
  induction history generalizing m with
  | nil => simp
  | cons v history ih =>
    rw [List.foldl_cons, ih, addOp, Finmap.mem_insert]
    simp only [List.mem_cons, exists_eq_or_imp, eq_comm (a := k)]
    tauto

/-- One group for each key that occurs, in ascending order of the keys, with its operations in the
    order of the history; whatever the order of the `range`. -/
theorem partition_eq (o : RangeOrder GoString) (history : List Operation) : ∃ keys : List GoString,
    keys.Pairwise (· < ·) ∧ (∀ k, k ∈ keys ↔ ∃ v ∈ history, v.input.key = k) ∧
    partition o history = keys.map fun k => history.filter (·.input.key = k) := by
  refine ⟨(o.visit (byKey history).keys).mergeSort, ?_, fun k => ?_, ?_⟩
  · have hsorted := List.pairwise_mergeSort' (· ≤ ·) (o.visit (byKey history).keys)
    have hnodup : (o.visit (byKey history).keys).mergeSort.Nodup :=
      (List.mergeSort_perm _ _).nodup_iff.mpr (o.nodup_visit _)
    exact hsorted.imp₂ (fun _ _ hle hne => lt_of_le_of_ne hle hne) hnodup
  · rw [List.mem_mergeSort, o.mem_visit, Finmap.mem_keys, byKey, mem_foldl_addOp]
    exact or_iff_right Finmap.notMem_empty
  · refine List.map_congr_left fun k _ => ?_
    rw [byKey, lookup_foldl_addOp]
    simp

/-- CORRECT: checking per key is checking the whole store. -/
theorem check_per_key (o : RangeOrder GoString) (history : List Operation)
    (hcall : ∀ v ∈ history, v.call ≤ v.ret) :
    (StoreLinearizable history ↔ ∀ group ∈ partition o history, KeyLinearizable group) ∧
    (∃ keys : List GoString, keys.Pairwise (· < ·) ∧
      (∀ k, k ∈ keys ↔ ∃ v ∈ history, v.input.key = k) ∧
      partition o history = keys.map fun k => history.filter (·.input.key = k)) ∧
    (∀ group ∈ partition o history, group ≠ []) ∧ (partition o history).flatten.Perm history ∧
    ∀ checkOperations : List Operation → Bool,
      (∀ h, checkOperations h = true ↔ ∀ group ∈ partition o h, KeyLinearizable group) →
      (checkOperations history = true ↔ StoreLinearizable history) := by
  obtain ⟨keys, hsorted, hkeys, hpartition⟩ := partition_eq o history
  have hiff : StoreLinearizable history ↔ ∀ group ∈ partition o history, KeyLinearizable group := by
    rw [StoreLinearizable, locality hcall, hpartition, List.forall_mem_map]
    refine ⟨fun h k _ => h k, fun h k => ?_⟩
    rcases Classical.em (k ∈ keys) with hk | hk
    · exact h k hk
    · -- nothing happened to a key that does not occur
      have hnone : history.filter (·.input.key = k) = [] :=
        List.filter_eq_nil_iff.mpr fun v hv => by
          simpa using fun heq => hk ((hkeys k).mpr ⟨v, hv, heq⟩)
      rw [hnone]
      exact ⟨[], List.Perm.refl _, List.Pairwise.nil, rfl⟩
  refine ⟨hiff, ⟨keys, hsorted, hkeys, hpartition⟩, ?_, ?_,
    fun check hcheck => (hcheck history).trans hiff.symm⟩
  · rw [hpartition, List.forall_mem_map]
    intro k hk
    obtain ⟨v, hv, hkey⟩ := (hkeys k).mp hk
    exact List.ne_nil_of_mem (List.mem_filter.mpr ⟨hv, by simpa using hkey⟩)
  · rw [hpartition, ← List.flatMap_def]
    exact Grouping.flatMap_filter_perm (hsorted.imp ne_of_lt) fun v hv => (hkeys _).mpr ⟨v, hv, rfl⟩

/-- A get overlaps the put that makes its key, and misses it; another key is put afterwards. -/
def raceHistory : List Operation :=
  [⟨0, ⟨1, lit "x", lit "v", 0⟩, 0, ⟨[], 0, lit "OK"⟩, 30⟩,
    ⟨1, ⟨0, lit "x", [], 0⟩, 10, ⟨[], 0, lit "ErrNoKey"⟩, 20⟩,
    ⟨1, ⟨1, lit "y", lit "w", 0⟩, 40, ⟨[], 0, lit "ErrMaybe"⟩, 50⟩]

theorem check_per_key_race : (∀ v ∈ raceHistory, v.call ≤ v.ret) ∧
    ∀ group ∈ partition (RangeOrder.ascending GoString) raceHistory, KeyLinearizable group := by
  refine ⟨by decide,
    (check_per_key (RangeOrder.ascending GoString) raceHistory (by decide)).1.mp ?_⟩
  refine ⟨[raceHistory[1], raceHistory[0], raceHistory[2]], List.Perm.swap _ _ _, ?_, rfl⟩
  simp [InTime, raceHistory]

end DistSys.Kv
