import DistSys.Mr.Worker

/-! @go main/mrsequential.go | name:main | scheme:grouping

    The sequential program a distributed job is measured against. It maps every input in order,
    sorts all pairs by key, and walks the blocks with two inner loops, one to find the end of the
    block and one to collect its values. -/

namespace DistSys.Mr
open Grouping (reduced KeySorted)

/-- `intermediate` once every file, given with its content, has been mapped. -/
def sequentialPairs (mapf : GoString → GoString → List KeyValue)
    (inputs : List (GoString × GoString)) : List KeyValue := inputs.flatMap fun p => mapf p.1 p.2

/-- `for j < len(intermediate) && intermediate[j].Key == key { j++ }`, over the pairs from `j`
    on. -/
def sameKey (key : GoString) : List KeyValue → ℕ → ℕ
  | [], j => j
  | kv :: kvs, j => if kv.key = key then sameKey key kvs (j + 1) else j

/-- `for k := i; k < j; k++ { values = append(values, intermediate[k].Value) }`, in `j - i`
    rounds. -/
def gather (kva : List KeyValue) : ℕ → ℕ → List GoString
  | 0, _ => []
  | n + 1, k => (kva[k]?.map (·.value)).toList ++ gather kva n (k + 1)

theorem sameKey_eq (key : GoString) (kvs : List KeyValue) (j : ℕ) :
    sameKey key kvs j = j + (kvs.takeWhile (·.key = key)).length := by
  induction kvs generalizing j with
  | nil => simp [sameKey]
  | cons kv kvs ih =>
    rw [sameKey]
    rcases eq_or_ne kv.key key with h | h
    · rw [if_pos h, ih]
      simp [h]
      omega
    · simp [h]

/-- A call of `reducef`, and the line written for its result. -/
structure Call where
  key : GoString
  vals : List GoString
  line : GoString
  deriving DecidableEq

/-- The outer loop from index `i` on. -/
def sequentialCalls (reducef : GoString → List GoString → GoString) (kva : List KeyValue) (i : ℕ) :
    List Call :=
  if h : i < kva.length then
    let key := kva[i].key
    let j := sameKey key (kva.drop (i + 1)) (i + 1)
    let vals := gather kva (j - i) i
    ⟨key, vals, line (key, reducef key vals)⟩ :: sequentialCalls reducef kva j
  else []
termination_by kva.length - i
decreasing_by
  rw [sameKey_eq]
  omega

/-- The records written to `mr-out-0`: the results of the calls. -/
def sequentialRecords (reducef : GoString → List GoString → GoString)
    (kva : List KeyValue) (i : ℕ) : List (GoString × GoString) :=
  (sequentialCalls reducef kva i).map fun c => (c.key, reducef c.key c.vals)

/-- The records `mrsequential` may write: `sort.Sort` leaves any order of the pairs sorted by
    key. -/
def Sequential (mapf : GoString → GoString → List KeyValue)
    (reducef : GoString → List GoString → GoString) (inputs : List (GoString × GoString))
    (records : List (GoString × GoString)) : Prop :=
  ∃ sorted, sorted.Perm (sequentialPairs mapf inputs) ∧ KeySorted (·.key) sorted ∧
    records = sequentialRecords reducef sorted 0

theorem gather_eq (kva : List KeyValue) (n k : ℕ) :
    gather kva n k = ((kva.drop k).take n).map (·.value) := by
  induction n generalizing k with
  | zero => simp [gather]
  | succ n ih =>
    rw [gather, ih (k + 1)]
    cases h : kva[k]? with
    | none =>
      have hk := List.getElem?_eq_none_iff.mp h
      simp [List.drop_eq_nil_of_le hk, List.drop_eq_nil_of_le (Nat.le_succ_of_le hk)]
    | some kv =>
      obtain ⟨hk, rfl⟩ := List.getElem?_eq_some_iff.mp h
      rw [List.drop_eq_getElem_cons hk, List.take_succ_cons, List.map_cons]
      rfl

/-- The values gathered over a block. -/
theorem gather_block {kva : List KeyValue} {i : ℕ} (h : i < kva.length) :
    gather kva (sameKey kva[i].key (kva.drop (i + 1)) (i + 1) - i) i =
      kva[i].value :: ((kva.drop (i + 1)).takeWhile (·.key = kva[i].key)).map (·.value) := by
  obtain ⟨hdrop, _⟩ := drop_block (List.getElem?_eq_getElem h)
  have hlen : sameKey kva[i].key (kva.drop (i + 1)) (i + 1) - i =
      (kva[i] :: (kva.drop (i + 1)).takeWhile (·.key = kva[i].key)).length := by
    rw [sameKey_eq, List.length_cons]; omega
  rw [gather_eq, hdrop, hlen, List.take_left, List.map_cons]

/-- Over sorted pairs the loop emits one record for each key that is left. -/
theorem sequentialRecords_eq {reducef : GoString → List GoString → GoString} {kva : List KeyValue}
    (hs : KeySorted (·.key) kva) (i : ℕ) :
    sequentialRecords reducef kva i = reduced (·.key) (·.value) reducef (kva.drop i) := by
  rw [sequentialRecords]
  fun_induction sequentialCalls reducef kva i with
  | case1 i h key j vals ih =>
    have hj : j = i + 1 + ((kva.drop (i + 1)).takeWhile (·.key = kva[i].key)).length :=
      sameKey_eq _ _ _
    rw [List.map_cons, ih, reduced_drop hs (List.getElem?_eq_getElem h), ← gather_block h, ← hj]
  | case2 i h => simp [List.drop_eq_nil_of_le (Nat.le_of_not_lt h)]

end DistSys.Mr
