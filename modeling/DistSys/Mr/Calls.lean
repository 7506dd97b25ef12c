import DistSys.Mr.Sequential

/-! @go mr/worker.go, main/mrsequential.go | name:handleReduceTask, main | scheme:grouping |
    refines:sequential

    The calls of `reducef`. Both programs walk the sorted pairs block by block, a block being a
    longest stretch of one key: the worker collects the values while it looks for the end of the
    block, the sequential program afterwards. Each block is one call and one line.

        i          j                       worker       j := i + 1, values from i to j as j moves
        a₁ a₂ a₃ │ b₁ │ c₁ c₂              sequential   j first, then values for k := i; k < j -/

namespace DistSys.Mr
open GoString (lit)
open Grouping (reduced KeySorted valuesOf)

/-- The loop of `handleReduceTask` from index `i` on. -/
def reduceLoop (reducef : GoString → List GoString → GoString) (kva : List KeyValue)
    (i : ℕ) : List Call :=
  if h : i < kva.length then
    let key := kva[i].key
    let jvals := collect key (kva.drop (i + 1)) (i + 1) [kva[i].value]
    ⟨key, jvals.2, line (key, reducef key jvals.2)⟩ :: reduceLoop reducef kva jvals.1
  else []
termination_by kva.length - i
decreasing_by
  rw [collect_eq]
  omega

section
variable {reducef : GoString → List GoString → GoString} {kva : List KeyValue}

/-! ### The two loops -/

/-- The worker takes the block at `i`. -/
theorem reduceLoop_cons {i : ℕ} (h : i < kva.length) : reduceLoop reducef kva i =
    let block := (kva.drop (i + 1)).takeWhile (·.key = kva[i].key)
    let vals := kva[i].value :: block.map (·.value)
    ⟨kva[i].key, vals, line (kva[i].key, reducef kva[i].key vals)⟩ ::
      reduceLoop reducef kva (i + 1 + block.length) := by
  rw [reduceLoop, dif_pos h]
  simp only [collect_eq]
  rfl

theorem reduceLoop_nil {i : ℕ} (h : kva.length ≤ i) : reduceLoop reducef kva i = [] := by
  rw [reduceLoop, dif_neg (Nat.not_lt.mpr h)]

/-- The loops make the same calls, sorted or not. -/
theorem sequentialCalls_eq (i : ℕ) : sequentialCalls reducef kva i = reduceLoop reducef kva i := by
  fun_induction sequentialCalls reducef kva i with
  | case1 i h key j vals ih =>
    have hvals :
      vals = kva[i].value :: ((kva.drop (i + 1)).takeWhile (·.key = kva[i].key)).map (·.value) :=
      gather_block h
    have hj : j = i + 1 + ((kva.drop (i + 1)).takeWhile (·.key = kva[i].key)).length :=
      sameKey_eq _ _ _
    rw [reduceLoop_cons h, ih, hvals, hj]
  | case2 i h => rw [reduceLoop_nil (Nat.le_of_not_lt h)]

/-- A round of a worker among others is a call with its line. -/
theorem reduceRound_call {i j : ℕ} {record : GoString × GoString}
    (h : reduceRound reducef kva i = some (j, record)) :
    ∃ c, reduceLoop reducef kva i = c :: reduceLoop reducef kva j ∧ c.line = line record := by
  simp only [reduceRound, collect_eq, Option.map_eq_some_iff, Prod.mk.injEq] at h
  obtain ⟨kv, hkv, rfl, rfl⟩ := h
  obtain ⟨hi, rfl⟩ := List.getElem?_eq_some_iff.mp hkv
  exact ⟨_, reduceLoop_cons hi, rfl⟩

/-! ### What is called -/

theorem line_of_mem (i : ℕ) : ∀ c ∈ reduceLoop reducef kva i,
    c.line = line (c.key, reducef c.key c.vals) := by
  fun_induction reduceLoop reducef kva i with
  | case1 i h key jvals ih =>
    intro c hc
    rcases List.mem_cons.mp hc with rfl | hc
    · rfl
    · exact ih c hc
  | case2 i h => exact fun c hc => absurd hc List.not_mem_nil

/-- Over sorted pairs the loop makes one call for each key that is left, with its values. -/
theorem reduceLoop_eq (hs : KeySorted (·.key) kva) (i : ℕ) :
    (reduceLoop reducef kva i).map (fun c => (c.key, c.vals)) =
      reduced (·.key) (·.value) (fun _ vals => vals) (kva.drop i) := by
  fun_induction reduceLoop reducef kva i with
  | case1 i h key jvals ih =>
    have hjvals : jvals = _ := collect_eq _ _ _ _
    rw [List.map_cons, ih, reduced_drop hs (List.getElem?_eq_getElem h), hjvals]
    rfl
  | case2 i h => simp [List.drop_eq_nil_of_le (Nat.le_of_not_lt h)]

end

/-- CORRECT: on any sorted order of the pairs the worker calls `reducef` once for each key, in
    ascending order of the keys, with the values of that key in their order, and writes one line for
    each call. On the same order the sequential program makes the same calls and writes the same
    lines. -/
theorem reduce_calls_sound (reducef : GoString → List GoString → GoString)
    {pairs sorted : List KeyValue} (hperm : sorted.Perm pairs) (hs : KeySorted (·.key) sorted) :
    ((reduceLoop reducef sorted 0).map Call.key).Pairwise (· < ·) ∧
    (∀ key, key ∈ (reduceLoop reducef sorted 0).map Call.key ↔ key ∈ pairs.map KeyValue.key) ∧
    (∀ c ∈ reduceLoop reducef sorted 0,
      c.vals = (sorted.filter fun kv => kv.key = c.key).map KeyValue.value ∧
      c.line = line (c.key, reducef c.key c.vals)) ∧
    sequentialCalls reducef sorted 0 = reduceLoop reducef sorted 0 := by
  have heq := @reduceLoop_eq reducef _ hs 0
  rw [List.drop_zero] at heq
  have hkeys : (reduceLoop reducef sorted 0).map Call.key = (sorted.map KeyValue.key).dedup := by
    have := congrArg (List.map Prod.fst) heq
    simpa [reduced, Function.comp_def] using this
  refine ⟨?_, fun key => ?_, fun c hc => ⟨?_, line_of_mem 0 c hc⟩, sequentialCalls_eq 0⟩
  · rw [hkeys]
    have hsorted : (sorted.map KeyValue.key).Pairwise (· ≤ ·) := List.pairwise_map.mpr hs
    exact (hsorted.sublist (List.dedup_sublist _)).imp₂ (fun _ _ hle hne => lt_of_le_of_ne hle hne)
      (List.nodup_dedup _)
  · rw [hkeys, List.mem_dedup, (hperm.map KeyValue.key).mem_iff]
  · have hmem : (c.key, c.vals) ∈ reduced (·.key) (·.value) (fun _ vals => vals) sorted := by
      rw [← heq]
      exact List.mem_map_of_mem hc
    exact (Grouping.mem_reduced.mp hmem).2

/-- Three pairs of two keys, out of order. -/
def mixedPairs : List KeyValue := [⟨lit "b", lit "1"⟩, ⟨lit "a", lit "2"⟩, ⟨lit "b", lit "3"⟩]

/-- One of the orders in which sorting may leave them. -/
def mixedSorted : List KeyValue := [⟨lit "a", lit "2"⟩, ⟨lit "b", lit "3"⟩, ⟨lit "b", lit "1"⟩]

theorem reduce_calls_sound_mixed : mixedSorted.Perm mixedPairs ∧ KeySorted (·.key) mixedSorted ∧
    ((reduceLoop (fun _ vals => vals.flatten) mixedSorted 0).map Call.key).Pairwise (· < ·) ∧
    sequentialCalls (fun _ vals => vals.flatten) mixedSorted 0 =
      reduceLoop (fun _ vals => vals.flatten) mixedSorted 0 := by
  have hperm : mixedSorted.Perm mixedPairs := by decide
  have hs : KeySorted (·.key) mixedSorted := by decide
  obtain ⟨hkeys, -, -, hsame⟩ := reduce_calls_sound (fun _ vals => vals.flatten) hperm hs
  exact ⟨hperm, hs, hkeys, hsame⟩

end DistSys.Mr
