import Mathlib.Data.List.Dedup
import Mathlib.Data.List.Sort
import Mathlib.Order.Defs.LinearOrder

/-! @scheme grouping | family:map-reduce | independent-of:order, partition

    Reducing a list of keyed items: one result for each distinct key, computed from the values of
    that key. When the reduction does not care about the order of the values, the results depend
    only on which items there are. Sorting the items by key in two ways gives the same results in
    the same order, and splitting them by a function of the key gives the same results together.

        items  a₁ b₁ a₂ c₁ b₂   ──▶   (a, f [a₁ a₂])  (b, f [b₁ b₂])  (c, f [c₁]) -/

namespace DistSys.Grouping

variable {α K V O : Type*}

/-- The values of the items with key `k`, in order. -/
def valuesOf [DecidableEq K] (key : α → K) (val : α → V) (k : K) (l : List α) : List V :=
  (l.filter fun x => key x = k).map val

/-- One result for each distinct key. -/
def reduced [DecidableEq K] (key : α → K) (val : α → V) (f : K → List V → O)
    (l : List α) : List (K × O) :=
  (l.map key).dedup.map fun k => (k, f k (valuesOf key val k l))

/-- The order of the values of a key does not matter. -/
def Insensitive (f : K → List V → O) : Prop := ∀ k vs vs', vs.Perm vs' → f k vs = f k vs'

/-- Sorted by key. -/
def KeySorted [LE K] (key : α → K) (l : List α) : Prop := l.Pairwise fun x y => key x ≤ key y

instance [LE K] [DecidableLE K] (key : α → K) (l : List α) : Decidable (KeySorted key l) :=
  inferInstanceAs (Decidable (l.Pairwise _))

/-! ### Parts by key -/

/-- A family that is empty but for one key. -/
theorem flatMap_single {β : Type*} {f : K → List β} {k : K} {keys : List K} (hnodup : keys.Nodup)
    (hother : ∀ k' ≠ k, f k' = []) (hout : k ∉ keys → f k = []) : keys.flatMap f = f k := by
  induction keys with
  | nil => exact (hout List.not_mem_nil).symm
  | cons k' keys ih =>
    obtain ⟨hk', hnodup⟩ := List.nodup_cons.mp hnodup
    rcases eq_or_ne k' k with rfl | hne
    · have hrest : keys.flatMap f = [] :=
        List.flatMap_eq_nil_iff.mpr fun k hk => hother k fun heq => hk' (heq ▸ hk)
      rw [List.flatMap_cons, hrest, List.append_nil]
    · rw [List.flatMap_cons, hother k' hne, List.nil_append]
      refine ih hnodup ?_
      intro hk
      exact hout fun hmem => hk ((List.mem_cons.mp hmem).resolve_left hne.symm)

/-- Lists with the same items of every key have the same items. -/
theorem perm_of_filter [DecidableEq K] (key : α → K) {l l' : List α}
    (h : ∀ k, (l.filter (key · = k)).Perm (l'.filter (key · = k))) : l.Perm l' := by
  classical
  refine List.perm_iff_count.mpr fun a => ?_
  have hcount := List.perm_iff_count.mp (h (key a)) a
  rwa [List.count_filter (by simp), List.count_filter (by simp)] at hcount

/-- Items grouped by distinct keys that cover all of them. -/
theorem flatMap_filter_perm [DecidableEq K] {key : α → K} {keys : List K}
    {l : List α} (hkeys : keys.Nodup) (hall : ∀ x ∈ l, key x ∈ keys) :
    (keys.flatMap fun k => l.filter (key · = k)).Perm l := by
  refine perm_of_filter key fun k => ?_
  rw [List.filter_flatMap, flatMap_single (k := k) hkeys]
  · simp
  · intro k' hne
    rw [List.filter_filter]
    exact List.filter_eq_nil_iff.mpr fun x _ => by
      simp only [Bool.and_eq_true, decide_eq_true_eq]
      exact fun ⟨hk, hk'⟩ => hne (hk'.symm.trans hk)
  · intro hk
    simp only [List.filter_filter, Bool.and_self, List.filter_eq_nil_iff, decide_eq_true_eq]
    exact fun x hx heq => hk (heq ▸ hall x hx)

/-! ### One result for each key -/

section
variable [DecidableEq K] {key : α → K} {val : α → V} {f : K → List V → O} {l l' : List α}

@[simp] theorem reduced_nil : reduced key val f [] = [] := rfl

theorem mem_reduced {k : K} {out : O} :
    (k, out) ∈ reduced key val f l ↔ k ∈ l.map key ∧ out = f k (valuesOf key val k l) := by
  simp only [reduced, List.mem_map, List.mem_dedup, Prod.mk.injEq]
  constructor
  · rintro ⟨k', hk, rfl, rfl⟩; exact ⟨hk, rfl⟩
  · rintro ⟨hk, rfl⟩; exact ⟨k, hk, rfl, rfl⟩

theorem nodup_reduced (l : List α) : (reduced key val f l).Nodup :=
  List.Nodup.map (fun _ _ h => (Prod.mk.inj h).1) (List.nodup_dedup _)

theorem valuesOf_eq_nil {k : K} (h : k ∉ l.map key) : valuesOf key val k l = [] := by
  rw [valuesOf, List.map_eq_nil_iff, List.filter_eq_nil_iff]
  intro x hx hk
  exact h (List.mem_map.mpr ⟨x, hx, of_decide_eq_true hk⟩)

theorem valuesOf_eq_map {k : K} (h : ∀ x ∈ l, key x = k) : valuesOf key val k l = l.map val := by
  rw [valuesOf, List.filter_eq_self.mpr fun x hx => decide_eq_true (h x hx)]

theorem dedup_block {k : K} {block rest : List K} (hne : block ≠ []) (hb : ∀ x ∈ block, x = k)
    (hk : k ∉ rest) : (block ++ rest).dedup = k :: rest.dedup := by
  induction block with
  | nil => exact absurd rfl hne
  | cons x block ih =>
    obtain rfl : x = k := hb x List.mem_cons_self
    cases block with
    | nil => exact List.dedup_cons_of_notMem hk
    | cons y block =>
      rw [List.cons_append, List.dedup_cons_of_mem (by simp [hb y (by simp)])]
      exact ih (List.cons_ne_nil y block) fun z hz => hb z (List.mem_cons_of_mem _ hz)

/-- A block of one key that does not occur after it is reduced on its own. -/
theorem reduced_block {k : K} {block rest : List α} (hne : block ≠ []) (hb : ∀ x ∈ block, key x = k)
    (hk : k ∉ rest.map key) :
    reduced key val f (block ++ rest) = (k, f k (block.map val)) :: reduced key val f rest := by
  have hkeys : ((block ++ rest).map key).dedup = k :: (rest.map key).dedup := by
    rw [List.map_append]
    refine dedup_block (by simpa using hne) (fun x hx => ?_) hk
    obtain ⟨y, hy, rfl⟩ := List.mem_map.mp hx
    exact hb y hy
  have hval : ∀ k', valuesOf key val k' (block ++ rest) =
      valuesOf key val k' block ++ valuesOf key val k' rest := by simp [valuesOf]
  rw [reduced, hkeys, List.map_cons, hval, valuesOf_eq_map hb, valuesOf_eq_nil hk, List.append_nil]
  congr 1
  refine List.map_congr_left fun k' hk' => ?_
  have hne' : k' ∉ block.map key := by
    intro hmem
    obtain ⟨y, hy, rfl⟩ := List.mem_map.mp hmem
    rw [hb y hy] at hk'
    exact hk (List.mem_dedup.mp hk')
  rw [hval, valuesOf_eq_nil hne', List.nil_append]

theorem valuesOf_perm (h : l.Perm l') (k : K) :
    (valuesOf key val k l).Perm (valuesOf key val k l') :=
  (h.filter _).map val

/-- Results are partitioned with the items: each key belongs to one part. -/
theorem reduced_partition (hf : Insensitive f) {n : ℕ} {part : K → ℕ} (hpart : ∀ k, part k < n)
    {parts : ℕ → List α} (hparts : ∀ r < n, (parts r).Perm (l.filter fun x => part (key x) = r)) :
    ((List.range n).flatMap fun r => reduced key val f (parts r)).Perm (reduced key val f l) := by
  have hkeys : ∀ r < n, ∀ k, k ∈ (parts r).map key ↔ k ∈ l.map key ∧ part k = r := by
    intro r hr k
    rw [((hparts r hr).map key).mem_iff]
    simp only [List.mem_map, List.mem_filter, decide_eq_true_eq]
    constructor
    · rintro ⟨x, ⟨hx, hp⟩, rfl⟩; exact ⟨⟨x, hx, rfl⟩, hp⟩
    · rintro ⟨⟨x, hx, rfl⟩, hp⟩; exact ⟨x, ⟨hx, hp⟩, rfl⟩
  have hvals : ∀ r < n, ∀ k, part k = r →
      f k (valuesOf key val k (parts r)) = f k (valuesOf key val k l) := by
    intro r hr k hk
    refine hf k _ _ ((valuesOf_perm (hparts r hr) k).trans (List.Perm.of_eq ?_))
    rw [valuesOf, valuesOf, List.filter_filter]
    congr 1
    refine List.filter_congr fun x _ => ?_
    by_cases hx : key x = k
    · simp [hx, hk]
    · simp [hx]
  rw [List.perm_ext_iff_of_nodup ?_ (nodup_reduced l)]
  · rintro ⟨k, out⟩
    simp only [List.mem_flatMap, List.mem_range, mem_reduced]
    constructor
    · rintro ⟨r, hr, hk, rfl⟩
      obtain ⟨hmem, hp⟩ := (hkeys r hr k).mp hk
      exact ⟨hmem, hvals r hr k hp⟩
    · rintro ⟨hmem, rfl⟩
      exact ⟨part k, hpart k, (hkeys _ (hpart k) k).mpr ⟨hmem, rfl⟩, (hvals _ (hpart k) k rfl).symm⟩
  · rw [List.nodup_flatMap]
    refine ⟨fun r _ => nodup_reduced _, ?_⟩
    refine List.nodup_range.imp_of_mem fun hr hr' hne => ?_
    rintro ⟨k, out⟩ h h'
    have h₁ := (hkeys _ (List.mem_range.mp hr) k).mp (mem_reduced.mp h).1
    have h₂ := (hkeys _ (List.mem_range.mp hr') k).mp (mem_reduced.mp h').1
    exact hne (h₁.2.symm.trans h₂.2)

end

section sorted
variable [DecidableEq K] [PartialOrder K] {key : α → K} {val : α → V}
  {f : K → List V → O} {l l' : List α}

/-- Two ways to sort the same items by key give the same results in the same order. -/
theorem reduced_sorted (hf : Insensitive f) (h : l.Perm l') (hl : KeySorted key l)
    (hl' : KeySorted key l') : reduced key val f l = reduced key val f l' := by
  have hkeys : l.map key = l'.map key :=
    (h.map key).eq_of_pairwise' (List.pairwise_map.mpr hl) (List.pairwise_map.mpr hl')
  rw [reduced, reduced, hkeys]
  exact List.map_congr_left fun k _ => by rw [hf k _ _ (valuesOf_perm h k)]

omit [DecidableEq K] in
/-- In a sorted list the first item's key does not come back after the first item of another key. -/
theorem KeySorted.first_block {x : α} {block rest : List α} (h : KeySorted key (x :: block ++ rest))
    (hrest : ∀ y ∈ rest.head?, key y ≠ key x) : key x ∉ rest.map key := by
  cases rest with
  | nil => simp
  | cons y rest =>
    intro hmem
    obtain ⟨z, hz, hkz⟩ := List.mem_map.mp hmem
    have hxy : key x ≤ key y := (List.pairwise_cons.mp h).1 y (by simp)
    have hyz : key y ≤ key z := by
      rcases List.mem_cons.mp hz with rfl | hz
      · exact le_refl _
      · have := (List.pairwise_append.mp h).2.1
        exact (List.pairwise_cons.mp this).1 z hz
    exact hrest y (by simp) (le_antisymm (hkz ▸ hyz) hxy)

end sorted

/-- Items can be sorted by key. -/
theorem keySorted_mergeSort [LinearOrder K] (key : α → K) (l : List α) :
    KeySorted key (l.mergeSort fun x y => key x ≤ key y) := by
  have hle : (l.mergeSort fun x y => decide (key x ≤ key y)).Pairwise fun x y =>
    decide (key x ≤ key y) = true :=
    List.pairwise_mergeSort
      (fun a b c hab hbc => decide_eq_true ((of_decide_eq_true hab).trans (of_decide_eq_true hbc)))
      (fun a b => by simp [le_total]) l
  exact hle.imp fun h => of_decide_eq_true h

end DistSys.Grouping
