import Mathlib.Data.Finmap
import Mathlib.Data.Finset.Sort

/-! @scheme gomap | family:map | invariant:range order

    A Go map is a finite map; `range` over it visits every key once, in an order the runtime picks
    afresh each time. The order of one `range` statement is a value of `RangeOrder`, so a result
    that holds for every order holds for every choice the runtime can make. -/

namespace DistSys

/-- A Go `map[K]V`. -/
abbrev GoMap (K V : Type) := Finmap (fun _ : K => V)

/-- The order in which one `range` over a map visits its keys, whatever the key set is. -/
structure RangeOrder (K : Type) where
  visit : Finset K → List K
  perm : ∀ s, (visit s : Multiset K) = s.val

/-- A Go map literal. -/
def GoMap.lit {K V : Type} [DecidableEq K] (l : List (K × V)) : GoMap K V :=
  l.foldl (fun m kv => m.insert kv.1 kv.2) ∅

/-- A literal without a key twice has just the entries it lists. -/
theorem lookup_lit {K V : Type} [DecidableEq K] {l : List (K × V)}
    (hl : (l.map Prod.fst).Nodup) {k : K} {v : V} :
    (GoMap.lit l).lookup k = some v ↔ (k, v) ∈ l := by
  have hfold : ∀ (l : List (K × V)) (m : GoMap K V), (l.map Prod.fst).Nodup →
      ((l.foldl (fun m kv => m.insert kv.1 kv.2) m).lookup k = some v ↔
        (k, v) ∈ l ∨ k ∉ l.map Prod.fst ∧ m.lookup k = some v) := by
    intro l
    induction l with
    | nil => simp
    | cons p l ih =>
      intro m hl
      obtain ⟨hp, hl⟩ := List.nodup_cons.mp hl
      rw [List.foldl_cons, ih _ hl, List.mem_cons, List.map_cons, List.mem_cons]
      rcases eq_or_ne k p.1 with rfl | hne
      · have hnot : (p.1, v) ∉ l := fun hmem => hp (List.mem_map.mpr ⟨_, hmem, rfl⟩)
        simp only [Finmap.lookup_insert, Option.some.injEq, hnot, hp, false_or,
          or_false, not_true, false_and, not_false_iff, true_and, Prod.ext_iff]
        exact eq_comm
      · have hnot : (k, v) ≠ p := fun heq => hne (congrArg Prod.fst heq)
        simp [Finmap.lookup_insert_of_ne _ hne, hne, hnot]
  rw [GoMap.lit]
  simpa using hfold l ∅ hl

/-- A map with an entry has a key. -/
theorem keys_nonempty {K V : Type} [DecidableEq K] {m : GoMap K V}
    (h : m ≠ ∅) : m.keys.Nonempty := by
  rw [Finset.nonempty_iff_ne_empty]
  intro he
  refine h (Finmap.ext_lookup fun k => ?_)
  rw [Finmap.lookup_empty, Finmap.lookup_eq_none, ← Finmap.mem_keys, he]
  simp

/-- An entry of a map after an insertion is the new one, or was there before. -/
theorem lookup_insert_cases {K V : Type} [DecidableEq K] {m : GoMap K V} {k k' : K} {v v' : V}
    (h : (m.insert k v).lookup k' = some v') : k' = k ∧ v' = v ∨ k' ≠ k ∧
      m.lookup k' = some v' := by
  rcases eq_or_ne k' k with rfl | hne
  · rw [Finmap.lookup_insert, Option.some.injEq] at h
    exact Or.inl ⟨rfl, h.symm⟩
  · rw [Finmap.lookup_insert_of_ne _ hne] at h
    exact Or.inr ⟨hne, h⟩

theorem erase_insert_self {K V : Type} [DecidableEq K] (m : GoMap K V) (k : K) (v : V) :
    (m.insert k v).erase k = m.erase k := by
  refine Finmap.ext_lookup fun k' => ?_
  rcases eq_or_ne k' k with rfl | hne
  · rw [Finmap.lookup_erase, Finmap.lookup_erase]
  · rw [Finmap.lookup_erase_ne hne, Finmap.lookup_erase_ne hne, Finmap.lookup_insert_of_ne _ hne]

theorem erase_erase_self {K V : Type} [DecidableEq K] (m : GoMap K V) (k : K) :
    (m.erase k).erase k = m.erase k := by
  refine Finmap.ext_lookup fun k' => ?_
  rcases eq_or_ne k' k with rfl | hne
  · rw [Finmap.lookup_erase, Finmap.lookup_erase]
  · rw [Finmap.lookup_erase_ne hne]

namespace RangeOrder

variable {K V : Type} (o : RangeOrder K)

@[simp] theorem mem_visit {s : Finset K} {k : K} : k ∈ o.visit s ↔ k ∈ s := by
  rw [← Multiset.mem_coe, o.perm, Finset.mem_val]

theorem nodup_visit (s : Finset K) : (o.visit s).Nodup := by
  rw [← Multiset.coe_nodup, o.perm]; exact s.nodup

theorem visit_perm (o' : RangeOrder K) (s : Finset K) : (o.visit s).Perm (o'.visit s) := by
  rw [← Multiset.coe_eq_coe, o.perm, o'.perm]

/-- Keys in ascending order: one of the orders a `range` may take. -/
def ascending (K : Type) [LinearOrder K] : RangeOrder K where
  visit s := s.sort
  perm s := s.sort_eq (fun a b => a ≤ b)

/-- Sorting what a `range` collected forgets the order it was collected in. -/
theorem mergeSort_visit [LinearOrder K] (o' : RangeOrder K) (s : Finset K) :
    (o.visit s).mergeSort = (o'.visit s).mergeSort := by
  have hp : (o.visit s).mergeSort.Perm (o'.visit s).mergeSort :=
    ((List.mergeSort_perm _ _).trans (o.visit_perm o' s)).trans (List.mergeSort_perm _ _).symm
  exact hp.eq_of_pairwise' (List.pairwise_mergeSort' (· ≤ ·) _) (List.pairwise_mergeSort' (· ≤ ·) _)

variable [DecidableEq K]

/-- The keys and values of one `range`. -/
def entries (m : GoMap K V) : List (K × V) :=
  (o.visit m.keys).filterMap fun k => (m.lookup k).map fun v => (k, v)

@[simp] theorem mem_entries {m : GoMap K V} {k : K} {v : V} : (k, v) ∈ o.entries m ↔
    m.lookup k = some v := by
  simp only [entries, List.mem_filterMap, o.mem_visit, Finmap.mem_keys,
    Option.map_eq_some_iff, Prod.mk.injEq]
  constructor
  · rintro ⟨_, _, _, hlook, rfl, rfl⟩
    exact hlook
  · intro hlook
    exact ⟨k, Finmap.mem_of_lookup_eq_some hlook, v, hlook, rfl, rfl⟩

theorem nodup_entries (m : GoMap K V) : (o.entries m).Nodup := by
  refine (o.nodup_visit _).filterMap fun k k' e hk hk' => ?_
  obtain ⟨v, -, rfl⟩ := Option.map_eq_some_iff.mp hk
  obtain ⟨v', -, heq⟩ := Option.map_eq_some_iff.mp hk'
  exact (Prod.mk.inj heq).1.symm

theorem nodup_entries_keys (m : GoMap K V) : ((o.entries m).map Prod.fst).Nodup := by
  refine List.Nodup.map_on ?_ (o.nodup_entries m)
  rintro ⟨k, v⟩ hv ⟨k', v'⟩ hv' (rfl : k = k')
  rw [o.mem_entries] at hv hv'
  rw [Option.some.inj (hv.symm.trans hv')]

/-- The entry at one key, and the others. -/
theorem entries_perm (m : GoMap K V) (k : K) :
    (o.entries m).Perm ((m.lookup k).toList.map (fun v => (k, v)) ++ o.entries (m.erase k)) := by
  have hdisjoint :
      List.Disjoint ((m.lookup k).toList.map fun v => (k, v)) (o.entries (m.erase k)) := by
    rintro ⟨k', v⟩ hhere hrest
    obtain ⟨w, -, heq⟩ := List.mem_map.mp hhere
    obtain ⟨rfl, rfl⟩ := Prod.mk.inj heq
    rw [o.mem_entries, Finmap.lookup_erase] at hrest
    cases hrest
  have hnodup : ((m.lookup k).toList.map fun v => (k, v)).Nodup := by
    cases m.lookup k with
    | none => exact List.nodup_nil
    | some v => exact List.nodup_singleton _
  refine (List.perm_ext_iff_of_nodup (o.nodup_entries m)
    (hnodup.append (o.nodup_entries _) hdisjoint)).mpr ?_
  rintro ⟨k', v⟩
  rw [List.mem_append, o.mem_entries, o.mem_entries]
  rcases eq_or_ne k' k with rfl | hne
  · simp [Finmap.lookup_erase]
  · simp [Finmap.lookup_erase_ne hne, hne.symm]

/-- The order that visits the keys of `l` first, and the others as `o` does. -/
def startingWith (l : List K) (hl : l.Nodup) : RangeOrder K where
  visit s := l.filter (fun k => k ∈ s) ++ o.visit (s \ l.toFinset)
  perm s := by
    refine Multiset.Nodup.ext ?_ s.nodup |>.mpr fun k => ?_
    · rw [Multiset.coe_nodup]
      refine (hl.filter _).append (o.nodup_visit _) fun k hk hk' => ?_
      have hout := (Finset.mem_sdiff.mp (o.mem_visit.mp hk')).2
      exact hout (List.mem_toFinset.mpr (List.mem_of_mem_filter hk))
    · rw [Multiset.mem_coe, List.mem_append, List.mem_filter, o.mem_visit, Finset.mem_sdiff,
        List.mem_toFinset, Finset.mem_val, decide_eq_true_iff]
      tauto

theorem startingWith_visit {l : List K} (hl : l.Nodup) {s : Finset K} (hs : ∀ k ∈ l, k ∈ s) :
    (o.startingWith l hl).visit s = l ++ o.visit (s \ l.toFinset) := by
  have hall : l.filter (fun k => k ∈ s) = l :=
    List.filter_eq_self.mpr fun k hk => decide_eq_true (hs k hk)
  simp only [startingWith, hall]

/-- Inserting the visited keys one by one leaves, at each of them, what was inserted there. -/
theorem lookup_foldl_insert (f : K → V) (l : List K) (m : GoMap K V) (k : K) :
    (l.foldl (fun m x => m.insert x (f x)) m).lookup k = if k ∈ l then some (f k)
      else m.lookup k := by
  induction l generalizing m with
  | nil => simp
  | cons x l ih =>
    rw [List.foldl_cons, ih]
    by_cases hl : k ∈ l
    · rw [if_pos hl, if_pos (List.mem_cons_of_mem _ hl)]
    · rw [if_neg hl]
      by_cases hx : k = x
      · subst hx; rw [Finmap.lookup_insert, if_pos List.mem_cons_self]
      · rw [Finmap.lookup_insert_of_ne _ hx, if_neg (by simp [hx, hl])]

/-- Storing every entry of `m'` into `m`, in whatever order `range` yields them. -/
theorem foldl_insert_visit (m' m : GoMap K V) (d : V) :
    (o.visit m'.keys).foldl (fun acc k => acc.insert k ((m'.lookup k).getD d)) m = m' ∪ m := by
  refine Finmap.ext_lookup fun k => ?_
  rw [lookup_foldl_insert (fun k => (m'.lookup k).getD d)]
  by_cases hk : k ∈ m'
  · obtain ⟨b, hb⟩ := Finmap.mem_iff.mp hk
    rw [if_pos (o.mem_visit.mpr (Finmap.mem_keys.mpr hk)), Finmap.lookup_union_left hk, hb]; rfl
  · rw [if_neg (fun h => hk (Finmap.mem_keys.mp (o.mem_visit.mp h))), Finmap.lookup_union_right hk]

/-- Erasing a list of keys, in whatever order it is given. -/
theorem lookup_foldl_erase (l : List K) (m : GoMap K V) (k : K) :
    (l.foldl (fun m x => m.erase x) m).lookup k = if k ∈ l then none else m.lookup k := by
  induction l generalizing m with
  | nil => simp
  | cons x l ih =>
    rw [List.foldl_cons, ih]
    by_cases hl : k ∈ l
    · rw [if_pos hl, if_pos (List.mem_cons_of_mem _ hl)]
    · rw [if_neg hl]
      by_cases hx : k = x
      · subst hx; rw [Finmap.lookup_erase, if_pos List.mem_cons_self]
      · rw [Finmap.lookup_erase_ne hx, if_neg (by simp [hx, hl])]

end RangeOrder

/-! ### Values mapped -/

section mapVal
variable {K V W : Type} [LinearOrder K]

/-- The same keys, each with `f` of its value. -/
def GoMap.mapVal (f : V → W) (m : GoMap K V) : GoMap K W :=
  GoMap.lit (((RangeOrder.ascending K).entries m).map fun p => (p.1, f p.2))

/-- In whatever order the entries were visited. -/
theorem lit_map_entries (f : V → W) (m : GoMap K V) {l : List (K × V)} (o : RangeOrder K)
    (hl : l.Perm (o.entries m)) {k : K} :
    (GoMap.lit (l.map fun p => (p.1, f p.2))).lookup k = (m.lookup k).map f := by
  have hnodup : ((l.map fun p => (p.1, f p.2)).map Prod.fst).Nodup := by
    rw [List.map_map]
    exact ((hl.map Prod.fst).nodup_iff).mpr (o.nodup_entries_keys m)
  refine Option.ext fun w => ?_
  rw [lookup_lit hnodup, Option.map_eq_some_iff]
  simp only [List.mem_map, Prod.mk.injEq, hl.mem_iff, Prod.exists, o.mem_entries]
  constructor
  · rintro ⟨k', v, hv, rfl, rfl⟩
    exact ⟨v, hv, rfl⟩
  · rintro ⟨v, hv, rfl⟩
    exact ⟨k, v, hv, rfl, rfl⟩

@[simp] theorem lookup_mapVal (f : V → W) (m : GoMap K V) (k : K) :
    (m.mapVal f).lookup k = (m.lookup k).map f :=
  lit_map_entries f m (RangeOrder.ascending K) (List.Perm.refl _)

theorem mapVal_eq_self {f : V → V} {m : GoMap K V} :
    m.mapVal f = m ↔ ∀ k v, m.lookup k = some v → f v = v := by
  constructor
  · intro h k v hv
    have hlook := lookup_mapVal f m k
    rw [h, hv, Option.map_some] at hlook
    exact (Option.some.inj hlook).symm
  · intro h
    refine Finmap.ext_lookup fun k => ?_
    rw [lookup_mapVal]
    cases hk : m.lookup k with
    | none => rfl
    | some v => rw [Option.map_some, h k v hk]

end mapVal

section rekey
variable {K L V : Type} [LinearOrder K] [DecidableEq L]

/-- The same values, each under `f` of its key. -/
def GoMap.rekey (f : K → L) (m : GoMap K V) : GoMap L V :=
  GoMap.lit (((RangeOrder.ascending K).entries m).map fun p => (f p.1, p.2))

theorem lookup_rekey {f : K → L} {m : GoMap K V} (hf : ∀ k ∈ m, ∀ k' ∈ m, f k = f k' → k = k')
    {l : L} {v : V} : (m.rekey f).lookup l = some v ↔ ∃ k, f k = l ∧ m.lookup k = some v := by
  have hmem : ∀ p ∈ (RangeOrder.ascending K).entries m, p.1 ∈ m := fun p hp =>
    Finmap.mem_of_lookup_eq_some ((RangeOrder.ascending K).mem_entries.mp hp)
  have hnodup :
      ((((RangeOrder.ascending K).entries m).map fun p => (f p.1, p.2)).map Prod.fst).Nodup := by
    rw [List.map_map]
    refine List.Nodup.map_on ?_ ((RangeOrder.ascending K).nodup_entries m)
    rintro ⟨k, v⟩ hv ⟨k', v'⟩ hv' heq
    obtain rfl : k = k' := hf k (hmem _ hv) k' (hmem _ hv') heq
    rw [RangeOrder.mem_entries] at hv hv'
    rw [Option.some.inj (hv.symm.trans hv')]
  rw [GoMap.rekey, lookup_lit hnodup]
  simp only [List.mem_map, Prod.mk.injEq, Prod.exists, RangeOrder.mem_entries]
  constructor
  · rintro ⟨k, v, hv, rfl, rfl⟩
    exact ⟨k, rfl, hv⟩
  · rintro ⟨k, rfl, hv⟩
    exact ⟨k, v, hv, rfl, rfl⟩

end rekey

end DistSys
