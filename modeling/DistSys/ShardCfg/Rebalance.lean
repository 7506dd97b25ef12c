import DistSys.ShardCfg.Config

/-! @go shardkv1/shardcfg/shardcfg.go | name:Rebalance | scheme:balance | potential:squares, excess

    What `Rebalance` leaves behind, whatever configuration it starts from: a balanced assignment to
    the live groups, reached after finitely many turns, that displaces as few shards of live groups
    as any balanced assignment must.

        excess + displaced:   fill keeps both,   move trades one of `excess` for one displaced -/

namespace DistSys.ShardCfg
open DistSys.Balance

/-! ### The fill loop -/

/-- What the fill loop guarantees after visiting the slots `l`. -/
structure Filled (c c' : ShardConfig) (l : List Tshid) : Prop where
  num : c'.num = c.num
  groups : c'.groups = c.groups
  keeps : ∀ s, c.shards s ∈ c.groups → c'.shards s = c.shards s
  assigned : ∀ s ∈ l, c'.shards s ∈ c.groups
  excess : excess c.groups.keys c'.shards ≤ excess c.groups.keys c.shards
  balanced : Balanced c.groups.keys c.shards → Balanced c.groups.keys c'.shards

theorem filled_step (o : Tshid → RangeOrder Tgid) {c : ShardConfig} (hne : c.groups.keys.Nonempty)
    (s : Tshid) : Filled c (fillStep o c s) [s] := by
  by_cases hs : c.shards s ∈ c.groups
  · rw [fillStep, if_pos hs]
    exact ⟨rfl, rfl, fun _ _ => rfl,
      fun t ht => by rw [List.mem_singleton.mp ht]; exact hs, le_rfl, id⟩
  · have hl := (analyze_least (o s) c hne).1
    have hs' : c.shards s ∉ c.groups.keys := fun h => hs (Finmap.mem_keys.mp h)
    rw [fillStep, if_neg hs, least]
    refine ⟨rfl, rfl, ?_, ?_, excess_fill hs' hl, balanced_fill hs' hl⟩
    · intro t ht
      have hts : t ≠ s := by rintro rfl; exact hs ht
      rw [ShardConfig.setShard_shards, Function.update_of_ne hts]
    · intro t ht
      rw [List.mem_singleton.mp ht, ShardConfig.setShard_shards, Function.update_self]
      exact Finmap.mem_keys.mp hl.1

theorem filled_fold (o : Tshid → RangeOrder Tgid) (l : List Tshid) {c : ShardConfig}
    (hne : c.groups.keys.Nonempty) : Filled c (l.foldl (fillStep o) c) l := by
  induction l generalizing c with
  | nil => exact ⟨rfl, rfl, fun _ _ => rfl, fun _ h => by simp at h, le_rfl, id⟩
  | cons s l ih =>
    rw [List.foldl_cons]
    have h1 := filled_step o hne s
    have hg := h1.groups
    have h2 := @ih (fillStep o c s) (by rw [hg]; exact hne)
    refine ⟨h2.num.trans h1.num, h2.groups.trans hg, ?_, ?_, ?_, ?_⟩
    · intro t ht
      have ht1 := h1.keeps t ht
      rw [h2.keeps t (by rw [ht1, hg]; exact ht), ht1]
    · intro t ht
      rcases List.mem_cons.mp ht with rfl | ht
      · have ht1 := h1.assigned t List.mem_cons_self
        rw [h2.keeps t (by rw [hg]; exact ht1)]
        exact ht1
      · exact hg ▸ h2.assigned t ht
    · exact (hg ▸ h2.excess).trans h1.excess
    · intro hb
      exact hg ▸ h2.balanced (by rw [hg]; exact h1.balanced hb)

theorem filled_fill (o : Tshid → RangeOrder Tgid) {c : ShardConfig} (hne : c.groups.keys.Nonempty) :
    Filled c (fill o c) (List.finRange NShards) := filled_fold o _ hne

theorem fill_mem (o : Tshid → RangeOrder Tgid) {c : ShardConfig} (hne : c.groups.keys.Nonempty)
    (s : Tshid) : (fill o c).shards s ∈ (fill o c).groups.keys := by
  have hf := filled_fill o hne
  rw [Finmap.mem_keys, hf.groups]
  exact hf.assigned s (List.mem_finRange s)

/-! ### The move loop -/

/-- What every turn of the move loop preserves, the loop preserves. -/
theorem moveLoop_invariant {P : ShardConfig → Prop} (o : ℕ → RangeOrder Tgid)
    (hstep : ∀ (o : RangeOrder Tgid) c c', P c → moveStep o c = some c' → P c') (k : ℕ)
    (c : ShardConfig) (hc : P c) : P (moveLoop o k c) := by
  induction k, c using moveLoop.induct (o := o) with
  | case1 k c hnone => rw [moveLoop, hnone]; exact hc
  | case2 k c c' hsome ih => rw [moveLoop, hsome]; exact ih (hstep _ _ _ hc hsome)

/-- The move loop ends at a break. -/
theorem moveLoop_stops (o : ℕ → RangeOrder Tgid) (k : ℕ) (c : ShardConfig) :
    ∃ k', moveStep (o k') (moveLoop o k c) = none := by
  induction k, c using moveLoop.induct (o := o) with
  | case1 k c hnone => refine ⟨k, ?_⟩; rw [moveLoop, hnone]; exact hnone
  | case2 k c c' hsome ih => rw [moveLoop, hsome]; exact ih

/-- The same loop cut off after `n` calls of `analyze`: `none` when it has not broken by then. -/
def moveLoopWithin (o : ℕ → RangeOrder Tgid) : ℕ → ℕ → ShardConfig → Option ShardConfig
  | 0, _, _ => none
  | n + 1, k, c => match moveStep (o k) c with
    | none => some c
    | some c' => moveLoopWithin o n (k + 1) c'

theorem moveLoopWithin_eq (o : ℕ → RangeOrder Tgid) (n k : ℕ) (c : ShardConfig)
    (hn : squares c.groups.keys c.shards < n) : moveLoopWithin o n k c = some (moveLoop o k c) := by
  induction n generalizing k c with
  | zero => omega
  | succ n ih =>
    rw [moveLoopWithin, moveLoop]
    cases h : moveStep (o k) c with
    | none => simp
    | some c' => have := moveStep_squares_lt h; simp only; exact ih (k + 1) c' (by omega)

theorem squares_le (c : ShardConfig) : squares c.groups.keys c.shards ≤ NShards * NShards := by
  have hle : squares c.groups.keys c.shards ≤ ∑ g ∈ c.groups.keys, NShards * load c.shards g :=
    Finset.sum_le_sum fun g _ => Nat.mul_le_mul_right _ (c.counts_le g)
  rw [← Finset.mul_sum] at hle
  have htot := sum_load_le c.groups.keys c.shards
  rw [Fintype.card_fin] at htot
  exact hle.trans (Nat.mul_le_mul_left _ htot)

theorem moveStep_num {o : RangeOrder Tgid} {c c' : ShardConfig} (h : moveStep o c = some c') :
    c'.num = c.num := by obtain ⟨s, l, _, _, _, rfl⟩ := moveStep_some h; rfl

theorem moveStep_groups {o : RangeOrder Tgid} {c c' : ShardConfig} (h : moveStep o c = some c') :
    c'.groups = c.groups := by obtain ⟨s, l, _, _, _, rfl⟩ := moveStep_some h; rfl

/-- A moved shard lands in a live group. -/
theorem moveStep_mem {o : RangeOrder Tgid} {c c' : ShardConfig} (h : moveStep o c = some c')
    (hin : ∀ s, c.shards s ∈ c.groups.keys) (s : Tshid) : c'.shards s ∈ c'.groups.keys := by
  obtain ⟨t, l, _, hl, _, rfl⟩ := moveStep_some h
  rw [ShardConfig.setShard_shards, ShardConfig.setShard_groups]
  by_cases hst : s = t
  · rw [hst, Function.update_self]; exact hl.1
  · rw [Function.update_of_ne hst]; exact hin s

/-! ### Rebalance -/

section rebalance
variable (o : RebalanceOrders) {c : ShardConfig}

theorem rebalance_empty (he : c.groups.keys = ∅) :
    rebalance o c = { c with shards := fun _ => 0 } := by
  rw [rebalance, if_pos (by rw [he]; decide)]

theorem rebalance_nonempty (hne : c.groups.keys.Nonempty) :
    rebalance o c = moveLoop o.move 0 (fill o.fill c) := by
  rw [rebalance, if_neg (by have := Finset.card_pos.mpr hne; omega)]

/-- What holds once every shard is assigned, and is kept by each move, holds of the result. -/
theorem rebalance_invariant {P : ShardConfig → Prop} (hne : c.groups.keys.Nonempty)
    (hfill : P (fill o.fill c))
    (hstep : ∀ (o : RangeOrder Tgid) c c', P c → moveStep o c = some c' → P c') :
    P (rebalance o c) := by
  rw [rebalance_nonempty o hne]
  exact moveLoop_invariant o.move hstep 0 _ hfill

theorem rebalance_num (c : ShardConfig) : (rebalance o c).num = c.num := by
  rcases c.groups.keys.eq_empty_or_nonempty with he | hne
  · rw [rebalance_empty o he]
  · exact rebalance_invariant (P := fun d => d.num = c.num) o hne (filled_fill o.fill hne).num
      fun _ _ _ hP h => (moveStep_num h).trans hP

theorem rebalance_groups (c : ShardConfig) : (rebalance o c).groups = c.groups := by
  rcases c.groups.keys.eq_empty_or_nonempty with he | hne
  · rw [rebalance_empty o he]
  · exact rebalance_invariant (P := fun d => d.groups = c.groups) o hne
      (filled_fill o.fill hne).groups fun _ _ _ hP h => (moveStep_groups h).trans hP

theorem rebalance_mem (hne : c.groups.keys.Nonempty) (s : Tshid) :
    (rebalance o c).shards s ∈ c.groups.keys := by
  have hin := rebalance_invariant (P := fun d => ∀ s, d.shards s ∈ d.groups.keys) o hne
    (fill_mem o.fill hne) fun _ _ _ hP h => moveStep_mem h hP
  have := hin s
  rwa [rebalance_groups] at this

theorem rebalance_balanced (c : ShardConfig) : Balanced c.groups.keys (rebalance o c).shards := by
  rcases c.groups.keys.eq_empty_or_nonempty with he | hne
  · intro g hg; rw [he] at hg; simp at hg
  · obtain ⟨k, hk⟩ := moveLoop_stops o.move 0 (fill o.fill c)
    have hb := balanced_of_moveStep_none hk
    rwa [← rebalance_nonempty o hne, rebalance_groups] at hb

/-- CORRECT: from any configuration the move loop breaks within `NShards² + 1` scans, and leaves
    every shard unassigned when there is no group, and otherwise a balanced assignment to the live
    groups; the number and the groups stay. -/
theorem rebalance_correct (c : ShardConfig) :
    (∃ n ≤ NShards * NShards + 1,
      moveLoopWithin o.move n 0 (fill o.fill c) = some (moveLoop o.move 0 (fill o.fill c))) ∧
    (rebalance o c).num = c.num ∧ (rebalance o c).groups = c.groups ∧
    (c.groups = ∅ → ∀ s, (rebalance o c).shards s = 0) ∧
    (c.groups ≠ ∅ → (∀ s, (rebalance o c).shards s ∈ c.groups) ∧
      ∀ g ∈ c.groups, ∀ h ∈ c.groups, (rebalance o c).counts g ≤ (rebalance o c).counts h + 1) := by
  refine ⟨⟨_, le_rfl, moveLoopWithin_eq _ _ _ _ (Nat.lt_succ_of_le (squares_le _))⟩,
    rebalance_num o c, rebalance_groups o c, ?_, ?_⟩
  · intro he s
    rw [rebalance_empty o (by rw [he]; rfl)]
  · intro hg
    have hne := keys_nonempty hg
    exact ⟨fun s => Finmap.mem_keys.mp (rebalance_mem o hne s), fun g hg h hh =>
      rebalance_balanced o c g (Finmap.mem_keys.mpr hg) h (Finmap.mem_keys.mpr hh)⟩

/-- Each move is paid for by one unit of excess. -/
theorem rebalance_moved_le (hne : c.groups.keys.Nonempty) :
    moved c.groups.keys c.shards (rebalance o c).shards ≤ excess c.groups.keys c.shards := by
  have hf := filled_fill o.fill hne
  have hinv :=
    rebalance_invariant (P := fun d => d.groups = c.groups ∧ (∀ s, d.shards s ∈ d.groups.keys) ∧
      moved c.groups.keys c.shards d.shards + excess c.groups.keys d.shards
        ≤ excess c.groups.keys c.shards) o hne ?_ ?_
  · exact le_trans (Nat.le_add_right _ _) hinv.2.2
  · refine ⟨hf.groups, fill_mem o.fill hne, ?_⟩
    have hzero : moved c.groups.keys c.shards (fill o.fill c).shards = 0 := by
      rw [moved, Finset.card_eq_zero, Finset.filter_eq_empty_iff]
      rintro s _ ⟨hs, hch⟩
      exact hch (hf.keeps s (Finmap.mem_keys.mp hs))
    rw [hzero, Nat.zero_add]
    exact hf.excess
  · rintro o' d d' ⟨hg, hin, hle⟩ h
    refine ⟨(moveStep_groups h).trans hg, moveStep_mem h hin, ?_⟩
    obtain ⟨s, l, hm, hl, hgap, rfl⟩ := moveStep_some h
    have hmv := moved_update_le c.groups.keys c.shards d.shards s l
    have hex := excess_move hin hm hl hgap
    rw [hg] at hex
    rw [ShardConfig.setShard_shards]
    omega

/-- CORRECT: `Rebalance` reaches a balanced assignment (ACHIEVABLE), and no balanced assignment to
    the live groups displaces fewer shards whose group is still there (OPTIMAL). -/
theorem rebalance_optimal (c : ShardConfig) (hg : c.groups ≠ ∅) :
    ((∀ s, (rebalance o c).shards s ∈ c.groups) ∧ Balanced c.groups.keys (rebalance o c).shards) ∧
    ∀ b : Tshid → Tgid, (∀ s, b s ∈ c.groups) → Balanced c.groups.keys b →
      moved c.groups.keys c.shards (rebalance o c).shards ≤ moved c.groups.keys c.shards b := by
  have hne := keys_nonempty hg
  refine ⟨⟨fun s => Finmap.mem_keys.mp (rebalance_mem o hne s), rebalance_balanced o c⟩, ?_⟩
  intro b hin hb
  exact (rebalance_moved_le o hne).trans (excess_le_moved (fun s => Finmap.mem_keys.mpr (hin s)) hb)

/-- Opening new groups `J` next to level old ones: shards only ever move into `J`. -/
theorem rebalance_staged {J : Finset Tgid} (hJ : J ⊆ c.groups.keys)
    (hin : ∀ s, c.shards s ∈ c.groups.keys) (hst : Staged c.groups.keys J c.shards) (s : Tshid) :
    (rebalance o c).shards s = c.shards s ∨ (rebalance o c).shards s ∈ J := by
  have hne : c.groups.keys.Nonempty := ⟨_, hin s⟩
  have hf := filled_fill o.fill hne
  have hsame : (fill o.fill c).shards = c.shards :=
    funext fun t => hf.keeps t (Finmap.mem_keys.mp (hin t))
  refine (rebalance_invariant (P := fun d => d.groups = c.groups ∧ Staged c.groups.keys J d.shards ∧
    ∀ t, d.shards t = c.shards t ∨ d.shards t ∈ J) o hne ?_ ?_).2.2 s
  · exact ⟨hf.groups, hsame ▸ hst, fun t => Or.inl (congrFun hsame t)⟩
  · rintro o' d d' ⟨hg, hsd, hkeep⟩ h
    obtain ⟨t, l, hm, hl, hgap, rfl⟩ := moveStep_some h
    rw [hg] at hm hl
    refine ⟨hg, staged_move hJ hsd hm hl hgap, fun u => ?_⟩
    rw [ShardConfig.setShard_shards]
    by_cases hut : u = t
    · rw [hut, Function.update_self]; exact Or.inr (staged_dst hsd hm.1 hl.1 hgap).1
    · rw [Function.update_of_ne hut]; exact hkeep u

/-- With the live groups level, only orphaned shards are reassigned: the move loop never turns. -/
theorem rebalance_level (hb : Balanced c.groups.keys c.shards) {s : Tshid}
    (hs : c.shards s ∈ c.groups) : (rebalance o c).shards s = c.shards s := by
  have hne : c.groups.keys.Nonempty := ⟨_, Finmap.mem_keys.mpr hs⟩
  have hf := filled_fill o.fill hne
  refine (rebalance_invariant (P := fun d => d.groups = c.groups ∧ Balanced c.groups.keys d.shards ∧
    d.shards s = c.shards s) o hne ⟨hf.groups, hf.balanced hb, hf.keeps s hs⟩ ?_).2.2
  rintro o' d d' ⟨hg, hbd, _⟩ h
  obtain ⟨t, l, hm, hl, hgap, _⟩ := moveStep_some h
  rw [hg] at hm hl
  have := hbd _ hm.1 _ hl.1
  omega

end rebalance

/-- Groups 1 and 2 are live; group 3 is gone and its four shards are orphaned. -/
def orphans : ShardConfig where
  num := 7
  shards s := if s.val < 4 then 3 else 1
  groups := GoMap.lit [(1, [.lit "x"]), (2, [.lit "y"])]

theorem rebalance_optimal_orphans :
    moved orphans.groups.keys orphans.shards (rebalance .ascending orphans).shards
      ≤ moved orphans.groups.keys orphans.shards (fun s => if s.val < 6 then 2 else 1) :=
  (rebalance_optimal .ascending orphans (by decide)).2 _ (by decide) (by decide)

end DistSys.ShardCfg
