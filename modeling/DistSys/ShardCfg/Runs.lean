import DistSys.Schemes.Machine
import DistSys.ShardCfg.Membership

/-! @go shardkv1/shardcfg/shardcfg.go | name:JoinBalance, LeaveBalance | scheme:machine, balance

    Histories of membership changes. Along every history the configuration stays well formed: shards
    are assigned and balanced, and no server is in two groups. From that follows what one more call
    can change: a join moves shards only into the groups that join, a leave moves only the shards of
    the groups that leave.

        MakeShardConfig ──join/leave──▶ well formed ──join/leave──▶ well formed ──▶ … -/

namespace DistSys.ShardCfg
open DistSys.Balance

/-- A membership change. -/
inductive Call where
  | join (servers : GoMap Tgid (List GoString))
  | leave (gids : List Tgid)

def Call.apply (o : Orders) (cfg : ShardConfig) : Call → Except GoString (Bool × ShardConfig)
  | .join servers => joinBalance o cfg servers
  | .leave gids => leaveBalance o cfg gids

/-- Invariant of the configurations that calls produce. -/
structure WellFormed (cfg : ShardConfig) : Prop where
  assigned : cfg.groups.keys.Nonempty → ∀ s, cfg.shards s ∈ cfg.groups.keys
  balanced : Balanced cfg.groups.keys cfg.shards
  disjoint : ServersDisjoint cfg.groups

theorem wellFormed_make : WellFormed makeShardConfig := by
  refine ⟨?_, ?_, ?_⟩
  · rintro ⟨g, hg⟩; simp [makeShardConfig] at hg
  · intro g hg; simp [makeShardConfig] at hg
  · intro g h sg sh hg; simp [makeShardConfig] at hg

/-- Rebalancing establishes all but the disjointness, which it keeps. -/
theorem wellFormed_rebalance (o : RebalanceOrders) {cfg : ShardConfig}
    (hd : ServersDisjoint cfg.groups) : WellFormed (rebalance o cfg) := by
  refine ⟨?_, ?_, ?_⟩
  · rw [rebalance_groups]; exact fun hne => rebalance_mem o hne
  · rw [rebalance_groups]; exact rebalance_balanced o cfg
  · rw [rebalance_groups]; exact hd

/-- A successful call keeps the configuration well formed. -/
theorem wellFormed_call {o : Orders} {cfg cfg' : ShardConfig} {x : Call} (hw : WellFormed cfg)
    (h : x.apply o cfg = .ok (true, cfg')) : WellFormed cfg' := by
  cases x with
  | join servers =>
    obtain ⟨mid, hjoin, rfl⟩ := thenRebalance_true h
    exact wellFormed_rebalance _ ((join_true hjoin).disjoint hw.disjoint)
  | leave gids =>
    obtain ⟨mid, hleave, rfl⟩ := thenRebalance_true h
    exact wellFormed_rebalance _ ((leave_true hleave).disjoint hw.disjoint)

/-- Configurations reached from `MakeShardConfig` by successful calls. -/
inductive Reached : ShardConfig → Prop
  | make : Reached makeShardConfig
  | call {cfg cfg' : ShardConfig} (o : Orders) (x : Call) :
      Reached cfg → x.apply o cfg = .ok (true, cfg') → Reached cfg'

/-- Every reached configuration is well formed. -/
theorem Reached.wellFormed {cfg : ShardConfig} (h : Reached cfg) : WellFormed cfg := by
  induction h with
  | make => exact wellFormed_make
  | call o x _ hx ih => exact wellFormed_call ih hx

/-! ### What one more call can change -/

theorem joinBalance_stable {o : Orders} {cfg cfg' : ShardConfig}
    {servers : GoMap Tgid (List GoString)} (hw : WellFormed cfg)
    (h : joinBalance o cfg servers = .ok (true, cfg')) {s : Tshid}
    (hch : cfg'.shards s ≠ cfg.shards s) : cfg'.shards s ∈ servers := by
  obtain ⟨mid, hjoin, rfl⟩ := thenRebalance_true h
  have hj := join_true hjoin
  have hkeys : mid.groups.keys = servers.keys ∪ cfg.groups.keys := by
    rw [hj.groups, Finmap.keys_union]
  rcases cfg.groups.keys.eq_empty_or_nonempty with he | hne
  · -- every live group has just joined
    have hmem := rebalance_mem o.toRebalanceOrders (c := mid)
      (by rw [hkeys]; exact hj.nonempty.mono Finset.subset_union_left) s
    rw [hkeys, he, Finset.union_empty] at hmem
    exact Finmap.mem_keys.mp hmem
  · have hold := hw.assigned hne
    have hin : ∀ t, mid.shards t ∈ mid.groups.keys := by
      intro t; rw [hj.shards, hkeys]; exact Finset.mem_union_right _ (hold t)
    have hst : Staged mid.groups.keys servers.keys mid.shards := by
      rw [hj.shards, hkeys]
      refine ⟨?_, ?_⟩
      · intro g hg k hk hgJ hkJ
        exact hw.balanced g ((Finset.mem_union.mp hg).resolve_left hgJ) k
          ((Finset.mem_union.mp hk).resolve_left hkJ)
      · intro g hg k _
        have hzero : load cfg.shards g = 0 := by
          rw [load, Finset.card_eq_zero, Finset.filter_eq_empty_iff]
          rintro t _ rfl
          exact hj.fresh _ (Finmap.mem_keys.mp hg) (Finmap.mem_keys.mp (hold t))
        omega
    rcases rebalance_staged o.toRebalanceOrders
      (by rw [hkeys]; exact Finset.subset_union_left) hin hst s with hsame | hJ
    · exact absurd (hsame.trans (congrFun hj.shards s)) hch
    · exact Finmap.mem_keys.mp hJ

theorem leaveBalance_stable {o : Orders} {cfg cfg' : ShardConfig} {gids : List Tgid}
    (hw : WellFormed cfg) (h : leaveBalance o cfg gids = .ok (true, cfg')) {s : Tshid}
    (hch : cfg'.shards s ≠ cfg.shards s) : cfg.shards s ∈ gids := by
  obtain ⟨mid, hleave, rfl⟩ := thenRebalance_true h
  have hl := leave_true hleave
  obtain ⟨g, hg⟩ := List.exists_mem_of_ne_nil _ hl.nonempty
  have hold := Finmap.mem_keys.mp (hw.assigned ⟨g, Finmap.mem_keys.mpr (hl.present g hg)⟩ s)
  by_contra hstay
  have hmid : mid.shards s ∈ mid.groups := by rw [hl.shards]; exact hl.mem.mpr ⟨hold, hstay⟩
  have hb : Balanced mid.groups.keys mid.shards := by
    rw [hl.shards]
    intro a ha b hb
    have hsub : ∀ k ∈ mid.groups.keys, k ∈ cfg.groups.keys := fun k hk =>
      Finmap.mem_keys.mpr (hl.mem.mp (Finmap.mem_keys.mp hk)).1
    exact hw.balanced a (hsub a ha) b (hsub b hb)
  exact hch ((rebalance_level o.toRebalanceOrders hb hmid).trans (congrFun hl.shards s))

/-- CORRECT: from every reached configuration, a join changes a shard's gid only to one that joins,
    and a leave changes only shards whose gid leaves. -/
theorem membership_stable {cfg : ShardConfig} (hr : Reached cfg) :
    (∀ o servers cfg', joinBalance o cfg servers = .ok (true, cfg') →
      ∀ s, cfg'.shards s ≠ cfg.shards s → cfg'.shards s ∈ servers) ∧
    (∀ o gids cfg', leaveBalance o cfg gids = .ok (true, cfg') →
      ∀ s, cfg'.shards s ≠ cfg.shards s → cfg.shards s ∈ gids) :=
  ⟨fun _ _ _ h _ hch => joinBalance_stable hr.wellFormed h hch,
    fun _ _ _ h _ hch => leaveBalance_stable hr.wellFormed h hch⟩

/-- Two groups join one after the other, and the first leaves again. -/
theorem membership_stable_two : ∃ cfg cfg' cfg'' : ShardConfig,
    (joinBalance .ascending cfg (.lit [(2, [.lit "y"])]) = .ok (true, cfg') ∧
      ∀ s, cfg'.shards s ≠ cfg.shards s →
        cfg'.shards s ∈ GoMap.lit [((2 : Tgid), [GoString.lit "y"])]) ∧
    (leaveBalance .ascending cfg' [1] = .ok (true, cfg'') ∧
      ∀ s, cfg''.shards s ≠ cfg'.shards s → cfg'.shards s ∈ [1]) := by
  obtain ⟨cfg, h1, hg1⟩ := joinBalance_succeeds .ascending makeShardConfig (.lit [(1, [.lit "x"])])
    ⟨1, by decide⟩ (fun _ _ => Finmap.notMem_empty) (by decide)
  have hr1 : Reached cfg := .call .ascending (.join _) .make h1
  obtain ⟨cfg', h2, hg2⟩ := joinBalance_succeeds .ascending cfg (.lit [(2, [.lit "y"])])
    ⟨2, by decide⟩ (by rw [hg1]; decide) (by rw [hg1]; decide)
  have hr2 : Reached cfg' := .call .ascending (.join _) hr1 h2
  obtain ⟨cfg'', h3⟩ := leaveBalance_succeeds .ascending cfg' [1] (by decide) (by decide)
    (by rw [hg2, hg1]; decide)
  exact ⟨cfg, cfg', cfg'', ⟨h2, (membership_stable hr1).1 _ _ _ h2⟩, h3,
    (membership_stable hr2).2 _ _ _ h3⟩

/-! ### The ledger of a controller -/

/-- A controller's configuration, with the gids that joined and have not left since, and the number
    of calls that succeeded. -/
structure Ledger where
  cfg : ShardConfig
  members : Finset Tgid
  calls : ℕ

def Ledger.make : Ledger := ⟨makeShardConfig, ∅, 0⟩

/-- How a successful call changes who is in. -/
def Call.members : Call → Finset Tgid → Finset Tgid
  | .join servers, ms => ms ∪ servers.keys
  | .leave gids, ms => ms \ gids.toFinset

/-- One call on a copy, which is kept only when the call returns true. A fatal call ends the run. -/
def ledgerStep (L : Ledger) (x : Orders × Call) : Option Ledger :=
  match x.2.apply x.1 (L.cfg.copy x.1.copy) with
  | .error _ => none
  | .ok (false, _) => some L
  | .ok (true, cfg') => some ⟨cfg', x.2.members L.members, L.calls + 1⟩

/-- Invariant of the ledger. -/
structure Kept (L : Ledger) : Prop where
  wellFormed : WellFormed L.cfg
  keys : L.cfg.groups.keys = L.members
  num : L.cfg.num = L.calls

/-- A successful call changes the gids as the ledger says, and counts once. -/
theorem Call.apply_keys {o : Orders} {cfg cfg' : ShardConfig} {x : Call}
    (h : x.apply o cfg = .ok (true, cfg')) :
    cfg'.groups.keys = x.members cfg.groups.keys ∧ cfg'.num = cfg.num + 1 := by
  cases x with
  | join servers =>
    obtain ⟨mid, hjoin, rfl⟩ := thenRebalance_true h
    have hj := join_true hjoin
    rw [rebalance_groups, rebalance_num, hj.groups, Finmap.keys_union, Finset.union_comm]
    exact ⟨rfl, hj.num⟩
  | leave gids =>
    obtain ⟨mid, hleave, rfl⟩ := thenRebalance_true h
    have hl := leave_true hleave
    rw [rebalance_groups, rebalance_num]
    refine ⟨?_, hl.num⟩
    ext k
    simp only [Finmap.mem_keys, Call.members, Finset.mem_sdiff, List.mem_toFinset, hl.mem]

/-- One call keeps the ledger. -/
theorem kept_step (L : Ledger) (x : Orders × Call) (L' : Ledger) (hk : Kept L)
    (h : ledgerStep L x = some L') : Kept L' := by
  rw [ledgerStep, copy_eq] at h
  split at h
  · simp at h
  · exact Option.some.inj h ▸ hk
  · rename_i cfg' hx
    obtain ⟨hkeys, hnum⟩ := Call.apply_keys hx
    rw [← Option.some.inj h]
    refine ⟨wellFormed_call hk.wellFormed hx, ?_, ?_⟩
    · rw [hkeys, hk.keys]
    · rw [hnum, hk.num]; simp

theorem kept_run {acts : List (Orders × Call)} {L : Ledger}
    (h : Machine.run ledgerStep .make acts = some L) : Kept L :=
  Machine.run_invariant kept_step ⟨wellFormed_make, rfl, rfl⟩ h

/-! ### CheckConfig -/

/-- Where the scan's minimum and maximum come from. -/
theorem minMax_fold (cfg : ShardConfig) (gs : List Tgid) (mm : ℕ × ℕ) :
    ((gs.foldl (minMaxStep cfg) mm).1 = mm.1 ∨
      ∃ g ∈ gs, (gs.foldl (minMaxStep cfg) mm).1 = cfg.counts g) ∧
    ((gs.foldl (minMaxStep cfg) mm).2 = mm.2 ∨
      ∃ g ∈ gs, (gs.foldl (minMaxStep cfg) mm).2 = cfg.counts g) := by
  induction gs generalizing mm with
  | nil => exact ⟨Or.inl rfl, Or.inl rfl⟩
  | cons g gs ih =>
    obtain ⟨hmin, hmax⟩ := ih (minMaxStep cfg mm g)
    have hstep : ((minMaxStep cfg mm g).1 = mm.1 ∨ (minMaxStep cfg mm g).1 = cfg.counts g) ∧
        ((minMaxStep cfg mm g).2 = mm.2 ∨ (minMaxStep cfg mm g).2 = cfg.counts g) := by
      dsimp only [minMaxStep]
      constructor
      · exact (ite_eq_or_eq _ _ _).symm
      · exact (ite_eq_or_eq _ _ _).symm
    simp only [List.foldl_cons, List.exists_mem_cons_iff]
    refine ⟨?_, ?_⟩
    · rcases hmin with h | h
      · rw [h]
        exact hstep.1.imp_right Or.inl
      · exact Or.inr (Or.inr h)
    · rcases hmax with h | h
      · rw [h]
        exact hstep.2.imp_right Or.inl
      · exact Or.inr (Or.inr h)

/-- The last check of `CheckConfig` passes on a balanced configuration. -/
theorem minMax_le {cfg : ShardConfig} (hb : Balanced cfg.groups.keys cfg.shards) {gs : List Tgid}
    (hgs : ∀ g ∈ gs, g ∈ cfg.groups.keys) :
    (gs.foldl (minMaxStep cfg) (257, 0)).2 ≤ (gs.foldl (minMaxStep cfg) (257, 0)).1 + 1 := by
  obtain ⟨hmin, hmax⟩ := minMax_fold cfg gs (257, 0)
  rcases hmax with h | ⟨g, hg, h⟩
  · rw [h]; exact Nat.zero_le _
  · rw [h]
    rcases hmin with h' | ⟨k, hk, h'⟩
    · have := cfg.counts_le g
      rw [h']; simp only [NShards] at this; omega
    · rw [h']; exact hb g (hgs g hg) k (hgs k hk)

/-- A well formed configuration passes `CheckConfig` with the list of its gids. -/
theorem checkConfig_ok (o : RangeOrder Tgid) {cfg : ShardConfig} (hw : WellFormed cfg)
    {groups : List Tgid} (hnd : groups.Nodup) (hmem : groups.toFinset = cfg.groups.keys) :
    checkConfig o cfg groups = .ok () := by
  have hin : ∀ g ∈ groups, g ∈ cfg.groups := fun g hg => by
    rw [← Finmap.mem_keys, ← hmem]; exact List.mem_toFinset.mpr hg
  have hlen : cfg.groups.keys.card = groups.length := by
    rw [← hmem, List.toFinset_card_of_nodup hnd]
  have hfind : groups.find? (fun g => g ∉ cfg.groups) = none := by
    rw [List.find?_eq_none]; intro g hg; simpa using hin g hg
  have hshard : (if 0 < groups.length then
      (List.finRange NShards).find? (fun s => cfg.shards s ∉ cfg.groups) else none) = none := by
    split
    · rename_i hpos
      rw [List.find?_eq_none]
      intro s _
      have := hw.assigned (Finset.card_pos.mp (by omega)) s
      simpa using Finmap.mem_keys.mp this
    · rfl
  rw [checkConfig]
  simp only [hlen, ne_eq, not_true_eq_false, if_false, hfind, hshard]
  rw [if_neg (not_lt.mpr (minMax_le hw.balanced fun g hg => o.mem_visit.mp hg))]

/-- CORRECT: along every history of calls, each on a copy kept only on success, the groups are those
    joined and not since left, `CheckConfig` passes with them, every shard has servers once there is
    a group, no server is in two groups, and the number counts the successful calls. -/
theorem ledger_correct (acts : List (Orders × Call)) (L : Ledger)
    (h : Machine.run ledgerStep .make acts = some L) :
    L.cfg.groups.keys = L.members ∧
    (∀ (o : RangeOrder Tgid) (groups : List Tgid), groups.Nodup → groups.toFinset = L.members →
      checkConfig o L.cfg groups = .ok ()) ∧
    (L.cfg.groups ≠ ∅ → ∀ sh, (gidServers L.cfg sh).2.2 = true) ∧
    (∀ g k sg sk, L.cfg.groups.lookup g = some sg → L.cfg.groups.lookup k = some sk → g ≠ k →
      ∀ s ∈ sg, s ∉ sk) ∧
    L.cfg.num = L.calls := by
  have hk := kept_run h
  refine ⟨hk.keys, ?_, ?_, hk.wellFormed.disjoint, hk.num⟩
  · intro o groups hnd hmem
    exact checkConfig_ok o hk.wellFormed hnd (hmem.trans hk.keys.symm)
  · intro hg sh
    exact Finmap.lookup_isSome.mpr
      (Finmap.mem_keys.mp (hk.wellFormed.assigned (keys_nonempty hg) sh))

/-- Two groups join, a leave of a group that is not in is refused, a third group joins, and the
    first leaves. -/
def ledgerCalls : List (Orders × Call) :=
  [(.ascending, .join (.lit [(1, [.lit "x"]), (2, [.lit "y"])])), (.ascending, .leave [5]),
    (.ascending, .join (.lit [(3, [.lit "z", .lit "w"])])), (.ascending, .leave [1])]

theorem ledger_correct_four : ∃ L : Ledger, Machine.run ledgerStep .make ledgerCalls = some L ∧
    L.cfg.groups.keys = {2, 3} ∧ checkConfig (.ascending Tgid) L.cfg [2, 3] = .ok () ∧
    (∀ sh, (gidServers L.cfg sh).2.2 = true) ∧ L.cfg.num = 3 := by
  obtain ⟨c1, h1, hg1⟩ := joinBalance_succeeds .ascending makeShardConfig
    (.lit [(1, [.lit "x"]), (2, [.lit "y"])]) ⟨1, by decide⟩ (fun _ _ => Finmap.notMem_empty)
    (by decide)
  have h2 : leaveBalance .ascending c1 [5] = .ok (false, c1) := by
    rw [leaveBalance, leave, leaveLoop, if_pos (by rw [hg1]; decide)]; rfl
  obtain ⟨c3, h3, hg3⟩ := joinBalance_succeeds .ascending c1 (.lit [(3, [.lit "z", .lit "w"])])
    ⟨3, by decide⟩ (by rw [hg1]; decide) (by rw [hg1]; decide)
  obtain ⟨c4, h4⟩ := leaveBalance_succeeds .ascending c3 [1] (by decide) (by decide)
    (by rw [hg3, hg1]; decide)
  have hrun : Machine.run ledgerStep .make ledgerCalls =
      some ⟨c4, (({1, 2} : Finset Tgid) ∪ {3}) \ {1}, 3⟩ := by
    simp only [ledgerCalls, Machine.run, Ledger.make, ledgerStep, copy_eq,
      Call.apply, h1, h2, h3, h4, Option.bind_some]
    rfl
  obtain ⟨hkeys, hcheck, hservers, -, hnum⟩ := ledger_correct _ _ hrun
  dsimp only at hkeys hservers
  have hmembers : (({1, 2} : Finset Tgid) ∪ {3}) \ {1} = {2, 3} := by decide
  have hlist : ([2, 3] : List Tgid).toFinset = ({1, 2} ∪ {3}) \ {1} := by decide
  refine ⟨_, hrun, hkeys.trans hmembers, hcheck _ [2, 3] (by decide) hlist, hservers ?_, hnum⟩
  intro hempty
  rw [hempty, Finmap.keys_empty, hmembers] at hkeys
  exact absurd hkeys (by decide)

end DistSys.ShardCfg
