import DistSys.ShardCfg.Runs

/-! @go shardkv1/shardcfg/shardcfg.go | name:Join, Leave, IsMember | scheme:gomap, balance

    What the answers of a configuration say. A change is refused from inside the loop that is making
    it, so the groups handled before the offending gid stay changed; and `IsMember` looks for a
    shard of the group, not for the group.

        Leave [1, 5], Groups = 1, 2    1 deleted ──▶ 5 not in ──▶ false, Groups = 2
        Join g, h, h in                g added   ──▶ h in     ──▶ false, g stays
        IsMember                       some shard has the gid ⟺ gid in, for 1 to 12 groups -/

namespace DistSys.ShardCfg
open DistSys.Balance

/-! ### Refusals -/

/-- If the answer is a refusal, the configuration is still `cfg`. -/
def Untouched (cfg : ShardConfig) (r : Except GoString (Bool × ShardConfig)) : Prop :=
  ∀ cfg', r = .ok (false, cfg') → cfg' = cfg

/-- Some group that is in has one of the servers. -/
def Clashes (cfg : ShardConfig) (srvs : List GoString) : Prop :=
  ∃ x xs, cfg.groups.lookup x = some xs ∧ ∃ s ∈ xs, s ∈ srvs

/-- `Leave` either deletes nothing (its first gid is not in) or has nothing to refuse. -/
def LeaveClean (cfg : ShardConfig) (gids : List Tgid) : Prop :=
  (∀ g ∈ gids.head?, g ∉ cfg.groups) ∨ gids.Nodup ∧ ∀ g ∈ gids, g ∈ cfg.groups

/-- `Join` either has nothing to refuse or can add no group before it stops: each gid is in, or ends
    the process because of a server. -/
def JoinClean (cfg : ShardConfig) (servers : GoMap Tgid (List GoString)) : Prop :=
  (∀ g ∈ servers, g ∉ cfg.groups) ∨
    ∀ g srvs, servers.lookup g = some srvs → g ∈ cfg.groups ∨ Clashes cfg srvs

theorem clash_eq_none_iff_not_clashes {o : RangeOrder Tgid} {cfg : ShardConfig}
    {srvs : List GoString} : clash o cfg srvs = none ↔ ¬ Clashes cfg srvs := by
  rw [clash_eq_none_iff]
  constructor
  · rintro h ⟨x, xs, hx, s, hs, hmem⟩
    exact h x xs hx s hs hmem
  · intro h x xs hx s hs hmem
    exact h ⟨x, xs, hx, s, hs, hmem⟩

theorem untouched_thenRebalance {o : Orders} {cfg : ShardConfig}
    {r : Except GoString (Bool × ShardConfig)} :
    Untouched cfg (thenRebalance o r) ↔ Untouched cfg r := by
  match r with
  | .error msg => exact Iff.rfl
  | .ok (false, cfg₁) => exact Iff.rfl
  | .ok (true, cfg₁) =>
    constructor
    · intro _ cfg' h; simp at h
    · intro _ cfg' h; simp [thenRebalance] at h

/-- A `Leave` whose first gid is in has deleted it, whatever it answers. -/
theorem leave_untouched_iff (cfg : ShardConfig) (gids : List Tgid) :
    Untouched cfg (leave cfg gids) ↔ LeaveClean cfg gids := by
  cases gids with
  | nil =>
    refine iff_of_true (fun cfg' h => ?_) (Or.inl (by simp))
    simp [leave, leaveLoop] at h
  | cons gid rest =>
    obtain ⟨b, cfg', hans, -, hb⟩ := leaveLoop_answer (gid :: rest) false cfg (Or.inr (by simp))
    by_cases hgid : gid ∈ cfg.groups
    · constructor
      · intro hun
        refine Or.inr (hb.mp ?_)
        by_contra hf
        rw [Bool.not_eq_true] at hf
        subst hf
        have hsame := hun cfg' hans
        -- the rest of the loop works on a configuration without `gid`
        rw [leaveLoop, if_neg (not_not.mpr hgid)] at hans
        obtain ⟨b', cfg'', hans', hsub, -⟩ :=
          leaveLoop_answer rest true { cfg with groups := cfg.groups.erase gid } (Or.inl rfl)
        rw [hans', Except.ok.injEq, Prod.mk.injEq] at hans
        obtain ⟨-, rfl⟩ := hans
        exact (Finmap.mem_erase.mp (hsub gid (hsame ▸ hgid))).1 rfl
      · rintro (habs | hall)
        · exact absurd hgid (habs gid (by simp))
        · intro cfg'' h
          rw [leave, hans, hb.mpr hall] at h
          simp at h
    · refine iff_of_true (fun cfg'' h => ?_) (Or.inl (by simpa using hgid))
      rw [leave, leaveLoop, if_pos hgid, Except.ok.injEq, Prod.mk.injEq] at h
      exact h.2.symm

/-- A `Join` of groups none of which is in is not refused. -/
theorem joinLoop_not_refused (o : Tgid → RangeOrder Tgid) (servers : GoMap Tgid (List GoString))
    (l : List Tgid) (ch : Bool) (cfg cfg' : ShardConfig) (hnd : l.Nodup)
    (hfresh : ∀ g ∈ l, g ∉ cfg.groups) :
    joinLoop o servers l ch cfg ≠ .ok (false, cfg') := by
  induction l generalizing ch cfg with
  | nil =>
    rw [joinLoop]
    split <;> simp
  | cons gid rest ih =>
    obtain ⟨hnot, hnd⟩ := List.nodup_cons.mp hnd
    rw [joinLoop, if_neg (hfresh gid List.mem_cons_self)]
    dsimp only
    split
    · simp
    · refine ih true _ hnd fun g hg hmem => ?_
      rcases Finmap.mem_insert.mp hmem with rfl | hmem
      · exact hnot hg
      · exact hfresh g (List.mem_cons_of_mem _ hg) hmem

/-- The runtime may visit a new group before one that is in, and then the new group stays. -/
theorem join_touched {cfg : ShardConfig} {servers : GoMap Tgid (List GoString)} {g h : Tgid}
    {srvs : List GoString} (hg : servers.lookup g = some srvs) (hnew : g ∉ cfg.groups)
    (hapart : ¬ Clashes cfg srvs) (hh : h ∈ servers) (hin : h ∈ cfg.groups) (o : Orders) :
    ∃ o' cfg', join o' cfg servers = .ok (false, cfg') ∧ cfg' ≠ cfg := by
  have hne : g ≠ h := fun he => hnew (he ▸ hin)
  have hnd : [g, h].Nodup := by simp [hne]
  have hvisit := o.join.startingWith_visit hnd (s := servers.keys) <| by
    simp [Finmap.mem_keys, hh, Finmap.mem_of_lookup_eq_some hg]
  refine ⟨{ o with join := o.join.startingWith [g, h] hnd },
    { cfg with groups := cfg.groups.insert g srvs }, ?_, ?_⟩
  · rw [join, hvisit, List.cons_append, joinLoop, if_neg hnew]
    simp only [hg, Option.getD_some, clash_eq_none_iff_not_clashes.mpr hapart]
    rw [List.cons_append, joinLoop, if_pos (Finmap.mem_insert.mpr (Or.inr hin))]
  · intro he
    have hgr := congrArg ShardConfig.groups he
    exact hnew (hgr ▸ Finmap.mem_insert.mpr (Or.inl rfl))

theorem join_untouched_iff (cfg : ShardConfig) (servers : GoMap Tgid (List GoString)) :
    (∀ o, Untouched cfg (join o cfg servers)) ↔ JoinClean cfg servers := by
  constructor
  · intro hun
    by_contra hdirty
    simp only [JoinClean, not_or, not_forall, not_not] at hdirty
    obtain ⟨⟨h, hh, hin⟩, g, srvs, hg, hnew, hapart⟩ := hdirty
    obtain ⟨o, cfg', hans, hne⟩ := join_touched hg hnew hapart hh hin .ascending
    exact hne (hun o cfg' hans)
  · rintro (hfresh | hstop) o cfg' hans
    · refine absurd hans (joinLoop_not_refused _ _ _ _ _ _ (o.join.nodup_visit _) fun g hg => ?_)
      exact hfresh g (Finmap.mem_keys.mp (o.join.mem_visit.mp hg))
    · -- the first gid visited decides
      rw [join] at hans
      have hmem : ∀ g ∈ o.join.visit servers.keys, g ∈ servers := fun g hg =>
        Finmap.mem_keys.mp (o.join.mem_visit.mp hg)
      cases hl : o.join.visit servers.keys with
      | nil => rw [hl, joinLoop] at hans; simp at hans
      | cons g rest =>
        obtain ⟨srvs, hg⟩ := Finmap.mem_iff.mp (hmem g (hl ▸ List.mem_cons_self))
        rw [hl, joinLoop] at hans
        split at hans
        · rw [Except.ok.injEq, Prod.mk.injEq] at hans
          exact hans.2.symm
        · rename_i hnew
          simp only [hg, Option.getD_some] at hans
          split at hans
          · simp at hans
          · rename_i hnone
            exact absurd ((hstop g srvs hg).resolve_left hnew)
              (clash_eq_none_iff_not_clashes.mp hnone)

/-- CORRECT: the four calls leave a configuration as it was whenever they refuse, for every map
    order, exactly if `Leave` deletes nothing or has nothing to refuse, and likewise `Join`. -/
theorem refused_untouched_iff (cfg : ShardConfig) (servers : GoMap Tgid (List GoString))
    (gids : List Tgid) : (∀ o, Untouched cfg (join o cfg servers) ∧ Untouched cfg (leave cfg gids) ∧
      Untouched cfg (joinBalance o cfg servers) ∧ Untouched cfg (leaveBalance o cfg gids)) ↔
    JoinClean cfg servers ∧ LeaveClean cfg gids := by
  simp only [joinBalance, leaveBalance, untouched_thenRebalance]
  rw [← join_untouched_iff, ← leave_untouched_iff]
  constructor
  · intro h
    exact ⟨fun o => (h o).1, (h .ascending).2.1⟩
  · rintro ⟨hj, hl⟩ o
    exact ⟨hj o, hl, hj o, hl⟩

/-- Groups 1 and 2 are in; `Leave([1, 5])` answers false and group 1 is gone. -/
theorem refused_leave_deletes : ∃ cfg cfg' : ShardConfig, (1 : Tgid) ∈ cfg.groups ∧
    leave cfg [1, 5] = .ok (false, cfg') ∧ leaveBalance .ascending cfg [1, 5] = .ok (false, cfg') ∧
    (1 : Tgid) ∉ cfg'.groups := by
  refine ⟨⟨0, fun _ => 0, .lit [(1, [.lit "x"]), (2, [.lit "y"])]⟩,
    ⟨0, fun _ => 0, .lit [(2, [.lit "y"])]⟩, ?_⟩
  decide +kernel

/-! ### IsMember -/

def isMember (cfg : ShardConfig) (gid : Tgid) : Bool :=
  (List.finRange NShards).any fun s => cfg.shards s = gid

theorem isMember_iff {cfg : ShardConfig} {gid : Tgid} :
    isMember cfg gid = true ↔ ∃ s, cfg.shards s = gid := by
  simp [isMember]

/-- A balanced configuration with at most one group a shard gives every group a shard. -/
theorem WellFormed.exists_shard {cfg : ShardConfig} (hw : WellFormed cfg)
    (hle : cfg.groups.keys.card ≤ NShards) {gid : Tgid} (hg : gid ∈ cfg.groups.keys) :
    ∃ s, cfg.shards s = gid := by
  have hcard : 0 < cfg.groups.keys.card := Finset.card_pos.mpr ⟨gid, hg⟩
  have hlow := (balanced_bounds (hw.assigned ⟨gid, hg⟩) hw.balanced hg).1
  rw [Fintype.card_fin] at hlow
  have hpos : 0 < load cfg.shards gid := (Nat.div_pos hle hcard).trans_le hlow
  obtain ⟨s, hs⟩ := Finset.card_pos.mp hpos
  exact ⟨s, (Finset.mem_filter.mp hs).2⟩

/-- If every group has a shard, there are no more groups than shards. -/
theorem card_groups_le {cfg : ShardConfig} (h : ∀ g ∈ cfg.groups.keys, ∃ s, cfg.shards s = g) :
    cfg.groups.keys.card ≤ NShards := by
  have hsub : cfg.groups.keys ⊆ Finset.univ.image cfg.shards := by
    intro g hg
    obtain ⟨s, hs⟩ := h g hg
    exact Finset.mem_image.mpr ⟨s, Finset.mem_univ s, hs⟩
  calc cfg.groups.keys.card ≤ (Finset.univ.image cfg.shards).card := Finset.card_le_card hsub
    _ ≤ (Finset.univ : Finset Tshid).card := Finset.card_image_le
    _ = NShards := Finset.card_fin NShards

/-- CORRECT: in a reached configuration `IsMember` tells membership exactly if there is a group and
    there are no more groups than shards. -/
theorem isMember_reports_iff {cfg : ShardConfig} (hr : Reached cfg) :
    (∀ gid, isMember cfg gid = true ↔ gid ∈ cfg.groups) ↔
      cfg.groups.keys.Nonempty ∧ cfg.groups.keys.card ≤ NShards := by
  have hw := hr.wellFormed
  constructor
  · intro hall
    refine ⟨?_, card_groups_le fun g hg => isMember_iff.mp ((hall g).mpr (Finmap.mem_keys.mp hg))⟩
    have hfirst : isMember cfg (cfg.shards ⟨0, by decide⟩) = true := isMember_iff.mpr ⟨_, rfl⟩
    exact ⟨_, Finmap.mem_keys.mpr ((hall _).mp hfirst)⟩
  · rintro ⟨hne, hle⟩ gid
    rw [isMember_iff, ← Finmap.mem_keys]
    constructor
    · rintro ⟨s, rfl⟩
      exact hw.assigned hne s
    · exact fun hg => hw.exists_shard hle hg

/-- One group has joined. -/
theorem isMember_reports_one : ∃ cfg, Reached cfg ∧ ∀ gid, isMember cfg gid = true ↔
    gid ∈ cfg.groups := by
  obtain ⟨cfg, hjoin, hgr⟩ :=
    joinBalance_succeeds .ascending makeShardConfig (.lit [(1, [.lit "x"])])
    ⟨1, by decide⟩ (fun _ _ => Finmap.notMem_empty) (by decide)
  have hr : Reached cfg := .call .ascending (.join _) .make hjoin
  refine ⟨cfg, hr, (isMember_reports_iff hr).mpr ?_⟩
  rw [hgr]
  exact ⟨⟨1, by decide⟩, by decide⟩

/-- Before any join, `IsMember(0)` is true although there is no group. -/
theorem isMember_zero_make :
    Reached makeShardConfig ∧ isMember makeShardConfig 0 = true ∧
      (0 : Tgid) ∉ makeShardConfig.groups :=
  ⟨.make, by decide, Finmap.notMem_empty⟩

end DistSys.ShardCfg
