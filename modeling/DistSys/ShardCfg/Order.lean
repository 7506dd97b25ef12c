import DistSys.ShardCfg.Membership

/-! @go shardkv1/shardcfg/shardcfg.go | name:analyze, Rebalance, Join, Leave | scheme:gomap

    Two controllers that compute the next configuration from the same one must agree, though each
    `range` over a map comes in an order of its own. `analyze` sorts the gids first, so every loop
    that asks it takes the same turns; `Join` and `Leave` end in the same groups whenever they end
    well.

        run 1 (orders o)  ──▶ c
                               ‖   same number, shards and groups
        run 2 (orders o') ──▶ c' -/

namespace DistSys.ShardCfg

theorem fill_order (o o' : Tshid → RangeOrder Tgid) (c : ShardConfig) : fill o c = fill o' c := by
  have hstep : fillStep o = fillStep o' := by
    funext d s
    rw [fillStep, fillStep, least, least, analyze_order (o s) (o' s)]
  rw [fill, fill, hstep]

theorem moveStep_order (o o' : RangeOrder Tgid) (c : ShardConfig) :
    moveStep o c = moveStep o' c := by
  rw [moveStep, moveStep, analyze_order o o']

/-- Both loops break at the same turn, however differently the turns range. -/
theorem moveLoop_order (o o' : ℕ → RangeOrder Tgid) (k k' : ℕ) (c : ShardConfig) :
    moveLoop o k c = moveLoop o' k' c := by
  induction k, c using moveLoop.induct (o := o) generalizing k' with
  | case1 k c hnone =>
    have hnone' : moveStep (o' k') c = none := (moveStep_order _ (o k) c).trans hnone
    rw [moveLoop, hnone, moveLoop, hnone']
  | case2 k c d hsome ih =>
    have hsome' : moveStep (o' k') c = some d := (moveStep_order _ (o k) c).trans hsome
    rw [moveLoop, hsome, moveLoop, hsome']
    exact ih (k' + 1)

theorem rebalance_order (o o' : RebalanceOrders) (c : ShardConfig) :
    rebalance o c = rebalance o' c := by
  rw [rebalance, rebalance, fill_order o.fill o'.fill, moveLoop_order o.move o'.move 0 0]

/-- A successful `Join` ends in one configuration only. -/
theorem Joined.unique {cfg c c' : ShardConfig} {servers : GoMap Tgid (List GoString)}
    (h : Joined cfg c servers) (h' : Joined cfg c' servers) : c = c' := by
  cases c; cases c'
  obtain ⟨hn, hs, hg, -, -, -⟩ := h
  obtain ⟨hn', hs', hg', -, -, -⟩ := h'
  simp only at hn hs hg hn' hs' hg'
  rw [hn, hs, hg, hn', hs', hg']

/-- A successful `Leave` ends in one configuration only, in whatever order the gids are listed. -/
theorem Left.unique {cfg c c' : ShardConfig} {gids gids' : List Tgid} (hp : gids.Perm gids')
    (h : Left cfg c gids) (h' : Left cfg c' gids') : c = c' := by
  have hgroups : c.groups = c'.groups := Finmap.ext_lookup fun k => by
    rw [h.lookup, h'.lookup]
    by_cases hk : k ∈ gids
    · rw [if_pos hk, if_pos (hp.mem_iff.mp hk)]
    · rw [if_neg hk, if_neg fun hk' => hk (hp.mem_iff.mpr hk')]
  cases c; cases c'
  have hn := h.num.trans h'.num.symm
  have hs := h.shards.trans h'.shards.symm
  simp only at hn hs hgroups
  rw [hn, hs, hgroups]

/-- CORRECT: a copy followed by a successful `JoinBalance` gives the same configuration under any
    two choices of map orders, and so does one followed by a successful `LeaveBalance`, also with
    the gids listed differently. -/
theorem membership_deterministic (cfg : ShardConfig) (o o' : Orders) :
    (∀ servers c c', joinBalance o (cfg.copy o.copy) servers = .ok (true, c) →
      joinBalance o' (cfg.copy o'.copy) servers = .ok (true, c') → c = c') ∧
    (∀ gids gids' c c', gids.Perm gids' → leaveBalance o (cfg.copy o.copy) gids = .ok (true, c) →
      leaveBalance o' (cfg.copy o'.copy) gids' = .ok (true, c') → c = c') := by
  rw [copy_eq, copy_eq]
  refine ⟨?_, ?_⟩
  · intro servers c c' h h'
    obtain ⟨mid, hmid, rfl⟩ := thenRebalance_true h
    obtain ⟨mid', hmid', rfl⟩ := thenRebalance_true h'
    rw [(join_true hmid).unique (join_true hmid'), rebalance_order]
  · intro gids gids' c c' hp h h'
    obtain ⟨mid, hmid, rfl⟩ := thenRebalance_true h
    obtain ⟨mid', hmid', rfl⟩ := thenRebalance_true h'
    rw [Left.unique hp (leave_true hmid) (leave_true hmid'), rebalance_order]

end DistSys.ShardCfg
