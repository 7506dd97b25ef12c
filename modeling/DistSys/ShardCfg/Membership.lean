import DistSys.ShardCfg.Rebalance

/-! @go shardkv1/shardcfg/shardcfg.go | name:Join, Leave, JoinBalance, LeaveBalance, CheckConfig

    Groups join and leave a configuration. A call that returns `false` has been refused; a call that
    logs a fatal error ends the process, which is the `error` outcome with the logged text (plain
    log lines have no effect and are left out). `Join` checks each group's servers against every
    group that is already in, those added earlier in the same call included.

        gid in Groups?  ──yes──▶ refused
             │ no
        server shared with a group that is in?  ──yes──▶ fatal
             │ no
        Groups[gid] = servers, next gid -/

namespace DistSys.ShardCfg
open DistSys.Balance
open GoString (lit itoa)
open Strconv (formatInt)

/-- The orders of all `range`s over `Groups` and over the joining map in one `Copy` and one call. -/
structure Orders extends RebalanceOrders where
  copy : RangeOrder Tgid
  join : RangeOrder Tgid
  /-- the `range` over `cfg.Groups` made while the given gid joins -/
  check : Tgid → RangeOrder Tgid

def Orders.ascending : Orders where
  toRebalanceOrders := .ascending
  copy := .ascending Tgid
  join := .ascending Tgid
  check _ := .ascending Tgid

/-! ### Join and Leave -/

/-- The first server of a group already in that is also one of `servers`, with that group. -/
def clash (o : RangeOrder Tgid) (cfg : ShardConfig) (servers : List GoString) :
    Option (GoString × Tgid) :=
  (o.visit cfg.groups.keys).findSome? fun xgid =>
    ((cfg.groups.lookup xgid).getD []).findSome? fun s1 =>
      if s1 ∈ servers then some (s1, xgid) else none

def joinLoop (o : Tgid → RangeOrder Tgid) (servers : GoMap Tgid (List GoString)) :
    List Tgid → Bool → ShardConfig → Except GoString (Bool × ShardConfig)
  | [], changed, cfg =>
    if changed = false then .error (lit "Join but no change")
    else .ok (true, { cfg with num := cfg.num + 1 })
  | gid :: rest, _, cfg =>
    if gid ∈ cfg.groups then .ok (false, cfg)
    else
      let srvs := (servers.lookup gid).getD []
      match clash (o gid) cfg srvs with
      | some (s1, xgid) =>
        .error (lit "Join(" ++ formatInt gid ++ lit ") puts server " ++ s1 ++ lit " in groups " ++
          formatInt xgid ++ lit " and " ++ formatInt gid)
      | none => joinLoop o servers rest true { cfg with groups := cfg.groups.insert gid srvs }

def join (o : Orders) (cfg : ShardConfig) (servers : GoMap Tgid (List GoString)) :
    Except GoString (Bool × ShardConfig) :=
  joinLoop o.check servers (o.join.visit servers.keys) false cfg

def leaveLoop : List Tgid → Bool → ShardConfig → Except GoString (Bool × ShardConfig)
  | [], changed, cfg =>
    if changed = false then .error (lit "Leave but no change")
    else .ok (true, { cfg with num := cfg.num + 1 })
  | gid :: rest, _, cfg =>
    if gid ∉ cfg.groups then .ok (false, cfg)
    else leaveLoop rest true { cfg with groups := cfg.groups.erase gid }

def leave (cfg : ShardConfig) (gids : List Tgid) : Except GoString (Bool × ShardConfig) :=
  leaveLoop gids false cfg

/-- `if !changed(cfg) { return false }; cfg.Rebalance(); return true`. -/
def thenRebalance (o : Orders) : Except GoString (Bool × ShardConfig) →
    Except GoString (Bool × ShardConfig)
  | .error msg => .error msg
  | .ok (false, cfg) => .ok (false, cfg)
  | .ok (true, cfg) => .ok (true, rebalance o.toRebalanceOrders cfg)

def joinBalance (o : Orders) (cfg : ShardConfig) (servers : GoMap Tgid (List GoString)) :
    Except GoString (Bool × ShardConfig) := thenRebalance o (join o cfg servers)

def leaveBalance (o : Orders) (cfg : ShardConfig) (gids : List Tgid) :
    Except GoString (Bool × ShardConfig) := thenRebalance o (leave cfg gids)

def gidServers (cfg : ShardConfig) (sh : Tshid) : Tgid × List GoString × Bool :=
  (cfg.shards sh, (cfg.groups.lookup (cfg.shards sh)).getD [],
    (cfg.groups.lookup (cfg.shards sh)).isSome)

/-- The smallest and the largest count over the groups, as `CheckConfig` accumulates them. -/
def minMaxStep (cfg : ShardConfig) (mm : ℕ × ℕ) (g : Tgid) : ℕ × ℕ :=
  (if cfg.counts g < mm.1 then cfg.counts g else mm.1,
    if cfg.counts g > mm.2 then cfg.counts g else mm.2)

/-- `CheckConfig`: the `error` is the text of the `fatalf` that stops the test. -/
def checkConfig (o : RangeOrder Tgid) (cfg : ShardConfig) (groups : List Tgid) :
    Except GoString Unit :=
  let got := cfg.groups.keys.card
  let want := groups.length
  if got ≠ want then .error (lit "wanted " ++ itoa want ++ lit " groups, got " ++ itoa got)
  else match groups.find? (fun g => g ∉ cfg.groups) with
    | some g => .error (lit "missing group " ++ formatInt g)
    | none =>
      match if 0 < want then (List.finRange NShards).find? (fun s => cfg.shards s ∉ cfg.groups)
        else none with
      | some s =>
        .error (lit "shard " ++ itoa s ++ lit " -> invalid group " ++ formatInt (cfg.shards s))
      | none =>
        let (min, max) := (o.visit cfg.groups.keys).foldl (minMaxStep cfg) (257, 0)
        if max > min + 1 then
          .error (lit "max " ++ itoa max ++ lit " too much larger than min " ++ itoa min)
        else .ok ()

/-! ### What a successful call did -/

/-- No server is listed under two gids. -/
def ServersDisjoint (m : GoMap Tgid (List GoString)) : Prop :=
  ∀ g h sg sh, m.lookup g = some sg → m.lookup h = some sh → g ≠ h → ∀ s ∈ sg, s ∉ sh

instance (m : GoMap Tgid (List GoString)) : Decidable (ServersDisjoint m) :=
  decidable_of_iff (∀ g ∈ m.keys, ∀ h ∈ m.keys, g ≠ h →
      ∀ s ∈ (m.lookup g).getD [], s ∉ (m.lookup h).getD []) <| by
    constructor
    · intro hall g h sg sh hg hh hne s hs
      have := hall g (Finmap.mem_keys.mpr (Finmap.mem_of_lookup_eq_some hg)) h
        (Finmap.mem_keys.mpr (Finmap.mem_of_lookup_eq_some hh)) hne s (by rwa [hg])
      rwa [hh] at this
    · intro hd g hg h hh hne s hs
      obtain ⟨sg, hsg⟩ := Finmap.mem_iff.mp (Finmap.mem_keys.mp hg)
      obtain ⟨sh, hsh⟩ := Finmap.mem_iff.mp (Finmap.mem_keys.mp hh)
      rw [hsg] at hs
      rw [hsh]
      exact hd g h sg sh hsg hsh hne s hs

/-- Whatever the order of the scan, it finds nothing iff no group in shares a server. -/
theorem clash_eq_none_iff {o : RangeOrder Tgid} {cfg : ShardConfig} {servers : List GoString} :
    clash o cfg servers = none ↔
      ∀ x xs, cfg.groups.lookup x = some xs → ∀ s ∈ xs, s ∉ servers := by
  rw [clash, List.findSome?_eq_none_iff]
  constructor
  · intro h x xs hx s hs hmem
    have hin := h x (o.mem_visit.mpr (Finmap.mem_keys.mpr (Finmap.mem_of_lookup_eq_some hx)))
    rw [hx, Option.getD_some, List.findSome?_eq_none_iff] at hin
    simpa [hmem] using hin s hs
  · intro h x hx
    obtain ⟨xs, hxs⟩ := Finmap.mem_iff.mp (Finmap.mem_keys.mp (o.mem_visit.mp hx))
    rw [hxs, Option.getD_some, List.findSome?_eq_none_iff]
    intro s hs
    exact if_neg (h x xs hxs s hs)

/-- Adding a group that clashes with none keeps the server lists apart. -/
theorem serversDisjoint_insert {o : RangeOrder Tgid} {cfg : ShardConfig} {gid : Tgid}
    {servers : List GoString} (hc : clash o cfg servers = none) (hd : ServersDisjoint cfg.groups) :
    ServersDisjoint (cfg.groups.insert gid servers) := by
  intro g h sg sh hg hh hne s hs hs'
  obtain ⟨rfl, rfl⟩ | ⟨-, hold⟩ := lookup_insert_cases hg
  · obtain ⟨rfl, -⟩ | ⟨-, hold'⟩ := lookup_insert_cases hh
    · exact hne rfl
    · exact clash_eq_none_iff.mp hc h sh hold' s hs' hs
  · obtain ⟨rfl, rfl⟩ | ⟨-, hold'⟩ := lookup_insert_cases hh
    · exact clash_eq_none_iff.mp hc g sg hold s hs hs'
    · exact hd g h sg sh hold hold' hne s hs hs'

/-- What `Join` did when it returned true. -/
structure Joined (cfg cfg' : ShardConfig) (servers : GoMap Tgid (List GoString)) : Prop where
  num : cfg'.num = cfg.num + 1
  shards : cfg'.shards = cfg.shards
  groups : cfg'.groups = servers ∪ cfg.groups
  fresh : ∀ g ∈ servers, g ∉ cfg.groups
  nonempty : servers.keys.Nonempty
  disjoint : ServersDisjoint cfg.groups → ServersDisjoint cfg'.groups

theorem joinLoop_true (o : Tgid → RangeOrder Tgid)
    (servers : GoMap Tgid (List GoString)) (l : List Tgid)
    (ch : Bool) (cfg cfg' : ShardConfig) (hnd : l.Nodup)
    (h : joinLoop o servers l ch cfg = .ok (true, cfg')) :
    (ch = true ∨ l ≠ []) ∧ (∀ g ∈ l, g ∉ cfg.groups) ∧ cfg'.num = cfg.num + 1 ∧
      cfg'.shards = cfg.shards ∧
      cfg'.groups = l.foldl (fun m g => m.insert g ((servers.lookup g).getD [])) cfg.groups ∧
      (ServersDisjoint cfg.groups → ServersDisjoint cfg'.groups) := by
  induction l generalizing ch cfg with
  | nil =>
    rw [joinLoop] at h
    split at h
    · simp at h
    · rename_i hch
      simp only [Except.ok.injEq, Prod.mk.injEq, true_and] at h
      subst h
      exact ⟨Or.inl (by simpa using hch), by simp, rfl, rfl, rfl, id⟩
  | cons gid rest ih =>
    obtain ⟨hnot, hnd⟩ := List.nodup_cons.mp hnd
    rw [joinLoop] at h
    split at h
    · simp at h
    rename_i hgid
    dsimp only at h
    split at h
    · simp at h
    rename_i hc
    obtain ⟨_, hfresh, hnum, hsh, hgr, hdis⟩ := ih true _ hnd h
    refine ⟨Or.inr (by simp), ?_, hnum, hsh, hgr, fun hd => hdis (serversDisjoint_insert hc hd)⟩
    intro g hg
    rcases List.mem_cons.mp hg with rfl | hg
    · exact hgid
    · exact fun hmem => hfresh g hg (Finmap.mem_insert.mpr (Or.inr hmem))

theorem join_true {o : Orders} {cfg cfg' : ShardConfig} {servers : GoMap Tgid (List GoString)}
    (h : join o cfg servers = .ok (true, cfg')) : Joined cfg cfg' servers := by
  obtain ⟨hch, hfresh, hnum, hsh, hgr, hdis⟩ :=
    joinLoop_true o.check servers _ false cfg cfg' (o.join.nodup_visit _) h
  refine ⟨hnum, hsh, hgr.trans (o.join.foldl_insert_visit servers cfg.groups []), ?_, ?_, hdis⟩
  · intro g hg
    exact hfresh g (by rwa [o.join.mem_visit, Finmap.mem_keys])
  · rcases hch with hch | hch
    · simp at hch
    · obtain ⟨g, hg⟩ := List.exists_mem_of_ne_nil _ hch
      exact ⟨g, o.join.mem_visit.mp hg⟩

/-- A list of fresh gids whose servers stay apart is taken in to its end. -/
theorem joinLoop_succeeds (o : Tgid → RangeOrder Tgid)
    (servers : GoMap Tgid (List GoString)) (l : List Tgid)
    (ch : Bool) (cfg : ShardConfig) (hch : ch = true ∨ l ≠ []) (hnd : l.Nodup)
    (hfresh : ∀ g ∈ l, g ∉ cfg.groups)
    (hdis :
      ServersDisjoint (l.foldl (fun m g => m.insert g ((servers.lookup g).getD [])) cfg.groups)) :
    ∃ cfg', joinLoop o servers l ch cfg = .ok (true, cfg') := by
  induction l generalizing ch cfg with
  | nil =>
    rw [joinLoop, if_neg (by simpa using hch)]
    exact ⟨_, rfl⟩
  | cons gid rest ih =>
    obtain ⟨hnot, hnd⟩ := List.nodup_cons.mp hnd
    have hgid := hfresh gid List.mem_cons_self
    have hc : clash (o gid) cfg ((servers.lookup gid).getD []) = none := by
      rw [clash_eq_none_iff]
      intro x xs hxs s hs
      have hxl : x ∉ gid :: rest := fun h => hfresh x h (Finmap.mem_of_lookup_eq_some hxs)
      refine hdis x gid xs _ ?_ ?_ (fun h => hxl (h ▸ List.mem_cons_self)) s hs
      · rw [RangeOrder.lookup_foldl_insert (fun g => (servers.lookup g).getD []), if_neg hxl, hxs]
      · rw [RangeOrder.lookup_foldl_insert (fun g => (servers.lookup g).getD []),
          if_pos List.mem_cons_self]
    rw [joinLoop, if_neg hgid]
    dsimp only
    rw [hc]
    refine ih true _ (Or.inl rfl) hnd ?_ hdis
    intro g hg hmem
    rcases Finmap.mem_insert.mp hmem with rfl | hmem
    · exact hnot hg
    · exact hfresh g (List.mem_cons_of_mem _ hg) hmem

/-- Fresh groups with servers of their own can always join, whatever the map orders. -/
theorem join_succeeds (o : Orders) {cfg : ShardConfig} {servers : GoMap Tgid (List GoString)}
    (hne : servers.keys.Nonempty) (hfresh : ∀ g ∈ servers, g ∉ cfg.groups)
    (hdis : ServersDisjoint (servers ∪ cfg.groups)) :
    ∃ cfg', join o cfg servers = .ok (true, cfg') := by
  refine joinLoop_succeeds o.check servers _ false cfg (Or.inr ?_) (o.join.nodup_visit _) ?_ ?_
  · obtain ⟨g, hg⟩ := hne
    exact List.ne_nil_of_mem (o.join.mem_visit.mpr hg)
  · exact fun g hg => hfresh g (Finmap.mem_keys.mp (o.join.mem_visit.mp hg))
  · rw [o.join.foldl_insert_visit]; exact hdis

/-- What `Leave` did when it returned true. -/
structure Left (cfg cfg' : ShardConfig) (gids : List Tgid) : Prop where
  num : cfg'.num = cfg.num + 1
  shards : cfg'.shards = cfg.shards
  groups : cfg'.groups = gids.foldl (fun m g => m.erase g) cfg.groups
  present : ∀ g ∈ gids, g ∈ cfg.groups
  nonempty : gids ≠ []

theorem leaveLoop_true (gids : List Tgid) (ch : Bool) (cfg cfg' : ShardConfig)
    (h : leaveLoop gids ch cfg = .ok (true, cfg')) :
    (ch = true ∨ gids ≠ []) ∧ (∀ g ∈ gids, g ∈ cfg.groups) ∧ cfg'.num = cfg.num + 1 ∧
    cfg'.shards = cfg.shards ∧ cfg'.groups = gids.foldl (fun m g => m.erase g) cfg.groups := by
  induction gids generalizing ch cfg with
  | nil =>
    rw [leaveLoop] at h
    split at h
    · simp at h
    · rename_i hch
      simp only [Except.ok.injEq, Prod.mk.injEq, true_and] at h
      subst h
      exact ⟨Or.inl (by simpa using hch), by simp, rfl, rfl, rfl⟩
  | cons gid rest ih =>
    rw [leaveLoop] at h
    split at h
    · simp at h
    rename_i hgid
    obtain ⟨_, hpres, hnum, hsh, hgr⟩ := ih true _ h
    refine ⟨Or.inr (by simp), ?_, hnum, hsh, hgr⟩
    intro g hg
    rcases List.mem_cons.mp hg with rfl | hg
    · exact not_not.mp hgid
    · exact (Finmap.mem_erase.mp (hpres g hg)).2

theorem leave_true {cfg cfg' : ShardConfig} {gids : List Tgid}
    (h : leave cfg gids = .ok (true, cfg')) : Left cfg cfg' gids := by
  obtain ⟨hch, hpres, hnum, hsh, hgr⟩ := leaveLoop_true gids false cfg cfg' h
  exact ⟨hnum, hsh, hgr, hpres, hch.resolve_left (by simp)⟩

/-- A `Leave` with work to do answers, deletes and never adds, and is refused iff some gid is
    repeated or not in. -/
theorem leaveLoop_answer (gids : List Tgid) (ch : Bool) (cfg : ShardConfig)
    (hch : ch = true ∨ gids ≠ []) : ∃ b cfg', leaveLoop gids ch cfg = .ok (b, cfg') ∧
      (∀ g ∈ cfg'.groups, g ∈ cfg.groups) ∧
      (b = true ↔ gids.Nodup ∧ ∀ g ∈ gids, g ∈ cfg.groups) := by
  induction gids generalizing ch cfg with
  | nil =>
    rw [leaveLoop, if_neg (by simpa using hch)]
    exact ⟨true, _, rfl, fun _ hg => hg, by simp⟩
  | cons gid rest ih =>
    rw [leaveLoop]
    by_cases hgid : gid ∈ cfg.groups
    · rw [if_neg (not_not.mpr hgid)]
      obtain ⟨b, cfg', hans, hsub, hb⟩ :=
        ih true { cfg with groups := cfg.groups.erase gid } (Or.inl rfl)
      refine ⟨b, cfg', hans, fun g hg => (Finmap.mem_erase.mp (hsub g hg)).2, hb.trans ?_⟩
      rw [List.nodup_cons, List.forall_mem_cons]
      simp only [Finmap.mem_erase]
      constructor
      · rintro ⟨hnd, hall⟩
        exact ⟨⟨fun hmem => (hall gid hmem).1 rfl, hnd⟩, hgid, fun g hg => (hall g hg).2⟩
      · rintro ⟨⟨hnot, hnd⟩, _, hall⟩
        exact ⟨hnd, fun g hg => ⟨fun he => hnot (he ▸ hg), hall g hg⟩⟩
    · rw [if_pos hgid]
      exact ⟨false, cfg, rfl, fun _ hg => hg, by simp [hgid]⟩

theorem Left.lookup {cfg cfg' : ShardConfig} {gids : List Tgid}
    (h : Left cfg cfg' gids) (k : Tgid) : cfg'.groups.lookup k = if k ∈ gids then none
      else cfg.groups.lookup k := by
  rw [h.groups, RangeOrder.lookup_foldl_erase]

theorem Left.mem {cfg cfg' : ShardConfig} {gids : List Tgid} (h : Left cfg cfg' gids) {k : Tgid} :
    k ∈ cfg'.groups ↔ k ∈ cfg.groups ∧ k ∉ gids := by
  rw [← Finmap.lookup_isSome, ← Finmap.lookup_isSome, h.lookup k]
  by_cases hk : k ∈ gids <;> simp [hk]

theorem Left.disjoint {cfg cfg' : ShardConfig} {gids : List Tgid} (h : Left cfg cfg' gids)
    (hd : ServersDisjoint cfg.groups) : ServersDisjoint cfg'.groups := by
  intro g k sg sk hg hk
  rw [h.lookup] at hg hk
  split at hg
  · simp at hg
  split at hk
  · simp at hk
  exact hd g k sg sk hg hk

/-- A copy is the configuration it was made from, whatever order the groups were copied in. -/
theorem copy_eq (o : RangeOrder Tgid) (cfg : ShardConfig) : cfg.copy o = cfg := by
  have hgr : (cfg.copy o).groups = cfg.groups := by
    rw [ShardConfig.copy, o.foldl_insert_visit, makeShardConfig, Finmap.union_empty]
  cases cfg
  simp only [ShardConfig.copy, ShardConfig.mk.injEq, true_and] at hgr ⊢
  exact hgr

/-! ### Rebalancing after a change -/

theorem thenRebalance_true {o : Orders} {r : Except GoString (Bool × ShardConfig)}
    {cfg' : ShardConfig} (h : thenRebalance o r = .ok (true, cfg')) :
    ∃ mid, r = .ok (true, mid) ∧ cfg' = rebalance o.toRebalanceOrders mid := by
  unfold thenRebalance at h
  split at h
  · simp at h
  · simp at h
  · rename_i mid
    simp only [Except.ok.injEq, Prod.mk.injEq, true_and] at h
    exact ⟨mid, rfl, h.symm⟩

theorem joinBalance_succeeds (o : Orders) (cfg : ShardConfig) (servers : GoMap Tgid (List GoString))
    (hne : servers.keys.Nonempty) (hfresh : ∀ g ∈ servers, g ∉ cfg.groups)
    (hdis : ServersDisjoint (servers ∪ cfg.groups)) :
    ∃ cfg', joinBalance o cfg servers = .ok (true, cfg') ∧ cfg'.groups = servers ∪ cfg.groups := by
  obtain ⟨mid, hmid⟩ := join_succeeds o hne hfresh hdis
  refine ⟨rebalance o.toRebalanceOrders mid, by rw [joinBalance, hmid]; rfl, ?_⟩
  rw [rebalance_groups, (join_true hmid).groups]

theorem leaveBalance_succeeds (o : Orders) (cfg : ShardConfig) (gids : List Tgid) (hne : gids ≠ [])
    (hnd : gids.Nodup) (hpres : ∀ g ∈ gids, g ∈ cfg.groups) :
    ∃ cfg', leaveBalance o cfg gids = .ok (true, cfg') := by
  obtain ⟨b, mid, hmid, -, hb⟩ := leaveLoop_answer gids false cfg (Or.inr hne)
  obtain rfl : b = true := hb.mpr ⟨hnd, hpres⟩
  exact ⟨rebalance o.toRebalanceOrders mid, by rw [leaveBalance, leave, hmid]; rfl⟩

end DistSys.ShardCfg
