import DistSys.Schemes.Balance
import DistSys.Schemes.GoMap
import DistSys.Schemes.Strconv

/-! @go shardkv1/shardcfg/shardcfg.go | name:ShardConfig, analyze, Rebalance | scheme:balance

    A configuration assigns each of `NShards` shards to a replica group. `Rebalance` first gives
    every shard of a group that is gone to a least loaded group, then moves one shard at a time from
    the most to the least loaded group until the two are less than two shards apart. `analyze` finds
    both groups in one scan over the sorted gids, with sentinels for "none seen yet".

        Shards ──fill──▶ every shard in a live group ──move, move, …──▶ mostn < leastn + 2

    Each `range` over the `Groups` map has its own order (`RangeOrder`), since Go picks one
    afresh. -/

namespace DistSys.ShardCfg
open DistSys.Balance

abbrev Tgid := ℤ
abbrev Tnum := ℤ

/-- The number of shards. -/
def NShards : ℕ := 12

abbrev Tshid := Fin NShards

/-- A configuration: its number, shard → gid, and gid → servers. -/
structure ShardConfig where
  num : Tnum
  shards : Tshid → Tgid
  groups : GoMap Tgid (List GoString)
  deriving DecidableEq

def makeShardConfig : ShardConfig := ⟨0, fun _ => 0, ∅⟩

namespace ShardConfig

/-- `cfg.Shards[s] = g`. -/
def setShard (c : ShardConfig) (s : Tshid) (g : Tgid) : ShardConfig :=
  { c with shards := Function.update c.shards s g }

@[simp] theorem setShard_num (c : ShardConfig) (s : Tshid) (g : Tgid) :
    (c.setShard s g).num = c.num := rfl

@[simp] theorem setShard_groups (c : ShardConfig) (s : Tshid) (g : Tgid) :
    (c.setShard s g).groups = c.groups := rfl

@[simp] theorem setShard_shards (c : ShardConfig) (s : Tshid) (g : Tgid) :
    (c.setShard s g).shards = Function.update c.shards s g := rfl

/-- A deep copy, group by group in the order of the `range` over `cfg.Groups`. -/
def copy (o : RangeOrder Tgid) (cfg : ShardConfig) : ShardConfig where
  num := cfg.num
  shards := cfg.shards
  groups := (o.visit cfg.groups.keys).foldl
    (fun m k => m.insert k ((cfg.groups.lookup k).getD [])) makeShardConfig.groups

/-- `counts[g]` once every shard has been counted (a missing key reads as zero). -/
def counts (c : ShardConfig) (g : Tgid) : ℕ := load c.shards g

theorem counts_le (c : ShardConfig) (g : Tgid) : c.counts g ≤ NShards := by
  have hle := Finset.card_le_univ (Finset.univ.filter (fun s => c.shards s = g))
  rwa [Fintype.card_fin] at hle

end ShardConfig

/-! ### analyze -/

/-- What `analyze` returns: mostgroup, mostn, leastgroup, leastn. -/
structure Extremes where
  mg : Tgid
  mn : ℤ
  lg : Tgid
  ln : ℤ
  deriving DecidableEq

/-- One turn of the scan over the sorted gids: `ln`, `lg` change together, and so do `mn`, `mg`. -/
def analyzeStep (c : ShardConfig) (e : Extremes) (g : Tgid) : Extremes where
  ln := if (c.counts g : ℤ) < e.ln then c.counts g else e.ln
  lg := if (c.counts g : ℤ) < e.ln then g else e.lg
  mn := if (c.counts g : ℤ) > e.mn then c.counts g else e.mn
  mg := if (c.counts g : ℤ) > e.mn then g else e.mg

def analyze (o : RangeOrder Tgid) (c : ShardConfig) : Extremes :=
  let groups := (o.visit c.groups.keys).mergeSort
  groups.foldl (analyzeStep c) ⟨-1, -1, -1, 257⟩

/-- The gid of a group with the least number of assigned shards. -/
def least (o : RangeOrder Tgid) (c : ShardConfig) : Tgid := (analyze o c).lg

/-- Sorting the gids makes `analyze` blind to the map order. -/
theorem analyze_order (o o' : RangeOrder Tgid) (c : ShardConfig) : analyze o c = analyze o' c := by
  rw [analyze, analyze, o.mergeSort_visit o']

/-- The least half of the scan is a scan for the smallest count. -/
theorem analyze_fold_least (c : ShardConfig) (gs : List Tgid) (e : Extremes) :
    ((gs.foldl (analyzeStep c) e).lg, (gs.foldl (analyzeStep c) e).ln)
      = gs.foldl (argminStep fun g => (c.counts g : ℤ)) (e.lg, e.ln) := by
  induction gs generalizing e with
  | nil => rfl
  | cons g gs ih =>
    rw [List.foldl_cons, List.foldl_cons, ih]
    congr 1
    by_cases hlt : (c.counts g : ℤ) < e.ln <;> simp [analyzeStep, argminStep, hlt]

/-- The most half of the scan is a scan for the smallest negated count. -/
theorem analyze_fold_most (c : ShardConfig) (gs : List Tgid) (e : Extremes) :
    ((gs.foldl (analyzeStep c) e).mg, -(gs.foldl (analyzeStep c) e).mn)
      = gs.foldl (argminStep fun g => -(c.counts g : ℤ)) (e.mg, -e.mn) := by
  induction gs generalizing e with
  | nil => rfl
  | cons g gs ih =>
    rw [List.foldl_cons, List.foldl_cons, ih]
    congr 1
    by_cases hlt : e.mn < (c.counts g : ℤ) <;> simp [analyzeStep, argminStep, hlt]

/-- With a group to choose, `analyze` finds a least loaded one: the sentinel 257 is beaten. -/
theorem analyze_least (o : RangeOrder Tgid) (c : ShardConfig) (hne : c.groups.keys.Nonempty) :
    Least c.groups.keys c.shards (analyze o c).lg ∧
      (analyze o c).ln = c.counts (analyze o c).lg := by
  obtain ⟨k, hk⟩ := hne
  have hfold := analyze_fold_least c (o.visit c.groups.keys).mergeSort ⟨-1, -1, -1, 257⟩
  have hbeat : (c.counts k : ℤ) < 257 := by
    have := c.counts_le k; simp only [NShards] at this; omega
  obtain ⟨hmem, hkey, hall⟩ := argmin_of_beaten (f := fun g => (c.counts g : ℤ)) (b := (-1, 257))
    (by simpa using hk : k ∈ (o.visit c.groups.keys).mergeSort) hbeat
  rw [← hfold] at hmem hkey hall
  refine ⟨⟨by simpa [analyze] using hmem, fun g hg => ?_⟩, hkey⟩
  exact_mod_cast hall g (by simpa using hg)

/-- With a group to choose, `analyze` finds a most loaded one: the sentinel -1 is beaten. -/
theorem analyze_most (o : RangeOrder Tgid) (c : ShardConfig) (hne : c.groups.keys.Nonempty) :
    Most c.groups.keys c.shards (analyze o c).mg ∧
      (analyze o c).mn = c.counts (analyze o c).mg := by
  obtain ⟨k, hk⟩ := hne
  have hfold := analyze_fold_most c (o.visit c.groups.keys).mergeSort ⟨-1, -1, -1, 257⟩
  have hbeat : -(c.counts k : ℤ) < - -1 := by omega
  obtain ⟨hmem, hkey, hall⟩ := argmin_of_beaten (f := fun g => -(c.counts g : ℤ)) (b := (-1, - -1))
    (by simpa using hk : k ∈ (o.visit c.groups.keys).mergeSort) hbeat
  rw [← hfold] at hmem hkey hall
  refine ⟨⟨by simpa [analyze] using hmem, fun g hg => ?_⟩, neg_injective hkey⟩
  exact_mod_cast neg_le_neg_iff.mp (hall g (by simpa using hg))

/-- With no group at all the sentinels stand. -/
theorem analyze_empty (o : RangeOrder Tgid) (c : ShardConfig) (he : c.groups.keys = ∅) :
    analyze o c = ⟨-1, -1, -1, 257⟩ := by
  have hnil : o.visit c.groups.keys = [] := by
    rw [List.eq_nil_iff_forall_not_mem]; intro g hg; rw [o.mem_visit, he] at hg; simp at hg
  simp [analyze, hnil]

/-! ### Rebalance -/

/-- One turn of the fill loop. Slot `s` is written in its own turn only, so reading it here gives
    the value `g` that `range` took from its copy of the array. -/
def fillStep (o : Tshid → RangeOrder Tgid) (c : ShardConfig) (s : Tshid) : ShardConfig :=
  if c.shards s ∈ c.groups then c else c.setShard s (least (o s) c)

/-- Assign all unassigned shards. -/
def fill (o : Tshid → RangeOrder Tgid) (c : ShardConfig) : ShardConfig :=
  (List.finRange NShards).foldl (fillStep o) c

/-- One turn of the move loop: `none` when it breaks, else one shard goes from `mg` to `lg`. -/
def moveStep (o : RangeOrder Tgid) (c : ShardConfig) : Option ShardConfig :=
  let e := analyze o c
  if e.mn < e.ln + 2 then none
  else match (List.finRange NShards).find? (fun s => c.shards s = e.mg) with
    | some s => some (c.setShard s e.lg)
    | none => some c

/-- Everything a turn of the move loop can do: it takes one shard of a most loaded group to a least
    loaded one, at least two shards behind. -/
theorem moveStep_some {o : RangeOrder Tgid} {c c' : ShardConfig} (h : moveStep o c = some c') :
    ∃ s l, Most c.groups.keys c.shards (c.shards s) ∧ Least c.groups.keys c.shards l ∧
      load c.shards l + 2 ≤ load c.shards (c.shards s) ∧ c' = c.setShard s l := by
  rw [moveStep] at h
  split at h
  · simp at h
  rename_i hgap
  have hne : c.groups.keys.Nonempty := by
    by_contra he
    rw [Finset.not_nonempty_iff_eq_empty] at he
    rw [analyze_empty o c he] at hgap
    exact hgap (by decide)
  obtain ⟨hl, hln⟩ := analyze_least o c hne
  obtain ⟨hm, hmn⟩ := analyze_most o c hne
  rw [hln, hmn] at hgap
  have hgap' : load c.shards (analyze o c).lg + 2 ≤ load c.shards (analyze o c).mg := by
    simp only [ShardConfig.counts] at hgap; omega
  split at h
  · rename_i s hs
    have hsm : c.shards s = (analyze o c).mg := by simpa using List.find?_some hs
    exact ⟨s, _, hsm ▸ hm, hl, by rw [hsm]; exact hgap', (Option.some.inj h).symm⟩
  · rename_i hnone
    -- a group with two shards or more owns some shard, so the search cannot fail
    exfalso
    have hzero : load c.shards (analyze o c).mg = 0 := by
      rw [load, Finset.card_eq_zero, Finset.filter_eq_empty_iff]
      intro s _
      simpa using List.find?_eq_none.mp hnone s (List.mem_finRange s)
    omega

/-- When the loop breaks, groups are within one shard of each other. -/
theorem balanced_of_moveStep_none {o : RangeOrder Tgid} {c : ShardConfig}
    (h : moveStep o c = none) : Balanced c.groups.keys c.shards := by
  intro g hg k hk
  obtain ⟨hl, hln⟩ := analyze_least o c ⟨g, hg⟩
  obtain ⟨hm, hmn⟩ := analyze_most o c ⟨g, hg⟩
  rw [moveStep] at h
  split at h
  · rename_i hlt
    rw [hln, hmn] at hlt
    have h1 := hl.2 k hk
    have h2 := hm.2 g hg
    simp only [ShardConfig.counts] at hlt
    omega
  · split at h <;> simp at h

theorem moveStep_squares_lt {o : RangeOrder Tgid} {c c' : ShardConfig}
    (h : moveStep o c = some c') :
    squares c'.groups.keys c'.shards < squares c.groups.keys c.shards := by
  obtain ⟨s, l, hm, hl, hgap, rfl⟩ := moveStep_some h
  exact squares_move_lt hm.1 hl.1 hgap

/-- Move shards from most to least heavily loaded; turn `k` of the loop ranges in order `o k`. -/
def moveLoop (o : ℕ → RangeOrder Tgid) (k : ℕ) (c : ShardConfig) : ShardConfig :=
  match _h : moveStep (o k) c with
  | none => c
  | some c' => moveLoop o (k + 1) c'
termination_by squares c.groups.keys c.shards
decreasing_by exact moveStep_squares_lt _h

/-- The orders of the `range`s over `c.Groups` made during one `Rebalance`. -/
structure RebalanceOrders where
  fill : Tshid → RangeOrder Tgid
  move : ℕ → RangeOrder Tgid

/-- Every `range` in ascending order of gids. -/
def RebalanceOrders.ascending : RebalanceOrders :=
  ⟨fun _ => .ascending Tgid, fun _ => .ascending Tgid⟩

def rebalance (o : RebalanceOrders) (c : ShardConfig) : ShardConfig :=
  if c.groups.keys.card < 1 then { c with shards := fun _ => 0 }
  else moveLoop o.move 0 (fill o.fill c)

end DistSys.ShardCfg
