import DistSys.Schemes.JsonText
import DistSys.ShardCfg.Config

/-! @go shardkv1/shardcfg/shardcfg.go | name:String, FromString | scheme:json |
    round-trip:configuration

    A configuration as the text that is stored under a key. Maps are written with their keys as
    strings, in the order of the strings, so that the order of a `range` does not show. `nil` is
    kept apart from what is empty. What is read must fit an `int`; a gid may have a sign before it.

        ⟨3, [1, 1, 2, …], {2 ↦ [x], 10 ↦ [y]}⟩
          ──String──▶ {"Num":3,"Shards":[1,1,2,…],"Groups":{"10":["y"],"2":["x"]}} ──FromString──▶ …

    It is read back just as it was, if the names of the servers are UTF-8. -/

namespace DistSys.ShardCfg
open GoString (lit)
open Json (Value Readable foldName)
open Strconv (Fits fits_toInt ofInt_inj formatInt formatInt_injective parseInt parseInt_formatInt)

/-- A `ShardConfig` as it is in memory: the numbers are `int`s, and `none` is a `nil` map or
    slice. -/
structure Stored where
  num : Int64
  shards : Tshid → Int64
  groups : Option (GoMap Int64 (Option (List GoString)))

/-! ### String -/

def sliceValue : Option (List GoString) → Value
  | none => .null
  | some names => .array (names.map .string)

/-- The entries of a map in the order in which they are written. -/
def written (o : RangeOrder Int64) (m : GoMap Int64 (Option (List GoString))) :
    List (Int64 × Option (List GoString)) :=
  (o.entries m).mergeSort fun p q => formatInt p.1.toInt ≤ formatInt q.1.toInt

def groupsValue (o : RangeOrder Int64) : Option (GoMap Int64 (Option (List GoString))) → Value
  | none => .null
  | some m => .object ((written o m).map fun p => (formatInt p.1.toInt, sliceValue p.2))

def Stored.value (o : RangeOrder Int64) (c : Stored) : Value :=
  .object [(lit "Num", .number (formatInt c.num.toInt)),
    (lit "Shards", .array (List.ofFn fun s => .number (formatInt (c.shards s).toInt))),
    (lit "Groups", groupsValue o c.groups)]

/-- `String`; `o` is the order of the `range` over the map. -/
def Stored.string (o : RangeOrder Int64) (c : Stored) : GoString := (c.value o).text

/-! ### FromString -/

/-- A number into a variable that holds `z`. -/
def decodeInt (z : Int64) (v : Value) : Option Int64 := (Json.decodeInt z.toInt v).map Int64.ofInt

/-- An element of an array into `Shards`; a missing one becomes zero. -/
def decodeShard (shards : Tshid → Int64) (xs : List Value) (s : Tshid) : Option Int64 :=
  match xs[s.val]? with
  | some x => decodeInt (shards s) x
  | none => some 0

/-- An array into `Shards`; elements beyond the last shard are passed over. -/
def decodeShards (shards : Tshid → Int64) (xs : List Value) : Option (Tshid → Int64) :=
  if ∀ s, (decodeShard shards xs s).isSome then some fun s => (decodeShard shards xs s).getD 0
  else none

def decodeName : Value → Option GoString
  | .string name => some name
  | .null => some []
  | _ => none

def decodeSlice : Value → Option (Option (List GoString))
  | .null => some none
  | .array xs => (xs.mapM decodeName).map some
  | _ => none

def decodeGroup (m : GoMap Int64 (Option (List GoString))) (member : GoString × Value) :
    Option (GoMap Int64 (Option (List GoString))) := do
  let gid ← parseInt member.1
  let names ← decodeSlice member.2
  return m.insert (Int64.ofInt gid) names

/-- One member of the object into the struct. -/
def Stored.setField (c : Stored) : GoString × Value → Option Stored
  | (name, v) =>
      if foldName name = lit "NUM" then (decodeInt c.num v).map fun num => { c with num := num }
      else if foldName name = lit "SHARDS" then
        match v with
        | .array xs => (decodeShards c.shards xs).map fun shards => { c with shards := shards }
        | .null => some c
        | _ => none
      else if foldName name = lit "GROUPS" then
        match v with
        | .object ms =>
          (ms.foldlM decodeGroup (c.groups.getD ∅)).map fun m => { c with groups := some m }
        | .null => some { c with groups := none }
        | _ => none
      else some c

/-- `FromString`; none if it ends in `log.Fatalf`. -/
def fromString (s : GoString) : Option Stored :=
  Json.unmarshal (Json.decodeStruct Stored.setField ⟨0, fun _ => 0, none⟩) s

/-! ### The text does not show the order of a `range` -/

theorem written_perm (o : RangeOrder Int64) (m : GoMap Int64 (Option (List GoString))) :
    (written o m).Perm (o.entries m) := List.mergeSort_perm _ _

/-- Sorted by the strings, which are distinct. -/
theorem written_order (o o' : RangeOrder Int64) (m : GoMap Int64 (Option (List GoString))) :
    written o m = written o' m := by
  have hsorted : ∀ o : RangeOrder Int64, (written o m).Pairwise fun p q =>
      formatInt p.1.toInt ≤ formatInt q.1.toInt := by
    intro o
    refine (List.pairwise_mergeSort ?_ ?_ (o.entries m)).imp fun h => of_decide_eq_true h
    · intro p q r hpq hqr
      exact decide_eq_true (le_trans (of_decide_eq_true hpq) (of_decide_eq_true hqr))
    · intro p q
      simpa using le_total (formatInt p.1.toInt) (formatInt q.1.toInt)
  have hperm : (written o m).Perm (written o' m) := by
    refine ((written_perm o m).trans ?_).trans (written_perm o' m).symm
    refine (List.perm_ext_iff_of_nodup (o.nodup_entries m) (o'.nodup_entries m)).mpr ?_
    rintro ⟨k, v⟩
    rw [o.mem_entries, o'.mem_entries]
  refine hperm.eq_of_pairwise ?_ (hsorted o) (hsorted o')
  rintro ⟨k, v⟩ ⟨k', v'⟩ hp hq hle hge
  obtain rfl := Int64.toInt_inj.mp (formatInt_injective (le_antisymm hle hge))
  rw [(written_perm o m).mem_iff, o.mem_entries] at hp
  rw [(written_perm o' m).mem_iff, o'.mem_entries] at hq
  rw [Option.some.inj (hp.symm.trans hq)]

theorem string_order (o o' : RangeOrder Int64) (c : Stored) : c.string o = c.string o' := by
  have hgroups : groupsValue o c.groups = groupsValue o' c.groups := by
    cases c.groups with
    | none => rfl
    | some m => rw [groupsValue, groupsValue, written_order o o']
  rw [Stored.string, Stored.string, Stored.value, Stored.value, hgroups]

/-! ### Reading the text back -/

/-- The names made valid. -/
def validNames (names : Option (List GoString)) : Option (List GoString) :=
  names.map (·.map Utf8.toValid)

def Stored.toValid (c : Stored) : Stored :=
  { c with groups := c.groups.map (GoMap.mapVal validNames) }

theorem valid_formatInt (z : ℤ) : Utf8.toValid (formatInt z) = formatInt z := by
  refine Utf8.toValid_of_valid ?_
  cases z with
  | ofNat n => exact Utf8.valid_itoa n
  | negSucc n => exact (show Utf8.Valid [0x2D] by decide).append (Utf8.valid_itoa (n + 1))

theorem readable_slice (d : ℕ) (names : Option (List GoString)) :
    Readable (d + 1) (sliceValue names) := by
  cases names with
  | none => exact .null _
  | some names => exact .array (List.forall_mem_map.mpr fun name _ => .string d name)

theorem toValid_slice (names : Option (List GoString)) :
    (sliceValue names).toValid = sliceValue (validNames names) := by
  cases names with
  | none => rfl
  | some names =>
    rw [sliceValue, Value.toValid, Json.allValid_eq_map, List.map_map, validNames,
      Option.map_some, sliceValue, List.map_map]
    exact congrArg Value.array (List.map_congr_left fun name _ => by simp [Value.toValid])

theorem decodeSlice_slice (names : Option (List GoString)) :
    decodeSlice (sliceValue names) = some names := by
  cases names with
  | none => rfl
  | some names =>
    have hnames : (names.map Value.string).mapM decodeName = some names :=
      Json.mapM_map_eq fun _ _ => rfl
    rw [sliceValue, decodeSlice, hnames, Option.map_some]

theorem readable_groups (o : RangeOrder Int64) (d : ℕ)
    (groups : Option (GoMap Int64 (Option (List GoString)))) :
    Readable (d + 2) (groupsValue o groups) := by
  cases groups with
  | none => exact .null _
  | some m => exact .object (List.forall_mem_map.mpr fun p _ => readable_slice d p.2)

theorem readable_stored (o : RangeOrder Int64) (c : Stored) :
    Readable Json.maxNestingDepth (c.value o) := by
  refine .object (d := 9999) ?_
  intro m hm
  simp only [List.mem_cons, List.not_mem_nil, or_false] at hm
  rcases hm with rfl | rfl | rfl
  · exact .number _ (Json.isNumber_formatInt c.num.toInt)
  · refine .array (d := 9998) ?_
    intro x hx
    obtain ⟨s, rfl⟩ := List.mem_ofFn.mp hx
    exact .number _ (Json.isNumber_formatInt _)
  · exact readable_groups o 9997 c.groups

/-- The members of the object that is read. -/
theorem toValid_groups (o : RangeOrder Int64) (m : GoMap Int64 (Option (List GoString))) :
    (groupsValue o (some m)).toValid =
      .object ((written o m).map fun p => (formatInt p.1.toInt, sliceValue (validNames p.2))) := by
  rw [groupsValue, Value.toValid, Json.membersValid_eq_map, List.map_map]
  refine congrArg Value.object (List.map_congr_left ?_)
  intro p _
  simp [valid_formatInt, toValid_slice]

/-- The members of `Groups` one after the other. -/
theorem decodeGroups_eq (l : List (Int64 × Option (List GoString)))
    (m : GoMap Int64 (Option (List GoString))) :
    (l.map fun p => (formatInt p.1.toInt, sliceValue (validNames p.2))).foldlM decodeGroup m =
      some ((l.map fun p => (p.1, validNames p.2)).foldl (fun m kv => m.insert kv.1 kv.2) m) := by
  induction l generalizing m with
  | nil => rfl
  | cons p l ih =>
    have hdecode : decodeGroup m (formatInt p.1.toInt, sliceValue (validNames p.2)) =
        some (m.insert p.1 (validNames p.2)) := by
      simp [decodeGroup, parseInt_formatInt (fits_toInt p.1), decodeSlice_slice]
    rw [List.map_cons, List.foldlM_cons, hdecode]
    exact ih _

theorem decodeInt_formatInt (z z' : Int64) :
    decodeInt z' (.number (formatInt z.toInt)) = some z := by
  rw [decodeInt, Json.decodeInt_formatInt (fits_toInt z), Option.map_some, Int64.ofInt_toInt]

theorem decodeShards_eq (shards shards' : Tshid → Int64) :
    decodeShards shards' (List.ofFn fun s => .number (formatInt (shards s).toInt)) =
      some shards := by
  have hshard : ∀ s, decodeShard shards'
      (List.ofFn fun s => .number (formatInt (shards s).toInt)) s = some (shards s) := by
    intro s
    rw [decodeShard, List.getElem?_ofFn, dif_pos s.isLt]
    exact decodeInt_formatInt _ _
  simp only [decodeShards, hshard, Option.isSome_some, implies_true, if_true, Option.getD_some]

theorem setField_num (c : Stored) (v : Value) :
    c.setField (lit "Num", v) = (decodeInt c.num v).map fun num => { c with num := num } := by
  unfold Stored.setField
  exact if_pos (by decide)

theorem setField_shards (c : Stored) (xs : List Value) : c.setField (lit "Shards", .array xs) =
    (decodeShards c.shards xs).map fun shards => { c with shards := shards } := by
  unfold Stored.setField
  exact (if_neg (by decide)).trans (if_pos (by decide))

theorem setField_groups (c : Stored) (ms : List (GoString × Value)) :
    c.setField (lit "Groups", .object ms) =
      (ms.foldlM decodeGroup (c.groups.getD ∅)).map fun m => { c with groups := some m } := by
  unfold Stored.setField
  exact (if_neg (by decide)).trans ((if_neg (by decide)).trans (if_pos (by decide)))

theorem setField_nil (c : Stored) :
    c.setField (lit "Groups", .null) = some { c with groups := none } := by
  unfold Stored.setField
  exact (if_neg (by decide)).trans ((if_neg (by decide)).trans (if_pos (by decide)))

/-- `Groups` into a struct whose map is `nil`. -/
theorem setField_written (o : RangeOrder Int64) (c : Stored)
    (groups : Option (GoMap Int64 (Option (List GoString))))
    (hc : c.groups = none) : c.setField (lit "Groups", (groupsValue o groups).toValid) =
      some { c with groups := groups.map (GoMap.mapVal validNames) } := by
  cases groups with
  | none => exact setField_nil c
  | some m =>
    have hlit : GoMap.lit ((written o m).map fun p => (p.1, validNames p.2)) =
        m.mapVal validNames := by
      refine Finmap.ext_lookup fun k => ?_
      rw [lit_map_entries validNames m o (written_perm o m), lookup_mapVal]
    rw [toValid_groups, setField_groups, hc, decodeGroups_eq, Option.map_some]
    exact congrArg (fun m => some { c with groups := some m }) hlit

/-- The three fields in turn. -/
theorem setFields_eq (o : RangeOrder Int64) (c : Stored) :
    [(lit "Num", Value.number (formatInt c.num.toInt)),
      (lit "Shards", .array (List.ofFn fun s => .number (formatInt (c.shards s).toInt))),
      (lit "Groups", (groupsValue o c.groups).toValid)].foldlM Stored.setField
        ⟨0, fun _ => 0, none⟩ = some c.toValid := by
  have hint := decodeInt_formatInt c.num 0
  rw [List.foldlM_cons, setField_num, hint, Option.map_some, Option.bind_eq_bind, Option.bind_some,
    List.foldlM_cons, setField_shards, decodeShards_eq, Option.map_some, Option.bind_eq_bind,
    Option.bind_some, List.foldlM_cons, setField_written o _ c.groups rfl]
  rfl

theorem fromString_string (o : RangeOrder Int64) (c : Stored) :
    fromString (c.string o) = some c.toValid := by
  have hnum : Utf8.toValid (lit "Num") = lit "Num" := by decide
  have hshards : Utf8.toValid (lit "Shards") = lit "Shards" := by decide
  have hgroups : Utf8.toValid (lit "Groups") = lit "Groups" := by decide
  have hvalid : (c.value o).toValid = .object [(lit "Num", .number (formatInt c.num.toInt)),
      (lit "Shards", .array (List.ofFn fun s => .number (formatInt (c.shards s).toInt))),
      (lit "Groups", (groupsValue o c.groups).toValid)] := by
    simp only [Stored.value, Value.toValid, Json.membersValid, Json.allValid_eq_map,
      List.map_ofFn, hnum, hshards, hgroups]
    rfl
  rw [fromString, Stored.string,
    Json.unmarshal_text _ (readable_stored o c) (fun _ h => by cases h), hvalid]
  exact setFields_eq o c

/-- Every name of a server is UTF-8. -/
def Stored.NamesValid (c : Stored) : Prop :=
  ∀ m, c.groups = some m → ∀ gid names, m.lookup gid = some (some names) →
    ∀ name ∈ names, Utf8.Valid name

theorem toValid_eq_iff {c : Stored} : c.toValid = c ↔ c.NamesValid := by
  have hnames : ∀ names : Option (List GoString), validNames names = names ↔
      ∀ l, names = some l → ∀ name ∈ l, Utf8.Valid name := by
    intro names
    cases names with
    | none => simp [validNames]
    | some l =>
      rw [validNames, Option.map_some, Option.some.injEq]
      simp only [Option.some.injEq, forall_eq']
      conv_lhs => rhs; rw [← List.map_id l]
      simp only [List.map_inj_left, id, Utf8.toValid_eq_iff]
  obtain ⟨num, shards, groups⟩ := c
  cases groups with
  | none => simp [Stored.toValid, Stored.NamesValid]
  | some m =>
    simp only [Stored.toValid, Stored.NamesValid, Option.map_some, Stored.mk.injEq,
      Option.some.injEq, true_and, forall_eq', mapVal_eq_self, hnames]
    constructor
    · intro h gid l hl
      exact h gid (some l) hl l rfl
    · rintro h gid names hnames l rfl
      exact h gid l hnames

/-- CORRECT: the text of a configuration does not depend on the order of its map. It is read back
    with the names of the servers made valid, and so just as it was if they are UTF-8, and only
    then. -/
theorem string_round_trip (c : Stored) :
    (∀ o o', c.string o = c.string o') ∧ (∀ o, fromString (c.string o) = some c.toValid) ∧
    ∀ o, fromString (c.string o) = some c ↔ c.NamesValid := by
  refine ⟨fun o o' => string_order o o' c, fun o => fromString_string o c, fun o => ?_⟩
  rw [fromString_string, Option.some.injEq, toValid_eq_iff]

/-! ### Configurations -/

/-- The numbers of a configuration are `int`s. -/
structure ShardConfig.InRange (c : ShardConfig) : Prop where
  num : Fits c.num
  shards : ∀ s, Fits (c.shards s)
  gids : ∀ g ∈ c.groups, Fits g

/-- A configuration as it is in memory; its map and its slices are not `nil`. -/
def ShardConfig.stored (c : ShardConfig) : Stored where
  num := Int64.ofInt c.num
  shards s := Int64.ofInt (c.shards s)
  groups := some ((c.groups.rekey Int64.ofInt).mapVal some)

/-- Gids that are `int`s are told apart in memory. -/
theorem lookup_gid {c : ShardConfig} (hc : c.InRange) {g : Tgid} (hg : Fits g)
    {names : List GoString} : (c.groups.rekey Int64.ofInt).lookup (Int64.ofInt g) = some names ↔
      c.groups.lookup g = some names := by
  rw [lookup_rekey fun k hk k' hk' => ofInt_inj (hc.gids k hk) (hc.gids k' hk')]
  constructor
  · rintro ⟨k, heq, hnames⟩
    obtain rfl := ofInt_inj (hc.gids k (Finmap.mem_of_lookup_eq_some hnames)) hg heq
    exact hnames
  · intro hnames
    exact ⟨g, rfl, hnames⟩

theorem stored_injective {c c' : ShardConfig} (hc : c.InRange) (hc' : c'.InRange)
    (h : c.stored = c'.stored) : c = c' := by
  obtain ⟨hnum, hshards, hgroups⟩ := Stored.mk.inj h
  have hmap : ∀ k, (c.groups.rekey Int64.ofInt).lookup k =
      (c'.groups.rekey Int64.ofInt).lookup k := by
    intro k
    have hk := congrArg (Finmap.lookup k) (Option.some.inj hgroups)
    rw [lookup_mapVal, lookup_mapVal] at hk
    exact Option.map_injective (Option.some_injective _) hk
  have hlookup : ∀ g, Fits g → c.groups.lookup g = c'.groups.lookup g := by
    intro g hg
    refine Option.ext fun names => ?_
    rw [← lookup_gid hc hg, ← lookup_gid hc' hg, hmap]
  have heq : c.groups = c'.groups := by
    refine Finmap.ext_lookup fun g => ?_
    by_cases hg : Fits g
    · exact hlookup g hg
    · rw [Finmap.lookup_eq_none.mpr fun hmem => hg (hc.gids g hmem),
        Finmap.lookup_eq_none.mpr fun hmem => hg (hc'.gids g hmem)]
  have hnum' := ofInt_inj hc.num hc'.num hnum
  have hshards' : c.shards = c'.shards := by
    funext s
    exact ofInt_inj (hc.shards s) (hc'.shards s) (congrFun hshards s)
  obtain ⟨num, shards, groups⟩ := c
  obtain ⟨num', shards', groups'⟩ := c'
  simp only at hnum' hshards' heq
  rw [hnum', hshards', heq]

/-- Every name of a server is UTF-8. -/
def ShardConfig.NamesValid (c : ShardConfig) : Prop :=
  ∀ gid names, c.groups.lookup gid = some names → ∀ name ∈ names, Utf8.Valid name

theorem namesValid_stored {c : ShardConfig} (hc : c.InRange) (hnames : c.NamesValid) :
    c.stored.NamesValid := by
  rintro m hm k names hk name hname
  cases hm
  rw [lookup_mapVal] at hk
  obtain ⟨names', hnames', heq⟩ := Option.map_eq_some_iff.mp hk
  obtain rfl := Option.some.inj heq
  rw [← Int64.ofInt_toInt k, lookup_gid hc (fits_toInt k)] at hnames'
  exact hnames k.toInt names' hnames' name hname

/-- CORRECT: a configuration whose numbers are `int`s and whose servers have UTF-8 names, stored and
    read back, is the same configuration, and no other one. -/
theorem stored_round_trip {c c' : ShardConfig} (hc : c.InRange) (hnames : c.NamesValid)
    (hc' : c'.InRange) (o : RangeOrder Int64) :
    fromString (c.stored.string o) = some c'.stored ↔ c' = c := by
  rw [fromString_string, toValid_eq_iff.mpr (namesValid_stored hc hnames), Option.some.injEq]
  constructor
  · exact fun h => (stored_injective hc hc' h).symm
  · exact fun h => by rw [h]

/-- Two groups, one of them with a server whose name is not ASCII. -/
def twoGroups : ShardConfig where
  num := 3
  shards s := if s.val < 6 then 1 else 2
  groups := .lit [(1, [.lit "x"]), (2, [.lit "y", [0xC3, 0xA9]])]

theorem stored_round_trip_two : twoGroups.InRange ∧ twoGroups.NamesValid ∧
    fromString (twoGroups.stored.string (.ascending Int64)) = some twoGroups.stored := by
  have hgroups : ∀ gid names, twoGroups.groups.lookup gid = some names →
      gid = 1 ∧ names = [lit "x"] ∨ gid = 2 ∧ names = [lit "y", [0xC3, 0xA9]] := by
    intro gid names h
    rw [twoGroups, lookup_lit (by decide)] at h
    simpa only [List.mem_cons, List.not_mem_nil, or_false, Prod.mk.injEq] using h
  have hrange : twoGroups.InRange := by
    refine ⟨by decide, by decide, fun g hg => ?_⟩
    obtain ⟨names, hnames⟩ := Finmap.mem_iff.mp hg
    obtain ⟨rfl, -⟩ | ⟨rfl, -⟩ := hgroups g names hnames
    · decide
    · decide
  have hvalid : twoGroups.NamesValid := by
    intro gid names hnames
    obtain ⟨-, rfl⟩ | ⟨-, rfl⟩ := hgroups gid names hnames
    · decide
    · decide
  exact ⟨hrange, hvalid, (stored_round_trip hrange hvalid hrange _).mpr rfl⟩

end DistSys.ShardCfg
