import DistSys.Kv.PutTest
import DistSys.Schemes.GoMap

/-! @go kvtest1/kvtest.go | name:EntryN, entry, GetJson, PutJson, CheckAppends | scheme:json, fold |
    round-trip:entries | exact:check

    The list that clients append to, as a JSON array, and the check of the final list. The entries
    of a client must have ascending numbers; a number that is left out counts as skipped.

        0 0 1 3 3 …      id 0:  0 1 3    expect 4, skipped 1
        entries          id 1:  0 3      expect 4, skipped 2

    As long as its sums fit an `int`, the check accepts just the lists in which every client skipped
    at most `Nmaybe` numbers and got at most to `Nok + Nmaybe`. So the newest appends of a client
    can be lost unnoticed, acknowledged or not. The number after the last `int` is the first one. -/

namespace DistSys.Kv.Appends
open GoString (lit)
open Json (Value Readable foldName decodeInt)
open Machine (run run_cons)
open PutTest (ClntRes)
open Strconv (Fits wrap wrap_of_fits wrap_emod formatInt)

/-- Both numbers are `int`s. -/
structure EntryN where
  id : ℤ
  n : ℤ
  deriving DecidableEq

/-! ### Marshalling -/

def EntryN.value (e : EntryN) : Value :=
  .object [(lit "Id", .number (formatInt e.id)), (lit "N", .number (formatInt e.n))]

/-- `json.Marshal` of a list of entries. -/
def marshal (es : List EntryN) : GoString := (Value.array (es.map EntryN.value)).text

/-- One member of the object into the struct. -/
def EntryN.setField (e : EntryN) : GoString × Value → Option EntryN
  | (name, v) =>
      if foldName name = lit "ID" then (decodeInt e.id v).map fun id => { e with id := id }
      else if foldName name = lit "N" then (decodeInt e.n v).map fun n => { e with n := n }
      else some e

/-- An array into a list, each element into a fresh entry. -/
def decodeEntries : Value → Option (List EntryN)
  | .null => some []
  | .array xs => xs.mapM (Json.decodeStruct EntryN.setField ⟨0, 0⟩)
  | _ => none

/-- `json.Unmarshal` into a list of entries. -/
def unmarshal (s : GoString) : Option (List EntryN) := Json.unmarshal decodeEntries s

theorem readable_value (d : ℕ) (e : EntryN) : Readable (d + 1) e.value := by
  refine .object ?_
  intro m hm
  rcases List.mem_cons.mp hm with rfl | hm
  · exact .number d (Json.isNumber_formatInt e.id)
  · rw [List.mem_singleton.mp hm]
    exact .number d (Json.isNumber_formatInt e.n)

theorem toValid_value (e : EntryN) : e.value.toValid = e.value := by
  have hid : Utf8.toValid (lit "Id") = lit "Id" := by decide
  have hn : Utf8.toValid (lit "N") = lit "N" := by decide
  simp [EntryN.value, Value.toValid, Json.membersValid, hid, hn]

theorem decode_value {e : EntryN} (h : Fits e.id ∧ Fits e.n) :
    Json.decodeStruct EntryN.setField ⟨0, 0⟩ e.value = some e := by
  have hnames : foldName (lit "Id") = lit "ID" ∧ foldName (lit "N") = lit "N" ∧
      lit "N" ≠ lit "ID" := by
    decide
  simp [Json.decodeStruct, EntryN.value, EntryN.setField, hnames, Json.decodeInt_formatInt h.1,
    Json.decodeInt_formatInt h.2]

/-- The list is read back. -/
theorem unmarshal_entries {es : List EntryN} (h : ∀ e ∈ es, Fits e.id ∧ Fits e.n) :
    unmarshal (marshal es) = some es := by
  have hreadable : Readable Json.maxNestingDepth (.array (es.map EntryN.value)) :=
    .array (List.forall_mem_map.mpr fun e _ => readable_value 9998 e)
  have hvalid : (Value.array (es.map EntryN.value)).toValid = .array (es.map EntryN.value) := by
    rw [Value.toValid, Json.allValid_eq_map, List.map_map]
    exact congrArg Value.array (List.map_congr_left fun e _ => toValid_value e)
  rw [unmarshal, marshal, Json.unmarshal_text _ hreadable (fun _ h => by cases h), hvalid]
  exact Json.mapM_map_eq fun e he => decode_value (h e he)

/-! ### The check -/

inductive Verdict where
  | passed
  | fatal
  | panics
  deriving DecidableEq

/-- `m[k]`, zero if there is none. -/
def at0 (m : GoMap ℤ ℤ) (k : ℤ) : ℤ := (m.lookup k).getD 0

/-- One entry: `expect` and `skipped` after it; none if it ends in `Fatalf`. -/
def note (m : GoMap ℤ ℤ × GoMap ℤ ℤ) (e : EntryN) : Option (GoMap ℤ ℤ × GoMap ℤ ℤ) :=
  if at0 m.1 e.id > e.n then none
  else if at0 m.1 e.id = e.n then some (m.1.insert e.id (wrap (at0 m.1 e.id + 1)), m.2)
  else
    let s := wrap (e.n - at0 m.1 e.id)
    some (m.1.insert e.id (wrap (e.n + 1)), m.2.insert e.id (wrap (at0 m.2 e.id + s)))

/-- `expect[i] = 0` for every client; and so for `skipped`. -/
def zeros (nclnt : ℕ) : GoMap ℤ ℤ :=
  (List.range nclnt).foldl (fun m (i : ℕ) => m.insert (i : ℤ) 0) ∅

/-- `rs[c]`; none if the index is out of range. -/
def result (rs : List ClntRes) (c : ℤ) : Option ClntRes := if 0 ≤ c then rs[c.toNat]? else none

/-- The loop over `expect`. -/
def judge (m : GoMap ℤ ℤ × GoMap ℤ ℤ) (rs : List ClntRes) : List ℤ → Verdict
  | [] => .passed
  | c :: cs =>
      match result rs c with
      | none => .panics
      | some r =>
        if at0 m.2 c > r.nmaybe then .fatal
        else if at0 m.1 c > wrap (r.nok + r.nmaybe) then .fatal
        else judge m rs cs

/-- `CheckAppends`; `o` is the order of the `range` over `expect`. -/
def checkAppends (o : RangeOrder ℤ) (es : List EntryN) (nclnt : ℕ) (rs : List ClntRes) (ver : ℕ) :
    Verdict :=
  match run note (zeros nclnt, zeros nclnt) es with
  | none => .fatal
  | some m => if wrap (es.length + 1) ≠ wrap ver then .fatal else judge m rs (o.visit m.1.keys)

/-! ### What it accepts -/

/-- The numbers of a client, in their order. -/
def numbers (c : ℤ) (es : List EntryN) : List ℤ := (es.filter (·.id = c)).map EntryN.n

/-- Strictly ascending from `x` on. -/
def Ascends (x : ℤ) (ns : List ℤ) : Prop := ns.Pairwise (· < ·) ∧ ∀ n ∈ ns, x ≤ n

/-- The number expected after them, `x` being expected first. -/
def reach (x : ℤ) (ns : List ℤ) : ℤ := (ns.getLast?.map (· + 1)).getD x

/-- The numbers left out. -/
def gaps (x : ℤ) (ns : List ℤ) : ℤ := reach x ns - x - ns.length

/-- The entries of one client agree with what it counted. -/
structure Agrees (r : ClntRes) (ns : List ℤ) : Prop where
  ascends : Ascends 0 ns
  skipped : gaps 0 ns ≤ r.nmaybe
  reached : reach 0 ns ≤ r.nok + r.nmaybe

/-- The entries agree with the version and with what all clients counted. -/
structure Accepted (es : List EntryN) (nclnt : ℕ) (rs : List ClntRes) (ver : ℕ) : Prop where
  version : es.length + 1 = ver
  clients : nclnt ≤ rs.length
  known : ∀ e ∈ es, 0 ≤ e.id ∧ e.id < rs.length
  agrees : ∀ (c : ℕ) r, rs[c]? = some r → Agrees r (numbers c es)

section numbers
variable {x y n c : ℤ} {ns ms : List ℤ} {e : EntryN} {es : List EntryN}

theorem numbers_cons_self : numbers e.id (e :: es) = e.n :: numbers e.id es := by simp [numbers]

theorem numbers_cons_of_ne (h : c ≠ e.id) : numbers c (e :: es) = numbers c es := by
  rw [numbers, List.filter_cons_of_neg (by simpa using h.symm), numbers]

theorem numbers_append (es' : List EntryN) :
    numbers c (es ++ es') = numbers c es ++ numbers c es' := by
  simp [numbers]

theorem ascends_cons : Ascends x (n :: ns) ↔ x ≤ n ∧ Ascends (n + 1) ns := by
  simp only [Ascends, List.pairwise_cons, List.forall_mem_cons]
  constructor
  · rintro ⟨⟨hlt, hpair⟩, hx, -⟩
    exact ⟨hx, hpair, fun m hm => hlt m hm⟩
  · rintro ⟨hx, hpair, hle⟩
    exact ⟨⟨fun m hm => hle m hm, hpair⟩, hx, fun m hm => hx.trans (by have := hle m hm; omega)⟩

theorem reach_cons : reach x (n :: ns) = reach (n + 1) ns := by
  cases ns with
  | nil => rfl
  | cons m ns =>
    rw [reach, reach, List.getLast?_cons_cons,
      List.getLast?_eq_some_getLast (List.cons_ne_nil m ns)]
    rfl

/-- Ascending numbers get at least as far as there are of them. -/
theorem Ascends.length_le (h : Ascends x ns) : x + ns.length ≤ reach x ns := by
  induction ns generalizing x with
  | nil => simp [reach]
  | cons n ns ih =>
    obtain ⟨hx, hrest⟩ := ascends_cons.mp h
    have := ih hrest
    rw [reach_cons, List.length_cons]
    push_cast
    omega

theorem reach_le (hx : x ≤ y) (h : ∀ n ∈ ns, n < y) : reach x ns ≤ y := by
  rw [reach]
  cases hlast : ns.getLast? with
  | none => exact hx
  | some n => exact h n (List.mem_of_getLast? hlast)

theorem reach_append : reach x (ns ++ ms) = reach (reach x ns) ms := by
  induction ns generalizing x with
  | nil => rfl
  | cons n ns ih => rw [List.cons_append, reach_cons, ih, reach_cons]

theorem ascends_append : Ascends x (ns ++ ms) ↔ Ascends x ns ∧ Ascends (reach x ns) ms := by
  induction ns generalizing x with
  | nil => simp [Ascends, reach]
  | cons n ns ih => rw [List.cons_append, ascends_cons, ih, ascends_cons, reach_cons, and_assoc]

end numbers

section scan
variable {m m' : GoMap ℤ ℤ × GoMap ℤ ℤ} {e : EntryN} {es : List EntryN}

/-- No more numbers were skipped than there are before the one expected, which is an `int`. -/
def Bounded (m : GoMap ℤ ℤ × GoMap ℤ ℤ) : Prop :=
  ∀ c, 0 ≤ at0 m.2 c ∧ at0 m.2 c ≤ at0 m.1 c ∧ at0 m.1 c < 2 ^ 63

theorem at0_insert (m : GoMap ℤ ℤ) (k v c : ℤ) :
    at0 (m.insert k v) c = if c = k then v else at0 m c := by
  rcases eq_or_ne c k with rfl | hc
  · simp [at0]
  · simp [at0, Finmap.lookup_insert_of_ne _ hc, hc]

/-- An entry is accepted if its number is not an old one. No sum is wrapped around, as long as there
    is an `int` after the number. -/
theorem note_eq (hm : Bounded m) (he : e.n < 2 ^ 63 - 1) (h : at0 m.1 e.id ≤ e.n) :
    ∃ skipped, note m e = some (m.1.insert e.id (e.n + 1), skipped) ∧
      ∀ c, at0 skipped c = at0 m.2 c + if c = e.id then e.n - at0 m.1 e.id else 0 := by
  obtain ⟨hskip, hle, -⟩ := hm e.id
  have hnext : wrap (e.n + 1) = e.n + 1 := wrap_of_fits ⟨by omega, by omega⟩
  have hleft : wrap (e.n - at0 m.1 e.id) = e.n - at0 m.1 e.id := wrap_of_fits ⟨by omega, by omega⟩
  have hsum : wrap (at0 m.2 e.id + (e.n - at0 m.1 e.id)) = at0 m.2 e.id + (e.n - at0 m.1 e.id) :=
    wrap_of_fits ⟨by omega, by omega⟩
  rw [note, if_neg (not_lt.mpr h)]
  rcases eq_or_ne (at0 m.1 e.id) e.n with heq | hne
  · exact ⟨m.2, by rw [if_pos heq, heq, hnext], fun c => by simp [heq]⟩
  · refine ⟨_, by rw [if_neg hne, hnext], fun c => ?_⟩
    rw [at0_insert, hleft, hsum]
    rcases eq_or_ne c e.id with rfl | hc
    · simp
    · simp [hc]

/-- The bounds are kept. -/
theorem Bounded.note {skipped : GoMap ℤ ℤ} (hm : Bounded m) (he : e.n < 2 ^ 63 - 1)
    (h : at0 m.1 e.id ≤ e.n)
    (hskipped : ∀ c, at0 skipped c = at0 m.2 c + if c = e.id then e.n - at0 m.1 e.id else 0) :
    Bounded (m.1.insert e.id (e.n + 1), skipped) := by
  intro c
  obtain ⟨hskip, hle, hlt⟩ := hm c
  rw [hskipped, at0_insert]
  rcases eq_or_ne c e.id with rfl | hc
  · rw [if_pos rfl, if_pos rfl]
    omega
  · rw [if_neg hc, if_neg hc]
    omega

/-- The scan gets through just if every client's numbers ascend. -/
theorem notes_isSome_iff (hm : Bounded m) (hes : ∀ e ∈ es, e.n < 2 ^ 63 - 1) :
    (run note m es).isSome = true ↔ ∀ c, Ascends (at0 m.1 c) (numbers c es) := by
  induction es generalizing m with
  | nil => simp [numbers, Ascends]
  | cons e es ih =>
    obtain ⟨he, hes⟩ := List.forall_mem_cons.mp hes
    rcases lt_or_ge e.n (at0 m.1 e.id) with hlt | hle
    · refine iff_of_false (by simp [run, Appends.note, hlt]) ?_
      intro hall
      have he := hall e.id
      rw [numbers_cons_self, ascends_cons] at he
      omega
    · obtain ⟨skipped, hnote, hskipped⟩ := note_eq hm he hle
      rw [run, hnote, Option.bind_some, ih (hm.note he hle hskipped) hes]
      refine forall_congr' ?_
      intro c
      rw [at0_insert]
      rcases eq_or_ne c e.id with rfl | hc
      · rw [if_pos rfl, numbers_cons_self, ascends_cons, and_iff_right hle]
      · rw [if_neg hc, numbers_cons_of_ne hc]

/-- What the maps hold then. -/
theorem notes_eq (hm : Bounded m) (hes : ∀ e ∈ es, e.n < 2 ^ 63 - 1)
    (hrun : run note m es = some m') (c : ℤ) :
    at0 m'.1 c = reach (at0 m.1 c) (numbers c es) ∧
    at0 m'.2 c = at0 m.2 c + gaps (at0 m.1 c) (numbers c es) ∧
    (c ∈ m'.1 ↔ c ∈ m.1 ∨ ∃ e ∈ es, e.id = c) := by
  induction es generalizing m with
  | nil =>
    cases hrun
    simp [numbers, reach, gaps]
  | cons e es ih =>
    obtain ⟨he, hes⟩ := List.forall_mem_cons.mp hes
    obtain ⟨m₁, hnote, hrun⟩ := run_cons.mp hrun
    have hle : at0 m.1 e.id ≤ e.n := by
      by_contra hlt
      simp [Appends.note, not_le.mp hlt] at hnote
    obtain ⟨skipped, hnote', hskipped⟩ := note_eq hm he hle
    obtain rfl := Option.some.inj (hnote.symm.trans hnote')
    obtain ⟨hexpect, hskip, hmem⟩ := ih (hm.note he hle hskipped) hes hrun
    rw [hexpect, hskip, hmem, hskipped, at0_insert, Finmap.mem_insert]
    refine ⟨?_, ?_, ?_⟩
    · rcases eq_or_ne c e.id with rfl | hc
      · rw [if_pos rfl, numbers_cons_self, reach_cons]
      · rw [if_neg hc, numbers_cons_of_ne hc]
    · rcases eq_or_ne c e.id with rfl | hc
      · rw [if_pos rfl, if_pos rfl, numbers_cons_self, gaps, gaps, reach_cons, List.length_cons]
        push_cast
        omega
      · rw [if_neg hc, if_neg hc, numbers_cons_of_ne hc, Int.add_zero]
    · simp only [List.mem_cons, exists_eq_or_imp, eq_comm (a := c)]
      tauto

end scan

theorem lookup_zeros (nclnt : ℕ) (c : ℤ) :
    (zeros nclnt).lookup c = if 0 ≤ c ∧ c < nclnt then some 0 else none := by
  induction nclnt with
  | zero =>
    rw [if_neg (by omega)]
    exact Finmap.lookup_empty c
  | succ k ih =>
    rw [zeros, List.range_succ, List.foldl_append, ← zeros, List.foldl_cons, List.foldl_nil]
    rcases eq_or_ne c k with rfl | hc
    · rw [Finmap.lookup_insert, if_pos (by omega)]
    · rw [Finmap.lookup_insert_of_ne _ hc, ih]
      exact if_congr (by push_cast; omega) rfl rfl

theorem mem_zeros {nclnt : ℕ} {c : ℤ} : c ∈ zeros nclnt ↔ 0 ≤ c ∧ c < nclnt := by
  rw [Finmap.mem_iff, lookup_zeros]
  split <;> simp_all

theorem at0_zeros (nclnt : ℕ) (c : ℤ) : at0 (zeros nclnt) c = 0 := by
  rw [at0, lookup_zeros]
  split <;> rfl

theorem bounded_zeros (nclnt : ℕ) : Bounded (zeros nclnt, zeros nclnt) := by
  intro c
  simp [at0_zeros]

theorem judge_iff {m : GoMap ℤ ℤ × GoMap ℤ ℤ} {rs : List ClntRes} {cs : List ℤ} :
    judge m rs cs = .passed ↔ ∀ c ∈ cs, ∃ r, result rs c = some r ∧ at0 m.2 c ≤ r.nmaybe ∧
      at0 m.1 c ≤ wrap (r.nok + r.nmaybe) := by
  induction cs with
  | nil => simp [judge]
  | cons c cs ih =>
    rw [judge, List.forall_mem_cons]
    cases hr : result rs c with
    | none => simp
    | some r =>
      by_cases hskip : at0 m.2 c > r.nmaybe
      · simp [hskip, not_le.mpr hskip]
      · by_cases hreach : at0 m.1 c > wrap (r.nok + r.nmaybe)
        · simp [hskip, hreach]
        · simp only [if_neg hskip, if_neg hreach, ih]
          simp [not_lt.mp hskip, not_lt.mp hreach]

theorem result_eq {rs : List ClntRes} {c : ℤ} {r : ClntRes} :
    result rs c = some r ↔ ∃ k : ℕ, c = k ∧ rs[k]? = some r := by
  rw [result]
  constructor
  · intro h
    split at h
    · exact ⟨c.toNat, by omega, h⟩
    · cases h
  · rintro ⟨k, rfl, hr⟩
    rw [if_pos (Int.natCast_nonneg k), Int.toNat_natCast, hr]

theorem numbers_eq_nil {c : ℤ} {es : List EntryN} (h : ¬ ∃ e ∈ es, e.id = c) :
    numbers c es = [] := by
  rw [numbers, List.map_eq_nil_iff, List.filter_eq_nil_iff]
  exact fun e he heq => h ⟨e, he, of_decide_eq_true heq⟩

theorem agrees_nil (r : ClntRes) : Agrees r [] :=
  ⟨⟨List.Pairwise.nil, by simp⟩, by simp [gaps, reach], by simp [reach]; omega⟩

/-- Nothing that the check computes leaves the range of its type: there is an `int` after every
    number, the counts of a client add up to an `int`, and so do the entries with the one to
    come. -/
structure Sized (es : List EntryN) (rs : List ClntRes) (ver : ℕ) : Prop where
  entries : ∀ e ∈ es, e.n < 2 ^ 63 - 1
  counts : ∀ r ∈ rs, r.nok + r.nmaybe < 2 ^ 63
  length : es.length + 1 < 2 ^ 63
  version : ver < 2 ^ 64

variable {o : RangeOrder ℤ} {es : List EntryN} {nclnt : ℕ} {rs : List ClntRes} {ver : ℕ}

/-- The length is compared with the version as an `int`. -/
theorem Sized.length_iff (hsized : Sized es rs ver) :
    wrap (es.length + 1) = wrap ver ↔ es.length + 1 = ver := by
  have hlen : wrap (es.length + 1) = es.length + 1 :=
    wrap_of_fits ⟨by omega, by have := hsized.length; omega⟩
  rw [hlen]
  constructor
  · intro heq
    -- both are below 2⁶⁴, and leave the same `int`
    have hmod := congrArg (· % 2 ^ 64) heq
    simp only [wrap_emod] at hmod
    have := hsized.length
    have := hsized.version
    omega
  · intro heq
    rw [← heq, Nat.cast_add, Nat.cast_one, hlen]

/-- The check passes: the scan got through, the version is right, and every key of `expect` is an
    index of `rs` whose counts allow it. -/
theorem checkAppends_passed (hsized : Sized es rs ver) : checkAppends o es nclnt rs ver = .passed ↔
    ∃ m, run note (zeros nclnt, zeros nclnt) es = some m ∧ es.length + 1 = ver ∧
      ∀ c ∈ m.1, ∃ k r, c = (k : ℕ) ∧ rs[k]? = some r ∧ at0 m.2 c ≤ r.nmaybe ∧
        at0 m.1 c ≤ r.nok + r.nmaybe := by
  have hsum : ∀ {k : ℕ} {r : ClntRes}, rs[k]? = some r →
      wrap (r.nok + r.nmaybe) = (r.nok + r.nmaybe : ℤ) := by
    intro k r hr
    have := hsized.counts r (List.mem_of_getElem? hr)
    exact wrap_of_fits ⟨by omega, by omega⟩
  rw [checkAppends]
  cases hrun : run note (zeros nclnt, zeros nclnt) es with
  | none => simp
  | some m =>
    simp only [Option.some.injEq, exists_eq_left']
    by_cases hver : es.length + 1 = ver
    · rw [if_neg (not_not.mpr (hsized.length_iff.mpr hver)), judge_iff, and_iff_right hver]
      refine forall_congr' ?_
      intro c
      rw [o.mem_visit, Finmap.mem_keys]
      refine imp_congr_right fun _ => ?_
      simp only [result_eq]
      constructor
      · rintro ⟨r, ⟨k, hk, hr⟩, hle⟩
        exact ⟨k, r, hk, hr, by rwa [hsum hr] at hle⟩
      · rintro ⟨k, r, hk, hr, hle⟩
        exact ⟨r, ⟨k, hk, hr⟩, by rwa [hsum hr]⟩
    · rw [if_pos (fun heq => hver (hsized.length_iff.mp heq))]
      simp [hver]

theorem accepted_of_passed (hsized : Sized es rs ver)
    (h : checkAppends o es nclnt rs ver = .passed) : Accepted es nclnt rs ver := by
  obtain ⟨m, hrun, hver, hkeys⟩ := (checkAppends_passed hsized).mp h
  have hsome : (run note (zeros nclnt, zeros nclnt) es).isSome = true := by
    rw [hrun]
    rfl
  have hascends := (notes_isSome_iff (bounded_zeros nclnt) hsized.entries).mp hsome
  have hnotes := notes_eq (bounded_zeros nclnt) hsized.entries hrun
  simp only [at0_zeros, mem_zeros] at hnotes hascends
  constructor
  case version => exact hver
  case clients =>
    by_contra hlt
    obtain ⟨k, r, hk, hr, -⟩ := hkeys (rs.length : ℤ) ((hnotes _).2.2.mpr (Or.inl (by omega)))
    rw [← Int.ofNat.inj hk, List.getElem?_eq_none (Nat.le_refl _)] at hr
    cases hr
  case known =>
    intro e he
    obtain ⟨k, r, hk, hr, -⟩ := hkeys e.id ((hnotes _).2.2.mpr (Or.inr ⟨e, he, rfl⟩))
    have := (List.getElem?_eq_some_iff.mp hr).1
    omega
  case agrees =>
    intro c r hr
    obtain ⟨hexpect, hskipped, hmem⟩ := hnotes c
    by_cases hc : (c : ℤ) ∈ m.1
    · obtain ⟨k, r', hk, hr', hskip, hreach⟩ := hkeys c hc
      obtain rfl : c = k := Int.ofNat.inj hk
      obtain rfl := Option.some.inj (hr.symm.trans hr')
      exact ⟨hascends c, by rw [hskipped] at hskip; omega, by rw [hexpect] at hreach; exact hreach⟩
    · -- a client that is not checked has no entries
      rw [numbers_eq_nil fun hex => hc (hmem.mpr (Or.inr hex))]
      exact agrees_nil r

theorem Accepted.passed (hsized : Sized es rs ver) (h : Accepted es nclnt rs ver) :
    checkAppends o es nclnt rs ver = .passed := by
  have hindex : ∀ c : ℤ, 0 ≤ c → c < rs.length → ∃ k r, c = (k : ℕ) ∧ rs[k]? = some r := by
    intro c hc hlt
    exact ⟨c.toNat, _, by omega, List.getElem?_eq_getElem (by omega)⟩
  have hascends : ∀ c, Ascends (at0 (zeros nclnt) c) (numbers c es) := by
    intro c
    rw [at0_zeros]
    by_cases hc : ∃ e ∈ es, e.id = c
    · obtain ⟨e, he, rfl⟩ := hc
      obtain ⟨k, r, hk, hr⟩ := hindex e.id (h.known e he).1 (h.known e he).2
      rw [hk]
      exact (h.agrees k r hr).ascends
    · rw [numbers_eq_nil hc]
      exact (agrees_nil ⟨0, 0⟩).ascends
  obtain ⟨m, hrun⟩ := Option.isSome_iff_exists.mp
    ((notes_isSome_iff (bounded_zeros nclnt) hsized.entries).mpr hascends)
  have hnotes := notes_eq (bounded_zeros nclnt) hsized.entries hrun
  simp only [at0_zeros, mem_zeros] at hnotes
  refine (checkAppends_passed hsized).mpr ⟨m, hrun, h.version, ?_⟩
  intro c hc
  obtain ⟨hexpect, hskipped, hmem⟩ := hnotes c
  have hrange : 0 ≤ c ∧ c < rs.length := by
    rcases hmem.mp hc with hc | ⟨e, he, rfl⟩
    · exact ⟨hc.1, hc.2.trans_le (by exact_mod_cast h.clients)⟩
    · exact h.known e he
  obtain ⟨k, r, rfl, hr⟩ := hindex c hrange.1 hrange.2
  have hk := h.agrees k r hr
  exact ⟨k, r, rfl, hr, by rw [hskipped]; have := hk.skipped; omega, hexpect ▸ hk.reached⟩

/-- CORRECT: as long as nothing it computes leaves the range of its type, the check accepts just the
    lists that agree with the version and with what the clients counted, in whatever order the map
    is visited. -/
theorem checkAppends_iff (o : RangeOrder ℤ) {es : List EntryN} (nclnt : ℕ)
    {rs : List ClntRes} {ver : ℕ} (hsized : Sized es rs ver) :
    checkAppends o es nclnt rs ver = .passed ↔ Accepted es nclnt rs ver :=
  ⟨accepted_of_passed hsized, Accepted.passed hsized⟩

/-- A client that has skipped the one number it was in doubt about. -/
theorem checkAppends_iff_doubt : Sized [⟨0, 0⟩, ⟨0, 2⟩] [⟨2, 1⟩] 3 ∧
    checkAppends (RangeOrder.ascending ℤ) [⟨0, 0⟩, ⟨0, 2⟩] 1 [⟨2, 1⟩] 3 = .passed ∧
    Accepted [⟨0, 0⟩, ⟨0, 2⟩] 1 [⟨2, 1⟩] 3 := by
  have hsized : Sized [⟨0, 0⟩, ⟨0, 2⟩] [⟨2, 1⟩] 3 := ⟨by decide, by decide, by decide, by decide⟩
  have hpassed : checkAppends (RangeOrder.ascending ℤ) [⟨0, 0⟩, ⟨0, 2⟩] 1 [⟨2, 1⟩] 3 = .passed := by
    decide +kernel
  exact ⟨hsized, hpassed, (checkAppends_iff _ 1 hsized).mp hpassed⟩

-- the number after the last `int` is the first one, which is not too far for any client
example :
    checkAppends (RangeOrder.ascending ℤ) [⟨0, 2 ^ 63 - 1⟩] 1 [⟨0, 2 ^ 63 - 1⟩] 2 = .passed := by
  decide +kernel

/-! ### What it misses -/

theorem Agrees.of_append {r : ClntRes} {ns ms : List ℤ}
    (h : Agrees r (ns ++ ms)) : Agrees r ns := by
  obtain ⟨hns, hms⟩ := ascends_append.mp h.ascends
  have hlen := hms.length_le
  have hskipped := h.skipped
  have hreached := h.reached
  rw [gaps, reach_append, List.length_append] at hskipped
  rw [reach_append] at hreached
  push_cast at hskipped
  exact ⟨hns, by rw [gaps]; omega, by omega⟩

theorem Sized.of_append {es lost : List EntryN} {rs : List ClntRes} {ver : ℕ}
    (h : Sized (es ++ lost) rs ver) : Sized es rs (es.length + 1) := by
  have hlen := h.length
  rw [List.length_append] at hlen
  exact ⟨fun e he => h.entries e (List.mem_append_left _ he), h.counts, by omega, by omega⟩

/-- As long as nothing it computes leaves the range of its type: if the newest appends are lost,
    acknowledged or not, and the version with them, then the check that would have passed still
    passes. -/
theorem lost_appends_pass {o o' : RangeOrder ℤ} {es lost : List EntryN} {nclnt : ℕ}
    {rs : List ClntRes} {ver : ℕ} (hsized : Sized (es ++ lost) rs ver)
    (h : checkAppends o (es ++ lost) nclnt rs ver = .passed) :
    checkAppends o' es nclnt rs (es.length + 1) = .passed := by
  have hall := accepted_of_passed hsized h
  refine Accepted.passed hsized.of_append
    ⟨rfl, hall.clients, fun e he => hall.known e (List.mem_append_left _ he), ?_⟩
  intro c r hr
  have hagrees := hall.agrees c r hr
  rw [numbers_append] at hagrees
  exact hagrees.of_append

/-- A client whose two appends were both acknowledged finds one of them. -/
theorem lost_appends_pass_acknowledged :
    checkAppends (RangeOrder.ascending ℤ) ([⟨0, 0⟩] ++ [⟨0, 1⟩]) 1 [⟨2, 0⟩] 3 = .passed ∧
    checkAppends (RangeOrder.ascending ℤ) [⟨0, 0⟩] 1 [⟨2, 0⟩] 2 = .passed := by
  have hsized : Sized ([⟨0, 0⟩] ++ [⟨0, 1⟩]) [⟨2, 0⟩] 3 :=
    ⟨by decide, by decide, by decide, by decide⟩
  have h : checkAppends (RangeOrder.ascending ℤ) ([⟨0, 0⟩] ++ [⟨0, 1⟩]) 1 [⟨2, 0⟩] 3 = .passed := by
    decide +kernel
  exact ⟨h, lost_appends_pass hsized h⟩

-- beyond the last `int` the skipped numbers can add up to less than none
example : checkAppends (RangeOrder.ascending ℤ) [⟨0, 2 ^ 63 - 1⟩, ⟨0, 0⟩] 1 [⟨1, 0⟩] 3 = .passed ∧
    checkAppends (RangeOrder.ascending ℤ) [⟨0, 2 ^ 63 - 1⟩] 1 [⟨1, 0⟩] 2 = .fatal := by
  decide +kernel

end DistSys.Kv.Appends
