import DistSys.Kv.PutTest

/-! @go kvtest1/kvtest.go | name:OnePut, OneClientPut, GetJson, CheckPutConcurrent | scheme:machine

    The same test as an oracle: what does it say about a store that may answer anything? The clients
    keep no store in view, so every answer of `Put` and `Get` is an action of its own, and a
    `Fatalf` ends the run. A run that all clients finish is one in which every check passed.

        idle ──▶ putting k ver ── put err ──▶ got k ver err ── get reply ──▶ idle, putting k ver0
                                                                   │
                             OK, ver0 = ver+1, e.Id ≠ me ∧ e.V ≠ ver ──▶ Fatalf

    Two of the checks are weaker than what they are for: a wrong value gets through if one of its
    two fields is right, and without a reliable network the final version has no lower bound. -/

namespace DistSys.Kv.Oracle
open Machine (run run_append run_cons run_history)
open PutTest (ClntRes foldl_res)

/-- `rpc.Err`: the constants, and any other string. -/
inductive Err where
  | ok
  | noKey
  | version
  | maybe
  | wrongLeader
  | wrongGroup
  | other (text : GoString)
  deriving DecidableEq

/-- What a clerk's `Get` returns. -/
structure GetReply where
  value : GoString
  version : UInt64
  err : Err
  deriving DecidableEq

/-- The keys of a test, how they are chosen, and what `json.Unmarshal` makes of a value. -/
structure Test where
  ka : List GoString
  randomkeys : Bool
  unmarshal : GoString → Option EntryV

/-- Where a client is: before a turn of `OneClientPut`, or in `OnePut`, with `Put(k, EntryV{me,
    ver}, ver)` sent or answered. -/
inductive Pc where
  | idle
  | putting (k : GoString) (ver : UInt64)
  | got (k : GoString) (ver : UInt64) (err : Err)
  | done
  deriving DecidableEq

structure Client where
  verm : GoString → UInt64
  res : ClntRes
  pc : Pc

/-- What happens to a client: it begins a put with a random number at hand, its calls return, it is
    told to stop. -/
inductive Event where
  | onePut (rand : ℕ)
  | put (err : Err)
  | get (reply : GetReply)
  | done
  deriving DecidableEq

/-- `GetJson`; none if it ends in `Fatalf`. -/
def Test.getJson (ts : Test) (r : GetReply) : Option (UInt64 × EntryV) :=
  if r.err = .ok then (ts.unmarshal r.value).map fun e => (r.version, e) else none

def Test.key (ts : Test) (rand : ℕ) : Option GoString :=
  if ts.randomkeys then ts.ka[rand % ts.ka.length]? else ts.ka[0]?

/-- `OnePut` after its `GetJson`, and `OneClientPut` after `OnePut`. -/
def Client.afterGet (c : Client) (me : ℕ) (k : GoString) (ver : UInt64) (err : Err) (ver0 : UInt64)
    (e : EntryV) : Option Client :=
  if err = .ok ∧ ver0 = ver + 1 ∧ e.id ≠ me ∧ e.v ≠ ver.toNat then none
  else match err with
    | .ok => some
        { verm := Function.update c.verm k ver0,
          res := { c.res with nok := c.res.nok + 1 }, pc := .idle }
    | .maybe => some
        { verm := Function.update c.verm k ver0,
          res := { c.res with nmaybe := c.res.nmaybe + 1 }, pc := .idle }
    | _ => some { c with pc := .putting k ver0 }

def Client.step (ts : Test) (me : ℕ) (c : Client) : Event → Option Client
  | .onePut rand =>
    if c.pc = .idle then (ts.key rand).map fun k => { c with pc := .putting k (c.verm k) } else none
  | .put err =>
    match c.pc with
    | .putting k ver =>
      if err = .ok ∨ err = .version ∨ err = .maybe then some { c with pc := .got k ver err }
      else none
    | _ => none
  | .get reply =>
    match c.pc with
    | .got k ver err => (ts.getJson reply).bind fun r => c.afterGet me k ver err r.1 r.2
    | _ => none
  | .done => if c.pc = .idle then some { c with pc := .done } else none

variable {n : ℕ}

/-- An event of one of the clients, in any order. -/
def step (ts : Test) (s : Fin n → Client) (a : Fin n × Event) : Option (Fin n → Client) :=
  ((s a.1).step ts a.1 a.2).map fun c => Function.update s a.1 c

def start (n : ℕ) : Fin n → Client := fun _ => ⟨fun _ => 0, ⟨0, 0⟩, .idle⟩

/-- `CheckPutConcurrent`: the version it read, unless it ends in `Fatalf`. -/
def checkPutConcurrent (ts : Test) (reply : GetReply) (rs : List ClntRes)
    (res : ClntRes) (reliable : Bool) : Option UInt64 :=
  (ts.getJson reply).bind fun r =>
    let res := rs.foldl (fun res r => ⟨res.nok + r.nok, res.nmaybe + r.nmaybe⟩) res
    if reliable then if r.1 ≠ UInt64.ofNat res.nok then none else some r.1
    else if r.1 > UInt64.ofNat (res.nok + res.nmaybe) then none else some r.1

/-! ### Counting -/

/-- How often a `Put` was answered with `err`. -/
def answers (err : Err) (acts : List (Fin n × Event)) : ℕ := acts.countP fun a => a.2 = .put err

/-- A client's own count of the answers it was given, the one it has not counted yet included. -/
def Client.counted (c : Client) (err : Err) : ℕ :=
  (if err = .ok then c.res.nok else c.res.nmaybe) +
    match c.pc with
    | .got _ _ err' => if err' = err then 1 else 0
    | _ => 0

/-- A client counts `OK` and `ErrMaybe` right. -/
theorem counted_step {ts : Test} {me : ℕ} {c c' : Client} {ev : Event} {err : Err}
    (herr : err = .ok ∨ err = .maybe) (h : c.step ts me ev = some c') :
    c'.counted err = c.counted err + if ev = .put err then 1 else 0 := by
  cases ev with
  | onePut rand =>
    simp only [Client.step, Option.ite_none_right_eq_some, Option.map_eq_some_iff] at h
    obtain ⟨hpc, k, -, rfl⟩ := h
    simp [Client.counted, hpc]
  | done =>
    simp only [Client.step, Option.ite_none_right_eq_some, Option.some.injEq] at h
    obtain ⟨hpc, rfl⟩ := h
    simp [Client.counted, hpc]
  | put err' =>
    simp only [Client.step] at h
    split at h
    · rename_i k ver hpc
      simp only [Option.ite_none_right_eq_some, Option.some.injEq] at h
      obtain ⟨-, rfl⟩ := h
      simp [Client.counted, hpc]
    · cases h
  | get reply =>
    simp only [Client.step] at h
    split at h
    · rename_i k ver err' hpc
      obtain ⟨⟨ver0, e⟩, -, hafter⟩ := Option.bind_eq_some_iff.mp h
      simp only [Client.afterGet, Option.ite_none_left_eq_some] at hafter
      obtain ⟨-, hafter⟩ := hafter
      split at hafter
      · cases hafter
        rcases herr with rfl | rfl <;> simp [Client.counted, hpc]
      · cases hafter
        rcases herr with rfl | rfl <;> simp [Client.counted, hpc]
      · rename_i hok hmaybe
        cases hafter
        have hne : err' ≠ err :=
          fun heq => herr.elim (fun h => hok (heq.trans h)) fun h => hmaybe (heq.trans h)
        simp [Client.counted, hpc, hne]
    · cases h

/-- So do all clients together. -/
theorem counted_run {ts : Test} {acts : List (Fin n × Event)} {s : Fin n → Client} {err : Err}
    (herr : err = .ok ∨ err = .maybe) (hrun : run (step ts) (start n) acts = some s) :
    ∑ i, (s i).counted err = answers err acts := by
  refine run_history (P := fun acts s => ∑ i, (s i).counted err = answers err acts) ?_ ?_ hrun
  · simp [start, Client.counted, answers]
  · intro acts s a s' _ hs hstep
    obtain ⟨c, hc, rfl⟩ := Option.map_eq_some_iff.mp hstep
    have hone := counted_step herr hc
    have hclient : ∀ j, (Function.update s a.1 c j).counted err =
        (s j).counted err + if j = a.1 then (if a.2 = .put err then 1 else 0) else 0 := by
      intro j
      rcases eq_or_ne j a.1 with rfl | hne
      · rw [Function.update_self, if_pos rfl, hone]
      · rw [Function.update_of_ne hne, if_neg hne, Nat.add_zero]
    simp only [hclient, Finset.sum_add_distrib, hs, Finset.sum_ite_eq',
      Finset.mem_univ, if_true, answers, List.countP_append,
      List.countP_singleton, decide_eq_true_eq]

/-- When all clients have stopped, their results are what they were answered. -/
theorem results_run {ts : Test} {acts : List (Fin n × Event)} {s : Fin n → Client}
    (hrun : run (step ts) (start n) acts = some s) (hdone : ∀ i, (s i).pc = .done) :
    ((List.ofFn fun i => (s i).res).map ClntRes.nok).sum = answers .ok acts ∧
    ((List.ofFn fun i => (s i).res).map ClntRes.nmaybe).sum = answers .maybe acts := by
  rw [← counted_run (Or.inl rfl) hrun, ← counted_run (Or.inr rfl) hrun]
  simp [Client.counted, hdone, List.map_ofFn, List.sum_ofFn]

/-! ### What the checks let through -/

/-- A put for version `ver` was answered with `OK`, and the `Get` after it returned `e` at the next
    version. -/
def Answered (ts : Test) (acts : List (Fin n × Event)) (i : Fin n) (ver : UInt64)
    (e : EntryV) : Prop :=
  ∃ ys reply zs s k, acts = ys ++ (i, .get reply) :: zs ∧ run (step ts) (start n) ys = some s ∧
    (s i).pc = .got k ver .ok ∧ ts.getJson reply = some (ver + 1, e)

/-- `OnePut` goes on if one of the two fields is right. -/
theorem answered_passes {ts : Test} {acts : List (Fin n × Event)} {s : Fin n → Client} {i : Fin n}
    {ver : UInt64} {e : EntryV} (hrun : run (step ts) (start n) acts = some s)
    (h : Answered ts acts i ver e) : e.id = (i : ℕ) ∨ e.v = ver.toNat := by
  obtain ⟨ys, reply, zs, t, k, rfl, hys, hpc, hget⟩ := h
  obtain ⟨t', ht', hrest⟩ := run_append.mp hrun
  obtain rfl := Option.some.inj (hys.symm.trans ht')
  obtain ⟨u, hu, -⟩ := run_cons.mp hrest
  obtain ⟨c, hc, -⟩ := Option.map_eq_some_iff.mp hu
  simp only [Client.step, hpc, hget, Option.bind_some, Client.afterGet,
    Option.ite_none_left_eq_some] at hc
  by_contra hwrong
  rw [not_or] at hwrong
  exact hc.1 ⟨trivial, trivial, hwrong.1, hwrong.2⟩

/-- What a passed `CheckPutConcurrent` says about the version it read. -/
theorem checkPutConcurrent_some {ts : Test} {reply : GetReply} {rs : List ClntRes} {res : ClntRes}
    {reliable : Bool} {ver0 : UInt64}
    (h : checkPutConcurrent ts reply rs res reliable = some ver0) :
    ver0.toNat ≤ (res.nok + (rs.map ClntRes.nok).sum) + (res.nmaybe + (rs.map ClntRes.nmaybe).sum) ∧
    (reliable = true → ver0.toNat = (res.nok + (rs.map ClntRes.nok).sum) % 2 ^ 64) := by
  obtain ⟨⟨ver, e⟩, -, hcheck⟩ := Option.bind_eq_some_iff.mp h
  simp only [foldl_res] at hcheck
  cases reliable with
  | true =>
    simp only [if_true, Option.ite_none_left_eq_some, not_not, Option.some.injEq] at hcheck
    obtain ⟨hver, rfl⟩ := hcheck
    have hmod : ver.toNat = (res.nok + (rs.map ClntRes.nok).sum) % 2 ^ 64 := by
      rw [hver, UInt64.toNat_ofNat']
    refine ⟨?_, fun _ => hmod⟩
    rw [hmod]
    exact (Nat.mod_le _ _).trans (Nat.le_add_right _ _)
  | false =>
    simp only [Bool.false_eq_true, if_false, Option.ite_none_left_eq_some,
      Option.some.injEq] at hcheck
    obtain ⟨hver, rfl⟩ := hcheck
    refine ⟨?_, fun hf => by cases hf⟩
    rw [gt_iff_lt, UInt64.lt_iff_toNat_lt, not_lt, UInt64.toNat_ofNat'] at hver
    exact hver.trans (Nat.mod_le _ _)

/-- With a value that can be decoded, a `Get` of the version that is asked for, or without a
    reliable network of the version 0, passes the check. -/
theorem checkPutConcurrent_passes {ts : Test} {value : GoString} (rs : List ClntRes) (res : ClntRes)
    (reliable : Bool) (hvalue : (ts.unmarshal value).isSome) :
    ∃ reply, checkPutConcurrent ts reply rs res reliable =
      some (if reliable then UInt64.ofNat (res.nok + (rs.map ClntRes.nok).sum) else 0) := by
  obtain ⟨e, he⟩ := Option.isSome_iff_exists.mp hvalue
  have hget : ∀ ver, ts.getJson ⟨value, ver, .ok⟩ = some (ver, e) := fun ver => by
    simp [Test.getJson, he]
  cases reliable with
  | true =>
    refine ⟨⟨value, UInt64.ofNat (res.nok + (rs.map ClntRes.nok).sum), .ok⟩, ?_⟩
    simp [checkPutConcurrent, hget, foldl_res]
  | false =>
    refine ⟨⟨value, 0, .ok⟩, ?_⟩
    simp [checkPutConcurrent, hget]

/-- What the test is for: the version read at the end lies between the puts answered `OK` and these
    with the puts answered `ErrMaybe`, and every `OK` followed by the next version was followed by
    the entry put. -/
structure Detects (ts : Test) (acts : List (Fin n × Event)) (res : ClntRes)
    (ver0 : UInt64) : Prop where
  lower : res.nok + answers .ok acts ≤ ver0.toNat
  upper : ver0.toNat ≤ (res.nok + answers .ok acts) + (res.nmaybe + answers .maybe acts)
  value : ∀ i ver e, Answered ts acts i ver e → e = ⟨(i : ℕ), ver.toNat⟩

/-- The lower bound holds of every final `Get` that passes, exactly if the network was called
    reliable and the puts answered `OK` are fewer than there are versions, or no put was answered
    `OK`. -/
theorem lower_iff {ts : Test} {value : GoString} (rs : List ClntRes)
    (res : ClntRes) (reliable : Bool) (hvalue : (ts.unmarshal value).isSome) :
    (∀ reply ver0, checkPutConcurrent ts reply rs res reliable = some ver0 →
      res.nok + (rs.map ClntRes.nok).sum ≤ ver0.toNat) ↔
    reliable = true ∧ res.nok + (rs.map ClntRes.nok).sum < 2 ^ 64 ∨
      res.nok + (rs.map ClntRes.nok).sum = 0 := by
  constructor
  · intro hlower
    obtain ⟨reply, hreply⟩ := checkPutConcurrent_passes rs res reliable hvalue
    have hle := hlower reply _ hreply
    cases reliable with
    | true =>
      rw [if_pos rfl, UInt64.toNat_ofNat'] at hle
      exact Or.inl ⟨rfl, hle.trans_lt (Nat.mod_lt _ (by norm_num))⟩
    | false =>
      rw [if_neg Bool.false_ne_true] at hle
      exact Or.inr (Nat.le_zero.mp hle)
  · rintro (⟨rfl, hfits⟩ | hnone) reply ver0 hcheck
    · rw [(checkPutConcurrent_some hcheck).2 rfl, Nat.mod_eq_of_lt hfits]
    · exact hnone.trans_le (Nat.zero_le _)

/-- CORRECT: of a test that all clients finish, every final `Get` that passes the check shows what
    the test is for, exactly if, first, the network was called reliable and the puts answered `OK`
    are fewer than there are versions, or no put was answered `OK`, and second, no entry read after
    an `OK` at the next version had just one of its fields right. -/
theorem put_test_detects_iff {ts : Test} {acts : List (Fin n × Event)} {s : Fin n → Client}
    (res : ClntRes) (reliable : Bool) {value : GoString}
    (hrun : run (step ts) (start n) acts = some s) (hdone : ∀ i, (s i).pc = .done)
    (hvalue : (ts.unmarshal value).isSome) :
    (∀ reply ver0,
      checkPutConcurrent ts reply (List.ofFn fun i => (s i).res) res reliable = some ver0 →
        Detects ts acts res ver0) ↔
    (reliable = true ∧ res.nok + answers .ok acts < 2 ^ 64 ∨ res.nok + answers .ok acts = 0) ∧
      ∀ i ver e, Answered ts acts i ver e → (e.id = (i : ℕ) ↔ e.v = ver.toNat) := by
  obtain ⟨hnok, hnmaybe⟩ := results_run hrun hdone
  have hlower := lower_iff (List.ofFn fun i => (s i).res) res reliable hvalue
  rw [hnok] at hlower
  have hentry : ∀ i ver e, Answered ts acts i ver e →
      (e = ⟨(i : ℕ), ver.toNat⟩ ↔ (e.id = (i : ℕ) ↔ e.v = ver.toNat)) := by
    rintro i ver ⟨id, v⟩ hans
    rw [EntryV.mk.injEq]
    rcases answered_passes hrun hans with h | h
    · simp [show id = (i : ℕ) from h]
    · simp [show v = ver.toNat from h]
  constructor
  · intro hall
    refine ⟨hlower.mp fun reply ver0 hcheck => (hall reply ver0 hcheck).lower,
      fun i ver e hans => ?_⟩
    -- some final `Get` passes, and what it shows holds of the entries
    obtain ⟨reply, hreply⟩ :=
      checkPutConcurrent_passes (List.ofFn fun i => (s i).res) res reliable hvalue
    exact (hentry i ver e hans).mp ((hall reply _ hreply).value i ver e hans)
  · rintro ⟨hlow, hfields⟩ reply ver0 hcheck
    refine ⟨hlower.mpr hlow reply ver0 hcheck, ?_, fun i ver e hans =>
      (hentry i ver e hans).mpr (hfields i ver e hans)⟩
    have hupper := (checkPutConcurrent_some hcheck).1
    rwa [hnok, hnmaybe] at hupper

/-- One client that puts to one key. -/
def oneKey : Test := ⟨[.lit "k"], false, EntryV.unmarshal ⟨0, 0⟩⟩

/-- One put, answered as it should be. -/
def goodRun : List (Fin 1 × Event) :=
  [(0, .onePut 0), (0, .put .ok), (0, .get ⟨EntryV.marshal ⟨0, 0⟩, 1, .ok⟩), (0, .done)]

theorem put_test_detects_one : ∃ s : Fin 1 → Client, run (step oneKey) (start 1) goodRun = some s ∧
    checkPutConcurrent oneKey ⟨EntryV.marshal ⟨0, 0⟩, 1, .ok⟩ (List.ofFn fun i => (s i).res)
      ⟨0, 0⟩ true = some 1 ∧
    answers .ok goodRun = 1 ∧ Detects oneKey goodRun ⟨0, 0⟩ 1 := by
  have hget : oneKey.getJson ⟨EntryV.marshal ⟨0, 0⟩, 1, .ok⟩ = some (1, ⟨0, 0⟩) := by decide +kernel
  have hsome : (run (step oneKey) (start 1) goodRun).map (fun s => ((s 0).pc, (s 0).res)) =
      some (.done, ⟨1, 0⟩) := by decide +kernel
  obtain ⟨s, hrun, hs⟩ := Option.map_eq_some_iff.mp hsome
  obtain ⟨hpc, hres⟩ := Prod.mk.inj hs
  have hcheck : checkPutConcurrent oneKey ⟨EntryV.marshal ⟨0, 0⟩, 1, .ok⟩
      (List.ofFn fun i => (s i).res) ⟨0, 0⟩ true = some 1 := by
    rw [checkPutConcurrent, hget]
    simp [hres]
  have hfields : ∀ i ver e, Answered oneKey goodRun i ver e →
      (e.id = (i : ℕ) ↔ e.v = ver.toNat) := by
    rintro i ver e ⟨ys, reply, zs, t, k, hacts, -, -, hreply⟩
    have hmem : (i, Event.get reply) ∈ goodRun := hacts ▸ by simp
    simp only [goodRun, List.mem_cons, Prod.mk.injEq, reduceCtorEq, and_false,
      Event.get.injEq, false_or, or_false, List.not_mem_nil] at hmem
    obtain ⟨rfl, rfl⟩ := hmem
    rw [hget, Option.some.injEq, Prod.mk.injEq] at hreply
    obtain ⟨hver, rfl⟩ := hreply
    obtain rfl : ver = 0 := by simpa using hver.symm
    decide
  have hvalue : (oneKey.unmarshal (EntryV.marshal ⟨0, 0⟩)).isSome := by decide +kernel
  have hdetects := (put_test_detects_iff ⟨0, 0⟩ true hrun (Fin.forall_fin_one.mpr hpc) hvalue).mpr
    ⟨Or.inl ⟨rfl, by decide⟩, hfields⟩
  exact ⟨s, hrun, hcheck, by decide, hdetects _ 1 hcheck⟩

/-- A put of `EntryV{0, 0}` is answered `OK` and the next version is read with `EntryV{0, 7}`. -/
def lostRun : List (Fin 1 × Event) :=
  [(0, .onePut 0), (0, .put .ok), (0, .get ⟨EntryV.marshal ⟨0, 7⟩, 1, .ok⟩), (0, .done)]

/-- At the end the version is 0, and the test passes: the put that was answered `OK` is not counted
    in the version, and the entry read after it is not the one that was put. -/
theorem put_test_passes_lost : ∃ s : Fin 1 → Client, run (step oneKey) (start 1) lostRun = some s ∧
    (∀ i, (s i).pc = .done) ∧
    checkPutConcurrent oneKey ⟨EntryV.marshal ⟨0, 7⟩, 0, .ok⟩ (List.ofFn fun i => (s i).res)
      ⟨0, 0⟩ false = some 0 ∧
    ¬ answers .ok lostRun ≤ (0 : UInt64).toNat ∧
    ¬ (∀ i ver e, Answered oneKey lostRun i ver e → e = ⟨(i : ℕ), ver.toNat⟩) ∧
    ¬ Detects oneKey lostRun ⟨0, 0⟩ 0 := by
  have hget : ∀ v, oneKey.getJson ⟨EntryV.marshal ⟨0, 7⟩, v, .ok⟩ = some (v, ⟨0, 7⟩) := by
    intro v
    have hval : EntryV.unmarshal ⟨0, 0⟩ (EntryV.marshal ⟨0, 7⟩) = some ⟨0, 7⟩ := by decide +kernel
    simp [Test.getJson, oneKey, hval]
  have hsome : (run (step oneKey) (start 1) lostRun).map (fun s => ((s 0).pc, (s 0).res)) =
      some (.done, ⟨1, 0⟩) := by decide +kernel
  obtain ⟨s, hrun, hs⟩ := Option.map_eq_some_iff.mp hsome
  obtain ⟨hpc, hres⟩ := Prod.mk.inj hs
  have hlost : ¬ answers .ok lostRun ≤ (0 : UInt64).toNat := by decide
  have hstolen : Answered oneKey lostRun 0 0 ⟨0, 7⟩ :=
    ⟨[(0, .onePut 0), (0, .put .ok)], _, [(0, .done)], _, .lit "k", rfl, rfl, rfl, hget 1⟩
  refine ⟨s, hrun, Fin.forall_fin_one.mpr hpc, ?_, hlost, ?_,
    fun h => hlost (by simpa using h.lower)⟩
  · rw [checkPutConcurrent, hget]
    simp [hres]
  · intro hall
    exact absurd (hall 0 0 ⟨0, 7⟩ hstolen) (by decide)

end DistSys.Kv.Oracle
