import DistSys.Kv.PutTest
import Mathlib.Data.Fin.Tuple.Basic

/-! @go kvraft1/kvraft_test.go, kvtest1/kvtest.go | name:GenericTest, CheckPutConcurrent |
    scheme:machine | invariant:run

    Several rounds of the put test on one key. Each round has new clients, which start from version
    0 although the key may exist; `res` goes on counting over all rounds, and the check after each
    round compares the version with it.

        none ── clients ──▶ store₁ ── clients ──▶ store₂ ── …
        0,0  ── + rs ─────▶ res₁   ── + rs ─────▶ res₂   ── …        check after each arrow

    To the clients of a round, those of all rounds before are one client that has finished, so that
    a round is the last part of a run with one more client. -/

namespace DistSys.Kv.PutTest
open Machine (run run_append run_cons run_history run_invariant run_map)

variable {n : ℕ}

/-- The state at the begin of a round. -/
def fresh (n : ℕ) (store : Option (GoString × ℕ)) : State n where
  store := store
  clients := fun _ => ⟨0, ⟨0, 0⟩, .idle, 0⟩

/-- `rs`. -/
def State.results (s : State n) : List ClntRes := List.ofFn fun i => (s.clients i).res

/-- What `CheckPutConcurrent` leaves in `res`. -/
def count (res : ClntRes) (rs : List ClntRes) : ClntRes :=
  rs.foldl (fun res r => ⟨res.nok + r.nok, res.nmaybe + r.nmaybe⟩) res

/-- One round of `GenericTest`, until all its clients have finished: the store and `res` after
    it. -/
def round (p : Option (GoString × ℕ) × ClntRes) (acts : List (Action n)) :
    Option (Option (GoString × ℕ) × ClntRes) :=
  (run step (fresh n p.1) acts).bind fun s =>
    if ∀ i, (s.clients i).pc = .done then some (s.store, count p.2 s.results) else none

/-! ### One more client -/

/-- Beside a client that takes no part. -/
def State.join (c : Client) (s : State n) : State (n + 1) where
  store := s.store
  clients := Fin.snoc s.clients c

def Action.lift : Action n → Action (n + 1)
  | .onePut i => .onePut i.castSucc
  | .apply i => .apply i.castSucc
  | .observe i => .observe i.castSucc
  | .returns i err => .returns i.castSucc err
  | .get i => .get i.castSucc
  | .finish i => .finish i.castSucc

@[simp] theorem join_castSucc (c : Client) (s : State n) (i : Fin n) :
    (s.join c).clients i.castSucc = s.clients i := by simp [State.join]

@[simp] theorem join_last (c : Client) (s : State n) : (s.join c).clients (Fin.last n) = c := by
  simp [State.join]

@[simp] theorem join_store (c : Client) (s : State n) : (s.join c).store = s.store := rfl

@[simp] theorem join_set (c : Client) (s : State n) (i : Fin n) (d : Client) :
    (s.join c).set i.castSucc d = (s.set i d).join c := by
  simp only [State.set, State.join, Fin.snoc_update]

/-- The others do what they do without it. -/
theorem step_join (c : Client) (s : State n) (a : Action n) :
    step (s.join c) a.lift = (step s a).map (State.join c) := by
  cases a with
  | onePut i | finish i =>
    simp only [Action.lift, step, join_castSucc, join_set]
    split <;> rfl
  | get i =>
    simp only [Action.lift, step, join_castSucc, join_set]
    split <;> rfl
  | apply i =>
    simp only [Action.lift, step, join_castSucc, join_set, join_store]
    split
    · rw [Option.map_map]
      rfl
    · rfl
  | observe i =>
    simp only [Action.lift, step, join_castSucc, join_set, join_store]
    repeat' split
    all_goals rfl
  | returns i err =>
    simp only [Action.lift, step, join_castSucc, join_set]
    split
    · split <;> rfl
    · rfl

/-- And so for a whole round. -/
theorem run_join (c : Client) {s t : State n} {acts : List (Action n)}
    (hrun : run step s acts = some t) :
    run step (s.join c) (acts.map Action.lift) = some (t.join c) := by
  induction acts generalizing s with
  | nil =>
    cases hrun
    rfl
  | cons a acts ih =>
    obtain ⟨s', hstep, hrun⟩ := run_cons.mp hrun
    rw [List.map_cons, run_cons]
    exact ⟨s'.join c, by rw [step_join, hstep, Option.map_some], ih hrun⟩

/-! ### From round to round -/

/-- What a round finds: an entry of some client, if any, and a version that fits what was
    counted. -/
structure Carried (p : Option (GoString × ℕ) × ClntRes) : Prop where
  store : StoreOk p.1
  seen : 0 < p.2.nok + p.2.nmaybe → p.1.isSome = true
  low : p.2.nok ≤ versionOf p.1
  high : versionOf p.1 ≤ p.2.nok + p.2.nmaybe

/-- All clients of the rounds before. -/
def former (p : Option (GoString × ℕ) × ClntRes) : Client := ⟨0, p.2, .done, versionOf p.1⟩

theorem Carried.inv {p : Option (GoString × ℕ) × ClntRes} (h : Carried p) (n : ℕ) :
    Inv ((fresh n p.1).join (former p)) := by
  constructor
  case store => exact h.store
  case client =>
    intro i
    induction i using Fin.lastCases with
    | last =>
      rw [join_last]
      refine ⟨⟨h.low, h.high⟩, fun hseen => h.seen ?_, fun _ _ _ heq => by cases heq⟩
      simpa [Seen, former] using hseen
    | cast i =>
      rw [join_castSucc]
      exact ⟨⟨Nat.le_refl _, Nat.le_refl _⟩, fun hseen => by simp [Seen, fresh] at hseen,
        fun _ _ _ heq => by cases heq⟩
  case total =>
    rw [Fin.sum_univ_castSucc]
    simp [fresh, former]

/-- The invariant in the course of a round. -/
theorem Carried.inv_run {p : Option (GoString × ℕ) × ClntRes} (h : Carried p)
    {acts : List (Action n)} {s : State n}
    (hrun : run step (fresh n p.1) acts = some s) : Inv (s.join (former p)) :=
  run_invariant (fun _ _ _ => inv_step) (h.inv n) (run_join (former p) hrun)

theorem count_results (res : ClntRes) (s : State n) :
    count res s.results =
      ⟨res.nok + ∑ i, (s.clients i).res.nok, res.nmaybe + ∑ i, (s.clients i).res.nmaybe⟩ := by
  simp [count, foldl_res, State.results, List.map_ofFn, List.sum_ofFn]

/-- A round leaves what the next one finds. -/
theorem Carried.round {p : Option (GoString × ℕ) × ClntRes} (h : Carried p)
    {acts : List (Action n)} {s : State n} (hrun : run step (fresh n p.1) acts = some s)
    (hdone : ∀ i, (s.clients i).pc = .done) : Carried (s.store, count p.2 s.results) := by
  have hinv := h.inv_run hrun
  have hdone' : ∀ i, ((s.join (former p)).clients i).pc = .done := by
    intro i
    induction i using Fin.lastCases with
    | last => rw [join_last]; rfl
    | cast i => rw [join_castSucc]; exact hdone i
  obtain ⟨hlow, hhigh⟩ := hinv.bounds hdone'
  simp only [Fin.sum_univ_castSucc, join_castSucc, join_last] at hlow hhigh
  simp only [former, join_store] at hlow hhigh
  rw [count_results]
  refine ⟨hinv.store, fun hpos => ?_, by dsimp only; omega, by dsimp only; omega⟩
  -- somebody has counted: a client of this round, or one before it
  dsimp only at hpos
  by_cases hbefore : 0 < p.2.nok + p.2.nmaybe
  · have hlast := (hinv.client (Fin.last n)).seen
    rw [join_last] at hlast
    exact hlast (Or.inr (Or.inl hbefore))
  · obtain ⟨i, -, hi⟩ :
        ∃ i ∈ Finset.univ, (s.clients i).res.nok + (s.clients i).res.nmaybe ≠ 0 := by
      refine Finset.exists_ne_zero_of_sum_ne_zero ?_
      rw [Finset.sum_add_distrib]
      omega
    have hclient := (hinv.client i.castSucc).seen
    rw [join_castSucc] at hclient
    exact hclient (Or.inr (Or.inl (Nat.pos_of_ne_zero hi)))

theorem of_round {p q : Option (GoString × ℕ) × ClntRes} {acts : List (Action n)}
    (h : round p acts = some q) : ∃ s, run step (fresh n p.1) acts = some s ∧
      (∀ i, (s.clients i).pc = .done) ∧ q = (s.store, count p.2 s.results) := by
  obtain ⟨s, hrun, hs⟩ := Option.bind_eq_some_iff.mp h
  simp only [Option.ite_none_right_eq_some, Option.some.injEq] at hs
  exact ⟨s, hrun, hs.1, hs.2.symm⟩

/-- Over all rounds. -/
theorem carried_run {rounds : List (List (Action n))} {p : Option (GoString × ℕ) × ClntRes}
    (hrounds : run round (none, ⟨0, 0⟩) rounds = some p) : Carried p := by
  have hstart : Carried (none, ⟨0, 0⟩) :=
    ⟨fun _ _ h => (by cases h), fun h => (by cases h), Nat.le_refl _, Nat.le_refl _⟩
  refine run_invariant ?_ hstart hrounds
  intro p acts q hp hround
  obtain ⟨s, hrun, hdone, rfl⟩ := of_round hround
  exact hp.round hrun hdone

/-- Without an `ErrMaybe` nobody counts one in a round. -/
theorem certain_round {store : Option (GoString × ℕ)} {acts : List (Action n)} {s : State n}
    (hrun : run step (fresh n store) acts = some s) (hacts : ∀ i, .returns i .maybe ∉ acts) :
    ∑ i, (s.clients i).res.nmaybe = 0 := by
  have hcertain : ∀ j, Certain (s.clients j) := by
    refine run_history
      (P := fun acts s => (∀ i, .returns i .maybe ∉ acts) → ∀ j, Certain (s.clients j))
      (fun _ _ => ⟨rfl, by simp [fresh]⟩) (fun acts s a s' _ ih hstep hacts => ?_) hrun hacts
    simp only [List.mem_append, List.mem_singleton, not_or] at hacts
    exact certain_step (fun i => Ne.symm (hacts i).2) (ih fun i => (hacts i).1) hstep
  exact Finset.sum_eq_zero fun i _ => (hcertain i).1

/-- Nor over all rounds. -/
theorem certain_rounds {rounds : List (List (Action n))} {p : Option (GoString × ℕ) × ClntRes}
    (hrounds : run round (none, ⟨0, 0⟩) rounds = some p)
    (hacts : ∀ acts ∈ rounds, ∀ i, .returns i .maybe ∉ acts) :
    p.2.nmaybe = 0 := by
  refine run_history
    (P := fun rounds p => (∀ acts ∈ rounds, ∀ i, Action.returns i .maybe ∉ acts) → p.2.nmaybe = 0)
    (fun _ => rfl) (fun rounds p acts q _ ih hround hall => ?_) hrounds hacts
  obtain ⟨s, hrun, -, rfl⟩ := of_round hround
  have hbefore := ih fun acts' hmem => hall acts' (List.mem_append_left _ hmem)
  have hnow := certain_round hrun (hall acts (by simp))
  rw [count_results]
  dsimp only
  omega

/-- CORRECT: after any number of rounds, no client of the next one fails, in any interleaving. When
    they have finished, and somebody has completed a put in this round or before, the check passes
    with the counts of all rounds. -/
theorem generic_test_sound {rounds : List (List (Action n))} {p : Option (GoString × ℕ) × ClntRes}
    (hrounds : run round (none, ⟨0, 0⟩) rounds = some p) {acts : List (Action n)} {s : State n}
    (hrun : run step (fresh n p.1) acts = some s) :
    (∀ i, (s.clients i).pc ≠ .failed) ∧
    ((∀ i, (s.clients i).pc = .done) →
      0 < (count p.2 s.results).nok + (count p.2 s.results).nmaybe →
      ∀ reliable, (reliable = true → ∀ acts' ∈ rounds ++ [acts], ∀ i, .returns i .maybe ∉ acts') →
        checkPutConcurrent s.store s.results p.2 reliable = true) := by
  have hp := carried_run hrounds
  refine ⟨fun i hfailed => ?_, fun hdone hpos reliable hreliable => ?_⟩
  · have hcounted := ((hp.inv_run hrun).client i.castSucc).counted
    rw [join_castSucc, hfailed] at hcounted
    exact hcounted
  · have hq := hp.round hrun hdone
    have hlow := hq.low
    have hhigh := hq.high
    obtain ⟨id, w, hget, hver⟩ := getJson_eq hq.store (hq.seen hpos) ⟨0, 0⟩
    have hversion : versionOf s.store = w + 1 := by rw [versionOf, hver]; rfl
    dsimp only at hlow hhigh
    rw [hversion] at hlow hhigh
    have hcheck : checkPutConcurrent s.store s.results p.2 reliable =
        if reliable then decide (w + 1 = (count p.2 s.results).nok)
        else decide (w + 1 ≤ (count p.2 s.results).nok + (count p.2 s.results).nmaybe) := by
      rw [checkPutConcurrent, hget]
      rfl
    rw [hcheck]
    cases reliable with
    | true =>
      have hall := hreliable rfl
      have hbefore :=
        certain_rounds hrounds fun acts' hmem => hall acts' (List.mem_append_left _ hmem)
      have hnow := certain_round hrun (hall acts (by simp))
      have hmaybe : (count p.2 s.results).nmaybe = 0 := by
        rw [count_results]
        dsimp only
        omega
      simp only [if_true, decide_eq_true_eq]
      omega
    | false => simpa using hhigh

/-- Both clients ask for version 0; the first one makes the key, and the second one puts over it. -/
def firstRound : List (Action 2) :=
  [.onePut 0, .onePut 1, .apply 0, .observe 1, .returns 0 .ok, .get 0, .returns 1 .version, .get 1,
   .apply 1, .returns 1 .ok, .get 1, .finish 0, .finish 1]

/-- The clients of the next round ask for version 0 too, and are told that there is a newer one. -/
def secondRound : List (Action 2) :=
  [.onePut 0, .onePut 1, .observe 0, .observe 1, .returns 0 .version, .get 0, .returns 1 .version,
   .get 1, .apply 1, .observe 0, .returns 1 .ok, .get 1, .returns 0 .version, .get 0, .apply 0,
   .returns 0 .ok, .get 0, .finish 0, .finish 1]

theorem firstRound_run :
    run round (none, ⟨0, 0⟩) [firstRound] = some (some (EntryV.marshal ⟨1, 1⟩, 2), ⟨2, 0⟩) := by
  decide +kernel

theorem secondRound_run : (run step (fresh 2 (some (EntryV.marshal ⟨1, 1⟩, 2))) secondRound).map
    (fun s => (s.store.map Prod.snd, s.results, List.ofFn fun i => (s.clients i).pc)) =
    some (some 4, [⟨1, 0⟩, ⟨1, 0⟩], [.done, .done]) := by decide +kernel

theorem generic_test_sound_two : ∃ s : State 2,
    run step (fresh 2 (some (EntryV.marshal ⟨1, 1⟩, 2))) secondRound = some s ∧
    s.results = [⟨1, 0⟩, ⟨1, 0⟩] ∧ s.store.map Prod.snd = some 4 ∧
    checkPutConcurrent s.store s.results ⟨2, 0⟩ true = true := by
  obtain ⟨s, hrun, hs⟩ := Option.map_eq_some_iff.mp secondRound_run
  simp only [List.ofFn_succ, List.ofFn_zero, Prod.mk.injEq, List.cons.injEq, and_true] at hs
  obtain ⟨hstore, hresults, hpc0, hpc1⟩ := hs
  have hdone : ∀ i, (s.clients i).pc = .done := Fin.forall_fin_two.mpr ⟨hpc0, hpc1⟩
  refine ⟨s, hrun, hresults, hstore,
    (generic_test_sound firstRound_run hrun).2 hdone ?_ true fun _ => ?_⟩
  · simp [count, hresults]
  · decide

end DistSys.Kv.PutTest
