import DistSys.Kv.PutTest

/-! @go kvtest1/kvtest.go | name:PutAtLeastOnce | scheme:machine | invariant:run

    A put that is tried with one version after the other until it succeeds, while others write to
    the same key. The clerk's answers are read as documented: `OK` that the put took effect once,
    `ErrVersion` and `ErrMaybe` that the stored version was not the one asked for at some moment of
    the call, `ErrNoKey` that there was no key although a version was asked for.

        looping ── send ──▶ calling ── OK ──▶ returned ver+1
           ▲                   │ ErrVersion, ErrMaybe: ver+1
           └───────────────────┘ ErrNoKey: again, or Fatalf if ver ≠ 0

    The invariant is `ver ≤ stored version`, which no write of anybody can break: an answer that
    makes the loop go on to `ver + 1` says that the stored version had left `ver`, and it only
    grows, up to the last version there is. A copy of an earlier put that arrives late finds its
    version gone. -/

namespace DistSys.Kv.AtLeastOnce
open Machine (run run_history)
open PutTest (PutErr)

/-- Where the call is. Of a `Put` under way it is recorded how often it took effect, and whether at
    some moment the stored version was another, or the key was missing. -/
inductive Pc where
  | looping
  | calling (applied : ℕ) (differed absent : Bool)
  | returned (v : ℕ)
  | failed
  deriving DecidableEq

/-- The key's value and version, `ver` of the loop, and the versions asked for by earlier puts. -/
structure State where
  store : Option (GoString × ℕ)
  ver : ℕ
  pc : Pc
  earlier : List ℕ

inductive Action where
  /-- somebody else's put takes effect -/
  | write (value : GoString)
  /-- the loop calls `Put` -/
  | send
  /-- a copy of the put takes effect -/
  | apply
  /-- a copy of an earlier put takes effect -/
  | late (w : ℕ)
  /-- the stored version is not the one asked for -/
  | differ
  /-- there is no key, and a version was asked for -/
  | miss
  | returns (err : PutErr)
  deriving DecidableEq

/-- What a clerk may return. -/
def permitted (applied : ℕ) (differed absent : Bool) : PutErr → Bool
  | .ok => applied = 1
  | .version => differed
  | .maybe => differed
  | .noKey => absent

/-- The body of the loop after the call of `Put`. -/
def State.afterPut (s : State) : PutErr → State
  | .ok => { s with ver := s.ver + 1, pc := .returned (s.ver + 1), earlier := s.ver :: s.earlier }
  | .maybe | .version => { s with ver := s.ver + 1, pc := .looping, earlier := s.ver :: s.earlier }
  | .noKey =>
    { s with pc := if s.ver ≠ 0 then .failed else .looping, earlier := s.ver :: s.earlier }

def step (value : GoString) (s : State) : Action → Option State
  | .write other =>
    (install s.store other (versionOf s.store)).map fun p => { s with store := some p }
  | .send => if s.pc = .looping then some { s with pc := .calling 0 false false } else none
  | .apply =>
    match s.pc with
    | .calling applied differed absent =>
      (install s.store value s.ver).map fun p =>
        { s with store := some p, pc := .calling (applied + 1) differed absent }
    | _ => none
  | .late w =>
    if w ∈ s.earlier then (install s.store value w).map fun p => { s with store := some p }
    else none
  | .differ =>
    match s.pc with
    | .calling applied _ absent =>
      if versionOf s.store ≠ s.ver then some { s with pc := .calling applied true absent } else none
    | _ => none
  | .miss =>
    match s.pc with
    | .calling applied differed _ =>
      if s.store = none ∧ s.ver ≠ 0 then some { s with pc := .calling applied differed true }
      else none
    | _ => none
  | .returns err =>
    match s.pc with
    | .calling applied differed absent =>
      if permitted applied differed absent err then some (s.afterPut err) else none
    | _ => none

def start (store : Option (GoString × ℕ)) (ver : ℕ) : State := ⟨store, ver, .looping, []⟩

/-- A step of a put under way. -/
def Action.inCall : Action → Bool
  | .apply | .differ | .miss | .returns _ => true
  | _ => false

theorem calling_of_step {value : GoString} {s s' : State} {a : Action} (ha : a.inCall = true)
    (h : step value s a = some s') : ∃ applied differed absent,
      s.pc = .calling applied differed absent := by
  cases hpc : s.pc with
  | calling applied differed absent => exact ⟨applied, differed, absent, rfl⟩
  | looping | returned v | failed => cases a <;> simp [step, hpc, Action.inCall] at h ha

/-! ### The invariant -/

/-- The put under way has left `ver` behind if it took effect or was told so, and misses no key. -/
def CallOk (store : Option (GoString × ℕ)) (ver : ℕ) : Pc → Prop
  | .calling applied differed absent =>
      (0 < applied ∨ differed = true → ver < versionOf store) ∧ absent = false
  | .failed => False
  | _ => True

/-- `ver` does not exceed the stored version, which has left the versions asked for earlier. -/
structure Inv (s : State) : Prop where
  le : s.ver ≤ versionOf s.store
  call : CallOk s.store s.ver s.pc
  gone : ∀ w ∈ s.earlier, w < versionOf s.store

theorem callOk_mono {store store' : Option (GoString × ℕ)} {ver : ℕ} {pc : Pc}
    (hle : versionOf store ≤ versionOf store') (h : CallOk store ver pc) :
    CallOk store' ver pc := by
  cases pc with
  | calling applied differed absent => exact ⟨fun hleft => (h.1 hleft).trans_le hle, h.2⟩
  | looping | returned v | failed => exact h

/-- The stored version grows, and nothing else changes. -/
theorem Inv.grow {s : State} (h : Inv s) {store : Option (GoString × ℕ)}
    (hle : versionOf s.store ≤ versionOf store) : Inv { s with store := store } :=
  ⟨h.le.trans hle, callOk_mono hle h.call, fun w hw => (h.gone w hw).trans_le hle⟩

/-- An answer moves the loop on only when the stored version has left `ver`. -/
theorem Inv.afterPut {s : State} (h : Inv s) {applied : ℕ} {differed absent : Bool}
    (hpc : s.pc = .calling applied differed absent) {err : PutErr}
    (hpermitted : permitted applied differed absent err = true) : Inv (s.afterPut err) := by
  have hcall := h.call
  rw [hpc] at hcall
  obtain ⟨hleft, habsent⟩ := hcall
  have hgone : s.ver < versionOf s.store → ∀ w ∈ s.ver :: s.earlier,
      w < versionOf s.store := fun hlt =>
    List.forall_mem_cons.mpr ⟨hlt, h.gone⟩
  cases err with
  | ok =>
    have hlt := hleft (Or.inl (by simp only [permitted, decide_eq_true_eq] at hpermitted; omega))
    exact ⟨hlt, trivial, hgone hlt⟩
  | version | maybe =>
    have hlt := hleft (Or.inr hpermitted)
    exact ⟨hlt, trivial, hgone hlt⟩
  | noKey =>
    rw [permitted, habsent] at hpermitted
    cases hpermitted

/-- Whoever moves. -/
theorem inv_step {value : GoString} {s s' : State} {a : Action} (h : Inv s)
    (hstep : step value s a = some s') : Inv s' := by
  have hcall := h.call
  cases a with
  | write other =>
    obtain ⟨p, hput, rfl⟩ := Option.map_eq_some_iff.mp hstep
    obtain ⟨-, rfl, -⟩ := install_eq hput
    exact h.grow (Nat.le_succ _)
  | send =>
    simp only [step, Option.ite_none_right_eq_some, Option.some.injEq] at hstep
    obtain ⟨-, rfl⟩ := hstep
    exact ⟨h.le, ⟨by simp, rfl⟩, h.gone⟩
  | apply =>
    obtain ⟨applied, differed, absent, hpc⟩ := calling_of_step rfl hstep
    simp only [step, hpc] at hstep
    obtain ⟨p, hput, rfl⟩ := Option.map_eq_some_iff.mp hstep
    obtain ⟨hver, rfl, -⟩ := install_eq hput
    rw [hpc] at hcall
    refine ⟨Nat.le_succ _, ⟨fun _ => Nat.lt_succ_self _, hcall.2⟩, fun w hw => ?_⟩
    have hlt := h.gone w hw
    exact (hver ▸ hlt).trans (Nat.lt_succ_self _)
  | late w =>
    simp only [step, Option.ite_none_right_eq_some] at hstep
    obtain ⟨p, hput, -⟩ := Option.map_eq_some_iff.mp hstep.2
    exact absurd (install_eq hput).1 (h.gone w hstep.1).ne
  | differ =>
    obtain ⟨applied, differed, absent, hpc⟩ := calling_of_step rfl hstep
    simp only [step, hpc, Option.ite_none_right_eq_some, Option.some.injEq] at hstep
    obtain ⟨hver, rfl⟩ := hstep
    rw [hpc] at hcall
    exact ⟨h.le, ⟨fun _ => lt_of_le_of_ne h.le (Ne.symm hver), hcall.2⟩, h.gone⟩
  | miss =>
    obtain ⟨applied, differed, absent, hpc⟩ := calling_of_step rfl hstep
    simp only [step, hpc, Option.ite_none_right_eq_some, Option.some.injEq] at hstep
    obtain ⟨⟨hstore, hver⟩, -⟩ := hstep
    -- an absent key has version 0, which `ver` does not exceed
    have hle := h.le
    rw [hstore] at hle
    exact absurd (Nat.le_zero.mp hle) hver
  | returns err =>
    obtain ⟨applied, differed, absent, hpc⟩ := calling_of_step rfl hstep
    simp only [step, hpc, Option.ite_none_right_eq_some, Option.some.injEq] at hstep
    obtain ⟨hpermitted, rfl⟩ := hstep
    exact h.afterPut hpc hpermitted

/-! ### The moment of the put -/

/-- A copy of the last put called made the stored pair `(value, v)`. -/
def Made (value : GoString) (s₀ : State) (acts : List Action) (v : ℕ) : Prop :=
  ∃ ys zs t t', acts = ys ++ .apply :: zs ∧ .send ∉ zs ∧ run (step value) s₀ ys = some t ∧
    step value t .apply = some t' ∧ t'.store = some (value, v)

theorem Made.concat {value : GoString} {s₀ : State} {acts : List Action} {v : ℕ} {a : Action}
    (h : Made value s₀ acts v) (ha : a ≠ .send) : Made value s₀ (acts ++ [a]) v := by
  obtain ⟨ys, zs, t, t', rfl, hzs, hrun, hstep, hstore⟩ := h
  refine ⟨ys, zs ++ [a], t, t', by simp, ?_, hrun, hstep, hstore⟩
  simpa [hzs] using ha.symm

/-- A put under way that took effect, or returned, did so at some moment. -/
def MadeOk (value : GoString) (s₀ : State) (acts : List Action) (s : State) : Prop :=
  match s.pc with
  | .calling applied _ _ => 0 < applied → Made value s₀ acts (s.ver + 1)
  | .returned v => Made value s₀ acts v
  | _ => True

/-- The moment is remembered until the next put. -/
theorem madeOk_step {value : GoString} {s₀ s s' : State} {acts : List Action} {a : Action}
    (hrun : run (step value) s₀ acts = some s) (h : MadeOk value s₀ acts s)
    (hstep : step value s a = some s') : MadeOk value s₀ (acts ++ [a]) s' := by
  have hkeep : a ≠ .send → s'.pc = s.pc → s'.ver = s.ver → MadeOk value s₀ (acts ++ [a]) s' := by
    intro ha hpc hver
    simp only [MadeOk, hpc, hver] at h ⊢
    split at h
    · exact fun hpos => (h hpos).concat ha
    · exact h.concat ha
    · trivial
  cases a with
  | write other =>
    obtain ⟨p, -, rfl⟩ := Option.map_eq_some_iff.mp hstep
    exact hkeep (by simp) rfl rfl
  | late w =>
    simp only [step, Option.ite_none_right_eq_some] at hstep
    obtain ⟨p, -, rfl⟩ := Option.map_eq_some_iff.mp hstep.2
    exact hkeep (by simp) rfl rfl
  | send =>
    simp only [step, Option.ite_none_right_eq_some, Option.some.injEq] at hstep
    obtain ⟨-, rfl⟩ := hstep
    exact fun hpos => absurd hpos (Nat.lt_irrefl 0)
  | apply =>
    have hstep' := hstep
    obtain ⟨applied, differed, absent, hpc⟩ := calling_of_step rfl hstep
    simp only [step, hpc] at hstep
    obtain ⟨p, hput, rfl⟩ := Option.map_eq_some_iff.mp hstep
    obtain ⟨-, rfl, -⟩ := install_eq hput
    exact fun _ => ⟨acts, [], s, _, rfl, List.not_mem_nil, hrun, hstep', rfl⟩
  | differ | miss =>
    obtain ⟨applied, differed, absent, hpc⟩ := calling_of_step rfl hstep
    simp only [step, hpc, Option.ite_none_right_eq_some, Option.some.injEq] at hstep
    obtain ⟨-, rfl⟩ := hstep
    simp only [MadeOk, hpc] at h
    exact fun hpos => (h hpos).concat (by simp)
  | returns err =>
    obtain ⟨applied, differed, absent, hpc⟩ := calling_of_step rfl hstep
    simp only [step, hpc, Option.ite_none_right_eq_some, Option.some.injEq] at hstep
    obtain ⟨hpermitted, rfl⟩ := hstep
    simp only [MadeOk, hpc] at h
    cases err with
    | ok =>
      simp only [permitted, decide_eq_true_eq] at hpermitted
      exact (h (by omega)).concat (by simp)
    | version | maybe => trivial
    | noKey =>
      rcases eq_or_ne s.ver 0 with hzero | hne
      · simp [MadeOk, State.afterPut, hzero]
      · simp [MadeOk, State.afterPut, hne]

/-- CORRECT: from any stored pair and any version no greater than the stored one, whatever the
    others write and whichever copies of a put take effect: `ver` never exceeds the stored version,
    the `Fatalf` is not reached, and a call that returns `v` made the stored pair `(value, v)` at
    some moment of its last put. -/
theorem putAtLeastOnce_correct {store : Option (GoString × ℕ)} {value : GoString} {ver : ℕ}
    (hver : ver ≤ versionOf store) {acts : List Action} {s : State}
    (hrun : run (step value) (start store ver) acts = some s) :
    s.ver ≤ versionOf s.store ∧ s.pc ≠ .failed ∧
    ∀ v, s.pc = .returned v → ∃ ys zs t t', acts = ys ++ .apply :: zs ∧ .send ∉ zs ∧
      run (step value) (start store ver) ys = some t ∧ step value t .apply = some t' ∧
      t'.store = some (value, v) := by
  have hstart : Inv (start store ver) := ⟨hver, trivial, fun w hw => absurd hw List.not_mem_nil⟩
  have hinv : Inv s := Machine.run_invariant (fun _ _ _ => inv_step) hstart hrun
  have hnil : MadeOk value (start store ver) [] (start store ver) := trivial
  have hmade : MadeOk value (start store ver) acts s :=
    run_history hnil (fun _ _ _ _ => madeOk_step) hrun
  refine ⟨hinv.le, fun hfailed => ?_, fun v hpc => ?_⟩
  · have hcall := hinv.call
    rw [hfailed] at hcall
    exact hcall
  · simp only [MadeOk, hpc] at hmade
    exact hmade

/-- The key is absent. The first put takes effect but its answer is lost, the second is beaten by
    another writer, and the third is answered `OK`. -/
def thirdTime : List Action :=
  [.send, .apply, .differ, .returns .maybe, .send, .write (.lit "y"), .differ,
    .returns .version, .send,
   .apply, .returns .ok]

theorem putAtLeastOnce_third : ∃ s, run (step (.lit "x")) (start none 0) thirdTime = some s ∧
    s.pc = .returned 3 ∧ s.ver ≤ versionOf s.store := by
  have hpc :
      (run (step (.lit "x")) (start none 0) thirdTime).map State.pc = some (.returned 3) := by
    decide +kernel
  obtain ⟨s, hrun, hs⟩ := Option.map_eq_some_iff.mp hpc
  exact ⟨s, hrun, hs, (putAtLeastOnce_correct (Nat.le_refl 0) hrun).1⟩

end DistSys.Kv.AtLeastOnce
