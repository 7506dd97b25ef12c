import DistSys.Tester.Restart

/-! @go tester1/srv.go, tester1/persister.go | name:shutdownServer, startServer, Copy, Save |
    scheme:machine, log

    What is handed on from instance to instance. Until an instance is copied its persister is the
    server's, and holds the newest save that counts; from then on nobody but the tester has the
    copy.

        current   instance n            nobody                 instance n + 1
        saved     its persister    ──▶  a copy  ──▶  a copy ──▶  its persister
                              shutdownServer    startServer   mks                 -/

namespace DistSys.Tester
open LabRpc (ServerRef)

variable {E S : Type}

/-! ### What is handed on -/

/-- The server's persister is the current instance's, or nobody's; it holds what is to be handed
    on. -/
def Current (s : State E S) : Option ServerRef → Prop
  | some r => ∃ inst, s.instances r = some inst ∧ inst.num + 1 = s.count ∧
      s.saved = some inst.persister ∧ s.copied inst.num = none ∧
      Newest s.saves s.copied s.count (s.persisters inst.persister) ∧
      ∀ k < inst.num, s.copied k ≠ none
  | none => (s.saved = none ∧ s.count = 0 ∨ ∃ a, s.saved = some a ∧ a < s.nextPersister ∧
        (∀ r inst, s.instances r = some inst → inst.persister ≠ a) ∧
        Newest s.saves s.copied s.count (s.persisters a)) ∧
      ∀ k < s.count, s.copied k ≠ none

/-- Instances are told apart by number and by persister; a copy is made once; what was given to an
    instance is the newest save that counts of those before it. -/
structure Durable (s : State E S) : Prop where
  refs : ∀ r inst, s.instances r = some inst →
    r < s.nextServer ∧ inst.num < s.count ∧ inst.persister < s.nextPersister
  nums : ∀ r r' inst inst', s.instances r = some inst → s.instances r' = some inst' →
    inst.num = inst'.num → r = r'
  cells : ∀ r r' inst inst', s.instances r = some inst → s.instances r' = some inst' →
    inst.persister = inst'.persister → r = r'
  insts : ∀ save ∈ s.saves, save.inst < s.count
  copies : ∀ k n, s.copied k = some n → n ≤ s.saves.length ∧ k < s.count
  killed : ∀ r, s.kills r ≠ .idle → ∃ inst, s.instances r = some inst ∧ s.copied inst.num ≠ none
  order : Ordered s.saves s.copied
  given : ∀ k c, s.given k = some c → k < s.count ∧ Newest s.saves s.copied k c
  current : Current s s.phase.current

section durable
variable {s : State E S} {r : ServerRef} {inst : Instance} {author : Author} {content : Persister}

theorem durable_start : Durable (start : State E S) where
  refs := fun _ _ h => by cases h
  nums := fun _ _ _ _ h => by cases h
  cells := fun _ _ _ _ h => by cases h
  insts := fun _ h => by cases h
  copies := fun _ _ h => by cases h
  killed := fun _ h => absurd rfl h
  order := fun _ _ _ _ h => by simp [Counts, start] at h
  given := fun _ _ h => by cases h
  current := ⟨Or.inl ⟨rfl, rfl⟩, fun _ h => absurd h (Nat.not_lt_zero _)⟩

/-- An instance is the current one, or has been copied. -/
theorem Durable.copied_or_current (h : Durable s) (hinst : s.instances r = some inst) :
    s.phase.current = some r ∨ ∃ n, s.copied inst.num = some n := by
  have hcur := h.current
  have hlt := (h.refs r inst hinst).2.1
  cases hc : s.phase.current with
  | none =>
    rw [hc] at hcur
    exact Or.inr (Option.ne_none_iff_exists'.mp (hcur.2 _ hlt))
  | some r₀ =>
    rw [hc] at hcur
    obtain ⟨inst₀, hinst₀, hcount, -, -, -, hall⟩ := hcur
    rcases Nat.lt_or_ge inst.num inst₀.num with hnum | hnum
    · exact Or.inr (Option.ne_none_iff_exists'.mp (hall _ hnum))
    · exact Or.inl (by rw [h.nums r₀ r inst₀ inst hinst₀ hinst (by omega)])

/-- A save, as far as it is the same for all of them. -/
theorem Durable.save_of (h : Durable s) (hinst : s.instances r = some inst)
    (horder : Ordered (s.saves ++ [⟨author, inst.num, content⟩]) s.copied)
    (hgiven : ∀ k c, s.given k = some c →
      Newest (s.saves ++ [⟨author, inst.num, content⟩]) s.copied k c)
    (hcurrent : Current (s.save author inst content) s.phase.current) :
    Durable (s.save author inst content) := by
  refine { h with insts := fun save hm => ?_, copies := fun k n hk => ?_, order := horder,
                  given := fun k c hk => ⟨(h.given k c hk).1, hgiven k c hk⟩, current := hcurrent }
  · obtain hold | hnew := List.mem_append.mp hm
    · exact h.insts save hold
    · obtain rfl := List.mem_singleton.mp hnew
      exact (h.refs r inst hinst).2.1
  · obtain ⟨hle, hlt⟩ := h.copies k n hk
    exact ⟨by simp only [State.save, List.length_append]; omega, hlt⟩

/-- The current instance saves, and what it saves is what will be handed on. -/
theorem Durable.save_now (h : Durable s) (hinst : s.instances r = some inst)
    (hcurrent : s.phase.current = some r) (ch : ℕ) :
    Durable (s.save (.handler ch) inst content) := by
  have hcur := h.current
  rw [hcurrent] at hcur
  obtain ⟨inst', hinst', hcount, hsaved, hnone, -, hall⟩ := hcur
  obtain rfl := Option.some.inj (hinst.symm.trans hinst')
  refine h.save_of hinst (h.order.append fun m save hm => ?_) (fun k c hk => ?_) ?_
  · have := h.insts save (List.mem_of_getElem? hm.1)
    show save.inst ≤ inst.num
    omega
  · obtain ⟨hlt, hnew⟩ := h.given k c hk
    exact hnew.append_later (show k ≤ inst.num by omega)
  · rw [hcurrent]
    refine ⟨inst, hinst, hcount, hsaved, hnone, ?_, hall⟩
    simp only [State.save, Function.update_self]
    exact newest_append_now ⟨ch, rfl⟩ hnone (show inst.num < s.count by omega)

/-- Another instance saves, to a persister that is no longer the server's. -/
theorem Durable.save_late (h : Durable s) (hinst : s.instances r = some inst)
    (hcopied : ∃ n, s.copied inst.num = some n) : Durable (s.save author inst content) := by
  obtain ⟨n, hn⟩ := hcopied
  have hcounts : ∀ m save, Counts s.saves s.copied m save ↔
      Counts (s.saves ++ [⟨author, inst.num, content⟩]) s.copied m save := fun m save =>
    (counts_append_late (Or.inr ⟨n, hn, (h.copies _ n hn).1⟩)).symm
  refine h.save_of hinst (fun m m' save save' hm hm' => ?_)
    (fun k c hk => (newest_congr hcounts).mp (h.given k c hk).2) ?_
  · exact h.order m m' save save' ((hcounts m save).mpr hm) ((hcounts m' save').mpr hm')
  · have hcur := h.current
    cases hc : s.phase.current with
    | none =>
      rw [hc] at hcur
      obtain ⟨hsaved | ⟨a, ha, hlt, hfree, hnew⟩, hall⟩ := hcur
      · exact ⟨Or.inl hsaved, hall⟩
      · refine ⟨Or.inr ⟨a, ha, hlt, hfree, ?_⟩, hall⟩
        simp only [State.save, Function.update_of_ne (hfree r inst hinst).symm]
        exact (newest_congr hcounts).mp hnew
    | some r₀ =>
      rw [hc] at hcur
      obtain ⟨inst₀, hinst₀, hcount, hsaved, hnone, hnew, hall⟩ := hcur
      have hne : inst₀.persister ≠ inst.persister := fun heq => by
        obtain rfl := h.cells r₀ r inst₀ inst hinst₀ hinst heq
        obtain rfl := Option.some.inj (hinst.symm.trans hinst₀)
        simp [hnone] at hn
      refine ⟨inst₀, hinst₀, hcount, hsaved, hnone, ?_, hall⟩
      simp only [State.save, Function.update_of_ne hne]
      exact (newest_congr hcounts).mp hnew

theorem Durable.save (h : Durable s) (hinst : s.instances r = some inst) (ch : ℕ) :
    Durable (s.save (.handler ch) inst content) := by
  obtain hcurrent | hcopied := h.copied_or_current hinst
  · exact h.save_now hinst hcurrent ch
  · exact h.save_late hinst hcopied

/-- A `Kill` method saves, and its instance has been copied. -/
theorem Durable.save_kill (h : Durable s) (hinst : s.instances r = some inst)
    (hr : s.kills r ≠ .idle) : Durable (s.save .kill inst content) := by
  obtain ⟨inst', hinst', hcopied⟩ := h.killed r hr
  obtain rfl := Option.some.inj (hinst.symm.trans hinst')
  exact h.save_late hinst (Option.ne_none_iff_exists'.mp hcopied)

/-- Nobody is running, and the server's persister is replaced by a copy of it. -/
theorem Durable.copySaved (h : Durable s) {phase : Phase} (hs : s.phase.current = none)
    (hphase : phase.current = none) : Durable { s.copySaved with phase := phase } := by
  have hcur := h.current
  rw [hs] at hcur
  refine { h with refs := fun r inst hinst => ?_, current := ?_ }
  · obtain ⟨hr, hnum, hcell⟩ := h.refs r inst hinst
    exact ⟨hr, hnum, Nat.lt_succ_of_lt hcell⟩
  · rw [hphase]
    obtain ⟨hsaved, hall⟩ := hcur
    refine ⟨Or.inr ⟨s.nextPersister, rfl, Nat.lt_succ_self _, fun r inst hinst => ?_, ?_⟩, hall⟩
    · exact Nat.ne_of_lt (h.refs r inst hinst).2.2
    · simp only [State.copySaved, Function.update_self]
      obtain ⟨hnone, hcount⟩ | ⟨a, ha, -, -, hnew⟩ := hsaved
      · rw [hnone, hcount]
        exact newest_zero _ _
      · rw [ha]
        exact hnew

/-- The current instance is copied, and told to stop. -/
theorem Durable.shutdown_current (h : Durable s) (hcurrent : s.phase.current = some r) :
    Durable (s.shutdown (some r)) := by
  have hcur := h.current
  rw [hcurrent] at hcur
  obtain ⟨inst, hinst, hcount, hsaved, hnone, hnew, hall⟩ := hcur
  have hcounts : ∀ m save, Counts s.saves s.copied m save ↔
      Counts s.saves (Function.update s.copied inst.num (some s.saves.length)) m save :=
    fun m save => (counts_copy hnone).symm
  have hsome : ∀ k, (k ≠ inst.num → s.copied k ≠ none) →
      Function.update s.copied inst.num (some s.saves.length) k ≠ none := fun k hk => by
    rcases eq_or_ne k inst.num with rfl | hne
    · simp
    · rw [Function.update_of_ne hne]
      exact hk hne
  simp only [State.shutdown, hsaved, hinst, Option.isSome_some, if_true]
  refine { h with
    refs := fun r' inst' hinst' => ?_
    copies := fun k n hk => ?_
    killed := fun r' hr' => ?_
    order := fun m m' save save' hm hm' => ?_
    given := fun k c hk => ?_
    current := ?_ }
  · obtain ⟨hr, hnum, hcell⟩ := h.refs r' inst' hinst'
    exact ⟨hr, hnum, Nat.lt_succ_of_lt hcell⟩
  · obtain ⟨rfl, rfl⟩ | ⟨-, hk⟩ := update_some hk
    · exact ⟨Nat.le_refl _, (h.refs r inst hinst).2.1⟩
    · exact h.copies k n hk
  · rcases eq_or_ne r' r with rfl | hne
    · exact ⟨inst, hinst, hsome inst.num fun hne => absurd rfl hne⟩
    · simp only [Function.update_of_ne hne] at hr'
      obtain ⟨inst', hinst', hcopied⟩ := h.killed r' hr'
      exact ⟨inst', hinst', hsome _ fun _ => hcopied⟩
  · exact h.order m m' save save' ((hcounts m save).mpr hm) ((hcounts m' save').mpr hm')
  · obtain ⟨hlt, hold⟩ := h.given k c hk
    exact ⟨hlt, (newest_congr hcounts).mp hold⟩
  · refine ⟨Or.inr ⟨s.nextPersister, rfl, Nat.lt_succ_self _, fun r' inst' hinst' => ?_, ?_⟩,
      fun k hk => ?_⟩
    · exact Nat.ne_of_lt (h.refs r' inst' hinst').2.2
    · simp only [State.copySaved, hsaved, Function.update_self]
      exact (newest_congr hcounts).mp hnew
    · have hk : k < s.count := hk
      exact hsome k fun hne => hall k (by omega)

/-- `shutdownServer`, with an instance or without. -/
theorem Durable.shutdown (h : Durable s) {server : Option ServerRef}
    (hphase : s.phase = .deleted server) : Durable (s.shutdown server) := by
  cases server with
  | some r => exact h.shutdown_current (congrArg Phase.current hphase)
  | none =>
    have hnobody : s.phase.current = none := congrArg Phase.current hphase
    cases hsaved : s.saved with
    | some a =>
      simp only [State.shutdown, hsaved, Option.isSome_some, if_true]
      exact h.copySaved hnobody rfl
    | none =>
      have hcur := h.current
      rw [hnobody] at hcur
      simp only [State.shutdown, if_neg (show ¬ s.saved.isSome = true by simp [hsaved])]
      exact { h with current := hcur }

/-- A new instance is made of the server's persister. -/
theorem Durable.mks (h : Durable s) {a : ℕ} (hphase : s.phase = .starting)
    (hsaved : s.saved = some a) : Durable { s with
      instances := Function.update s.instances s.nextServer (some ⟨s.count, a⟩)
      given := Function.update s.given s.count (some (s.persisters a))
      phase := .made s.nextServer
      nextServer := s.nextServer + 1
      count := s.count + 1 } := by
  have hcur := h.current
  rw [hphase] at hcur
  obtain ⟨⟨hnone, -⟩ | ⟨a', ha', hlt, hfree, hnew⟩, hall⟩ := hcur
  · simp [hsaved] at hnone
  obtain rfl := Option.some.inj (hsaved.symm.trans ha')
  have hinsts : ∀ m save, Counts s.saves s.copied m save → save.inst ≠ s.count := fun m save hm =>
    Nat.ne_of_lt (h.insts save (List.mem_of_getElem? hm.1))
  refine ⟨fun r inst hinst => ?_, fun r r' inst inst' hinst hinst' heq => ?_,
    fun r r' inst inst' hinst hinst' heq => ?_, fun save hm => Nat.lt_succ_of_lt (h.insts save hm),
    fun k n hk => ?_, fun r hr => ?_, h.order, fun k c hk => ?_, ?_⟩
  · obtain ⟨rfl, rfl⟩ | ⟨-, hinst⟩ := update_some hinst
    · exact ⟨Nat.lt_succ_self _, Nat.lt_succ_self _, hlt⟩
    · obtain ⟨hr, hnum, hcell⟩ := h.refs r inst hinst
      exact ⟨Nat.lt_succ_of_lt hr, Nat.lt_succ_of_lt hnum, hcell⟩
  · obtain ⟨rfl, rfl⟩ | ⟨-, hold⟩ := update_some hinst <;>
      obtain ⟨rfl, rfl⟩ | ⟨-, hold'⟩ := update_some hinst'
    · rfl
    · exact absurd heq.symm (Nat.ne_of_lt (h.refs r' inst' hold').2.1)
    · exact absurd heq (Nat.ne_of_lt (h.refs r inst hold).2.1)
    · exact h.nums r r' inst inst' hold hold' heq
  · obtain ⟨rfl, rfl⟩ | ⟨-, hold⟩ := update_some hinst <;>
      obtain ⟨rfl, rfl⟩ | ⟨-, hold'⟩ := update_some hinst'
    · rfl
    · exact absurd heq.symm (hfree r' inst' hold')
    · exact absurd heq (hfree r inst hold)
    · exact h.cells r r' inst inst' hold hold' heq
  · obtain ⟨hle, hlt⟩ := h.copies k n hk
    exact ⟨hle, Nat.lt_succ_of_lt hlt⟩
  · obtain ⟨inst, hinst, hcopied⟩ := h.killed r hr
    exact ⟨inst,
      (Function.update_of_ne (Nat.ne_of_lt (h.refs r inst hinst).1) _ _).trans hinst, hcopied⟩
  · obtain ⟨rfl, rfl⟩ | ⟨-, hk⟩ := update_some hk
    · exact ⟨Nat.lt_succ_self _, hnew⟩
    · obtain ⟨hlt, hold⟩ := h.given k c hk
      exact ⟨Nat.lt_succ_of_lt hlt, hold⟩
  · refine ⟨⟨s.count, a⟩, Function.update_self .., rfl, hsaved, ?_, hnew.succ hinsts, hall⟩
    cases hcopied : s.copied s.count with
    | none => rfl
    | some n => exact absurd (h.copies _ n hcopied).2 (Nat.lt_irrefl _)

/-- A `Kill` method of an instance moves. -/
theorem Durable.kill (h : Durable s) (pc : KillPc) (hr : s.kills r ≠ .idle) :
    Durable { s with kills := Function.update s.kills r pc } := by
  refine { h with killed := fun r' hr' => h.killed r' ?_ }
  rcases eq_or_ne r' r with rfl | hne
  · exact hr
  · simpa only [Function.update_of_ne hne] using hr'

/-- The tester goes on without a change of instance. -/
theorem Durable.moves (h : Durable s) {rpc : LabRpc.State E S} {phase : Phase}
    (hphase : phase.current = s.phase.current) : Durable { s with rpc := rpc, phase := phase } := by
  have hcur := h.current
  refine { h with current := ?_ }
  rw [← hphase] at hcur
  exact hcur

theorem Durable.makeServer (h : Durable s) : Durable { s with nextServer := s.nextServer + 1 } :=
  { h with refs := fun r inst hinst =>
      ⟨Nat.lt_succ_of_lt (h.refs r inst hinst).1, (h.refs r inst hinst).2⟩ }

/-! ### The steps of the machine -/

theorem running_some {p ch : ℕ} (h : s.running p = some (ch, inst)) :
    ∃ q r, s.rpc.procs p = some q ∧ q.handler = .running ∧ q.info.server = some r ∧
      s.instances r = some inst ∧ q.req.replyCh = ch := by
  unfold State.running at h
  split at h
  · rename_i q hq
    simp only [Option.ite_none_right_eq_some, Option.map_eq_some_iff, Option.bind_eq_some_iff,
      Prod.mk.injEq] at h
    obtain ⟨hrunning, inst', ⟨r, hr, hinst⟩, rfl, rfl⟩ := h
    exact ⟨q, r, hq, hrunning, hr, hinst, rfl⟩
  · cases h

/-- The record of returns is all that a return changes. -/
theorem returns_eq (s : State E S) (a : LabRpc.Action E S) :
    s.returns a = { s with returned := (s.returns a).returned } := by
  unfold State.returns
  split
  · split <;> rfl
  · rfl

/-- What is handed on, whoever moves. -/
theorem durable_step [DecidableEq E] [DecidableEq S] {name : S} {s' : State E S} {a : Action E S}
    (h : Durable s) (hstep : step name s a = some s') : Durable s' := by
  cases step_effect hstep with
  | rpc hpermits hrpc =>
    rw [returns_eq]
    exact { h with current := h.current }
  | makeServer => exact h.makeServer
  | save hrunning =>
    obtain ⟨-, r, -, -, -, hinst, -⟩ := running_some hrunning
    exact h.save hinst _
  | deleteServer hrpc => exact h.moves rfl
  | shutdownServer hphase => exact h.shutdown hphase
  | startServer hphase => exact h.copySaved (congrArg Phase.current hphase) rfl
  | mks hphase hsaved => exact h.mks hphase hsaved
  | addServer hphase hrpc => exact h.moves (congrArg Phase.current hphase).symm
  | killReadRaftState hkills | killReadSnapshot hkills => exact h.kill _ hkills
  | killSave hkills hinst => exact (h.save_kill hinst hkills).kill _ hkills
  | killOther hkills hinst => exact h.save_kill hinst hkills

end durable

end DistSys.Tester
