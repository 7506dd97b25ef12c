import DistSys.LabRpc.Requests

/-! @go labrpc/labrpc.go | name:ClientEnd.Call | scheme:machine | invariant:run

    At most once, and truthful. Channels are never used twice, so what is known of each request
    alone is known of all of them in any interleaving. A call that returns true has been executed by
    the server it was meant for, once, and gets that execution's reply; a call that cannot reach a
    server when it is read has no choice but to fail.

        read ─────── executed ─────── returned ─────── checked ─────── reply received
          enabled                                        enabled
          name ↦ server                                  name ↦ server            -/

namespace DistSys.LabRpc
open Machine (run run_cons run_append run_history run_invariant Past Took)

variable {E S : Type}

/-- Nothing has been done for the channel; its call, if any, is not sent or was given up. -/
def Trace.Idle (ch : ℕ) (t : Trace E) : Prop :=
  t.execs = [] ∧ t.rets = [] ∧ t.sent = [] ∧ ∀ c, t.call = some c →
    c.req.replyCh = ch ∧ (c.phase = .sending ∨ c.phase = .returned false [])

/-- No request came in for the channel. -/
def State.Unsent (s : State E S) (ch : ℕ) : Prop := ∀ p q, s.procs p = some q → q.req.replyCh ≠ ch

section
variable [DecidableEq E] [DecidableEq S]

/-- What holds after any interleaving: each request is as it should be, and has its channel for
    itself. -/
structure Inv (acts : List (Action E S)) (s : State E S) : Prop where
  proc : ∀ p q, s.procs p = some q → ProcOk acts p q (s.trace q.req.replyCh)
  once : ∀ p p' q q', s.procs p = some q → s.procs p' = some q' →
    q.req.replyCh = q'.req.replyCh → p = p'
  idle : ∀ ch, s.Unsent ch → (s.trace ch).Idle ch
  chan : ∀ ch c, s.calls ch = some c → ch < s.nextCh
  slot : ∀ p q, s.procs p = some q → p < s.nextProc

variable {acts : List (Action E S)} {s s' : State E S} {p ch : ℕ} {q : Proc E S}

theorem inv_start : Inv [] (start : State E S) where
  proc := fun _ _ h => by cases h
  once := fun _ _ _ _ h => by cases h
  idle := fun _ _ => ⟨rfl, rfl, rfl, fun _ h => by cases h⟩
  chan := fun _ _ h => by cases h
  slot := fun _ _ h => by cases h

/-- A request's call is waiting or was answered. -/
theorem ProcOk.outcome {t : Trace E} (h : ProcOk acts p q t) :
    (q.phase ≠ .done ∧ t.call = some ⟨q.req, .waiting⟩ ∧ t.sent = []) ∨
    (q.phase = .done ∧ ∃ msg, t.call = some ⟨q.req, .returned msg.ok msg.reply⟩ ∧ t.sent = [msg] ∧
      (msg.ok = true → q.handler = .finished msg ∧ StillThere acts q.req q.info msg)) := by
  rcases eq_or_ne q.phase .done with hdone | hdone
  · have hphase := h.phase
    rw [hdone] at hphase
    exact Or.inr ⟨hdone, hphase⟩
  · exact Or.inl ⟨hdone, h.waiting hdone⟩

theorem ProcOk.call {t : Trace E} (h : ProcOk acts p q t) :
    ∃ phase, t.call = some ⟨q.req, phase⟩ ∧ phase ≠ .sending := by
  obtain ⟨-, hcall, -⟩ | ⟨-, msg, hcall, -⟩ := h.outcome
  · exact ⟨_, hcall, by simp⟩
  · exact ⟨_, hcall, by simp⟩

theorem Inv.unsent_of_sending (h : Inv acts s) {req : ReqMsg E}
    (hcall : s.calls ch = some ⟨req, .sending⟩) : s.Unsent ch := by
  rintro p q hq rfl
  obtain ⟨phase, hphase, hne⟩ := (h.proc p q hq).call
  simp only [State.trace, hcall, Option.some.injEq, Call.mk.injEq] at hphase
  exact hne hphase.2.symm

theorem Inv.unsent_next (h : Inv acts s) : s.Unsent s.nextCh := by
  intro p q hq heq
  obtain ⟨phase, hphase, -⟩ := (h.proc p q hq).call
  rw [heq] at hphase
  exact Nat.lt_irrefl _ (h.chan _ _ hphase)

/-- A step that touches no channel but one for which no request came in. -/
theorem Inv.quiet (h : Inv acts s) (a : Action E S) (hprocs : s'.procs = s.procs)
    (hslot : s'.nextProc = s.nextProc) (hnext : s.nextCh ≤ s'.nextCh) (hch : s.Unsent ch)
    (hidle : (s'.trace ch).Idle ch) (hchan : ∀ c, s'.calls ch = some c → ch < s'.nextCh)
    (hother : ∀ ch' ≠ ch, s'.trace ch' = s.trace ch') : Inv (acts ++ [a]) s' where
  proc := fun p q hq => by
    rw [hprocs] at hq
    rw [hother _ (hch p q hq)]
    exact (h.proc p q hq).concat a
  once := hprocs ▸ h.once
  idle := fun ch' hunsent => by
    rcases eq_or_ne ch' ch with rfl | heq
    · exact hidle
    · rw [hother ch' heq]
      exact h.idle ch' (fun p q hq => hunsent p q (hprocs ▸ hq))
  chan := fun ch' c hc => by
    rcases eq_or_ne ch' ch with rfl | heq
    · exact hchan c hc
    · have hcall : s'.calls ch' = s.calls ch' := congrArg Trace.call (hother ch' heq)
      exact Nat.lt_of_lt_of_le (h.chan ch' c (hcall ▸ hc)) hnext
  slot := by rw [hprocs, hslot]; exact h.slot

/-- A step that touches no channel. -/
theorem Inv.outside (h : Inv acts s) (a : Action E S) (hprocs : s'.procs = s.procs)
    (hslot : s'.nextProc = s.nextProc) (hnext : s'.nextCh = s.nextCh)
    (htrace : ∀ ch, s'.trace ch = s.trace ch) : Inv (acts ++ [a]) s' := by
  refine h.quiet a hprocs hslot hnext.ge h.unsent_next ?_ (fun c hc => ?_) (fun ch _ => htrace ch)
  · rw [htrace]; exact h.idle _ h.unsent_next
  · have hcall : s'.calls s.nextCh = s.calls s.nextCh := congrArg Trace.call (htrace _)
    exact absurd (h.chan _ c (hcall ▸ hc)) (Nat.lt_irrefl _)

/-- A call moves, before its request is taken. -/
theorem Inv.setCall (h : Inv acts s) (a : Action E S) {c : Call E} {next : ℕ}
    (hch : s.Unsent c.req.replyCh) (hphase : c.phase = .sending ∨ c.phase = .returned false [])
    (hnext : s.nextCh ≤ next) (hlt : c.req.replyCh < next) :
    Inv (acts ++ [a]) { s with
      calls := Function.update s.calls c.req.replyCh (some c), nextCh := next } := by
  obtain ⟨hexecs, hrets, hsent, -⟩ := h.idle _ hch
  refine h.quiet a rfl rfl hnext hch ⟨hexecs, hrets, hsent, fun c' hc => ?_⟩ (fun _ _ => hlt)
    (fun ch' hne => ?_)
  · obtain rfl : c = c' := by simpa [State.trace] using hc
    exact ⟨rfl, hphase⟩
  · simp [State.trace, Function.update_of_ne hne]

/-- A call gives up, the network having been cleaned up. -/
theorem inv_abort (h : Inv acts s) (hstep : step s (.abort ch) = some s') :
    Inv (acts ++ [.abort ch]) s' := by
  simp only [step] at hstep
  split at hstep
  · rename_i req hdone hcall
    have hunsent := h.unsent_of_sending hcall
    obtain rfl : req.replyCh = ch := ((h.idle ch hunsent).2.2.2 _ hcall).1
    cases hstep
    exact h.setCall _ (c := ⟨req, _⟩) hunsent (Or.inr rfl) (Nat.le_refl _) (h.chan _ _ hcall)
  · cases hstep

/-- A step of or for one request, which has its channel for itself. -/
theorem Inv.setProc (h : Inv acts s) (a : Action E S)
    (hprocs : s'.procs = Function.update s.procs p (some q)) (hnext : s'.nextCh = s.nextCh)
    (hslot : s.nextProc ≤ s'.nextProc) (hp : p < s'.nextProc) (hlt : q.req.replyCh < s.nextCh)
    (hown : ∀ p₁ q₁, s.procs p₁ = some q₁ → (p₁ = p ↔ q₁.req.replyCh = q.req.replyCh))
    (hok : ProcOk (acts ++ [a]) p q (s'.trace q.req.replyCh))
    (hother : ∀ ch ≠ q.req.replyCh, s'.trace ch = s.trace ch) : Inv (acts ++ [a]) s' := by
  have hcases : ∀ {p₁ q₁}, s'.procs p₁ = some q₁ →
      (p₁ = p ∧ q₁ = q) ∨ (q₁.req.replyCh ≠ q.req.replyCh ∧ s.procs p₁ = some q₁) := by
    intro p₁ q₁ hq₁
    obtain heq | ⟨hne, hq₁⟩ := update_some (hprocs ▸ hq₁)
    · exact Or.inl heq
    · exact Or.inr ⟨fun heq => hne ((hown p₁ q₁ hq₁).mpr heq), hq₁⟩
  constructor
  case proc =>
    intro p₁ q₁ hq₁
    obtain ⟨rfl, rfl⟩ | ⟨hne, hq₁⟩ := hcases hq₁
    · exact hok
    · rw [hother _ hne]
      exact (h.proc p₁ q₁ hq₁).concat a
  case once =>
    intro p₁ p₂ q₁ q₂ hq₁ hq₂ heq
    obtain ⟨rfl, rfl⟩ | ⟨hne₁, hq₁⟩ := hcases hq₁ <;> obtain ⟨rfl, rfl⟩ | ⟨hne₂, hq₂⟩ := hcases hq₂
    · rfl
    · exact absurd heq.symm hne₂
    · exact absurd heq hne₁
    · exact h.once p₁ p₂ q₁ q₂ hq₁ hq₂ heq
  case idle =>
    intro ch hunsent
    have hne : q.req.replyCh ≠ ch := hunsent p q (by rw [hprocs, Function.update_self])
    rw [hother ch hne.symm]
    refine h.idle ch fun p₁ q₁ hq₁ heq => ?_
    rcases eq_or_ne p₁ p with hp₁ | hp₁
    · exact hne (((hown p₁ q₁ hq₁).mp hp₁).symm.trans heq)
    · exact hunsent p₁ q₁ (by rw [hprocs, Function.update_of_ne hp₁, hq₁]) heq
  case chan =>
    intro ch c hc
    rcases eq_or_ne ch q.req.replyCh with rfl | heq
    · exact hnext ▸ hlt
    · have hcall : s'.calls ch = s.calls ch := congrArg Trace.call (hother ch heq)
      exact hnext ▸ h.chan ch c (hcall ▸ hc)
  case slot =>
    intro p₁ q₁ hq₁
    obtain ⟨rfl, rfl⟩ | ⟨-, hq₁⟩ := hcases hq₁
    · exact hp
    · exact Nat.lt_of_lt_of_le (h.slot p₁ q₁ hq₁) hslot

/-- The dispatcher takes a request and starts to process it. -/
theorem inv_receive (h : Inv acts s) (hstep : step s (.receive ch) = some s') :
    Inv (acts ++ [.receive ch]) s' := by
  simp only [step] at hstep
  split at hstep
  · rename_i req hdispatcher hcall
    have hunsent := h.unsent_of_sending hcall
    obtain ⟨hexecs, hrets, hsent, hreq⟩ := h.idle _ hunsent
    obtain rfl : req.replyCh = ch := (hreq _ hcall).1
    cases hstep
    refine h.setProc _ (q := .new req) rfl rfl (Nat.le_succ _)
      (Nat.lt_succ_self _) (h.chan _ _ hcall) (fun p₁ q₁ hq₁ => ?_) ?_ (fun ch hne => ?_)
    · exact iff_of_false (Nat.ne_of_lt (h.slot p₁ q₁ hq₁)) (hunsent p₁ q₁ hq₁)
    · exact ⟨fun hne => absurd rfl hne, ⟨hexecs, hrets⟩, rfl,
        fun _ => ⟨by simp [State.trace, Proc.new], hsent⟩⟩
    · simp [State.trace, Function.update_of_ne (show ch ≠ req.replyCh from hne)]
  · cases hstep

/-- A goroutine of a request moves. -/
theorem inv_req (hrun : run step start acts = some s) (h : Inv acts s) {act : ReqAct}
    (hstep : step s (.req p act) = some s') : Inv (acts ++ [.req p act]) s' := by
  obtain ⟨q, q', eff, hq, hreq, hprocs, hslot, hnext, hsame, hother⟩ := step_req hstep
  have hreplyCh : q'.req = q.req := (reqStep_stable hreq).1
  have hok := h.proc p q hq
  obtain ⟨phase, hcall, -⟩ := hok.call
  refine h.setProc _ hprocs hnext hslot.ge (hslot ▸ h.slot p q hq) ?_
    (fun p₁ q₁ hq₁ => ?_) ?_ ?_ <;> rw [hreplyCh]
  · exact h.chan _ _ hcall
  · refine ⟨fun hp => ?_, h.once p₁ p q₁ q hq₁ hq⟩
    subst hp
    rw [Option.some.inj (hq₁.symm.trans hq)]
  · rw [hsame]
    exact procOk_step hrun hq hok hreq
  · exact hother

/-- Every action keeps what is known of all requests. -/
theorem inv_step {a : Action E S} (hrun : run step start acts = some s) (h : Inv acts s)
    (hstep : step s a = some s') : Inv (acts ++ [a]) s' := by
  cases a with
  | config op =>
    simp only [step, Option.map_eq_some_iff] at hstep
    obtain ⟨net, -, rfl⟩ := hstep
    exact h.outside _ rfl rfl rfl fun _ => rfl
  | addService server name methods => cases hstep; exact h.outside _ rfl rfl rfl fun _ => rfl
  | call endname svcMeth args =>
    cases hstep
    exact h.setCall _ (c := ⟨⟨endname, svcMeth, args, s.nextCh⟩, .sending⟩)
      h.unsent_next (Or.inl rfl) (Nat.le_succ _) (Nat.lt_succ_self _)
  | receive ch => exact inv_receive h hstep
  | stop =>
    simp only [step, Option.ite_none_right_eq_some] at hstep
    obtain ⟨-, hstep⟩ := hstep
    cases hstep
    exact h.outside _ rfl rfl rfl fun _ => rfl
  | abort ch => exact inv_abort h hstep
  | req p act => exact inv_req hrun h hstep

/-- In any interleaving. -/
theorem inv_run (hrun : run step start acts = some s) : Inv acts s :=
  run_history inv_start (fun _ _ _ _ hrun h hstep => inv_step hrun h hstep) hrun

/-! ### The logs of a channel -/

/-- For one channel a step starts the handler, ends it, or leaves the logs alone. -/
theorem Inv.step_log (h : Inv acts s) {a : Action E S} (hstep : step s a = some s') (ch : ℕ) :
    (entries ch s'.execs = entries ch s.execs ∧ entries ch s'.rets = entries ch s.rets ∧
      ∀ p q reply, a = .req p (.handlerReturns reply) → s.procs p = some q → q.req.replyCh ≠ ch) ∨
    (∃ p q server, a = .req p .exec ∧ s.procs p = some q ∧ q.info.server = some server ∧
      entries ch s.execs = [] ∧ entries ch s.rets = [] ∧
      entries ch s'.execs = [server] ∧ entries ch s'.rets = []) ∨
    ∃ p q reply, a = .req p (.handlerReturns reply) ∧ s.procs p = some q ∧ q.handler = .running ∧
      q.req.replyCh = ch ∧ entries ch s.rets = [] ∧ (∃ server, q.info.server = some server ∧
        entries ch s.execs = [server]) ∧
      entries ch s'.execs = entries ch s.execs ∧ entries ch s'.rets = [reply] := by
  by_cases ha : ∃ p act, a = .req p act
  · obtain ⟨p, act, rfl⟩ := ha
    obtain ⟨q, q', eff, hq, hreq, -, -, -, hsame, hother⟩ := step_req hstep
    rcases eq_or_ne ch q.req.replyCh with rfl | hne
    · have hlog := (h.proc p q hq).handler.log hreq
      rw [← hsame] at hlog
      obtain ⟨hexecs, hrets, hact⟩ | ⟨server, rfl, hserver, hlogs⟩ |
        ⟨reply, rfl, hrunning, hexecuted, hrets, hlogs⟩ := hlog
      · refine Or.inl ⟨hexecs, hrets, fun p₁ q₁ reply heq _ => ?_⟩
        cases heq
        exact absurd rfl (hact reply)
      · exact Or.inr (Or.inl ⟨p, q, server, rfl, hq, hserver, hlogs⟩)
      · exact Or.inr (Or.inr ⟨p, q, reply, rfl, hq, hrunning, rfl, hrets, hexecuted.2, hlogs⟩)
    · have htrace := hother ch hne
      refine Or.inl
        ⟨congrArg Trace.execs htrace, congrArg Trace.rets htrace, fun p₁ q₁ reply heq hq₁ => ?_⟩
      cases heq
      obtain rfl := Option.some.inj (hq.symm.trans hq₁)
      exact hne.symm
  · push Not at ha
    obtain ⟨hexecs, hrets, -⟩ := step_other hstep ha
    exact Or.inl ⟨by rw [hexecs], by rw [hrets], fun p q reply heq => absurd heq (ha p _)⟩

/-! ### Requests that reach no server -/

/-- The request has been read, with this result. -/
def Settled (p : ℕ) (req : ReqMsg E) (info : EndInfo S) (s : State E S) : Prop :=
  p < s.nextProc ∧ ∃ q, s.procs p = some q ∧ q.req = req ∧ q.info = info ∧ q.phase ≠ .start

theorem settled_req {req : ReqMsg E} {info : EndInfo S} {p' : ℕ} {act : ReqAct}
    (h : Settled p req info s) (hstep : step s (.req p' act) = some s') :
    Settled p req info s' := by
  obtain ⟨hp, q, hq, rfl, rfl, hphase⟩ := h
  obtain ⟨q₁, q', eff, hq₁, hreq, hprocs, hslot, -⟩ := step_req hstep
  refine ⟨hslot ▸ hp, ?_⟩
  rcases eq_or_ne p p' with rfl | heq
  · obtain rfl := Option.some.inj (hq.symm.trans hq₁)
    obtain ⟨hsame, hstable⟩ := reqStep_stable hreq
    obtain ⟨hinfo, hstart⟩ := hstable hphase
    exact ⟨q', by rw [hprocs, Function.update_self], hsame, hinfo, hstart⟩
  · exact ⟨q, by rw [hprocs, Function.update_of_ne heq, hq], rfl, rfl, hphase⟩

/-- A request is read once. -/
theorem settled_step {req : ReqMsg E} {info : EndInfo S} {a : Action E S} (h : Settled p req info s)
    (hstep : step s a = some s') : Settled p req info s' := by
  cases a with
  | config op =>
    simp only [step, Option.map_eq_some_iff] at hstep
    obtain ⟨net, -, rfl⟩ := hstep
    exact h
  | addService server name methods => cases hstep; exact h
  | call endname svcMeth args => cases hstep; exact h
  | receive ch =>
    simp only [step] at hstep
    split at hstep
    · cases hstep
      obtain ⟨hp, q, hq, hrest⟩ := h
      exact ⟨Nat.lt_succ_of_lt hp, q, (Function.update_of_ne (Nat.ne_of_lt hp) _ _).trans hq, hrest⟩
    · cases hstep
  | stop =>
    simp only [step, Option.ite_none_right_eq_some] at hstep
    obtain ⟨-, hstep⟩ := hstep
    cases hstep
    exact h
  | abort ch =>
    simp only [step] at hstep
    split at hstep
    · cases hstep; exact h
    · cases hstep
  | req p' act => exact settled_req h hstep

/-- Whatever the request was read as, it stays. -/
theorem settled_of_took (hrun : run step start acts = some s) {req : ReqMsg E}
    {P : EndInfo S → Prop} (htook : Took step start acts (.req p .read) fun s₀ =>
      (∃ q₀, s₀.procs p = some q₀ ∧ q₀.req = req) ∧ P (s₀.net.readEndnameInfo req.endname)) :
    ∃ info, P info ∧ Settled p req info s := by
  obtain ⟨ys, zs, s₀, rfl, hys, ⟨q₀, hq₀, rfl⟩, hP⟩ := htook
  obtain ⟨s₀', hys', hrest⟩ := run_append.mp hrun
  obtain rfl := Option.some.inj (hys.symm.trans hys')
  obtain ⟨s₁, hread, hzs⟩ := run_cons.mp hrest
  refine ⟨_, hP, run_invariant (fun _ _ _ h hstep => settled_step h hstep) ?_ hzs⟩
  obtain ⟨q, q', eff, hq, hreq, hprocs, hslot, -⟩ := step_req hread
  obtain rfl := Option.some.inj (hq₀.symm.trans hq)
  simp only [reqStep, Option.ite_none_right_eq_some] at hreq
  obtain ⟨-, hreq⟩ := hreq
  cases hreq
  refine ⟨hslot ▸ (inv_run hys).slot p q₀ hq, _,
    (congrFun hprocs p).trans (Function.update_self ..), rfl, rfl, ?_⟩
  by_cases hlive : (s₀.net.readEndnameInfo q₀.req.endname).Live <;> simp [hlive]

/-- Without a server a request can only fail. -/
theorem PhaseOk.dead {t : Trace E} {req : ReqMsg E} {info : EndInfo S} (hdead : ¬ info.Live) :
    ∀ {phase}, PhaseOk acts req info .absent t phase → phase ≠ .start → phase ≠ .done →
      phase = .noServer ∨ phase = .timeout ∨ phase = .failing
  | .start, _, hstart, _ => absurd rfl hstart
  | .done, _, _, hdone => absurd rfl hdone
  | .ready, h, _, _ => absurd h.1 hdead
  | .poll, h, _, _ | .check none, h, _, _ => absurd h hdead
  | .check (some _), h, _, _ => by cases h
  | .replying _, h, _, _ | .delayed _, h, _, _ => by cases h.1
  | .noServer, _, _, _ | .timeout, _, _, _ | .failing, _, _, _ => by simp

/-- A request moves on by itself. -/
theorem step_silent {act : ReqAct} {q' : Proc E S} (hq : s.procs p = some q)
    (hreq : reqStep s.net s.services q act = some (q', .silent)) :
    ∃ s', step s (.req p act) = some s' ∧ s'.procs p = some q' ∧ s'.calls = s.calls := by
  rw [step, hq, Option.bind_some, hreq]
  exact ⟨_, rfl, Function.update_self .., rfl⟩

/-- A request that fails sends its reply. -/
theorem failing_run (hq : s.procs p = some q)
    (hcall : s.calls q.req.replyCh = some ⟨q.req, .waiting⟩)
    (hphase : q.phase = .failing) : ∃ s', run step s [.req p .send] = some s' ∧
      s'.calls q.req.replyCh = some ⟨q.req, .returned false []⟩ := by
  have hreq :
      reqStep s.net s.services q .send = some ({ q with phase := .done }, .sends ⟨false, []⟩) := by
    simp only [reqStep, hphase]
  have hstep : step s (.req p .send) = some { s with
      procs := Function.update s.procs p (some { q with phase := .done })
      calls := Function.update s.calls q.req.replyCh (some ⟨q.req, .returned false []⟩)
      sent := s.sent ++ [(q.req.replyCh, ⟨false, []⟩)] } := by
    rw [step, hq, Option.bind_some, hreq, Option.bind_some, State.effect]
    simp only [hcall]
  exact ⟨_, run_cons.mpr ⟨_, hstep, rfl⟩, Function.update_self ..⟩

theorem timeout_run (hq : s.procs p = some q)
    (hcall : s.calls q.req.replyCh = some ⟨q.req, .waiting⟩)
    (hphase : q.phase = .timeout) : ∃ s', run step s [.req p .timer, .req p .send] = some s' ∧
      s'.calls q.req.replyCh = some ⟨q.req, .returned false []⟩ := by
  have hreq : reqStep s.net s.services q .timer = some ({ q with phase := .failing }, .silent) := by
    simp only [reqStep, hphase]
  obtain ⟨s₁, hstep, hq₁, hcalls⟩ := step_silent hq hreq
  obtain ⟨s', hrun, hret⟩ := failing_run hq₁ (hcalls ▸ hcall) rfl
  exact ⟨s', run_cons.mpr ⟨s₁, hstep, hrun⟩, hret⟩

theorem noServer_run (hq : s.procs p = some q)
    (hcall : s.calls q.req.replyCh = some ⟨q.req, .waiting⟩) (hphase : q.phase = .noServer) :
    ∃ s', run step s [.req p .longDelays, .req p .timer, .req p .send] = some s' ∧
      s'.calls q.req.replyCh = some ⟨q.req, .returned false []⟩ := by
  have hreq :
    reqStep s.net s.services q .longDelays = some ({ q with phase := .timeout }, .silent) :=
    if_pos hphase
  obtain ⟨s₁, hstep, hq₁, hcalls⟩ := step_silent hq hreq
  obtain ⟨s', hrun, hret⟩ := timeout_run hq₁ (hcalls ▸ hcall) rfl
  exact ⟨s', run_cons.mpr ⟨s₁, hstep, hrun⟩, hret⟩

/-- What is left to do for a request that fails, and its end. -/
theorem fails_run (hq : s.procs p = some q) (hcall : s.calls q.req.replyCh = some ⟨q.req, .waiting⟩)
    (hphase : q.phase = .noServer ∨ q.phase = .timeout ∨ q.phase = .failing) :
    ∃ rest, rest <:+ [.req p .longDelays, .req p .timer, .req p .send] ∧
      ∃ s', run step s rest = some s' ∧
        s'.calls q.req.replyCh = some ⟨q.req, .returned false []⟩ := by
  rcases hphase with hphase | hphase | hphase
  · exact ⟨_, List.suffix_rfl, noServer_run hq hcall hphase⟩
  · exact ⟨_, List.suffix_cons _ _, timeout_run hq hcall hphase⟩
  · exact ⟨_, (List.suffix_cons _ _).trans (List.suffix_cons _ _), failing_run hq hcall hphase⟩

/-- A request that has reached no server: no execution, and in the end no success. -/
theorem Inv.fails (h : Inv acts s) (hq : s.procs p = some q) (hdead : ¬ q.info.Live)
    (hstart : q.phase ≠ .start) :
    entries q.req.replyCh s.execs = [] ∧
    (∀ c reply, s.calls q.req.replyCh = some c → c.phase ≠ .returned true reply) ∧
    ∃ rest, rest <:+ [.req p .longDelays, .req p .timer, .req p .send] ∧ ∃ s' reply,
      run step s rest = some s' ∧ s'.calls q.req.replyCh = some ⟨q.req, .returned false reply⟩ := by
  have hok := h.proc p q hq
  obtain ⟨habsent, hexecs⟩ := hok.handler.absent_of_not_live hdead
  obtain ⟨hdone, hcall, -⟩ | ⟨-, ⟨ok, bytes⟩, hcall, -, htrue⟩ := hok.outcome
  · have hphase := hok.phase
    rw [habsent] at hphase
    refine ⟨hexecs, fun c reply hc => ?_, ?_⟩
    · obtain rfl := Option.some.inj (hcall.symm.trans hc)
      simp
    · obtain ⟨rest, hrest, s', hrun, hret⟩ := fails_run hq hcall (hphase.dead hdead hstart hdone)
      exact ⟨rest, hrest, s', [], hrun, hret⟩
  · -- an answer that says yes would come from a handler
    obtain rfl : ok = false := by
      cases ok with
      | false => rfl
      | true => rw [habsent] at htrue; cases (htrue rfl).1
    refine ⟨hexecs, fun c reply hc => ?_, [], List.nil_suffix, s, bytes, rfl, hcall⟩
    obtain rfl := Option.some.inj (hcall.symm.trans hc)
    simp

/-! ### At most once -/

/-- The reply is that of the only execution of the request, by the server which had the name of the
    end when the request was read, and still had it, the end enabled, after the handler returned. -/
def Truthful (acts : List (Action E S)) (s : State E S) (req : ReqMsg E)
    (reply : GoString) : Prop :=
  ∃ p name server,
    entries req.replyCh s.execs = [server] ∧ entries req.replyCh s.rets = [reply] ∧
    (Took step start acts (.req p .read) fun s₀ => (∃ q₀, s₀.procs p = some q₀ ∧ q₀.req = req) ∧
      s₀.net.enabled req.endname = true ∧ s₀.net.connections req.endname = some name ∧
      s₀.net.servers (some name) = some server) ∧
    Past step start acts fun s₁ => reply ∈ entries req.replyCh s₁.rets ∧
      s₁.net.enabled req.endname = true ∧ s₁.net.servers (some name) = some server

/-- The end is disabled, or has no server. -/
def Unreachable (n : Network E S) (endname : E) : Prop :=
  n.enabled endname = false ∨ n.connections endname = none ∨
    n.servers (n.connections endname) = none

omit [DecidableEq E] [DecidableEq S] in
theorem not_live_of_unreachable {n : Network E S} {endname : E} (h : Unreachable n endname) :
    ¬ (n.readEndnameInfo endname).Live := by
  rintro ⟨henabled, hname, hserver⟩
  simp only [Network.readEndnameInfo] at henabled hname hserver
  rcases h with h | h | h
  · simp [h] at henabled
  · simp [h] at hname
  · simp [h] at hserver

omit [DecidableEq E] [DecidableEq S] in
/-- What a live reading says. -/
theorem live_readEndnameInfo {n : Network E S} {endname : E}
    (h : (n.readEndnameInfo endname).Live) : ∃ name server, n.enabled endname = true ∧
      n.connections endname = some name ∧ n.servers (some name) = some server ∧
      (n.readEndnameInfo endname).servername = some name ∧
      (n.readEndnameInfo endname).server = some server := by
  obtain ⟨henabled, hname, hserver⟩ := h
  simp only [Network.readEndnameInfo] at henabled hname hserver ⊢
  obtain ⟨name, hname'⟩ := Option.isSome_iff_exists.mp hname
  simp only [hname', Option.isSome_some, if_true] at hserver ⊢
  obtain ⟨server, hserver⟩ := Option.isSome_iff_exists.mp hserver
  exact ⟨name, server, henabled, rfl, hserver, rfl, hserver⟩

/-- A channel is idle, or has its request. -/
theorem Inv.idle_or_proc (h : Inv acts s) (ch : ℕ) : (s.trace ch).Idle ch ∨
    ∃ p q, q.req.replyCh = ch ∧ ProcOk acts p q (s.trace ch) := by
  by_cases hsent : s.Unsent ch
  · exact Or.inl (h.idle ch hsent)
  · simp only [State.Unsent, not_forall, Decidable.not_not] at hsent
    obtain ⟨p, q, hq, rfl⟩ := hsent
    exact Or.inr ⟨p, q, rfl, h.proc p q hq⟩

theorem Inv.execs_le_one (h : Inv acts s) (ch : ℕ) : (entries ch s.execs).length ≤ 1 := by
  obtain ⟨hexecs, -⟩ | ⟨p, q, -, hok⟩ := h.idle_or_proc ch
  · rw [show entries ch s.execs = [] from hexecs]
    exact Nat.zero_le _
  · exact hok.handler.execs_le_one

theorem Inv.execs_of_rets (h : Inv acts s) (hrets : entries ch s.rets ≠ []) :
    entries ch s.execs ≠ [] := by
  obtain ⟨-, hnone, -⟩ | ⟨p, q, -, hok⟩ := h.idle_or_proc ch
  · exact absurd hnone hrets
  · exact hok.handler.execs_of_rets hrets

theorem Inv.sent_cases (h : Inv acts s) (ch : ℕ) : entries ch s.sent = [] ∨
    ∃ msg req, entries ch s.sent = [msg] ∧ req.replyCh = ch ∧
      s.calls ch = some ⟨req, .returned msg.ok msg.reply⟩ := by
  obtain ⟨-, -, hsent, -⟩ | ⟨p, q, hch, hok⟩ := h.idle_or_proc ch
  · exact Or.inl hsent
  · obtain ⟨-, -, hsent⟩ | ⟨-, msg, hcall, hsent, -⟩ := hok.outcome
    · exact Or.inl hsent
    · exact Or.inr ⟨msg, q.req, hsent, hch, hcall⟩

theorem Inv.truthful (h : Inv acts s) {req : ReqMsg E} {reply : GoString}
    (hcall : s.calls ch = some ⟨req, .returned true reply⟩) :
    req.replyCh = ch ∧ Truthful acts s req reply := by
  obtain ⟨-, -, -, hidle⟩ | ⟨p, q, rfl, hok⟩ := h.idle_or_proc ch
  · simpa using (hidle _ hcall).2
  obtain ⟨-, hwaiting, -⟩ | ⟨hdone, ⟨ok, bytes⟩, hret, -, hfin⟩ := hok.outcome
  · simp [State.trace, hcall] at hwaiting
  have hhandler := hok.handler
  simp only [State.trace, hcall, Option.some.injEq, Call.mk.injEq, CallPhase.returned.injEq] at hret
  obtain ⟨rfl, rfl, rfl⟩ := hret
  obtain ⟨hfinished, hthere⟩ := hfin rfl
  rw [hfinished] at hhandler
  obtain ⟨⟨hlive, server, hserver, hexecs⟩, hrets⟩ := hhandler
  obtain ⟨ys, zs, s₀, hacts, hys, hq₀, hinfo⟩ := hok.read (by simp [hdone])
  rw [hinfo] at hlive hserver
  obtain ⟨name, server', henabled, hname, hserver₀, hinfoName, hinfoServer⟩ :=
    live_readEndnameInfo hlive
  obtain rfl := Option.some.inj (hserver.symm.trans hinfoServer)
  refine ⟨rfl, p, name, server, hexecs, hrets,
    ⟨ys, zs, s₀, hacts, hys, hq₀, henabled, hname, hserver₀⟩, ?_⟩
  simpa only [StillThere, hinfo, hinfoName, hinfoServer] using hthere

/-- CORRECT: at most one execution of a handler and at most one reply per call, in any interleaving.
    The reply goes to the call it is for; a call that returns true is truthful; a call whose end was
    disabled, or without a server, when its request was read, is not executed, has not returned
    true, and what is left to do for it makes it return false. -/
theorem call_at_most_once (hrun : run step start acts = some s) :
    (∀ ch, (entries ch s.execs).length ≤ 1 ∧ (entries ch s.sent).length ≤ 1) ∧
    (∀ ch msg, msg ∈ entries ch s.sent →
      ∃ req, req.replyCh = ch ∧ s.calls ch = some ⟨req, .returned msg.ok msg.reply⟩) ∧
    (∀ ch req reply, s.calls ch = some ⟨req, .returned true reply⟩ →
      req.replyCh = ch ∧ Truthful acts s req reply) ∧
    ∀ p req,
      (Took step start acts (.req p .read) fun s₀ => (∃ q₀, s₀.procs p = some q₀ ∧ q₀.req = req) ∧
        Unreachable s₀.net req.endname) →
      entries req.replyCh s.execs = [] ∧
      (∀ c reply, s.calls req.replyCh = some c → c.phase ≠ .returned true reply) ∧
      ∃ rest, rest <:+ [.req p .longDelays, .req p .timer, .req p .send] ∧ ∃ s' reply,
        run step s rest = some s' ∧ s'.calls req.replyCh = some ⟨req, .returned false reply⟩ := by
  have h := inv_run hrun
  refine ⟨fun ch => ⟨h.execs_le_one ch, ?_⟩, fun ch msg hmsg => ?_,
    fun ch req reply hcall => h.truthful hcall, fun p req htook => ?_⟩
  · obtain hsent | ⟨msg, req, hsent, -⟩ := h.sent_cases ch <;> simp [hsent]
  · obtain hsent | ⟨msg', req, hsent, hreq, hcall⟩ := h.sent_cases ch
    · simp [hsent] at hmsg
    · rw [hsent, List.mem_singleton] at hmsg
      exact ⟨req, hreq, hmsg ▸ hcall⟩
  · obtain ⟨info, hinfo, -, q, hq, rfl, rfl, hstart⟩ :=
      settled_of_took (P := fun info => ¬ info.Live) hrun
      (htook.imp fun _ h => ⟨h.1, not_live_of_unreachable h.2⟩)
    exact h.fails hq hinfo hstart

end

/-- End 0 is connected to server object 1 under the name 7; it is disabled before the second call is
    read, and the server is deleted after the first one was answered. -/
def echoRun : List (Action ℕ ℕ) :=
  [.config (.makeEnd 0), .config (.connect 0 (some 7)), .config (.addServer (some 7) (some 1)),
    .addService 1 [0x53] [[0x4D]], .config (.enable 0 true), .config (.longReordering true),
    .call 0 [0x53, 0x2E, 0x4D] [1, 2], .call 0 [0x53, 0x2E, 0x4D] [3], .receive 1, .receive 0,
    .req 1 .read, .req 1 (.launch true), .req 1 .exec, .config (.enable 0 false), .req 0 .read,
    .req 1 (.handlerReturns [1, 2]), .config (.enable 0 true), .req 1 .pollReply,
    .req 1 (.lastCheck true true), .config (.deleteServer (some 7)), .req 1 .timer, .req 1 .send,
    .req 0 .longDelays, .config .cleanup]

theorem call_at_most_once_echo :
    ∃ s, run step start echoRun = some s ∧
      Truthful echoRun s ⟨0, [0x53, 0x2E, 0x4D], [1, 2], 0⟩ [1, 2] ∧ entries 1 s.execs = [] := by
  obtain ⟨s, hrun⟩ : ∃ s, run step start echoRun = some s := ⟨_, rfl⟩
  have hcall : ((run step start echoRun).bind fun s => s.calls 0) =
    some ⟨⟨0, [0x53, 0x2E, 0x4D], [1, 2], 0⟩, .returned true [1, 2]⟩ := rfl
  rw [hrun] at hcall
  obtain ⟨-, -, htrue, hdead⟩ := call_at_most_once hrun
  refine ⟨s, hrun, (htrue 0 _ _ hcall).2, (hdead 0 ⟨0, [0x53, 0x2E, 0x4D], [3], 1⟩ ?_).1⟩
  exact ⟨echoRun.take 14, echoRun.drop 15, _, rfl, rfl, ⟨_, rfl, rfl⟩, Or.inl rfl⟩

end DistSys.LabRpc
