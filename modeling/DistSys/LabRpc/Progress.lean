import DistSys.LabRpc.Calls

/-! @go labrpc/labrpc.go | name:ClientEnd.Call, Network.processReq | scheme:machine | invariant:rank

    Every call returns, except if the handler on the server does not return. Each step that is taken
    for a call, except for a poll, brings its end closer; no step of anybody else moves it away; and
    until the call has returned there is such a step to be taken, or its handler is running.

        sending  start  ready  poll + handler  check  delayed, timeout  failing, replying  done
          10       9      8       4 + 3 2 1      3           2                  1            0

    What is assumed is that a goroutine of the network that can go on goes on in the end, and that
    the servers know the methods they are called with. That handlers return is an assumption of its
    own. -/

namespace DistSys.LabRpc
open Machine (run run_cons run_append run_history run_invariant)

variable {E S : Type}

/-! ### The rank of a request -/

def Handler.rank : Handler → ℕ
  | .absent | .finished _ => 0
  | .spawned => 3
  | .running => 2
  | .returned _ => 1

def ReqPhase.rank : ReqPhase → ℕ
  | .start => 9
  | .ready => 8
  | .poll => 4
  | .check _ | .noServer => 3
  | .delayed _ | .timeout => 2
  | .failing | .replying _ => 1
  | .done => 0

def Proc.rank (q : Proc E S) : ℕ := q.phase.rank + q.handler.rank

/-- A request moves towards its end; only a poll may leave it where it is. -/
theorem reqStep_rank {n : Network E S} {services : Services} {q q' : Proc E S}
    {act : ReqAct} {eff : Effect} (h : reqStep n services q act = some (q', eff)) :
    q'.rank ≤ q.rank ∧ (act ≠ .pollTimeout → q'.rank < q.rank) := by
  unfold reqStep at h
  repeat' split at h
  all_goals cases h
  all_goals simp_all [Proc.rank, ReqPhase.rank, Handler.rank]
  -- the request is read, or its handler is launched
  · by_cases hlive : (n.readEndnameInfo q.req.endname).Live <;> simp [hlive]
  · omega

/-- While `processReq` polls, its handler is on its way and nobody else reads the channel. -/
structure Proc.Polls (q : Proc E S) : Prop where
  undrained : q.phase = .start ∨ q.phase = .ready ∨ q.phase = .poll → q.drain = false
  busy : q.phase = .poll → q.handler.Busy

theorem reqStep_polls {n : Network E S} {services : Services} {q q' : Proc E S}
    {act : ReqAct} {eff : Effect} (hq : q.Polls)
    (h : reqStep n services q act = some (q', eff)) : q'.Polls := by
  obtain ⟨hdrain, hbusy⟩ := hq
  unfold reqStep at h
  repeat' split at h
  all_goals cases h
  all_goals constructor
  all_goals simp_all [Handler.Busy]
  split <;> simp

/-! ### The rank of a call -/

/-- What the requests of a channel have before them. -/
def State.pending (s : State E S) (ch : ℕ) : ℕ :=
  total (fun q : Proc E S => if q.req.replyCh = ch then q.rank else 0) s.procs s.nextProc

def CallPhase.rank : CallPhase → ℕ
  | .sending => 10
  | .waiting | .returned _ _ => 0

/-- What there is to do for a call. -/
def State.remaining (s : State E S) (ch : ℕ) : ℕ :=
  (s.calls ch).elim 0 (·.phase.rank) + s.pending ch

/-- The handler of a request returns: a step of the server, not of the network. -/
def Action.ofHandler : Action E S → Bool
  | .req _ (.handlerReturns _) => true
  | _ => false

/-- A step for a call, other than a poll. -/
inductive Advances (ch : ℕ) (s : State E S) : Action E S → Prop where
  | receive : Advances ch s (.receive ch)
  | abort : Advances ch s (.abort ch)
  | req {p : ℕ} {q : Proc E S} {act : ReqAct} (hq : s.procs p = some q) (hch : q.req.replyCh = ch)
      (hact : act ≠ .pollTimeout) : Advances ch s (.req p act)

theorem pending_unsent {s : State E S} {ch : ℕ} (h : s.Unsent ch) : s.pending ch = 0 :=
  total_eq_zero fun p q hq => if_neg (h p q hq)

/-- The requests are where they can go on, and the dispatcher stops only after a cleanup. -/
structure Alive (s : State E S) : Prop where
  polls : ∀ p q, s.procs p = some q → q.Polls
  stopped : s.dispatcher = false → s.net.done = true

theorem alive_start : Alive (start : State E S) where
  polls := fun _ _ h => by cases h
  stopped := fun h => by cases h

theorem effect_stopped {s s' : State E S} {ch : ℕ} {eff : Effect} (h : s.effect ch eff = some s') :
    s'.dispatcher = s.dispatcher ∧ s'.net.done = s.net.done := by
  cases eff with
  | sends msg =>
    simp only [State.effect] at h
    split at h <;> cases h
    exact ⟨rfl, rfl⟩
  | silent | executes server | yields reply | transmits size => cases h; exact ⟨rfl, rfl⟩

/-- A waiting call can always be replied to. -/
theorem effect_waiting {s : State E S} {ch : ℕ} {req : ReqMsg E}
    (h : s.calls ch = some ⟨req, .waiting⟩) (eff : Effect) :
    ∃ s', s.effect ch eff = some s' := by
  cases eff with
  | sends msg => exact ⟨_, by simp only [State.effect, h]; rfl⟩
  | silent | executes server | yields reply | transmits size => exact ⟨_, rfl⟩

section
variable [DecidableEq E] [DecidableEq S] {acts : List (Action E S)} {s s' : State E S}
  {ch : ℕ} {a : Action E S}

/-- A sum over all requests changes by what changes in one. -/
theorem total_req (f : Proc E S → ℕ) {p : ℕ} {act : ReqAct} (h : Inv acts s)
    (hstep : step s (.req p act) = some s') :
    ∃ q q' eff, s.procs p = some q ∧ reqStep s.net s.services q act = some (q', eff) ∧
      total f s'.procs s'.nextProc + f q = total f s.procs s.nextProc + f q' := by
  obtain ⟨q, q', eff, hq, hreq, hprocs, hslot, -⟩ := step_req hstep
  refine ⟨q, q', eff, hq, hreq, ?_⟩
  rw [hprocs, hslot]
  exact total_replace (h.slot p q hq) hq

theorem pending_req {p : ℕ} {act : ReqAct} (h : Inv acts s)
    (hstep : step s (.req p act) = some s') : s'.pending ch ≤ s.pending ch ∧
      (Advances ch s (.req p act) → s'.pending ch < s.pending ch) := by
  obtain ⟨q, q', eff, hq, hreq, htotal⟩ :=
    total_req (fun q => if q.req.replyCh = ch then q.rank else 0) h hstep
  obtain ⟨hle, hlt⟩ := reqStep_rank hreq
  rw [(reqStep_stable hreq).1] at htotal
  simp only [State.pending]
  constructor
  · split at htotal <;> omega
  · rintro (_ | _ | ⟨hq₁, hch, hact⟩)
    obtain rfl := Option.some.inj (hq.symm.trans hq₁)
    have := hlt hact
    rw [if_pos hch, if_pos hch] at htotal
    omega

/-- A step of a request leaves a call alone, or lets it return. -/
theorem calls_req {p : ℕ} {act : ReqAct} {c : Call E} (hstep : step s (.req p act) = some s')
    (hc : s.calls ch = some c) : ∃ phase, s'.calls ch = some ⟨c.req, phase⟩ ∧
      phase.rank ≤ c.phase.rank := by
  obtain ⟨q, q', eff, -, -, -, -, -, hsame, hother⟩ := step_req hstep
  rcases eq_or_ne ch q.req.replyCh with rfl | hne
  · have hcall := congrArg Trace.call hsame
    cases eff with
    | sends msg =>
      refine ⟨.returned msg.ok msg.reply, ?_, Nat.zero_le _⟩
      simpa [Trace.effect, State.trace, hc] using hcall
    | silent | executes server | yields reply | transmits size =>
      exact ⟨c.phase, hcall.trans hc, Nat.le_refl _⟩
  · exact ⟨c.phase, (congrArg Trace.call (hother ch hne)).trans hc, Nat.le_refl _⟩

/-- The dispatcher takes a request. -/
theorem receive_cases (h : Inv acts s) (hstep : step s (.receive ch) = some s') :
    ∃ req, s.calls ch = some ⟨req, .sending⟩ ∧ req.replyCh = ch ∧ s.pending ch = 0 ∧
      s' = { s with
        net := { s.net with
          count := s.net.count + 1
          bytes := s.net.bytes + BitVec.ofNat 64 req.args.length }
        calls := Function.update s.calls ch (some ⟨req, .waiting⟩)
        procs := Function.update s.procs s.nextProc (some (.new req))
        nextProc := s.nextProc + 1 } := by
  simp only [step] at hstep
  split at hstep
  · rename_i req hdispatcher hcall
    have hunsent := h.unsent_of_sending hcall
    exact ⟨req, hcall, ((h.idle ch hunsent).2.2.2 _ hcall).1, pending_unsent hunsent,
      (Option.some.inj hstep).symm⟩
  · cases hstep

theorem abort_cases (h : Inv acts s) (hstep : step s (.abort ch) = some s') :
    ∃ req, s.calls ch = some ⟨req, .sending⟩ ∧ s.pending ch = 0 ∧
      s' = { s with calls := Function.update s.calls ch (some ⟨req, .returned false []⟩) } := by
  simp only [step] at hstep
  split at hstep
  · rename_i req hdone hcall
    exact ⟨req, hcall, pending_unsent (h.unsent_of_sending hcall), (Option.some.inj hstep).symm⟩
  · cases hstep

/-- A call stays, and what there is to do for it does not grow; a step for it makes it less. -/
theorem remaining_step {c : Call E} (h : Inv acts s) (hstep : step s a = some s')
    (hc : s.calls ch = some c) : (∃ phase, s'.calls ch = some ⟨c.req, phase⟩) ∧
      s'.remaining ch ≤ s.remaining ch ∧ (Advances ch s a → s'.remaining ch < s.remaining ch) := by
  suffices hphase : ∃ phase, s'.calls ch = some ⟨c.req, phase⟩ ∧
      phase.rank + s'.pending ch ≤ c.phase.rank + s.pending ch ∧
      (Advances ch s a → phase.rank + s'.pending ch < c.phase.rank + s.pending ch) by
    obtain ⟨phase, hs', hle, hlt⟩ := hphase
    simp only [State.remaining, hc, hs', Option.elim_some]
    exact ⟨⟨phase, rfl⟩, hle, hlt⟩
  have hsame : s'.calls ch = s.calls ch → s'.pending ch = s.pending ch → ¬ Advances ch s a →
      ∃ phase, s'.calls ch = some ⟨c.req, phase⟩ ∧
        phase.rank + s'.pending ch ≤ c.phase.rank + s.pending ch ∧
        (Advances ch s a → phase.rank + s'.pending ch < c.phase.rank + s.pending ch) := by
    intro hcalls hpending hnot
    exact ⟨c.phase, hcalls.trans hc, by rw [hpending], fun ha => absurd ha hnot⟩
  cases a with
  | config op =>
    simp only [step, Option.map_eq_some_iff] at hstep
    obtain ⟨net, -, rfl⟩ := hstep
    exact hsame rfl rfl (by rintro ⟨⟩)
  | addService server name methods =>
    cases hstep
    exact hsame rfl rfl (by rintro ⟨⟩)
  | stop =>
    simp only [step, Option.ite_none_right_eq_some] at hstep
    obtain ⟨-, hstep⟩ := hstep
    cases hstep
    exact hsame rfl rfl (by rintro ⟨⟩)
  | call endname svcMeth args =>
    cases hstep
    exact hsame (Function.update_of_ne (h.chan ch c hc).ne _ _) rfl (by rintro ⟨⟩)
  | receive ch' =>
    obtain ⟨req, hcall, rfl, hpending, hs'⟩ := receive_cases h hstep
    have htotal : s'.pending ch = s.pending ch + if req.replyCh = ch then 9 else 0 := by
      rw [hs']
      exact total_concat
    have hcalls : s'.calls = Function.update s.calls req.replyCh (some ⟨req, .waiting⟩) := by
      rw [hs']
    rcases eq_or_ne req.replyCh ch with rfl | hne
    · obtain rfl := Option.some.inj (hc.symm.trans hcall)
      rw [if_pos rfl, hpending] at htotal
      refine ⟨.waiting, by rw [hcalls, Function.update_self], ?_⟩
      simp [htotal, hpending, CallPhase.rank]
    · refine hsame (by rw [hcalls, Function.update_of_ne hne.symm])
        (by rw [htotal, if_neg hne, Nat.add_zero]) ?_
      rintro ⟨⟩
      exact hne rfl
  | abort ch' =>
    obtain ⟨req, hcall, hpending, hs'⟩ := abort_cases h hstep
    have htotal : s'.pending ch = s.pending ch := by rw [hs']; rfl
    have hcalls : s'.calls = Function.update s.calls ch' (some ⟨req, .returned false []⟩) := by
      rw [hs']
    rcases eq_or_ne ch' ch with rfl | hne
    · obtain rfl := Option.some.inj (hc.symm.trans hcall)
      refine ⟨.returned false [], by rw [hcalls, Function.update_self], ?_⟩
      simp [htotal, hpending, CallPhase.rank]
    · refine hsame (by rw [hcalls, Function.update_of_ne hne.symm]) htotal ?_
      rintro ⟨⟩
      exact hne rfl
  | req p act =>
    obtain ⟨phase, hphase, hrank⟩ := calls_req hstep hc
    obtain ⟨hle, hlt⟩ : s'.pending ch ≤ s.pending ch ∧
        (Advances ch s (.req p act) → s'.pending ch < s.pending ch) := pending_req h hstep
    refine ⟨phase, hphase, by omega, fun ha => ?_⟩
    have := hlt ha
    omega

/-! ### Nothing is stuck -/

theorem config_done {n n' : Network E S} {op : NetOp E S} (h : n.config op = some n')
    (hdone : n.done = true) : n'.done = true := by
  cases op with
  | makeEnd e | deleteEnd e =>
    simp only [Network.config] at h
    split at h <;> cases h
    exact hdone
  | cleanup =>
    rw [Network.config, if_pos hdone] at h
    cases h
  | enable e b | connect e name | addServer name server | deleteServer name
  | reliable b | longReordering b | longDelays b =>
    cases h
    exact hdone

theorem alive_step (s : State E S) (a : Action E S) (s' : State E S) (h : Alive s)
    (hstep : step s a = some s') : Alive s' := by
  cases a with
  | config op =>
    simp only [step, Option.map_eq_some_iff] at hstep
    obtain ⟨net, hnet, rfl⟩ := hstep
    exact ⟨h.polls, fun hstop => config_done hnet (h.stopped hstop)⟩
  | addService server name methods | call endname svcMeth args =>
    cases hstep
    exact ⟨h.polls, h.stopped⟩
  | receive ch =>
    simp only [step] at hstep
    split at hstep <;> cases hstep
    refine ⟨fun p q hq => ?_, h.stopped⟩
    obtain ⟨-, rfl⟩ | ⟨-, hq⟩ := update_some hq
    · exact ⟨fun _ => rfl, fun hpoll => by cases hpoll⟩
    · exact h.polls p q hq
  | stop =>
    simp only [step, Option.ite_none_right_eq_some] at hstep
    obtain ⟨hdone, hstep⟩ := hstep
    cases hstep
    exact ⟨h.polls, fun _ => hdone⟩
  | abort ch =>
    simp only [step] at hstep
    split at hstep <;> cases hstep
    exact ⟨h.polls, h.stopped⟩
  | req p act =>
    obtain ⟨q, q', eff, hq, hreq, hprocs, -⟩ := step_req hstep
    simp only [step, Option.bind_eq_some_iff] at hstep
    obtain ⟨_, -, _, -, heff⟩ := hstep
    obtain ⟨hdispatcher, hdone⟩ := effect_stopped heff
    refine ⟨fun p' q₁ hq₁ => ?_,
      fun hstop => hdone.trans (h.stopped (hdispatcher.symm.trans hstop))⟩
    rw [hprocs] at hq₁
    obtain ⟨-, rfl⟩ | ⟨-, hq₁⟩ := update_some hq₁
    · exact reqStep_polls (h.polls p q hq) hreq
    · exact h.polls p' q₁ hq₁

/-- A request whose call waits can go on, if its server knows the method, unless its handler is
    running. -/
theorem exists_reqStep {n : Network E S} {services : Services} {p : ℕ} {q : Proc E S} {t : Trace E}
    (hok : ProcOk acts p q t) (hpolls : q.Polls) (hdone : q.phase ≠ .done)
    (hrunning : q.handler ≠ .running)
    (hknown : ∀ server, q.info.server = some server → services.has server q.req.svcMeth = true) :
    ∃ act r, act ≠ .pollTimeout ∧ (Action.req p act : Action E S).ofHandler = false ∧
      reqStep n services q act = some r := by
  cases hphase : q.phase with
  | start => exact ⟨.read, _, by simp, rfl, if_pos hphase⟩
  | ready => exact ⟨.launch false, _, by simp, rfl, by simp [reqStep, hphase]; rfl⟩
  | poll =>
    cases hhandler : q.handler with
    | spawned =>
      have hlive : q.info.Live := by simpa [hphase, PhaseOk] using hok.phase
      obtain ⟨server, hserver⟩ := Option.isSome_iff_exists.mp hlive.2.2
      exact ⟨.exec, _, by simp, rfl,
        by simp [reqStep, hhandler, hserver, hknown server hserver]; rfl⟩
    | running => exact absurd hhandler hrunning
    | returned reply =>
      exact ⟨.pollReply, _, by simp, rfl, by simp [reqStep, hphase, hhandler]; rfl⟩
    | absent | finished reply =>
      have hbusy := hpolls.busy hphase
      rw [hhandler] at hbusy
      exact hbusy.elim
  | check reply =>
    cases reply with
    | none => exact ⟨.lastCheck false false, _, by simp, rfl, by simp only [reqStep, hphase]; rfl⟩
    | some reply =>
      by_cases hdead : n.isServerDead q.req.endname q.info.servername q.info.server = true
      · exact ⟨.lastCheck false false, _, by simp, rfl,
          by simp only [reqStep, hphase, if_pos hdead]; rfl⟩
      · exact ⟨.lastCheck false false, _, by simp, rfl, by simp [reqStep, hphase, hdead]; rfl⟩
  | failing | replying reply => exact ⟨.send, _, by simp, rfl, by simp only [reqStep, hphase]; rfl⟩
  | delayed reply | timeout => exact ⟨.timer, _, by simp, rfl, by simp only [reqStep, hphase]; rfl⟩
  | noServer => exact ⟨.longDelays, _, by simp, rfl, if_pos hphase⟩
  | done => exact absurd hphase hdone

/-- The handler of a request of the channel is running. -/
def State.Handling (s : State E S) (ch p : ℕ) : Prop :=
  ∃ q, s.procs p = some q ∧ q.req.replyCh = ch ∧ q.handler = .running

/-- Until a call has returned the network has a step to take for it, or its handler is running. -/
theorem exists_advances (h : Inv acts s) (halive : Alive s) {c : Call E} (hc : s.calls ch = some c)
    (hret : ∀ ok reply, c.phase ≠ .returned ok reply)
    (hknown : ∀ p q server, s.procs p = some q → q.info.server = some server →
      s.services.has server q.req.svcMeth = true) :
    (∃ a s', Advances ch s a ∧ a.ofHandler = false ∧ step s a = some s') ∨
      ∃ p, s.Handling ch p := by
  obtain ⟨req, phase⟩ := c
  cases phase with
  | returned ok reply => exact absurd rfl (hret ok reply)
  | sending =>
    cases hdispatcher : s.dispatcher with
    | true =>
      exact Or.inl ⟨.receive ch, _, .receive, rfl, by simp only [step, hdispatcher, hc]; rfl⟩
    | false =>
      exact Or.inl
        ⟨.abort ch, _, .abort, rfl, by simp only [step, halive.stopped hdispatcher, hc]; rfl⟩
  | waiting =>
    by_cases hunsent : s.Unsent ch
    · simpa using ((h.idle ch hunsent).2.2.2 _ hc).2
    · simp only [State.Unsent, not_forall, Decidable.not_not] at hunsent
      obtain ⟨p, q, hq, rfl⟩ := hunsent
      have hok := h.proc p q hq
      have hdone : q.phase ≠ .done := by
        intro hdone
        obtain ⟨hopen, -⟩ | ⟨-, msg, hcall, -⟩ := hok.outcome
        · exact hopen hdone
        · cases hcall.symm.trans hc
      by_cases hrunning : q.handler = .running
      · exact Or.inr ⟨p, q, hq, rfl, hrunning⟩
      obtain ⟨act, r, hact, hnet, hreq⟩ := exists_reqStep (n := s.net) hok (halive.polls p q hq)
        hdone hrunning fun server => hknown p q server hq
      obtain ⟨s', hs'⟩ :=
        effect_waiting (s := { s with procs := Function.update s.procs p (some r.1) }) hc r.2
      refine Or.inl ⟨.req p act, s', .req hq rfl hact, hnet, ?_⟩
      rw [step, hq, Option.bind_some, hreq, Option.bind_some, hs']

/-! ### Executions without end -/

/-- If from some time on the network always has a step to take for a call, one is taken for it. -/
def Fair (σ : ℕ → State E S) (act : ℕ → Action E S) : Prop :=
  ∀ ch n, (∀ m, n ≤ m →
      ∃ a s', Advances ch (σ m) a ∧ a.ofHandler = false ∧ step (σ m) a = some s') →
    ∃ m, n ≤ m ∧ Advances ch (σ m) (act m)

/-- A handler that is running returns in the end. -/
def HandlersReturn (σ : ℕ → State E S) (act : ℕ → Action E S) : Prop :=
  ∀ n p q, (σ n).procs p = some q → q.handler = .running →
    ∃ m reply, n ≤ m ∧ act m = .req p (.handlerReturns reply)

section executions
variable {σ : ℕ → State E S} {act : ℕ → Action E S}

theorem inv_execution (hstart : σ 0 = start)
    (hstep : ∀ n, step (σ n) (act n) = some (σ (n + 1))) (n : ℕ) :
    Inv ((List.range n).map act) (σ n) ∧ Alive (σ n) := by
  have hrun := Machine.run_range hstep n
  rw [hstart] at hrun
  exact ⟨inv_run hrun, run_invariant alive_step alive_start hrun⟩

/-- What there is to do for a call never grows. -/
theorem remaining_execution (hstart : σ 0 = start)
    (hstep : ∀ n, step (σ n) (act n) = some (σ (n + 1)))
    {n m : ℕ} (hle : n ≤ m) {c : Call E} (hc : (σ n).calls ch = some c) :
    (∃ phase, (σ m).calls ch = some ⟨c.req, phase⟩) ∧ (σ m).remaining ch ≤ (σ n).remaining ch := by
  induction m, hle using Nat.le_induction with
  | base => exact ⟨⟨c.phase, hc⟩, Nat.le_refl _⟩
  | succ m hle ih =>
    obtain ⟨⟨phase, hphase⟩, hrem⟩ := ih
    obtain ⟨hcall, hstep, -⟩ := remaining_step (inv_execution hstart hstep m).1 (hstep m) hphase
    exact ⟨hcall, hstep.trans hrem⟩

/-- A handler that returns does so for the call that it is running for. -/
theorem advances_handler (hstart : σ 0 = start) (hstep : ∀ n, step (σ n) (act n) = some (σ (n + 1)))
    (hhandlers : HandlersReturn σ act) {n p : ℕ} (h : (σ n).Handling ch p) :
    ∃ m, n ≤ m ∧ Advances ch (σ m) (act m) := by
  obtain ⟨q, hq, rfl, hrunning⟩ := h
  have hinv := (inv_execution hstart hstep n).1
  have hread : q.phase ≠ .start := by
    intro hphase
    have habsent := (hinv.proc p q hq).phase
    rw [hphase] at habsent
    cases hrunning.symm.trans habsent
  have hsettled : ∀ m, n ≤ m → Settled p q.req q.info (σ m) := by
    intro m hle
    induction m, hle using Nat.le_induction with
    | base => exact ⟨hinv.slot p q hq, q, hq, rfl, rfl, hread⟩
    | succ m hle ih => exact settled_step ih (hstep m)
  obtain ⟨m, reply, hle, hact⟩ := hhandlers n p q hq hrunning
  obtain ⟨-, q', hq', hreq, -⟩ := hsettled m hle
  exact ⟨m, hle, hact ▸ .req hq' (by rw [hreq]) (by simp)⟩

/-- CORRECT: in every fair execution in which handlers return, whatever else happens on the network,
    each call returns, if servers that are sent a request know its method. -/
theorem every_call_returns (hstart : σ 0 = start)
    (hstep : ∀ n, step (σ n) (act n) = some (σ (n + 1)))
    (hfair : Fair σ act) (hhandlers : HandlersReturn σ act)
    (hknown : ∀ n p q server, (σ n).procs p = some q → q.info.server = some server →
      (σ n).services.has server q.req.svcMeth = true)
    (n ch : ℕ) (c : Call E) (hc : (σ n).calls ch = some c) :
    ∃ m, n ≤ m ∧ ∃ ok reply, (σ m).calls ch = some ⟨c.req, .returned ok reply⟩ := by
  -- by induction on what there is to do for the call
  induction hk : (σ n).remaining ch using Nat.strong_induction_on generalizing n c with
  | _ k ih =>
    by_contra hnever
    push Not at hnever
    have hgoes : ∀ m, n ≤ m → (∃ a s', Advances ch (σ m) a ∧ a.ofHandler = false ∧
        step (σ m) a = some s') ∨ ∃ p, (σ m).Handling ch p := by
      intro m hle
      obtain ⟨⟨phase, hphase⟩, -⟩ := remaining_execution hstart hstep hle hc
      obtain ⟨hinv, halive⟩ := inv_execution hstart hstep m
      refine exists_advances hinv halive hphase ?_ (hknown m)
      rintro ok reply rfl
      exact hnever m hle ok reply hphase
    -- the network always has a step to take, or at some time it waits for the handler
    obtain ⟨m, hle, hadv⟩ : ∃ m, n ≤ m ∧ Advances ch (σ m) (act m) := by
      by_cases hnet : ∃ m, n ≤ m ∧ ∃ p, (σ m).Handling ch p
      · obtain ⟨m, hle, p, hp⟩ := hnet
        obtain ⟨m', hle', hadv⟩ := advances_handler hstart hstep hhandlers hp
        exact ⟨m', hle.trans hle', hadv⟩
      · push Not at hnet
        refine hfair ch n fun m hle => (hgoes m hle).resolve_right ?_
        rintro ⟨p, hp⟩
        exact hnet m hle p hp
    obtain ⟨⟨phase, hphase⟩, hrem⟩ := remaining_execution hstart hstep hle hc
    obtain ⟨⟨phase', hphase'⟩, -, hlt⟩ :=
      remaining_step (inv_execution hstart hstep m).1 (hstep m) hphase
    have hless : (σ (m + 1)).remaining ch < k := (hlt hadv).trans_le (hk ▸ hrem)
    obtain ⟨m', hle', ok, reply, hret⟩ := ih _ hless (m + 1) _ hphase' rfl
    exact hnever m' (by omega) ok reply hret

end executions

end

/-- End 0 is connected to server object 1 under the name 7. One call reaches the server, its
    handler runs and returns, and after the reply there is nothing but one call to `Reliable` after
    another. -/
def servedActs : ℕ → Action ℕ ℕ
  | 0 => .config (.makeEnd 0)
  | 1 => .config (.connect 0 (some 7))
  | 2 => .config (.addServer (some 7) (some 1))
  | 3 => .addService 1 [0x53] [[0x4D]]
  | 4 => .config (.enable 0 true)
  | 5 => .call 0 [0x53, 0x2E, 0x4D] [1]
  | 6 => .receive 0
  | 7 => .req 0 .read
  | 8 => .req 0 (.launch false)
  | 9 => .req 0 .exec
  | 10 => .req 0 .pollTimeout
  | 11 => .req 0 (.handlerReturns [2])
  | 12 => .req 0 .pollReply
  | 13 => .req 0 (.lastCheck false false)
  | 14 => .req 0 .send
  | _ => .config (.reliable true)

def served : ℕ → State ℕ ℕ
  | 0 => start
  | n + 1 => (step (served n) (servedActs n)).getD (served n)

theorem served_step : ∀ n, step (served n) (servedActs n) = some (served (n + 1))
  | 0 | 1 | 2 | 3 | 4 | 5 | 6 | 7 | 8 | 9 | 10 | 11 | 12 | 13 | 14 => rfl
  | _ + 15 => rfl

theorem step_reliable [DecidableEq E] [DecidableEq S] {s : State E S} (h : s.net.reliable = true) :
    step s (.config (.reliable true)) = some s := by
  rcases s with ⟨net, _⟩
  rcases net with ⟨reliable, _⟩
  obtain rfl : reliable = true := h
  rfl

theorem served_done (n : ℕ) : served (n + 15) = served 15 := by
  induction n with
  | zero => rfl
  | succ n ih =>
    have hstep := served_step (n + 15)
    rw [ih, show servedActs (n + 15) = .config (.reliable true) from rfl,
      step_reliable rfl] at hstep
    exact (Option.some.inj hstep).symm

/-- There is one request. Its server knows the method, and its handler runs until it returns. -/
theorem served_procs : ∀ n p q, (served n).procs p = some q → p = 0 ∧
    (∀ server, q.info.server = some server → (served n).services.has server q.req.svcMeth = true) ∧
    (q.handler = .running → n ≤ 11) := by
  intro n p q hq
  have hslot : (served n).nextProc ≤ 1 := by
    match n with
    | 0 | 1 | 2 | 3 | 4 | 5 | 6 => exact Nat.zero_le 1
    | 7 | 8 | 9 | 10 | 11 | 12 | 13 | 14 => exact Nat.le_refl 1
    | n + 15 => rw [served_done]; exact Nat.le_refl 1
  obtain rfl : p = 0 := by
    have := (inv_execution rfl served_step n).1.slot p q hq
    omega
  refine ⟨rfl, ?_⟩
  match n with
  | 0 | 1 | 2 | 3 | 4 | 5 | 6 => cases hq
  | 7 => cases hq; exact ⟨fun _ h => (by cases h), fun _ => by decide⟩
  | 8 | 9 | 10 | 11 => cases hq; exact ⟨fun _ h => by cases h; rfl, fun _ => by decide⟩
  | 12 | 13 | 14 => cases hq; exact ⟨fun _ h => by cases h; rfl, fun h => by cases h⟩
  | n + 15 =>
    rw [served_done] at hq ⊢
    cases hq
    exact ⟨fun _ h => by cases h; rfl, fun h => by cases h⟩

theorem served_fair : Fair served servedActs := by
  intro ch n hn
  obtain ⟨a, s', hadv, -, hs'⟩ := hn (n + 15) (Nat.le_add_right n 15)
  rw [served_done] at hadv hs'
  exfalso
  have hinv := (inv_execution rfl served_step 15).1
  -- the only call has returned, and its request is done
  have hsent : ∀ req, (served 15).calls ch ≠ some ⟨req, .sending⟩ := by
    intro req hcall
    obtain rfl : ch = 0 := Nat.lt_one_iff.mp (hinv.chan ch _ hcall)
    cases hcall
  cases hadv with
  | receive =>
    obtain ⟨req, hcall, -⟩ := receive_cases hinv hs'
    exact hsent req hcall
  | abort =>
    obtain ⟨req, hcall, -⟩ := abort_cases hinv hs'
    exact hsent req hcall
  | @req p q act hq hch hact =>
    obtain ⟨rfl, -⟩ := served_procs 15 p q hq
    cases act with
    | pollTimeout => exact hact rfl
    | read | launch drop | exec | handlerReturns reply | pollReply | drain
    | lastCheck drop delay | timer | longDelays | send => cases hs'

theorem served_handlers : HandlersReturn served servedActs := by
  intro n p q hq hrunning
  obtain ⟨rfl, -, hle⟩ := served_procs n p q hq
  exact ⟨11, [2], hle hrunning, rfl⟩

theorem every_call_returns_served :
    ((served 11).procs 0).map Proc.handler = some .running ∧
    ∃ m, 6 ≤ m ∧ ∃ ok reply,
      (served m).calls 0 = some ⟨⟨0, [0x53, 0x2E, 0x4D], [1], 0⟩, .returned ok reply⟩ :=
  ⟨rfl, every_call_returns rfl served_step served_fair served_handlers
    (fun n p q server hq => (served_procs n p q hq).2.1 server) 6 0 _ rfl⟩

end DistSys.LabRpc
