import DistSys.LabRpc.Network

/-! @go labrpc/labrpc.go | name:Network.processReq | scheme:machine | invariant:per request

    What is known of a request wherever its goroutines are, and that each of their steps keeps it.
    All that is said about a request is about its own channel: the call that waits on it, and the
    entries of the three logs.

        handler      absent   spawned   running   returned   finished
        executions     []       []       [srv]     [srv]      [srv]
        results        []       []        []       [reply]    [reply]  -/

namespace DistSys.LabRpc
open Machine (run Past Took past_now took_now)

/-- The entries of a log for one channel. -/
def entries {α : Type} (ch : ℕ) (log : List (ℕ × α)) : List α := (log.filter (·.1 = ch)).map (·.2)

@[simp] theorem entries_same {α : Type} (ch : ℕ) (log : List (ℕ × α)) (a : α) :
    entries ch (log ++ [(ch, a)]) = entries ch log ++ [a] := by
  simp [entries]

theorem entries_other {α : Type} {ch ch' : ℕ} (h : ch' ≠ ch) (log : List (ℕ × α)) (a : α) :
    entries ch' (log ++ [(ch, a)]) = entries ch' log := by
  simp [entries, Ne.symm h]

/-- What the state holds for one channel. -/
structure Trace (E : Type) where
  call : Option (Call E)
  execs : List ServerRef
  rets : List GoString
  sent : List ReplyMsg

variable {E S : Type}

def State.trace (s : State E S) (ch : ℕ) : Trace E :=
  ⟨s.calls ch, entries ch s.execs, entries ch s.rets, entries ch s.sent⟩

def Trace.effect (t : Trace E) : Effect → Trace E
  | .silent => t
  | .executes server => { t with execs := t.execs ++ [server] }
  | .yields reply => { t with rets := t.rets ++ [reply] }
  | .transmits _ => t
  | .sends msg => { t with call := t.call.map fun c => ⟨c.req, .returned msg.ok msg.reply⟩
                           sent := t.sent ++ [msg] }

/-- An effect changes what is held for its channel, and nothing else a request depends on. -/
theorem effect_spec {s s' : State E S} {ch : ℕ} {eff : Effect} (h : s.effect ch eff = some s') :
    s'.procs = s.procs ∧ s'.nextProc = s.nextProc ∧ s'.nextCh = s.nextCh ∧
    s'.trace ch = (s.trace ch).effect eff ∧ ∀ ch' ≠ ch, s'.trace ch' = s.trace ch' := by
  cases eff with
  | silent => cases h; exact ⟨rfl, rfl, rfl, rfl, fun _ _ => rfl⟩
  | executes server =>
    cases h
    refine ⟨rfl, rfl, rfl, by simp [State.trace, Trace.effect], fun ch' hne => ?_⟩
    simp [State.trace, entries_other hne]
  | yields reply =>
    cases h
    refine ⟨rfl, rfl, rfl, by simp [State.trace, Trace.effect], fun ch' hne => ?_⟩
    simp [State.trace, entries_other hne]
  | transmits size => cases h; exact ⟨rfl, rfl, rfl, rfl, fun _ _ => rfl⟩
  | sends msg =>
    simp only [State.effect] at h
    split at h
    · rename_i req hcall
      cases h
      refine ⟨rfl, rfl, rfl, by simp [State.trace, Trace.effect, hcall], fun ch' hne => ?_⟩
      simp [State.trace, entries_other hne, Function.update_of_ne hne]
    · cases h

/-- A step of a request changes the request, and what is held for its channel. -/
theorem step_req [DecidableEq E] [DecidableEq S] {s s' : State E S} {p : ℕ} {act : ReqAct}
    (h : step s (.req p act) = some s') :
    ∃ q q' eff, s.procs p = some q ∧ reqStep s.net s.services q act = some (q', eff) ∧
      s'.procs = Function.update s.procs p (some q') ∧ s'.nextProc = s.nextProc ∧
        s'.nextCh = s.nextCh ∧
      s'.trace q.req.replyCh = (s.trace q.req.replyCh).effect eff ∧
      ∀ ch ≠ q.req.replyCh, s'.trace ch = s.trace ch := by
  simp only [step, Option.bind_eq_some_iff] at h
  obtain ⟨q, hq, ⟨q', eff⟩, hreq, heff⟩ := h
  exact ⟨q, q', eff, hq, hreq, effect_spec heff⟩

/-! ### What a step does to the logs -/

theorem effect_servers {s s' : State E S} {ch : ℕ} {eff : Effect} (h : s.effect ch eff = some s') :
    s'.net.servers = s.net.servers := by
  cases eff with
  | sends msg =>
    simp only [State.effect] at h
    split at h <;> cases h
    rfl
  | _ => cases h; rfl

section
variable [DecidableEq E] [DecidableEq S] {s s' : State E S} {a : Action E S}

/-- A step that is not one of a request leaves the logs alone; a new request has read nothing. -/
theorem step_other (h : step s a = some s') (ha : ∀ p act, a ≠ .req p act) :
    s'.execs = s.execs ∧ s'.rets = s.rets ∧
    ∀ p q, s'.procs p = some q → s.procs p = some q ∨ q.info.server = none := by
  cases a with
  | config op =>
    simp only [step, Option.map_eq_some_iff] at h
    obtain ⟨net, -, rfl⟩ := h
    exact ⟨rfl, rfl, fun _ _ => Or.inl⟩
  | addService server name methods | call endname svcMeth args =>
    cases h; exact ⟨rfl, rfl, fun _ _ => Or.inl⟩
  | receive ch =>
    simp only [step] at h
    split at h <;> cases h
    refine ⟨rfl, rfl, fun p q hq => ?_⟩
    obtain ⟨-, rfl⟩ | ⟨-, hq⟩ := update_some hq
    · exact Or.inr rfl
    · exact Or.inl hq
  | stop =>
    simp only [step, Option.ite_none_right_eq_some] at h
    obtain ⟨-, h⟩ := h
    cases h; exact ⟨rfl, rfl, fun _ _ => Or.inl⟩
  | abort ch =>
    simp only [step] at h
    split at h <;> cases h
    exact ⟨rfl, rfl, fun _ _ => Or.inl⟩
  | req p act => exact absurd rfl (ha p act)

theorem step_servers (h : step s a = some s') : s'.net.servers = s.net.servers ∨
    (∃ servername server, a = .config (.addServer servername server) ∧
      s'.net.servers = Function.update s.net.servers servername server) ∨
    ∃ servername, a = .config (.deleteServer servername) ∧
      s'.net.servers = Function.update s.net.servers servername none := by
  cases a with
  | config op =>
    simp only [step, Option.map_eq_some_iff] at h
    obtain ⟨net, hnet, rfl⟩ := h
    obtain hsame | ⟨name, server, rfl, hadd⟩ | ⟨name, rfl, hdel⟩ := config_servers hnet
    · exact Or.inl hsame
    · exact Or.inr (Or.inl ⟨name, server, rfl, hadd⟩)
    · exact Or.inr (Or.inr ⟨name, rfl, hdel⟩)
  | req p act =>
    simp only [step, Option.bind_eq_some_iff] at h
    obtain ⟨q, -, r, -, heff⟩ := h
    have hsame := effect_servers heff
    exact Or.inl hsame
  | addService server name methods | call endname svcMeth args => cases h; exact Or.inl rfl
  | receive ch | abort ch =>
    simp only [step] at h
    split at h <;> cases h
    exact Or.inl rfl
  | stop =>
    simp only [step, Option.ite_none_right_eq_some] at h
    obtain ⟨-, h⟩ := h
    cases h; exact Or.inl rfl

end

/-! ### The invariant of a request -/

/-- The request was executed once, by the server that had been read. -/
def Executed (info : EndInfo S) (t : Trace E) : Prop :=
  info.Live ∧ ∃ server, info.server = some server ∧ t.execs = [server]

/-- The logs are where the handler is. -/
def HandlerOk (info : EndInfo S) (t : Trace E) : Handler → Prop
  | .absent => t.execs = [] ∧ t.rets = []
  | .spawned => info.Live ∧ t.execs = [] ∧ t.rets = []
  | .running => Executed info t ∧ t.rets = []
  | .returned msg => Executed info t ∧ t.rets = [msg.reply]
  | .finished msg => Executed info t ∧ t.rets = [msg.reply]

theorem HandlerOk.execs_le_one {info : EndInfo S} {t : Trace E} :
    ∀ {handler}, HandlerOk info t handler → t.execs.length ≤ 1
  | .absent, h => by rw [h.1]; exact Nat.zero_le _
  | .spawned, h => by rw [h.2.1]; exact Nat.zero_le _
  | .running, h | .returned _, h | .finished _, h => by
    obtain ⟨-, server, -, hexecs⟩ := h.1
    rw [hexecs]; exact Nat.le_refl 1

theorem HandlerOk.execs_of_rets {info : EndInfo S} {t : Trace E} (hrets : t.rets ≠ []) :
    ∀ {handler}, HandlerOk info t handler → t.execs ≠ []
  | .absent, h => absurd h.2 hrets
  | .spawned, h => absurd h.2.2 hrets
  | .running, h => absurd h.2 hrets
  | .returned _, h | .finished _, h => by
    obtain ⟨-, server, -, hexecs⟩ := h.1
    rw [hexecs]; exact List.cons_ne_nil _ _

theorem HandlerOk.absent_of_not_live {info : EndInfo S} {t : Trace E} (hdead : ¬ info.Live) :
    ∀ {handler}, HandlerOk info t handler → handler = .absent ∧ t.execs = []
  | .absent, h => ⟨rfl, h.1⟩
  | .spawned, h => absurd h.1 hdead
  | .running, h | .returned _, h | .finished _, h => absurd h.1.1 hdead

/-- A goroutine of a request starts the handler, ends it, or leaves both logs alone. -/
theorem HandlerOk.log {n : Network E S} {services : Services} {q q' : Proc E S}
    {act : ReqAct} {eff : Effect} {t : Trace E} (hok : HandlerOk q.info t q.handler)
    (h : reqStep n services q act = some (q', eff)) :
    ((t.effect eff).execs = t.execs ∧ (t.effect eff).rets = t.rets ∧ ∀ reply,
      act ≠ .handlerReturns reply) ∨
    (∃ server, act = .exec ∧ q.info.server = some server ∧ t.execs = [] ∧ t.rets = [] ∧
      (t.effect eff).execs = [server] ∧ (t.effect eff).rets = []) ∨
    ∃ reply, act = .handlerReturns reply ∧ q.handler = .running ∧ Executed q.info t ∧ t.rets = [] ∧
      (t.effect eff).execs = t.execs ∧ (t.effect eff).rets = [reply] := by
  obtain ⟨hexec, hyield, -⟩ := reqStep_effect h
  have hreturns : (∀ reply, eff ≠ .yields reply) → ∀ reply, act ≠ .handlerReturns reply := by
    rintro hne reply rfl
    simp only [reqStep, Option.ite_none_right_eq_some, Option.some.injEq, Prod.mk.injEq] at h
    exact hne reply h.2.2.symm
  cases eff with
  | executes server =>
    obtain ⟨rfl, hserver⟩ := hexec server rfl
    cases hhandler : q.handler <;> simp only [reqStep, hhandler, hserver, reduceCtorEq] at h
    rw [hhandler] at hok
    obtain ⟨-, hexecs, hrets⟩ := hok
    exact Or.inr
      (Or.inl ⟨server, rfl, hserver, hexecs, hrets, by simp [Trace.effect, hexecs], hrets⟩)
  | yields reply =>
    obtain ⟨rfl, hrunning⟩ := hyield reply rfl
    rw [hrunning] at hok
    exact Or.inr (Or.inr ⟨reply, rfl, hrunning, hok.1, hok.2, rfl, by simp [Trace.effect, hok.2]⟩)
  | silent | transmits size | sends msg =>
    exact Or.inl ⟨rfl, rfl, hreturns fun _ heff => by cases heff⟩

section
variable [DecidableEq E] [DecidableEq S]

/-- When the request was read, this is what the network said. -/
def ReadThen (acts : List (Action E S)) (p : ℕ) (q : Proc E S) : Prop :=
  Took step start acts (.req p .read) fun s₀ =>
    (∃ q₀, s₀.procs p = some q₀ ∧ q₀.req = q.req) ∧ q.info = s₀.net.readEndnameInfo q.req.endname

/-- After the handler had returned there was a moment with the end enabled and the server in
    place. -/
def StillThere (acts : List (Action E S)) (req : ReqMsg E) (info : EndInfo S)
    (msg : ReplyMsg) : Prop :=
  Past step start acts fun s₁ => msg.reply ∈ entries req.replyCh s₁.rets ∧
    s₁.net.enabled req.endname = true ∧ s₁.net.servers info.servername = info.server

/-- A message of the handler is sent after it has been checked; a failure at any time. -/
def PhaseOk (acts : List (Action E S)) (req : ReqMsg E) (info : EndInfo S) (handler : Handler)
    (t : Trace E) : ReqPhase → Prop
  | .start => handler = .absent
  | .ready => info.Live ∧ handler = .absent
  | .poll => info.Live
  | .check none => info.Live
  | .check (some msg) => handler = .finished msg
  | .failing => True
  | .replying msg => handler = .finished msg ∧ StillThere acts req info msg
  | .delayed msg => handler = .finished msg ∧ StillThere acts req info msg
  | .noServer => ¬ info.Live
  | .timeout => ¬ info.Live
  | .done => ∃ msg, t.call = some ⟨req, .returned msg.ok msg.reply⟩ ∧ t.sent = [msg] ∧
      (msg.ok = true → handler = .finished msg ∧ StillThere acts req info msg)

/-- What is known of a request. -/
structure ProcOk (acts : List (Action E S)) (p : ℕ) (q : Proc E S) (t : Trace E) : Prop where
  read : q.phase ≠ .start → ReadThen acts p q
  handler : HandlerOk q.info t q.handler
  phase : PhaseOk acts q.req q.info q.handler t q.phase
  waiting : q.phase ≠ .done → t.call = some ⟨q.req, .waiting⟩ ∧ t.sent = []

variable {acts : List (Action E S)} {p : ℕ} {q q' : Proc E S} {t : Trace E}

theorem PhaseOk.concat {req : ReqMsg E} {info : EndInfo S} {handler : Handler} :
    ∀ {phase}, PhaseOk acts req info handler t phase → ∀ a,
      PhaseOk (acts ++ [a]) req info handler t phase
  | .start, h, _ | .ready, h, _ | .poll, h, _ | .check none, h, _ | .check (some _), h, _
  | .failing, h, _ | .noServer, h, _ | .timeout, h, _ => h
  | .replying _, h, a | .delayed _, h, a => ⟨h.1, h.2.concat a⟩
  | .done, ⟨msg, hcall, hsent, hok⟩, a =>
    ⟨msg, hcall, hsent, fun htrue => ⟨(hok htrue).1, (hok htrue).2.concat a⟩⟩

/-- A request is not affected by what leaves its channel alone. -/
theorem ProcOk.concat (h : ProcOk acts p q t) (a : Action E S) : ProcOk (acts ++ [a]) p q t :=
  ⟨fun hphase => (h.read hphase).concat a, h.handler, h.phase.concat a, h.waiting⟩

/-- A handler on its way: neither missing nor read out. -/
def Handler.Busy : Handler → Prop
  | .absent | .finished _ => False
  | .spawned | .running | .returned _ => True

/-- While the handler is on its way no phase depends on where. -/
theorem PhaseOk.busy {req : ReqMsg E} {info : EndInfo S} {handler : Handler} {t' : Trace E}
    (hbusy : handler.Busy) (hcall : t'.call = t.call) (hsent : t'.sent = t.sent)
    (handler' : Handler) :
    ∀ {phase}, PhaseOk acts req info handler t phase → PhaseOk acts req info handler' t' phase
  | .poll, h | .check none, h | .failing, h | .noServer, h | .timeout, h => h
  | .start, h | .check (some _), h => by rw [show handler = _ from h] at hbusy; exact hbusy.elim
  | .ready, h => by rw [h.2] at hbusy; exact hbusy.elim
  | .replying _, h | .delayed _, h => by rw [h.1] at hbusy; exact hbusy.elim
  | .done, ⟨msg, hc, hs, hok⟩ =>
    ⟨msg, hcall ▸ hc, hsent ▸ hs, fun htrue => by rw [(hok htrue).1] at hbusy; exact hbusy.elim⟩

/-- The handler's goroutine moves. -/
theorem ProcOk.handle (h : ProcOk acts p q t) (a : Action E S) (hbusy : q.handler.Busy)
    {handler : Handler} {drain : Bool} {t' : Trace E} (hhandler : HandlerOk q.info t' handler)
    (hcall : t'.call = t.call) (hsent : t'.sent = t.sent) :
    ProcOk (acts ++ [a]) p { q with handler := handler, drain := drain } t' :=
  ⟨fun hphase => (h.read hphase).concat a, hhandler,
    (h.phase.busy hbusy hcall hsent handler).concat a,
    fun hphase => hcall ▸ hsent ▸ h.waiting hphase⟩

/-- `processReq` is between the read and the reply. -/
def ReqPhase.Open : ReqPhase → Prop
  | .start | .done => False
  | .ready | .poll | .check _ | .failing | .replying _ | .delayed _ | .noServer | .timeout => True

theorem ReqPhase.Open.ne {phase : ReqPhase} (h : phase.Open) : phase ≠ .start ∧ phase ≠ .done := by
  constructor <;> rintro rfl <;> exact h

/-- `processReq` moves on. -/
theorem ProcOk.move (h : ProcOk acts p q t) (a : Action E S)
    (hopen : q.phase.Open) {phase : ReqPhase} {drain : Bool}
    (hphase : PhaseOk (acts ++ [a]) q.req q.info q.handler t phase) :
    ProcOk (acts ++ [a]) p { q with phase := phase, drain := drain } t :=
  ⟨fun _ => (h.read hopen.ne.1).concat a, h.handler, hphase, fun _ => h.waiting hopen.ne.2⟩

/-- `processReq` moves on, and its handler with it. -/
theorem ProcOk.moveBoth (h : ProcOk acts p q t) (a : Action E S)
    (hopen : q.phase.Open) {phase : ReqPhase} {handler : Handler}
    (hhandler : HandlerOk q.info t handler)
    (hphase : PhaseOk (acts ++ [a]) q.req q.info handler t phase) :
    ProcOk (acts ++ [a]) p { q with phase := phase, handler := handler } t :=
  ⟨fun _ => (h.read hopen.ne.1).concat a, hhandler, hphase, fun _ => h.waiting hopen.ne.2⟩

/-- The reply goes out to the waiting call. -/
theorem ProcOk.reply (h : ProcOk acts p q t) (a : Action E S)
    (hopen : q.phase.Open) {msg : ReplyMsg}
    (hok : msg.ok = true → q.handler = .finished msg ∧ StillThere acts q.req q.info msg) :
    ProcOk (acts ++ [a]) p { q with phase := .done } (t.effect (.sends msg)) := by
  obtain ⟨hcall, hsent⟩ := h.waiting hopen.ne.2
  refine ⟨fun _ => (h.read hopen.ne.1).concat a, ?_, ⟨msg, ?_, ?_, fun htrue => ?_⟩,
    fun hne => absurd rfl hne⟩
  · have hhandler := h.handler
    cases hh : q.handler <;> rw [hh] at hhandler <;> exact hhandler
  · simp [Trace.effect, hcall]
  · simp [Trace.effect, hsent]
  · exact ⟨(hok htrue).1, (hok htrue).2.concat a⟩

/-! ### One lemma per step -/

section steps
variable {n : Network E S} {services : Services} {s : State E S} {eff : Effect}

theorem procOk_read (hrun : run step start acts = some s) (hq : s.procs p = some q)
    (hok : ProcOk acts p q t) (h : reqStep s.net services q .read = some (q', eff)) :
    ProcOk (acts ++ [.req p .read]) p q' (t.effect eff) := by
  simp only [reqStep, Option.ite_none_right_eq_some] at h
  obtain ⟨hstart, h⟩ := h
  cases h
  have hhandler := hok.handler
  have habsent : q.handler = .absent := by simpa [hstart, PhaseOk] using hok.phase
  rw [habsent] at hhandler
  refine ⟨fun _ => took_now hrun ⟨⟨q, hq, rfl⟩, rfl⟩, ?_, ?_,
    fun _ => hok.waiting (by simp [hstart])⟩
  · rw [habsent]; exact hhandler
  · by_cases hlive : (s.net.readEndnameInfo q.req.endname).Live
    · simp only [if_pos hlive]; exact ⟨hlive, habsent⟩
    · simp only [if_neg hlive]; exact hlive

theorem procOk_launch {drop : Bool} (hok : ProcOk acts p q t)
    (h : reqStep n services q (.launch drop) = some (q', eff)) :
    ProcOk (acts ++ [.req p (.launch drop)]) p q' (t.effect eff) := by
  simp only [reqStep, Option.ite_none_right_eq_some] at h
  obtain ⟨hready, h⟩ := h
  have hopen : q.phase.Open := hready ▸ trivial
  split at h
  · cases h
    exact hok.move _ hopen trivial
  · cases h
    obtain ⟨hlive, habsent⟩ : q.info.Live ∧ q.handler = .absent := by
      simpa [hready, PhaseOk] using hok.phase
    have hhandler := hok.handler
    rw [habsent] at hhandler
    exact hok.moveBoth _ hopen ⟨hlive, hhandler⟩ hlive

theorem procOk_exec (hok : ProcOk acts p q t) (h : reqStep n services q .exec = some (q', eff)) :
    ProcOk (acts ++ [.req p .exec]) p q' (t.effect eff) := by
  simp only [reqStep] at h
  split at h
  · rename_i server hspawned hserver
    simp only [Option.ite_none_right_eq_some] at h
    obtain ⟨-, h⟩ := h
    cases h
    have hhandler := hok.handler
    rw [hspawned] at hhandler
    obtain ⟨hlive, hexecs, hrets⟩ := hhandler
    exact hok.handle _ (hspawned ▸ trivial)
      ⟨⟨hlive, server, hserver, by simp [Trace.effect, hexecs]⟩, hrets⟩ rfl rfl
  · cases h

theorem procOk_handlerReturns {reply : GoString} (hok : ProcOk acts p q t)
    (h : reqStep n services q (.handlerReturns reply) = some (q', eff)) :
    ProcOk (acts ++ [.req p (.handlerReturns reply)]) p q' (t.effect eff) := by
  simp only [reqStep, Option.ite_none_right_eq_some] at h
  obtain ⟨hrunning, h⟩ := h
  cases h
  have hhandler := hok.handler
  rw [hrunning] at hhandler
  obtain ⟨hexecs, hrets⟩ := hhandler
  exact hok.handle _ (hrunning ▸ trivial) ⟨hexecs, by simp [Trace.effect, hrets]⟩ rfl rfl

theorem procOk_pollReply (hok : ProcOk acts p q t)
    (h : reqStep n services q .pollReply = some (q', eff)) :
    ProcOk (acts ++ [.req p .pollReply]) p q' (t.effect eff) := by
  simp only [reqStep] at h
  split at h
  · rename_i msg hpoll hreturned
    cases h
    have hhandler := hok.handler
    rw [hreturned] at hhandler
    exact hok.moveBoth _ (hpoll ▸ trivial) hhandler rfl
  · cases h

theorem procOk_pollTimeout (hok : ProcOk acts p q t)
    (h : reqStep n services q .pollTimeout = some (q', eff)) :
    ProcOk (acts ++ [.req p .pollTimeout]) p q' (t.effect eff) := by
  simp only [reqStep, Option.ite_none_right_eq_some] at h
  obtain ⟨hpoll, h⟩ := h
  split at h
  · cases h
    have hphase := hok.phase
    rw [hpoll] at hphase
    exact hok.move _ (hpoll ▸ trivial) hphase
  · cases h
    exact hok.concat _

theorem procOk_drain (hok : ProcOk acts p q t) (h : reqStep n services q .drain = some (q', eff)) :
    ProcOk (acts ++ [.req p .drain]) p q' (t.effect eff) := by
  simp only [reqStep] at h
  split at h
  · rename_i msg hreturned
    simp only [Option.ite_none_right_eq_some] at h
    obtain ⟨-, h⟩ := h
    cases h
    have hhandler := hok.handler
    rw [hreturned] at hhandler
    exact hok.handle _ (hreturned ▸ trivial) hhandler rfl rfl
  · cases h

/-- The check finds the end enabled and the server in place, the handler having returned. -/
theorem stillThere_now (hrun : run step start acts = some s) {req : ReqMsg E}
    {info : EndInfo S} {msg : ReplyMsg} (hrets : entries req.replyCh s.rets = [msg.reply])
    (halive : ¬ s.net.isServerDead req.endname info.servername info.server = true)
    (a : Action E S) :
    StillThere (acts ++ [a]) req info msg := by
  simp only [Network.isServerDead, Bool.or_eq_true, decide_eq_true_eq, not_or, Bool.not_eq_false,
    Decidable.not_not] at halive
  exact past_now hrun ⟨by simp [hrets], halive.1, halive.2⟩ a

theorem procOk_lastCheck {drop delay : Bool} (hrun : run step start acts = some s)
    (hok : ProcOk acts p q (s.trace q.req.replyCh))
    (h : reqStep s.net services q (.lastCheck drop delay) = some (q', eff)) :
    ProcOk (acts ++ [.req p (.lastCheck drop delay)]) p q'
      ((s.trace q.req.replyCh).effect eff) := by
  simp only [reqStep] at h
  split at h
  · rename_i hcheck
    cases h
    exact hok.move _ (hcheck ▸ trivial) trivial
  · rename_i msg hcheck
    have hopen : q.phase.Open := hcheck ▸ trivial
    have hfinished : q.handler = .finished msg := by simpa [hcheck, PhaseOk] using hok.phase
    have hhandler := hok.handler
    rw [hfinished] at hhandler
    split at h
    · cases h; exact hok.move _ hopen trivial
    rename_i halive
    have hthere := stillThere_now hrun hhandler.2 halive
    split at h
    · cases h; exact hok.move _ hopen trivial
    split at h
    · cases h; exact hok.move _ hopen ⟨hfinished, hthere _⟩
    · cases h; exact hok.move _ hopen ⟨hfinished, hthere _⟩
  · cases h

theorem procOk_timer (hok : ProcOk acts p q t) (h : reqStep n services q .timer = some (q', eff)) :
    ProcOk (acts ++ [.req p .timer]) p q' (t.effect eff) := by
  simp only [reqStep] at h
  split at h
  · rename_i msg hdelayed
    cases h
    have hphase := hok.phase
    rw [hdelayed] at hphase
    exact hok.move _ (hdelayed ▸ trivial) ⟨hphase.1, hphase.2.concat _⟩
  · rename_i htimeout
    cases h
    exact hok.move _ (htimeout ▸ trivial) trivial
  · cases h

theorem procOk_longDelays (hok : ProcOk acts p q t)
    (h : reqStep n services q .longDelays = some (q', eff)) :
    ProcOk (acts ++ [.req p .longDelays]) p q' (t.effect eff) := by
  simp only [reqStep, Option.ite_none_right_eq_some] at h
  obtain ⟨hnone, h⟩ := h
  cases h
  have hphase := hok.phase
  rw [hnone] at hphase
  exact hok.move _ (hnone ▸ trivial) hphase

theorem procOk_send (hok : ProcOk acts p q t) (h : reqStep n services q .send = some (q', eff)) :
    ProcOk (acts ++ [.req p .send]) p q' (t.effect eff) := by
  simp only [reqStep] at h
  split at h
  · rename_i hfailing
    cases h
    exact hok.reply _ (hfailing ▸ trivial) (by simp)
  · rename_i msg hreplying
    cases h
    have hphase := hok.phase
    rw [hreplying] at hphase
    exact hok.reply _ (hreplying ▸ trivial) (fun _ => hphase)
  · cases h

/-- What is known of a request survives each step of its goroutines. -/
theorem procOk_step {act : ReqAct} (hrun : run step start acts = some s) (hq : s.procs p = some q)
    (hok : ProcOk acts p q (s.trace q.req.replyCh))
    (h : reqStep s.net s.services q act = some (q', eff)) :
    ProcOk (acts ++ [.req p act]) p q' ((s.trace q.req.replyCh).effect eff) := by
  cases act with
  | read => exact procOk_read hrun hq hok h
  | launch drop => exact procOk_launch hok h
  | exec => exact procOk_exec hok h
  | handlerReturns reply => exact procOk_handlerReturns hok h
  | pollReply => exact procOk_pollReply hok h
  | pollTimeout => exact procOk_pollTimeout hok h
  | drain => exact procOk_drain hok h
  | lastCheck drop delay => exact procOk_lastCheck hrun hok h
  | timer => exact procOk_timer hok h
  | longDelays => exact procOk_longDelays hok h
  | send => exact procOk_send hok h

end steps

end

end DistSys.LabRpc
