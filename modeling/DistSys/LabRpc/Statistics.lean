import DistSys.LabRpc.Progress

/-! @go labrpc/labrpc.go | name:GetTotalCount, GetTotalBytes, GetCount | scheme:machine |
    invariant:run

    What the network counts. A request is counted when the dispatcher takes it, with the bytes of
    its arguments; the bytes of a reply when it is about to be handed over, and not at all if it is
    dropped; a server counts the requests it executes.

        taken  ──▶  executed  ──▶  checked  ──▶  handed over
        count + 1   its server       bytes + |reply|
        bytes + |args|   + 1

    The counters of the network wrap around at 32 and 64 bits; the count of a server is taken to
    fit. -/

namespace DistSys.LabRpc
open Machine (run run_history)

variable {E S : Type}

/-- `GetTotalCount`. -/
def Network.getTotalCount (n : Network E S) : ℤ := n.count.toInt

/-- `GetTotalBytes`. -/
def Network.getTotalBytes (n : Network E S) : ℤ := n.bytes.toInt

/-- `GetCount`; a name without a server is a `nil` pointer. -/
def State.getCount (s : State E S) (servername : Option S) : Option ℕ :=
  (s.net.servers servername).map s.counts

/-! ### What one request contributes -/

def Proc.argBytes (q : Proc E S) : ℕ := q.req.args.length

/-- Bytes of a reply that is being handed over. -/
def Proc.replyBytes (q : Proc E S) : ℕ :=
  match q.phase with
  | .replying msg => msg.reply.length
  | _ => 0

def Proc.executed (q : Proc E S) : ℕ :=
  match q.handler with
  | .absent | .spawned => 0
  | .running | .returned _ | .finished _ => 1

def Proc.answered (q : Proc E S) : ℕ := if q.phase = .done then 1 else 0

def Effect.transmitted : Effect → ℕ
  | .transmits size => size
  | _ => 0

def Effect.executions : Effect → ℕ
  | .executes _ => 1
  | _ => 0

def Effect.messages : Effect → List ReplyMsg
  | .sends msg => [msg]
  | _ => []

def replySize (msgs : List ReplyMsg) : ℕ := (msgs.map (·.reply.length)).sum

/-- What a request contributes changes by what the rest of the system sees. -/
theorem reqStep_counted {n : Network E S} {services : Services} {q q' : Proc E S}
    {act : ReqAct} {eff : Effect} (hready : q.phase = .ready → q.handler = .absent)
    (h : reqStep n services q act = some (q', eff)) :
    q'.argBytes = q.argBytes ∧
      q'.replyBytes + replySize eff.messages = q.replyBytes + eff.transmitted ∧
    q'.executed = q.executed + eff.executions ∧ q'.answered = q.answered + eff.messages.length := by
  unfold reqStep at h
  repeat' split at h
  all_goals cases h
  all_goals simp_all
    [Proc.argBytes, Proc.replyBytes, Proc.executed, Proc.answered, Effect.transmitted,
    Effect.executions, Effect.messages, replySize]
  -- the request is read
  by_cases hlive : (n.readEndnameInfo q.req.endname).Live <;> simp [hlive]

/-! ### The counters -/

/-- The counters say what has been logged, and the requests add up to it. -/
structure Counted (s : State E S) : Prop where
  slots : ∀ p, p < s.nextProc → ∃ q, s.procs p = some q
  count : s.net.count = BitVec.ofNat 32 s.nextProc
  bytes : s.net.bytes = BitVec.ofNat 64 (total Proc.argBytes s.procs s.nextProc +
    replySize (s.sent.map (·.2)) + total Proc.replyBytes s.procs s.nextProc)
  execs : s.execs.length = total Proc.executed s.procs s.nextProc
  sent : s.sent.length = total Proc.answered s.procs s.nextProc
  counts : ∀ server, s.counts server = (s.execs.filter (·.2 = server)).length

theorem counted_start : Counted (start : State E S) :=
  ⟨fun _ h => absurd h (Nat.not_lt_zero _), rfl, rfl, rfl, rfl, fun _ => rfl⟩

theorem replySize_append (l l' : List ReplyMsg) :
    replySize (l ++ l') = replySize l + replySize l' := by
  simp [replySize]

/-- An effect is counted. -/
theorem effect_counted {s s' : State E S} {ch : ℕ} {eff : Effect} (h : s.effect ch eff = some s') :
    s'.net.count = s.net.count ∧ s'.net.bytes = s.net.bytes + BitVec.ofNat 64 eff.transmitted ∧
    s'.execs.length = s.execs.length + eff.executions ∧
      s'.sent.map (·.2) = s.sent.map (·.2) ++ eff.messages ∧
    ((∀ server, s.counts server = (s.execs.filter (·.2 = server)).length) →
      ∀ server, s'.counts server = (s'.execs.filter (·.2 = server)).length) := by
  cases eff with
  | silent | yields reply | transmits size =>
    cases h
    simp [Effect.transmitted, Effect.executions, Effect.messages]
  | executes server =>
    cases h
    refine ⟨rfl, by simp [Effect.transmitted], by simp [Effect.executions],
      by simp [Effect.messages], fun hcounts server' => ?_⟩
    rcases eq_or_ne server' server with rfl | hne
    · simp [hcounts]
    · simp [hcounts, hne, hne.symm]
  | sends msg =>
    simp only [State.effect] at h
    split at h
    · cases h
      simp [Effect.transmitted, Effect.executions, Effect.messages]
    · cases h

theorem config_counted [DecidableEq E] [DecidableEq S] {n n' : Network E S} {op : NetOp E S}
    (h : n.config op = some n') : n'.count = n.count ∧ n'.bytes = n.bytes := by
  cases op with
  | makeEnd e | deleteEnd e | cleanup =>
    simp only [Network.config] at h
    split at h <;> cases h
    exact ⟨rfl, rfl⟩
  | enable e b | connect e name | addServer name server | deleteServer name
  | reliable b | longReordering b | longDelays b =>
    cases h
    exact ⟨rfl, rfl⟩

section
variable [DecidableEq E] [DecidableEq S] {acts : List (Action E S)} {s s' : State E S}

/-- A request moves. -/
theorem counted_req {p : ℕ} {act : ReqAct} (hinv : Inv acts s) (h : Counted s)
    (hstep : step s (.req p act) = some s') : Counted s' := by
  obtain ⟨q, q', eff, hq, hreq, hprocs, hslot, -⟩ := step_req hstep
  have hready : q.phase = .ready → q.handler = .absent := by
    intro hready
    have hphase := (hinv.proc p q hq).phase
    rw [hready] at hphase
    exact hphase.2
  obtain ⟨hargs, hreply, hexec, hanswer⟩ := reqStep_counted hready hreq
  have htotal : ∀ f : Proc E S → ℕ,
      total f s'.procs s'.nextProc + f q = total f s.procs s.nextProc + f q' := by
    intro f
    rw [hprocs, hslot]
    exact total_replace (hinv.slot p q hq) hq
  simp only [step, hq, hreq, Option.bind_some] at hstep
  obtain ⟨hcount, hbytes, hexecs, hsent, hcounts⟩ := effect_counted hstep
  dsimp only at hcount hbytes hexecs hsent hcounts
  have hlength := congrArg List.length hsent
  simp only [List.length_map, List.length_append] at hlength
  constructor
  case slots =>
    intro p' hp'
    rw [hprocs]
    rcases eq_or_ne p' p with rfl | hne
    · exact ⟨q', Function.update_self ..⟩
    · rw [Function.update_of_ne hne]
      exact h.slots p' (hslot ▸ hp')
  case count => rw [hcount, hslot]; exact h.count
  case bytes =>
    have h₁ := htotal Proc.argBytes
    have h₂ := htotal Proc.replyBytes
    rw [hbytes, hsent, replySize_append]
    refine (congrArg (· + _) h.bytes).trans ?_
    rw [← BitVec.ofNat_add]
    exact congrArg _ (by omega)
  case execs =>
    have h₃ := htotal Proc.executed
    have := h.execs
    omega
  case sent =>
    have h₄ := htotal Proc.answered
    have := h.sent
    omega
  case counts => exact hcounts h.counts

/-- Every step keeps the counters right. -/
theorem counted_step {a : Action E S} (hinv : Inv acts s) (h : Counted s)
    (hstep : step s a = some s') : Counted s' := by
  cases a with
  | config op =>
    simp only [step, Option.map_eq_some_iff] at hstep
    obtain ⟨net, hnet, rfl⟩ := hstep
    obtain ⟨hcount, hbytes⟩ := config_counted hnet
    exact ⟨h.slots, hcount.trans h.count, hbytes.trans h.bytes, h.execs, h.sent, h.counts⟩
  | addService server name methods | call endname svcMeth args =>
    cases hstep
    exact ⟨h.slots, h.count, h.bytes, h.execs, h.sent, h.counts⟩
  | stop =>
    simp only [step, Option.ite_none_right_eq_some] at hstep
    obtain ⟨-, hstep⟩ := hstep
    cases hstep
    exact ⟨h.slots, h.count, h.bytes, h.execs, h.sent, h.counts⟩
  | abort ch =>
    obtain ⟨req, -, -, rfl⟩ := abort_cases hinv hstep
    exact ⟨h.slots, h.count, h.bytes, h.execs, h.sent, h.counts⟩
  | receive ch =>
    obtain ⟨req, -, -, -, rfl⟩ := receive_cases hinv hstep
    constructor
    case slots =>
      intro p hp
      rcases Nat.lt_succ_iff_lt_or_eq.mp hp with hlt | rfl
      · exact (h.slots p hlt).imp fun q hq => (Function.update_of_ne hlt.ne _ _).trans hq
      · exact ⟨_, Function.update_self ..⟩
    case count =>
      refine (congrArg (· + 1) h.count).trans ?_
      rw [BitVec.ofNat_add]
      rfl
    case bytes =>
      refine (congrArg (· + _) h.bytes).trans ?_
      rw [← BitVec.ofNat_add, total_concat, total_concat]
      refine congrArg _ ?_
      simp only [Proc.argBytes, Proc.replyBytes, Proc.new]
      omega
    case execs => rw [total_concat]; exact h.execs
    case sent => rw [total_concat]; exact h.sent
    case counts => exact h.counts
  | req p act => exact counted_req hinv h hstep

theorem counted_run (hrun : run step start acts = some s) : Counted s :=
  run_history counted_start (fun _ _ _ _ hrun h hstep => counted_step (inv_run hrun) h hstep) hrun

/-- CORRECT: after any run the network has counted the requests taken, and the bytes of their
    arguments, of the replies handed over and of those being handed over; the server that has a name
    has counted its executions. There are no more executions and no more messages than requests;
    when all requests are done there are as many messages, and the bytes are those that callers have
    sent and received. -/
theorem statistics_exact (hrun : run step start acts = some s) :
    s.net.getTotalCount = Int.bmod s.nextProc (2 ^ 32) ∧
    s.net.getTotalBytes =
      Int.bmod (total Proc.argBytes s.procs s.nextProc + replySize (s.sent.map (·.2)) +
      total Proc.replyBytes s.procs s.nextProc : ℕ) (2 ^ 64) ∧
    (∀ name k, s.getCount name = some k → ∃ server, s.net.servers name = some server ∧
      k = (s.execs.filter (·.2 = server)).length) ∧
    s.execs.length ≤ s.nextProc ∧ s.sent.length ≤ s.nextProc ∧
    ((∀ p q, s.procs p = some q → q.phase = .done) → s.sent.length = s.nextProc ∧
      s.net.getTotalBytes = Int.bmod (total Proc.argBytes s.procs s.nextProc +
        replySize (s.sent.map (·.2)) : ℕ) (2 ^ 64)) := by
  have h := counted_run hrun
  have hbytes : s.net.getTotalBytes = Int.bmod (total Proc.argBytes s.procs s.nextProc +
      replySize (s.sent.map (·.2)) + total Proc.replyBytes s.procs s.nextProc : ℕ) (2 ^ 64) := by
    rw [Network.getTotalBytes, h.bytes, BitVec.toInt_ofNat']
  refine ⟨by rw [Network.getTotalCount, h.count, BitVec.toInt_ofNat'], hbytes, ?_, ?_, ?_, ?_⟩
  · intro name k hk
    obtain ⟨server, hserver, rfl⟩ := Option.map_eq_some_iff.mp hk
    exact ⟨server, hserver, h.counts server⟩
  · rw [h.execs]
    refine total_le fun q => ?_
    rw [Proc.executed]
    split <;> simp
  · rw [h.sent]
    refine total_le fun q => ?_
    rw [Proc.answered]
    split <;> simp
  · intro hdone
    refine ⟨?_, ?_⟩
    · rw [h.sent]
      refine total_eq fun p hp => ?_
      obtain ⟨q, hq⟩ := h.slots p hp
      exact ⟨q, hq, if_pos (hdone p q hq)⟩
    · rw [hbytes, total_eq_zero (m := s.procs) (f := Proc.replyBytes), Nat.add_zero]
      intro p q hq
      rw [Proc.replyBytes, hdone p q hq]

end

/-- Two requests, with two bytes and one, and one reply with two. -/
theorem statistics_exact_echo : ∃ s, run step start echoRun = some s ∧ s.net.getTotalCount = 2 ∧
    s.net.getTotalBytes = 5 := by
  obtain ⟨s, hrun⟩ : ∃ s, run step start echoRun = some s := ⟨_, rfl⟩
  obtain ⟨hcount, hbytes, -⟩ := statistics_exact hrun
  have hnext : s.nextProc = 2 := by cases hrun; rfl
  have hsize : total Proc.argBytes s.procs s.nextProc + replySize (s.sent.map (·.2)) +
      total Proc.replyBytes s.procs s.nextProc = 5 := by cases hrun; rfl
  refine ⟨s, hrun, ?_, ?_⟩
  · rw [hcount, hnext]
    decide
  · rw [hbytes, hsize]
    decide

end DistSys.LabRpc
