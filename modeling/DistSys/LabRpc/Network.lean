import DistSys.Schemes.GoString
import DistSys.Schemes.Machine
import Mathlib.Logic.Function.Basic

/-! @go labrpc/labrpc.go | name:ClientEnd.Call, Network.processReq, Server.dispatch | scheme:machine

    The simulated network. A call makes a channel for its reply and hands the request to the
    dispatcher, which starts a goroutine to process it; that one starts another to run the handler.
    A step is what a goroutine does between two points where others can interfere: a section under a
    mutex, a meeting on a channel, a timer.

        call      sending ──▶ waiting ───────────────────────────────────────────────▶ returned
                     │                                                                    ▲
        processReq   └▶ start ─┬▶ ready ─┬▶ poll ──▶ check ─┬▶ replying ◀─ delayed ────────┤
                               │         └────────┐         ├▶ delayed                    │
                               └▶ noServer ─▶ timeout ─▶ failing ─────────────────────────┘
        handler                            spawned ─▶ running ─▶ returned ─▶ finished

    A fatal log line, or a panic, ends the process: the step is then not defined. -/

namespace DistSys.LabRpc

/-- A server object, by address. -/
abbrev ServerRef := ℕ

/-- `reqMsg`; channels are numbered as they are made. -/
structure ReqMsg (E : Type) where
  endname : E
  svcMeth : GoString
  args : GoString
  replyCh : ℕ

structure ReplyMsg where
  ok : Bool
  reply : GoString
  deriving DecidableEq

/-- `Network`. A missing entry of a map reads as `false` or `nil`; server names may be `nil`. -/
structure Network (E S : Type) where
  reliable : Bool
  longDelays : Bool
  longReordering : Bool
  ends : E → Bool
  enabled : E → Bool
  servers : Option S → Option ServerRef
  connections : E → Option S
  done : Bool
  count : BitVec 32
  bytes : BitVec 64

/-- The results of `readEndnameInfo`. -/
structure EndInfo (S : Type) where
  enabled : Bool
  servername : Option S
  server : Option ServerRef
  reliable : Bool
  longreordering : Bool

variable {E S : Type}

def makeNetwork : Network E S where
  reliable := true
  longDelays := false
  longReordering := false
  ends := fun _ => false
  enabled := fun _ => false
  servers := fun _ => none
  connections := fun _ => none
  done := false
  count := 0
  bytes := 0

def Network.readEndnameInfo (n : Network E S) (endname : E) : EndInfo S where
  enabled := n.enabled endname
  servername := n.connections endname
  server := if (n.connections endname).isSome then n.servers (n.connections endname) else none
  reliable := n.reliable
  longreordering := n.longReordering

def Network.isServerDead (n : Network E S) (endname : E) (servername : Option S)
    (server : Option ServerRef) : Bool := n.enabled endname = false || n.servers servername ≠ server

/-- `enabled && servername != nil && server != nil`. -/
def EndInfo.Live (info : EndInfo S) : Prop :=
  info.enabled = true ∧ info.servername.isSome = true ∧ info.server.isSome = true

instance (info : EndInfo S) : Decidable info.Live :=
  inferInstanceAs (Decidable (_ ∧ _ ∧ _))

/-- The calls that reconfigure the network. -/
inductive NetOp (E S : Type) where
  | makeEnd (endname : E)
  | deleteEnd (endname : E)
  | enable (endname : E) (enabled : Bool)
  | connect (endname : E) (servername : Option S)
  | addServer (servername : Option S) (server : Option ServerRef)
  | deleteServer (servername : Option S)
  | reliable (yes : Bool)
  | longReordering (yes : Bool)
  | longDelays (yes : Bool)
  | cleanup

/-- Making an end twice, deleting one that does not exist or cleaning up twice ends the process. -/
def Network.config [DecidableEq E] [DecidableEq S] (n : Network E S) :
    NetOp E S → Option (Network E S)
  | .makeEnd e =>
      if n.ends e then none
      else some { n with ends := Function.update n.ends e true
                         enabled := Function.update n.enabled e false
                         connections := Function.update n.connections e none }
  | .deleteEnd e =>
      if n.ends e then
        some { n with ends := Function.update n.ends e false
                      enabled := Function.update n.enabled e false
                      connections := Function.update n.connections e none }
      else none
  | .enable e enabled => some { n with enabled := Function.update n.enabled e enabled }
  | .connect e servername =>
    some { n with connections := Function.update n.connections e servername }
  | .addServer servername server =>
    some { n with servers := Function.update n.servers servername server }
  | .deleteServer servername => some { n with servers := Function.update n.servers servername none }
  | .reliable yes => some { n with reliable := yes }
  | .longReordering yes => some { n with longReordering := yes }
  | .longDelays yes => some { n with longDelays := yes }
  | .cleanup => if n.done then none else some { n with done := true }

/-- Servers come and go by `AddServer` and `DeleteServer` only. -/
theorem config_servers [DecidableEq E] [DecidableEq S] {n n' : Network E S} {op : NetOp E S}
    (h : n.config op = some n') : n'.servers = n.servers ∨
    (∃ servername server, op = .addServer servername server ∧
      n'.servers = Function.update n.servers servername server) ∨
    ∃ servername, op = .deleteServer servername ∧
      n'.servers = Function.update n.servers servername none := by
  cases op with
  | addServer servername server => cases h; exact Or.inr (Or.inl ⟨_, _, rfl, rfl⟩)
  | deleteServer servername => cases h; exact Or.inr (Or.inr ⟨_, rfl, rfl⟩)
  | makeEnd e | deleteEnd e | cleanup =>
    simp only [Network.config] at h
    split at h <;> cases h
    exact Or.inl rfl
  | enable e b | connect e name | reliable b | longReordering b | longDelays b =>
    cases h; exact Or.inl rfl

/-! ### Goroutines -/

/-- `returned` keeps the bytes the caller decodes when `ok`. -/
inductive CallPhase where
  | sending
  | waiting
  | returned (ok : Bool) (reply : GoString)
  deriving DecidableEq

/-- A `Call`. -/
structure Call (E : Type) where
  req : ReqMsg E
  phase : CallPhase

/-- Where `processReq` is; `check` holds `reply` if `replyOK`. -/
inductive ReqPhase where
  | start
  | ready
  | poll
  | check (reply : Option ReplyMsg)
  | failing
  | replying (reply : ReplyMsg)
  | delayed (reply : ReplyMsg)
  | noServer
  | timeout
  | done
  deriving DecidableEq

/-- Where the goroutine that runs the handler is. -/
inductive Handler where
  | absent
  | spawned
  | running
  | returned (reply : ReplyMsg)
  | finished (reply : ReplyMsg)
  deriving DecidableEq

/-- A `processReq` with its local variables, its handler, and whether somebody drains `ech`. -/
structure Proc (E S : Type) where
  req : ReqMsg E
  info : EndInfo S
  phase : ReqPhase
  handler : Handler
  drain : Bool

/-- The service and the method of `svcMeth`, split at its last dot. -/
def splitMethod (svcMeth : GoString) : Option (GoString × GoString) :=
  if 0x2E ∈ svcMeth then
    some (((svcMeth.reverse.dropWhile (· ≠ 0x2E)).drop 1).reverse,
      (svcMeth.reverse.takeWhile (· ≠ 0x2E)).reverse)
  else none

/-- The services of the server objects, with their methods. -/
abbrev Services := ServerRef → GoString → Option (List GoString)

/-- The server has the service and the method. -/
def Services.has (services : Services) (server : ServerRef) (svcMeth : GoString) : Bool :=
  match splitMethod svcMeth with
  | some (service, method) =>
    match services server service with
    | some methods => methods.contains method
    | none => false
  | none => false

/-- What a goroutine of a request does next. The booleans are the outcomes of the dice. -/
inductive ReqAct where
  | read
  | launch (drop : Bool)
  | exec
  | handlerReturns (reply : GoString)
  | pollReply
  | pollTimeout
  | drain
  | lastCheck (drop delay : Bool)
  | timer
  | longDelays
  | send
  deriving DecidableEq

/-- What the rest of the system sees of it. -/
inductive Effect where
  | silent
  | executes (server : ServerRef)
  | yields (reply : GoString)
  | transmits (size : ℕ)
  | sends (msg : ReplyMsg)

/-- A step of `processReq`, of its handler, of its drainer or of its timer. -/
def reqStep (n : Network E S) (services : Services) (q : Proc E S) :
    ReqAct → Option (Proc E S × Effect)
  | .read =>
      if q.phase = .start then
        let info := n.readEndnameInfo q.req.endname
        some ({ q with info := info, phase := if info.Live then .ready else .noServer }, .silent)
      else none
  | .launch drop =>
      if q.phase = .ready then
        if q.info.reliable = false ∧ drop then some ({ q with phase := .failing }, .silent)
        else some ({ q with phase := .poll, handler := .spawned }, .silent)
      else none
  | .exec =>
      match q.handler, q.info.server with
      | .spawned, some server =>
        if services.has server q.req.svcMeth then
          some ({ q with handler := .running }, .executes server)
        else none
      | _, _ => none
  | .handlerReturns reply =>
      if q.handler = .running then
        some ({ q with handler := .returned ⟨true, reply⟩ }, .yields reply)
      else none
  | .pollReply =>
      match q.phase, q.handler with
      | .poll, .returned reply =>
        some ({ q with phase := .check (some reply), handler := .finished reply }, .silent)
      | _, _ => none
  | .pollTimeout =>
      if q.phase = .poll then
        if n.isServerDead q.req.endname q.info.servername q.info.server then
          some ({ q with phase := .check none, drain := true }, .silent)
        else some (q, .silent)
      else none
  | .drain =>
      match q.handler with
      | .returned reply =>
        if q.drain then some ({ q with handler := .finished reply, drain := false }, .silent)
        else none
      | _ => none
  | .lastCheck drop delay =>
      match q.phase with
      | .check none => some ({ q with phase := .failing }, .silent)
      | .check (some reply) =>
        if n.isServerDead q.req.endname q.info.servername q.info.server then
          some ({ q with phase := .failing }, .silent)
        else if q.info.reliable = false ∧ drop then some ({ q with phase := .failing }, .silent)
        else if q.info.longreordering ∧ delay then
          some ({ q with phase := .delayed reply }, .silent)
        else some ({ q with phase := .replying reply }, .transmits reply.reply.length)
      | _ => none
  | .timer =>
      match q.phase with
      | .delayed reply => some ({ q with phase := .replying reply }, .transmits reply.reply.length)
      | .timeout => some ({ q with phase := .failing }, .silent)
      | _ => none
  | .longDelays =>
      if q.phase = .noServer then some ({ q with phase := .timeout }, .silent) else none
  | .send =>
      match q.phase with
      | .failing => some ({ q with phase := .done }, .sends ⟨false, []⟩)
      | .replying reply => some ({ q with phase := .done }, .sends reply)
      | _ => none

/-- A request never changes, and what was read of the network is read once. -/
theorem reqStep_stable {n : Network E S} {services : Services} {q q' : Proc E S} {act : ReqAct}
    {eff : Effect} (h : reqStep n services q act = some (q', eff)) :
    q'.req = q.req ∧ (q.phase ≠ .start → q'.info = q.info ∧ q'.phase ≠ .start) := by
  unfold reqStep at h
  repeat' split at h
  all_goals cases h
  all_goals simp_all

/-- Executions and their results come from the goroutine of the handler. -/
theorem reqStep_effect {n : Network E S} {services : Services} {q q' : Proc E S}
    {act : ReqAct} {eff : Effect} (h : reqStep n services q act = some (q', eff)) :
    (∀ server, eff = .executes server → act = .exec ∧ q.info.server = some server) ∧
    (∀ reply, eff = .yields reply → act = .handlerReturns reply ∧ q.handler = .running) ∧
    (q'.info = q.info ∨ q'.info = n.readEndnameInfo q.req.endname) := by
  unfold reqStep at h
  repeat' split at h
  all_goals cases h
  all_goals simp_all

/-! ### The system -/

/-- The whole system, with the dispatcher's life and three logs by reply channel: executions
    started, replies of executions, messages sent. The count of a server is an `int`: it is right
    for up to 2^63 - 1 requests to one server. -/
structure State (E S : Type) where
  net : Network E S
  services : Services
  counts : ServerRef → ℕ
  dispatcher : Bool
  calls : ℕ → Option (Call E)
  nextCh : ℕ
  procs : ℕ → Option (Proc E S)
  nextProc : ℕ
  execs : List (ℕ × ServerRef)
  rets : List (ℕ × GoString)
  sent : List (ℕ × ReplyMsg)

inductive Action (E S : Type) where
  | config (op : NetOp E S)
  | addService (server : ServerRef) (name : GoString) (methods : List GoString)
  | call (endname : E) (svcMeth args : GoString)
  | receive (ch : ℕ)
  | stop
  | abort (ch : ℕ)
  | req (p : ℕ) (act : ReqAct)

/-- `go rn.processReq(xreq)`. -/
def Proc.new (req : ReqMsg E) : Proc E S :=
  ⟨req, ⟨false, none, none, false, false⟩, .start, .absent, false⟩

/-- A reply is handed over when the caller waits on the channel. -/
def State.effect (s : State E S) (ch : ℕ) : Effect → Option (State E S)
  | .silent => some s
  | .executes server => some { s with
      execs := s.execs ++ [(ch, server)]
      counts := Function.update s.counts server (s.counts server + 1) }
  | .yields reply => some { s with rets := s.rets ++ [(ch, reply)] }
  | .transmits size =>
    some { s with net := { s.net with bytes := s.net.bytes + BitVec.ofNat 64 size } }
  | .sends msg =>
      match s.calls ch with
      | some ⟨req, .waiting⟩ => some { s with
          calls := Function.update s.calls ch (some ⟨req, .returned msg.ok msg.reply⟩)
          sent := s.sent ++ [(ch, msg)] }
      | _ => none

def step [DecidableEq E] [DecidableEq S] (s : State E S) : Action E S → Option (State E S)
  | .config op => (s.net.config op).map fun net => { s with net := net }
  | .addService server name methods => some { s with
      services := Function.update s.services server
        (Function.update (s.services server) name (some methods)) }
  | .call endname svcMeth args => some { s with
      calls :=
        Function.update s.calls s.nextCh (some ⟨⟨endname, svcMeth, args, s.nextCh⟩, .sending⟩)
      nextCh := s.nextCh + 1 }
  | .receive ch =>
      match s.dispatcher, s.calls ch with
      | true, some ⟨req, .sending⟩ => some { s with
          net := { s.net with count := s.net.count + 1
                              bytes := s.net.bytes + BitVec.ofNat 64 req.args.length }
          calls := Function.update s.calls ch (some ⟨req, .waiting⟩)
          procs := Function.update s.procs s.nextProc (some (.new req))
          nextProc := s.nextProc + 1 }
      | _, _ => none
  | .stop => if s.net.done then some { s with dispatcher := false } else none
  | .abort ch =>
      match s.net.done, s.calls ch with
      | true, some ⟨req, .sending⟩ => some { s with
          calls := Function.update s.calls ch (some ⟨req, .returned false []⟩) }
      | _, _ => none
  | .req p act => (s.procs p).bind fun q => (reqStep s.net s.services q act).bind fun r =>
      { s with procs := Function.update s.procs p (some r.1) }.effect q.req.replyCh r.2

/-- A fresh network, and nobody calling. -/
def start : State E S where
  net := makeNetwork
  services := fun _ _ => none
  counts := fun _ => 0
  dispatcher := true
  calls := fun _ => none
  nextCh := 0
  procs := fun _ => none
  nextProc := 0
  execs := []
  rets := []
  sent := []

end DistSys.LabRpc
