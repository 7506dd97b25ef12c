import DistSys.LabRpc.Calls
import DistSys.Tester.Persister

/-! @go tester1/group.go, tester1/srv.go, raft1/server.go | name:ShutdownServer, StartServer, Kill |
    scheme:machine

    One server of a group, shut down and started again while calls go on. The tester's goroutine
    goes round the loop below; handlers of any instance save to the persister their instance was
    given, for as long as they run; a `Kill` method does the same once it has been called. The rest
    of the network is as in its own model, with other servers and any other ends.

                 startServer            mks            AddServer
          down ───────────────▶ starting ────▶ made ─────────────▶ up
           ▲   saved := Copy()         new instance                │ DeleteServer
           └──────────────────────────────────────── deleted ◀─────┘
                 shutdownServer: saved := Copy(), then Kill()  -/

namespace DistSys.Tester
open LabRpc (ServerRef)

/-- What `mks` made of a persister: the number of the instance, and the persister's address. -/
structure Instance where
  num : ℕ
  persister : ℕ

/-- Where the tester is with this server. -/
inductive Phase where
  | down
  | starting
  | made (server : ServerRef)
  | up (server : ServerRef)
  | deleted (server : Option ServerRef)
  deriving DecidableEq

/-- The instance the tester has not copied yet. -/
def Phase.current : Phase → Option ServerRef
  | .down | .starting => none
  | .made r | .up r => some r
  | .deleted server => server

/-- Where `rfsrv.Kill` is, from the moment it may run. -/
inductive KillPc where
  | idle
  | called
  | readRaftState (raftlog : GoString)
  | readSnapshot (raftlog snapshot : GoString)
  | returned
  deriving DecidableEq

/-- The network, the persisters by address, the server, and a record: the saves, and by instance how
    many of them there were at the copy and what it was given, and by channel how many there were
    when the handler returned. -/
structure State (E S : Type) where
  rpc : LabRpc.State E S
  nextServer : ServerRef
  persisters : ℕ → Persister
  nextPersister : ℕ
  saved : Option ℕ
  instances : ServerRef → Option Instance
  count : ℕ
  phase : Phase
  kills : ServerRef → KillPc
  saves : List Save
  returned : ℕ → Option ℕ
  copied : ℕ → Option ℕ
  given : ℕ → Option Persister

inductive Action (E S : Type) where
  | rpc (a : LabRpc.Action E S)
  | makeServer
  | save (p : ℕ) (content : Persister)
  | deleteServer
  | shutdownServer
  | startServer
  | mks
  | addServer (server : ServerRef)
  | killReadRaftState (server : ServerRef)
  | killReadSnapshot (server : ServerRef)
  | killSave (server : ServerRef)
  | killOther (server : ServerRef) (content : Persister)

variable {E S : Type}

/-- The channel and the instance of a handler that is running. -/
def State.running (s : State E S) (p : ℕ) : Option (ℕ × Instance) :=
  match s.rpc.procs p with
  | some q =>
    if q.handler = .running then
      (q.info.server.bind s.instances).map fun inst => (q.req.replyCh, inst)
    else none
  | none => none

/-- A call of `Save` on the persister of an instance. -/
def State.save (s : State E S) (author : Author) (inst : Instance)
    (content : Persister) : State E S :=
  { s with persisters := Function.update s.persisters inst.persister content
           saves := s.saves ++ [⟨author, inst.num, content⟩] }

/-- `Copy()` of the server's persister, or a new one if there is none yet. -/
def State.copySaved (s : State E S) : State E S :=
  { s with
    persisters := Function.update s.persisters s.nextPersister
      (match s.saved with
        | some a => s.persisters a
        | none => makePersister)
    saved := some s.nextPersister
    nextPersister := s.nextPersister + 1 }

/-- The name of this server is the tester's, and its server objects are not registered by others; a
    handler returns only after a `Save`. -/
def State.permits [DecidableEq S] (name : S) (s : State E S) : LabRpc.Action E S → Bool
  | .config (.addServer servername server) =>
      servername ≠ some name && server.all fun r => r < s.nextServer && (s.instances r).isNone
  | .config (.deleteServer servername) => servername ≠ some name
  | .req p (.handlerReturns _) =>
      match s.running p with
      | some (ch, _) => s.saves.any fun save => save.author = .handler ch
      | none => true
  | _ => true

/-- The record of a handler's return. -/
def State.returns (s : State E S) : LabRpc.Action E S → State E S
  | .req p (.handlerReturns _) =>
      match s.running p with
      | some (ch, _) => { s with returned := Function.update s.returned ch (some s.saves.length) }
      | none => s
  | _ => s

/-- The copy is made, the services are told to stop. -/
def State.shutdown (s : State E S) (server : Option ServerRef) : State E S :=
  let s' := if s.saved.isSome then s.copySaved else s
  match server with
  | some r =>
    match s.instances r with
    | some inst => { s' with phase := .down
                             copied := Function.update s.copied inst.num (some s.saves.length)
                             kills := Function.update s.kills r .called }
    | none => { s' with phase := .down }
  | none => { s' with phase := .down }

def step [DecidableEq E] [DecidableEq S] (name : S) (s : State E S) :
    Action E S → Option (State E S)
  | .rpc a =>
      if s.permits name a then
        (LabRpc.step s.rpc a).map fun rpc => { s.returns a with rpc := rpc }
      else none
  | .makeServer => some { s with nextServer := s.nextServer + 1 }
  | .save p content =>
      (s.running p).map fun r => s.save (.handler r.1) r.2 content
  | .deleteServer =>
      match s.phase with
      | .up r => (LabRpc.step s.rpc (.config (.deleteServer (some name)))).map fun rpc =>
          { s with rpc := rpc, phase := .deleted (some r) }
      | .down => (LabRpc.step s.rpc (.config (.deleteServer (some name)))).map fun rpc =>
          { s with rpc := rpc, phase := .deleted none }
      | _ => none
  | .shutdownServer =>
      match s.phase with
      | .deleted server => some (s.shutdown server)
      | _ => none
  | .startServer =>
      match s.phase with
      | .down => some { s.copySaved with phase := .starting }
      | _ => none
  | .mks =>
      match s.phase, s.saved with
      | .starting, some a => some { s with
          instances := Function.update s.instances s.nextServer (some ⟨s.count, a⟩)
          given := Function.update s.given s.count (some (s.persisters a))
          phase := .made s.nextServer
          nextServer := s.nextServer + 1
          count := s.count + 1 }
      | _, _ => none
  | .addServer r =>
      if s.phase = .made r then
        (LabRpc.step s.rpc (.config (.addServer (some name) (some r)))).map fun rpc =>
          { s with rpc := rpc, phase := .up r }
      else none
  | .killReadRaftState r =>
      match s.kills r, s.instances r with
      | .called, some inst => some { s with
          kills :=
            Function.update s.kills r (.readRaftState (s.persisters inst.persister).raftstate) }
      | _, _ => none
  | .killReadSnapshot r =>
      match s.kills r, s.instances r with
      | .readRaftState raftlog, some inst => some { s with
          kills := Function.update s.kills r
            (.readSnapshot raftlog (s.persisters inst.persister).snapshot) }
      | _, _ => none
  | .killSave r =>
      match s.kills r, s.instances r with
      | .readSnapshot raftlog snapshot, some inst =>
        some { s.save .kill inst ⟨raftlog, snapshot⟩ with
          kills := Function.update s.kills r .returned }
      | _, _ => none
  | .killOther r content =>
      if s.kills r = .idle then none else (s.instances r).map fun inst => s.save .kill inst content

/-- A group just made: no instance yet, and a server without a persister. -/
def start : State E S where
  rpc := LabRpc.start
  nextServer := 0
  persisters := fun _ => makePersister
  nextPersister := 0
  saved := none
  instances := fun _ => none
  count := 0
  phase := .down
  kills := fun _ => .idle
  saves := []
  returned := fun _ => none
  copied := fun _ => none
  given := fun _ => none

/-! ### What a step does -/

/-- The effects of the steps; what a `Kill` method has read may be anything. -/
inductive Effect [DecidableEq E] [DecidableEq S] (name : S) (s : State E S) :
    Action E S → State E S → Prop where
  | rpc {a : LabRpc.Action E S} {rpc : LabRpc.State E S} (hpermits : s.permits name a = true)
      (hrpc : LabRpc.step s.rpc a = some rpc) :
        Effect name s (.rpc a) { s.returns a with rpc := rpc }
  | makeServer : Effect name s .makeServer { s with nextServer := s.nextServer + 1 }
  | save {p ch : ℕ} {inst : Instance} {content : Persister}
      (hrunning : s.running p = some (ch, inst)) :
      Effect name s (.save p content) (s.save (.handler ch) inst content)
  | deleteServer {rpc : LabRpc.State E S}
      (hrpc : LabRpc.step s.rpc (.config (.deleteServer (some name))) = some rpc) :
      Effect name s .deleteServer { s with rpc := rpc, phase := .deleted s.phase.current }
  | shutdownServer {server : Option ServerRef} (hphase : s.phase = .deleted server) :
      Effect name s .shutdownServer (s.shutdown server)
  | startServer (hphase : s.phase = .down) :
      Effect name s .startServer { s.copySaved with phase := .starting }
  | mks {a : ℕ} (hphase : s.phase = .starting) (hsaved : s.saved = some a) :
      Effect name s .mks { s with
      instances := Function.update s.instances s.nextServer (some ⟨s.count, a⟩)
      given := Function.update s.given s.count (some (s.persisters a))
      phase := .made s.nextServer
      nextServer := s.nextServer + 1
      count := s.count + 1 }
  | addServer {r : ServerRef} {rpc : LabRpc.State E S} (hphase : s.phase = .made r)
      (hrpc : LabRpc.step s.rpc (.config (.addServer (some name) (some r))) = some rpc) :
      Effect name s (.addServer r) { s with rpc := rpc, phase := .up r }
  | killReadRaftState {r : ServerRef} {pc : KillPc} (hkills : s.kills r ≠ .idle) :
      Effect name s (.killReadRaftState r) { s with kills := Function.update s.kills r pc }
  | killReadSnapshot {r : ServerRef} {pc : KillPc} (hkills : s.kills r ≠ .idle) :
      Effect name s (.killReadSnapshot r) { s with kills := Function.update s.kills r pc }
  | killSave {r : ServerRef} {inst : Instance} {content : Persister} {pc : KillPc}
      (hkills : s.kills r ≠ .idle) (hinst : s.instances r = some inst) : Effect name s (.killSave r)
        { s.save .kill inst content with kills := Function.update s.kills r pc }
  | killOther {r : ServerRef} {inst : Instance} {content : Persister} (hkills : s.kills r ≠ .idle)
      (hinst : s.instances r = some inst) :
        Effect name s (.killOther r content) (s.save .kill inst content)

theorem step_effect [DecidableEq E] [DecidableEq S] {name : S} {s s' : State E S} {a : Action E S}
    (hstep : step name s a = some s') : Effect name s a s' := by
  cases a with
  | rpc a =>
    simp only [step, Option.ite_none_right_eq_some, Option.map_eq_some_iff] at hstep
    obtain ⟨hpermits, rpc, hrpc, rfl⟩ := hstep
    exact .rpc hpermits hrpc
  | makeServer => cases hstep; exact .makeServer
  | save p content =>
    simp only [step, Option.map_eq_some_iff] at hstep
    obtain ⟨⟨ch, inst⟩, hrunning, rfl⟩ := hstep
    exact .save hrunning
  | deleteServer =>
    -- an instance is up, or nobody is
    simp only [step] at hstep
    split at hstep
    · rename_i r hphase
      obtain ⟨rpc, hrpc, rfl⟩ := Option.map_eq_some_iff.mp hstep
      have hcurrent : s.phase.current = some r := congrArg Phase.current hphase
      exact hcurrent ▸ .deleteServer hrpc
    · rename_i hphase
      obtain ⟨rpc, hrpc, rfl⟩ := Option.map_eq_some_iff.mp hstep
      have hcurrent : s.phase.current = none := congrArg Phase.current hphase
      exact hcurrent ▸ .deleteServer hrpc
    · cases hstep
  | shutdownServer =>
    simp only [step] at hstep
    split at hstep <;> cases hstep
    rename_i server hphase
    exact .shutdownServer hphase
  | startServer =>
    simp only [step] at hstep
    split at hstep <;> cases hstep
    rename_i hphase
    exact .startServer hphase
  | mks =>
    simp only [step] at hstep
    split at hstep <;> cases hstep
    rename_i a hphase hsaved
    exact .mks hphase hsaved
  | addServer r =>
    simp only [step, Option.ite_none_right_eq_some, Option.map_eq_some_iff] at hstep
    obtain ⟨hphase, rpc, hrpc, rfl⟩ := hstep
    exact .addServer hphase hrpc
  | killReadRaftState r =>
    simp only [step] at hstep
    split at hstep <;> cases hstep
    rename_i hkills hinst
    exact .killReadRaftState (by rw [hkills]; simp)
  | killReadSnapshot r =>
    simp only [step] at hstep
    split at hstep <;> cases hstep
    rename_i hkills hinst
    exact .killReadSnapshot (by rw [hkills]; simp)
  | killSave r =>
    simp only [step] at hstep
    split at hstep <;> cases hstep
    rename_i hkills hinst
    exact .killSave (by rw [hkills]; simp) hinst
  | killOther r content =>
    simp only [step, Option.ite_none_left_eq_some, Option.map_eq_some_iff] at hstep
    obtain ⟨hkills, inst, hinst, rfl⟩ := hstep
    exact .killOther hkills hinst

end DistSys.Tester
