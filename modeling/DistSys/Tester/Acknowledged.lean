import DistSys.Tester.Durable

/-! @go tester1/group.go, labrpc/labrpc.go | name:ShutdownServer, isServerDead | scheme:machine |
    invariant:run

    Acknowledged means durable. Only the current instance can answer a call with success: the last
    check of a request needs the server object of its instance to be registered, and
    `ShutdownServer` deletes it before the persister is copied.

        handler saves ── returns ── last check ── DeleteServer ── Copy ── next instance is given it
                                      server is registered, so not copied yet -/

namespace DistSys.Tester
open LabRpc (ServerRef entries step_req step_other step_servers reqStep_effect)
open Machine (run run_cons run_append run_invariant run_history run_relation Projects)

variable {E S : Type}

/-- The instances as the network sees them, and the saves of the handlers: one of this server's
    objects is registered only under its name and only while it is up; a handler that returned had
    saved, and saves no more. -/
structure Links (name : S) (s : State E S) : Prop where
  registered : ∀ nm r, s.rpc.net.servers nm = some r → r < s.nextServer
  ours : ∀ nm r inst, s.rpc.net.servers nm = some r → s.instances r = some inst →
    nm = some name ∧ s.phase = .up r
  infos : ∀ p q r, s.rpc.procs p = some q → q.info.server = some r → r < s.nextServer
  execs : ∀ ch r, r ∈ entries ch s.rpc.execs → r < s.nextServer
  saved : ∀ m save ch, s.saves[m]? = some save → save.author = .handler ch →
    ∃ r inst, entries ch s.rpc.execs = [r] ∧ s.instances r = some inst ∧ save.inst = inst.num ∧
      ∀ n, s.returned ch = some n → m < n
  returned : ∀ ch n, s.returned ch = some n → n ≤ s.saves.length ∧ entries ch s.rpc.rets ≠ []
  kept : ∀ ch r inst, entries ch s.rpc.execs = [r] → s.instances r = some inst →
    entries ch s.rpc.rets ≠ [] → ∃ n, s.returned ch = some n ∧
      ∃ m save, m < n ∧ s.saves[m]? = some save ∧ save.author = .handler ch

theorem links_start (name : S) : Links name (start : State E S) where
  registered := fun _ _ h => by cases h
  ours := fun _ _ _ h => by cases h
  infos := fun _ _ _ h => by cases h
  execs := fun _ _ h => by cases h
  saved := fun _ _ _ h => by simp [start] at h
  returned := fun _ _ h => by cases h
  kept := fun _ _ _ h => by cases h

section links
variable {name : S} {s s' : State E S}

/-- The tester goes on, and the network does not see it. -/
theorem Links.quiet (h : Links name s) (hrpc : s'.rpc = s.rpc)
    (hinstances : s'.instances = s.instances) (hsaves : s'.saves = s.saves)
    (hreturned : s'.returned = s.returned) (hnext : s.nextServer ≤ s'.nextServer)
    (hphase : s'.phase = s.phase ∨ ∀ r, s.phase ≠ .up r) : Links name s' := by
  constructor
  case registered =>
    intro nm r hr
    exact Nat.lt_of_lt_of_le (h.registered nm r (hrpc ▸ hr)) hnext
  case ours =>
    intro nm r inst hr hinst
    obtain ⟨hnm, hup⟩ := h.ours nm r inst (hrpc ▸ hr) (hinstances ▸ hinst)
    obtain hsame | hdown := hphase
    · exact ⟨hnm, hsame.trans hup⟩
    · exact absurd hup (hdown r)
  case infos =>
    intro p q r hq hr
    exact Nat.lt_of_lt_of_le (h.infos p q r (hrpc ▸ hq) hr) hnext
  case execs =>
    intro ch r hr
    exact Nat.lt_of_lt_of_le (h.execs ch r (hrpc ▸ hr)) hnext
  case saved =>
    rw [hrpc, hinstances, hsaves, hreturned]
    exact h.saved
  case returned =>
    rw [hrpc, hsaves, hreturned]
    exact h.returned
  case kept =>
    rw [hrpc, hinstances, hsaves, hreturned]
    exact h.kept

/-- An instance saves; a handler does so while it runs. -/
theorem Links.save (h : Links name s) {author : Author} {inst : Instance} {content : Persister}
    (hauthor : ∀ ch, author = .handler ch →
      (∃ r, entries ch s.rpc.execs = [r] ∧ s.instances r = some inst) ∧
      s.returned ch = none) : Links name (s.save author inst content) := by
  refine { h with saved := fun m save ch hm hch => ?_, returned := fun ch n hn => ?_,
                  kept := fun ch r inst' hexecs hinst hrets => ?_ }
  · rcases Nat.lt_trichotomy m s.saves.length with hlt | rfl | hgt
    · exact h.saved m save ch (by rwa [State.save, List.getElem?_append_left hlt] at hm) hch
    · simp only [State.save, List.getElem?_concat_length, Option.some.injEq] at hm
      subst hm
      obtain ⟨⟨r, hexecs, hinst⟩, hnone⟩ := hauthor ch hch
      exact ⟨r, inst, hexecs, hinst, rfl, fun n hn => by simp [State.save, hnone] at hn⟩
    · rw [List.getElem?_eq_none (by simp [State.save]; omega)] at hm
      cases hm
  · obtain ⟨hle, hrets⟩ := h.returned ch n hn
    exact ⟨by simp only [State.save, List.length_append]; omega, hrets⟩
  · obtain ⟨n, hn, m, save, hlt, hm, hch⟩ := h.kept ch r inst' hexecs hinst hrets
    have hlen := (List.getElem?_eq_some_iff.mp hm).1
    exact ⟨n, hn, m, save, hlt, (List.getElem?_append_left hlen).trans hm, hch⟩

/-- A new server object has served nobody. -/
theorem Links.newInstance (h : Links name s) {inst : Instance} {phase : Phase} {count : ℕ}
    {given : ℕ → Option Persister} (hphase : ∀ r, s.phase ≠ .up r) :
    Links name { s with
      instances := Function.update s.instances s.nextServer (some inst)
      given := given
      phase := phase
      nextServer := s.nextServer + 1
      count := count } := by
  have hold : ∀ {ch r}, r ∈ entries ch s.rpc.execs →
      Function.update s.instances s.nextServer (some inst) r = s.instances r := fun hr =>
    Function.update_of_ne (Nat.ne_of_lt (h.execs _ _ hr)) _ _
  constructor
  case registered =>
    intro nm r hr
    exact Nat.lt_succ_of_lt (h.registered nm r hr)
  case ours =>
    intro nm r inst' hr hinst
    obtain ⟨rfl, -⟩ | ⟨-, hinst⟩ := update_some hinst
    · exact absurd (h.registered nm _ hr) (Nat.lt_irrefl _)
    · exact absurd (h.ours nm r inst' hr hinst).2 (hphase r)
  case infos =>
    intro p q r hq hr
    exact Nat.lt_succ_of_lt (h.infos p q r hq hr)
  case execs =>
    intro ch r hr
    exact Nat.lt_succ_of_lt (h.execs ch r hr)
  case saved =>
    intro m save ch hm hch
    obtain ⟨r, inst', hexecs, hinst, hrest⟩ := h.saved m save ch hm hch
    exact ⟨r, inst', hexecs, (hold (hexecs ▸ List.mem_singleton_self r)).trans hinst, hrest⟩
  case returned => exact h.returned
  case kept =>
    intro ch r inst' hexecs hinst hrets
    exact h.kept ch r inst' hexecs
      ((hold (hexecs ▸ List.mem_singleton_self r)).symm.trans hinst) hrets

/-- The server's own name is registered anew, or deleted; no instance has another name. -/
theorem Links.register [DecidableEq S] (h : Links name s) {rpc : LabRpc.State E S} {phase : Phase}
    {server : Option ServerRef} (hexecs : rpc.execs = s.rpc.execs) (hrets : rpc.rets = s.rpc.rets)
    (hprocs : rpc.procs = s.rpc.procs)
    (hservers : rpc.net.servers = Function.update s.rpc.net.servers (some name) server)
    (hserver : ∀ r, server = some r → r < s.nextServer ∧ phase = .up r) :
    Links name { s with rpc := rpc, phase := phase } := by
  have hcases : ∀ {nm r}, rpc.net.servers nm = some r →
      (nm = some name ∧ r < s.nextServer ∧ phase = .up r) ∨
      (nm ≠ some name ∧ s.rpc.net.servers nm = some r) := by
    intro nm r hr
    rw [hservers] at hr
    rcases eq_or_ne nm (some name) with rfl | hne
    · rw [Function.update_self] at hr
      exact Or.inl ⟨rfl, hserver r hr⟩
    · rw [Function.update_of_ne hne] at hr
      exact Or.inr ⟨hne, hr⟩
  constructor
  case registered =>
    intro nm r hr
    obtain ⟨-, hlt, -⟩ | ⟨-, hold⟩ := hcases hr
    · exact hlt
    · exact h.registered nm r hold
  case ours =>
    intro nm r inst hr hinst
    obtain ⟨hnm, -, hup⟩ | ⟨hne, hold⟩ := hcases hr
    · exact ⟨hnm, hup⟩
    · exact absurd (h.ours nm r inst hold hinst).1 hne
  -- the logs of the network are what they were
  case infos =>
    simp only [hprocs]
    exact h.infos
  case execs =>
    simp only [hexecs]
    exact h.execs
  case saved =>
    simp only [hexecs]
    exact h.saved
  case returned =>
    simp only [hrets]
    exact h.returned
  case kept =>
    simp only [hexecs, hrets]
    exact h.kept

/-! ### Steps of the network -/

/-- Only the return of its own handler is recorded for a channel. -/
theorem returned_of_other {a : LabRpc.Action E S} {ch : ℕ}
    (h : ∀ p q reply, a = .req p (.handlerReturns reply) → s.rpc.procs p = some q →
      q.req.replyCh ≠ ch) :
    (s.returns a).returned ch = s.returned ch := by
  unfold State.returns
  split
  · rename_i p reply
    split
    · rename_i ch' inst hrunning
      obtain ⟨q, -, hq, -, -, -, rfl⟩ := running_some hrunning
      exact Function.update_of_ne (h p q reply rfl hq).symm _ _
    · rfl
  · rfl

variable [DecidableEq S]

/-- A handler of an instance returns after a save, and that is recorded; others are not. -/
theorem Links.recorded (h : Links name s) {p r : ℕ} {q : LabRpc.Proc E S} {reply : GoString}
    (hpermits : s.permits name (.req p (.handlerReturns reply)) = true)
    (hq : s.rpc.procs p = some q)
    (hrunning : q.handler = .running) (hr : q.info.server = some r)
    (hrets : entries q.req.replyCh s.rpc.rets = []) :
    (∃ inst, s.instances r = some inst ∧
      (s.returns (.req p (.handlerReturns reply))).returned q.req.replyCh = some s.saves.length ∧
      ∃ m save, m < s.saves.length ∧ s.saves[m]? = some save ∧
        save.author = .handler q.req.replyCh) ∨
    s.instances r = none ∧
      (s.returns (.req p (.handlerReturns reply))).returned q.req.replyCh = none := by
  have hrun : s.running p = (s.instances r).map fun inst => (q.req.replyCh, inst) := by
    simp [State.running, hq, hrunning, hr]
  cases hinst : s.instances r with
  | some inst =>
    simp only [hinst, Option.map_some] at hrun
    simp only [State.permits, hrun, List.any_eq_true, decide_eq_true_eq] at hpermits
    obtain ⟨save, hmem, hauthor⟩ := hpermits
    obtain ⟨m, hm⟩ := List.mem_iff_getElem?.mp hmem
    refine Or.inl ⟨inst, rfl, ?_, m, save, (List.getElem?_eq_some_iff.mp hm).1, hm, hauthor⟩
    simp [State.returns, hrun]
  | none =>
    simp only [hinst, Option.map_none] at hrun
    refine Or.inr ⟨rfl, ?_⟩
    cases hreturned : s.returned q.req.replyCh with
    | none => simp [State.returns, hrun, hreturned]
    | some n => exact absurd hrets (h.returned _ n hreturned).2

variable [DecidableEq E]

/-- What others register is not an instance. -/
theorem Links.servers (h : Links name s) {a : LabRpc.Action E S} {rpc : LabRpc.State E S}
    (hpermits : s.permits name a = true) (hstep : LabRpc.step s.rpc a = some rpc)
    {nm : Option S} {r : ServerRef}
    (hr : rpc.net.servers nm = some r) :
    r < s.nextServer ∧ ∀ inst, s.instances r = some inst → nm = some name ∧ s.phase = .up r := by
  have hold : s.rpc.net.servers nm = some r →
      r < s.nextServer ∧ ∀ inst, s.instances r = some inst → nm = some name ∧ s.phase = .up r :=
    fun hr => ⟨h.registered nm r hr, fun inst => h.ours nm r inst hr⟩
  obtain hsame | ⟨nm', server, rfl, hadd⟩ | ⟨nm', rfl, hdel⟩ := step_servers hstep
  · exact hold (hsame ▸ hr)
  · rw [hadd] at hr
    rcases eq_or_ne nm nm' with rfl | hne
    · rw [Function.update_self] at hr
      subst hr
      simp only [State.permits, Bool.and_eq_true, decide_eq_true_eq, Option.all_some,
        Option.isNone_iff_eq_none] at hpermits
      exact ⟨hpermits.2.1, fun inst hinst => by simp [hpermits.2.2] at hinst⟩
    · rw [Function.update_of_ne hne] at hr
      exact hold hr
  · rw [hdel] at hr
    rcases eq_or_ne nm nm' with rfl | hne
    · simp at hr
    · rw [Function.update_of_ne hne] at hr
      exact hold hr

/-- What a request has read of the registrations is below the next server. -/
theorem Links.reads (h : Links name s) {a : LabRpc.Action E S} {rpc : LabRpc.State E S}
    (hstep : LabRpc.step s.rpc a = some rpc) {p : ℕ} {q : LabRpc.Proc E S} {r : ServerRef}
    (hq : rpc.procs p = some q) (hr : q.info.server = some r) : r < s.nextServer := by
  by_cases ha : ∃ p act, a = .req p act
  · obtain ⟨p', act, rfl⟩ := ha
    obtain ⟨q₀, q', eff, hq₀, hreq, hprocs, -⟩ := step_req hstep
    obtain ⟨rfl, rfl⟩ | ⟨-, hold⟩ := update_some (hprocs ▸ hq)
    · obtain hinfo | hinfo := (reqStep_effect hreq).2.2
      · exact h.infos p q₀ r hq₀ (hinfo ▸ hr)
      · simp only [hinfo, LabRpc.Network.readEndnameInfo, Option.ite_none_right_eq_some] at hr
        exact h.registered _ r hr.2
    · exact h.infos p q r hold hr
  · push Not at ha
    obtain hold | hnone := (step_other hstep ha).2.2 p q hq
    · exact h.infos p q r hold hr
    · simp [hnone] at hr

/-- A step of the network, whoever takes it. -/
theorem Links.network {acts : List (LabRpc.Action E S)} (h : Links name s)
    (hnet : LabRpc.Inv acts s.rpc) {a : LabRpc.Action E S} {rpc : LabRpc.State E S}
    (hpermits : s.permits name a = true) (hstep : LabRpc.step s.rpc a = some rpc) :
    Links name { s.returns a with rpc := rpc } := by
  have hlog := hnet.step_log hstep
  rw [returns_eq]
  constructor
  case registered =>
    intro nm r hr
    exact (h.servers hpermits hstep hr).1
  case ours =>
    intro nm r inst hr
    exact (h.servers hpermits hstep hr).2 inst
  case infos =>
    intro p q r hq hr
    exact h.reads hstep hq hr
  case execs =>
    intro ch r hr
    obtain ⟨hexecs, -⟩ | ⟨p, q, server, -, hq, hserver, -, -, hexecs, -⟩ |
      ⟨p, q, reply, -, -, -, -, -, -, hexecs, -⟩ :=
      hlog ch
    · exact h.execs ch r (hexecs ▸ hr)
    · obtain rfl := List.mem_singleton.mp (hexecs ▸ hr)
      exact h.infos p q r hq hserver
    · exact h.execs ch r (hexecs ▸ hr)
  case saved =>
    intro m save ch hm hch
    obtain ⟨r, inst, hexecs₀, hinst, hnum, hlt⟩ := h.saved m save ch hm hch
    obtain ⟨hexecs, -, hother⟩ | ⟨p, q, server, -, -, -, hempty, -⟩ |
      ⟨p, q, reply, rfl, hq, hrunning, rfl, hrets, ⟨server, hserver, -⟩, hexecs, -⟩ := hlog ch
    · exact ⟨r, inst, hexecs.trans hexecs₀, hinst, hnum, (returned_of_other hother).symm ▸ hlt⟩
    · simp [hempty] at hexecs₀
    · refine ⟨r, inst, hexecs.trans hexecs₀, hinst, hnum, fun n hn => ?_⟩
      obtain ⟨-, -, hret, -⟩ | ⟨-, hret⟩ := h.recorded hpermits hq hrunning hserver hrets
      · obtain rfl := Option.some.inj (hret.symm.trans hn)
        exact (List.getElem?_eq_some_iff.mp hm).1
      · simp only [hret, reduceCtorEq] at hn
  case returned =>
    intro ch n hn
    obtain ⟨-, hrets, hother⟩ | ⟨p, q, server, rfl, -, -, -, hempty, -⟩ |
      ⟨p, q, reply, rfl, hq, hrunning, rfl, hrets, ⟨server, hserver, -⟩, -, hrets'⟩ := hlog ch
    · simp only [returned_of_other hother] at hn
      simp only [hrets]
      exact h.returned ch n hn
    · exact absurd hempty (h.returned ch n hn).2
    · obtain ⟨-, -, hret, -⟩ | ⟨-, hret⟩ := h.recorded hpermits hq hrunning hserver hrets
      · obtain rfl := Option.some.inj (hret.symm.trans hn)
        exact ⟨Nat.le_refl _, by simp [hrets']⟩
      · simp only [hret, reduceCtorEq] at hn
  case kept =>
    intro ch r inst hexecs hinst hrets
    obtain ⟨hexecs', hrets', hother⟩ | ⟨p, q, server, -, -, -, -, -, -, hempty⟩ |
      ⟨p, q, reply, rfl, hq, hrunning, rfl, hempty, ⟨server, hserver, hexecs₀⟩, hexecs', -⟩ :=
        hlog ch
    · simp only [returned_of_other hother]
      exact h.kept ch r inst (hexecs'.symm.trans hexecs) hinst (hrets' ▸ hrets)
    · exact absurd hempty hrets
    · obtain rfl : server = r := by simpa [hexecs', hexecs₀] using hexecs
      obtain ⟨inst', -, hret, hsaved⟩ | ⟨hnone, -⟩ := h.recorded hpermits hq hrunning hserver hempty
      · exact ⟨_, hret, hsaved⟩
      · exact absurd hinst (by simp [hnone])

/-! ### Steps of the tester -/

omit [DecidableEq S] [DecidableEq E] in
/-- `shutdownServer` is not seen by the network. -/
theorem shutdown_spec (s : State E S) (server : Option ServerRef) :
    (s.shutdown server).rpc = s.rpc ∧ (s.shutdown server).instances = s.instances ∧
    (s.shutdown server).saves = s.saves ∧ (s.shutdown server).returned = s.returned ∧
    (s.shutdown server).nextServer = s.nextServer ∧
    ∀ k n, (s.shutdown server).copied k = some n → s.copied k = some n ∨ n = s.saves.length := by
  have hupdate : ∀ j k n, Function.update s.copied j (some s.saves.length) k = some n →
      s.copied k = some n ∨ n = s.saves.length := fun j k n h => by
    obtain ⟨-, hn⟩ | ⟨-, hold⟩ := update_some h
    · exact Or.inr hn
    · exact Or.inl hold
  unfold State.shutdown
  cases hsaved : s.saved.isSome <;> cases server with
  | none => exact ⟨rfl, rfl, rfl, rfl, rfl, fun _ _ => Or.inl⟩
  | some r =>
    cases hinst : s.instances r with
    | none => simp only [hinst]; exact ⟨rfl, rfl, rfl, rfl, rfl, fun _ _ => Or.inl⟩
    | some inst => simp only [hinst]; exact ⟨rfl, rfl, rfl, rfl, rfl, hupdate inst.num⟩

variable {acts : List (LabRpc.Action E S)}

/-- A handler saves while it runs. -/
theorem Links.saveHandler (h : Links name s) (hnet : LabRpc.Inv acts s.rpc)
    {p ch : ℕ} {inst : Instance} (hrunning : s.running p = some (ch, inst)) (content : Persister) :
    Links name (s.save (.handler ch) inst content) := by
  obtain ⟨q, r, hq, hhandler, hr, hinst, rfl⟩ := running_some hrunning
  have hok := (hnet.proc p q hq).handler
  rw [hhandler] at hok
  obtain ⟨⟨-, server, hserver, hexecs⟩, hrets⟩ := hok
  obtain rfl := Option.some.inj (hr.symm.trans hserver)
  refine h.save fun ch hch => ?_
  cases hch
  refine ⟨⟨r, hexecs, hinst⟩, ?_⟩
  cases hreturned : s.returned q.req.replyCh with
  | none => rfl
  | some n => exact absurd hrets (h.returned _ n hreturned).2

/-- Whoever moves. -/
theorem links_step {a : Action E S} (hnet : LabRpc.Inv acts s.rpc)
    (hdur : Durable s) (h : Links name s) (hstep : step name s a = some s') : Links name s' := by
  have hkill : ∀ inst content, Links name (s.save .kill inst content) := fun inst content =>
    h.save fun ch hch => by cases hch
  cases step_effect hstep with
  | rpc hpermits hrpc => exact h.network hnet hpermits hrpc
  | makeServer => exact h.quiet rfl rfl rfl rfl (Nat.le_succ _) (Or.inl rfl)
  | save hrunning => exact h.saveHandler hnet hrunning _
  | deleteServer hrpc =>
    cases hrpc
    exact h.register rfl rfl rfl rfl fun r hr => by cases hr
  | @shutdownServer server hphase =>
    obtain ⟨hrpc, hinstances, hsaves, hreturned, hnext, -⟩ := shutdown_spec s server
    exact h.quiet hrpc hinstances hsaves hreturned hnext.ge (Or.inr fun r => by simp [hphase])
  | startServer hphase =>
    exact h.quiet rfl rfl rfl rfl (Nat.le_refl _) (Or.inr fun r => by simp [hphase])
  | mks hphase hsaved => exact h.newInstance fun r => by simp [hphase]
  | @addServer r rpc hphase hrpc =>
    cases hrpc
    have hcurrent := hdur.current
    rw [hphase] at hcurrent
    obtain ⟨inst, hinst, -⟩ := hcurrent
    refine h.register rfl rfl rfl rfl fun r' hr' => ?_
    cases hr'
    exact ⟨(hdur.refs r inst hinst).1, rfl⟩
  | killReadRaftState hkills | killReadSnapshot hkills =>
    exact h.quiet rfl rfl rfl rfl (Nat.le_refl _) (Or.inl rfl)
  | killSave hkills hinst => exact (hkill _ _).quiet rfl rfl rfl rfl (Nat.le_refl _) (Or.inl rfl)
  | killOther hkills hinst => exact hkill _ _

/-! ### Whole runs -/

/-- What the tester's steps are for the network. -/
def Action.onNet (name : S) : Action E S → Option (LabRpc.Action E S)
  | .rpc a => some a
  | .deleteServer => some (.config (.deleteServer (some name)))
  | .addServer r => some (.config (.addServer (some name) (some r)))
  | _ => none

theorem projects (name : S) :
    Projects (step name : State E S → Action E S → _) LabRpc.step State.rpc
      (Action.onNet name) := by
  intro s a s' hstep
  cases step_effect hstep with
  | rpc hpermits hrpc | deleteServer hrpc | addServer hphase hrpc => exact Or.inr ⟨_, rfl, hrpc⟩
  | @shutdownServer server hphase => exact Or.inl ⟨rfl, (shutdown_spec s server).1⟩
  | makeServer | save | startServer | mks | killReadRaftState | killReadSnapshot | killSave
  | killOther =>
    exact Or.inl ⟨rfl, rfl⟩

variable {acts : List (Action E S)}

theorem network_run (hrun : run (step name) start acts = some s) :
    LabRpc.Inv (acts.filterMap (Action.onNet name)) s.rpc :=
  LabRpc.inv_run ((projects name).run hrun)

theorem durable_run (hrun : run (step name) start acts = some s) : Durable s :=
  run_invariant (fun _ _ _ h hstep => durable_step h hstep) durable_start hrun

/-- In any interleaving. -/
theorem links_run (hrun : run (step name) start acts = some s) : Links name s :=
  run_history (P := fun _ => Links name) (links_start name)
    (fun _ _ _ _ hrun h hstep => links_step (network_run hrun) (durable_run hrun) h hstep) hrun

/-- What stays once it is there: the saves, the returns, the instances, the executions. -/
structure Later (s s' : State E S) : Prop where
  saves : s.saves <+: s'.saves
  returned : ∀ ch n, s.returned ch = some n → s'.returned ch = some n
  next : s.nextServer ≤ s'.nextServer
  instances : ∀ r < s.nextServer, s'.instances r = s.instances r
  copied : ∀ k n, s'.copied k = some n → s.copied k = some n ∨ s.saves.length ≤ n
  execs : ∀ ch, entries ch s.rpc.execs <+: entries ch s'.rpc.execs

omit [DecidableEq S] [DecidableEq E] in
theorem Later.refl (s : State E S) : Later s s :=
  ⟨List.prefix_rfl, fun _ _ => id, Nat.le_refl _, fun _ _ => rfl, fun _ _ => Or.inl,
    fun _ => List.prefix_rfl⟩

omit [DecidableEq S] [DecidableEq E] in
theorem Later.trans {s t u : State E S} (h : Later s t) (h' : Later t u) : Later s u where
  saves := h.saves.trans h'.saves
  returned := fun ch n hn => h'.returned ch n (h.returned ch n hn)
  next := Nat.le_trans h.next h'.next
  instances := fun r hr => (h'.instances r (Nat.lt_of_lt_of_le hr h.next)).trans (h.instances r hr)
  copied := fun k n hn => by
    obtain hn | hle := h'.copied k n hn
    · exact h.copied k n hn
    · exact Or.inr (Nat.le_trans h.saves.length_le hle)
  execs := fun ch => (h.execs ch).trans (h'.execs ch)

theorem later_network {nacts : List (LabRpc.Action E S)}
    (hnet : LabRpc.Inv nacts s.rpc) (h : Links name s)
    {a : LabRpc.Action E S} {rpc : LabRpc.State E S} (hstep : LabRpc.step s.rpc a = some rpc) :
    Later s { s.returns a with rpc := rpc } := by
  have hlog := hnet.step_log hstep
  rw [returns_eq]
  refine { Later.refl s with returned := fun ch n hn => ?_, execs := fun ch => ?_ }
  · obtain ⟨-, -, hother⟩ | ⟨p, q, server, rfl, -⟩ | ⟨p, q, reply, -, -, -, -, hrets, -⟩ := hlog ch
    · exact (returned_of_other hother).trans hn
    · exact hn
    · exact absurd hrets (h.returned ch n hn).2
  · obtain ⟨hexecs, -⟩ | ⟨p, q, server, -, -, -, hempty, -⟩ |
      ⟨p, q, reply, -, -, -, -, -, -, hexecs, -⟩ := hlog ch
    · exact hexecs ▸ List.prefix_rfl
    · exact hempty ▸ List.nil_prefix
    · exact hexecs ▸ List.prefix_rfl

/-- Nothing of this is ever taken back. -/
theorem later_step {nacts : List (LabRpc.Action E S)} {a : Action E S}
    (hnet : LabRpc.Inv nacts s.rpc) (h : Links name s)
    (hstep : step name s a = some s') : Later s s' := by
  have hsave : ∀ author inst content, Later s (s.save author inst content) :=
    fun author inst content =>
    { Later.refl s with saves := List.prefix_append _ _ }
  cases step_effect hstep with
  | rpc hpermits hrpc => exact later_network hnet h hrpc
  | makeServer => exact { Later.refl s with next := Nat.le_succ _ }
  | save hrunning => exact hsave _ _ _
  | deleteServer hrpc | addServer hphase hrpc =>
    cases hrpc
    exact { Later.refl s with }
  | @shutdownServer server hphase =>
    obtain ⟨hrpc, hinstances, hsaves, hreturned, hnext, hcopied⟩ := shutdown_spec s server
    refine ⟨hsaves ▸ List.prefix_rfl, fun ch n hn => hreturned ▸ hn, hnext.ge,
      fun r _ => by rw [hinstances], fun k n hn => (hcopied k n hn).imp_right fun heq => heq.ge,
      fun ch => hrpc ▸ List.prefix_rfl⟩
  | startServer hphase => exact { Later.refl s with }
  | killReadRaftState hkills | killReadSnapshot hkills => exact { Later.refl s with }
  | mks hphase hsaved =>
    exact { Later.refl s with
      next := Nat.le_succ _, instances := fun r hr => Function.update_of_ne (Nat.ne_of_lt hr) _ _ }
  | killSave hkills hinst => exact { hsave .kill _ _ with }
  | killOther hkills hinst => exact hsave .kill _ _

/-- From any moment to any later one. -/
theorem later_run {ys zs : List (Action E S)} (hys : run (step name) start ys = some s)
    (hzs : run (step name) s zs = some s') : Later s s' := by
  refine @run_relation _ _ _ (fun s => ∃ ys, run (step name) start ys = some s) Later
    (fun s a s' ⟨ys, hys⟩ hstep =>
      ⟨⟨ys ++ [a], run_append.mpr ⟨s, hys, run_cons.mpr ⟨s', hstep, rfl⟩⟩⟩, ?_⟩)
    Later.refl (fun _ _ _ => Later.trans) _ _ _ ⟨ys, hys⟩ hzs
  exact later_step (network_run hys) (links_run hys) hstep

omit [DecidableEq E] [DecidableEq S] in
/-- The server object of an instance is registered after its handler returned: the handler had
    saved, and the instance has not been copied. -/
theorem Links.acked (h : Links name s) (hdur : Durable s) {nm : Option S}
    {ch server : ℕ} {inst : Instance} (hserver : s.rpc.net.servers nm = some server)
    (hinst : s.instances server = some inst) (hexecs : entries ch s.rpc.execs = [server])
    (hrets : entries ch s.rpc.rets ≠ []) : s.copied inst.num = none ∧ ∃ n, s.returned ch = some n ∧
      n ≤ s.saves.length ∧ ∃ m save, m < n ∧ s.saves[m]? = some save ∧
      save.author = .handler ch := by
  have hcurrent := hdur.current
  rw [(h.ours nm server inst hserver hinst).2] at hcurrent
  obtain ⟨inst', hinst', -, -, hnone, -⟩ := hcurrent
  obtain rfl := Option.some.inj (hinst.symm.trans hinst')
  obtain ⟨n, hn, hsaved⟩ := h.kept ch server inst hexecs hinst hrets
  exact ⟨hnone, n, hn, (h.returned ch n hn).1, hsaved⟩

/-- A save that counts is handed on, or a later one is. -/
theorem handed_on {saves : List Save} {copied : ℕ → Option ℕ} {m k : ℕ}
    {save : Save} {c : Persister} (hm : Counts saves copied m save) (horder : Ordered saves copied)
    (hlt : save.inst < k) (hnew : Newest saves copied k c) :
    ∃ m' save', m ≤ m' ∧ Counts saves copied m' save' ∧
      save.inst ≤ save'.inst ∧ save'.inst < k ∧ save'.content = c := by
  obtain ⟨m', save', hm', hlt', hc, hmax⟩ | ⟨-, hall⟩ := hnew
  · have hle := hmax m save hm hlt
    exact ⟨m', save', hle, hm', horder m m' save save' hm hm' hle, hlt', hc⟩
  · exact absurd (hall m save hm) (Nat.not_le.mpr hlt)

/-- CORRECT: a call that returned true was executed by one server object; if that is an instance of
    the server, its handler saved, and each of its saves was made before the instance was copied. So
    what a later instance was given is that save or a later one, of the same instance or of one in
    between. In any case an instance is given the newest save of a handler of an earlier instance
    that was made before the copy, or nothing if there is none. -/
theorem acknowledged_durable (hrun : run (step name) start acts = some s) :
    (∀ ch req reply, s.rpc.calls ch = some ⟨req, .returned true reply⟩ →
      ∃ server, entries ch s.rpc.execs = [server] ∧ ∀ inst, s.instances server = some inst →
        (∃ save ∈ s.saves, save.author = .handler ch) ∧
        ∀ m save, s.saves[m]? = some save → save.author = .handler ch →
          save.inst = inst.num ∧ (∀ n, s.copied inst.num = some n → m < n) ∧
          ∀ k c, inst.num < k → s.given k = some c → ∃ m' save', m ≤ m' ∧
            Counts s.saves s.copied m' save' ∧ inst.num ≤ save'.inst ∧
              save'.inst < k ∧ save'.content = c) ∧
    ∀ k c, s.given k = some c → Newest s.saves s.copied k c := by
  have hdur := durable_run hrun
  have hlinks := links_run hrun
  refine ⟨fun ch req reply hcall => ?_, fun k c hk => (hdur.given k c hk).2⟩
  obtain ⟨rfl, -, nm, server, hexecs, -, -, hpast⟩ := (network_run hrun).truthful hcall
  refine ⟨server, hexecs, fun inst hinst => ?_⟩
  -- the moment of the last check
  obtain ⟨ys, zs, s₁, rfl, hys, hzs, hrets₁, -, hserver₁⟩ := (projects name).past hrun hpast
  have hlater := later_run hys hzs
  have hlinks₁ := links_run hys
  have hinst₁ : s₁.instances server = some inst :=
    (hlater.instances server (hlinks₁.registered _ _ hserver₁)).symm.trans hinst
  have hexecs₁ : entries req.replyCh s₁.rpc.execs = [server] := by
    have hprefix := hlater.execs req.replyCh
    rw [hexecs, List.prefix_cons_iff] at hprefix
    obtain hempty | ⟨rest, hrest, hnil⟩ := hprefix
    · exact absurd hempty ((network_run hys).execs_of_rets (List.ne_nil_of_mem hrets₁))
    · rw [hrest, List.prefix_nil.mp hnil]
  obtain ⟨hnone, n, hn, hle, m₀, save₀, -, hm₀, hch₀⟩ :=
    hlinks₁.acked (durable_run hys) hserver₁ hinst₁ hexecs₁ (List.ne_nil_of_mem hrets₁)
  refine ⟨⟨save₀, hlater.saves.subset (List.mem_of_getElem? hm₀), hch₀⟩, fun m save hm hch => ?_⟩
  obtain ⟨r, inst', hexecs', hinst', hnum, hlt⟩ := hlinks.saved m save _ hm hch
  obtain rfl : server = r := by simpa [hexecs] using hexecs'
  obtain rfl := Option.some.inj (hinst.symm.trans hinst')
  have hbefore : ∀ n, s.copied inst.num = some n → m < n := fun c hc => by
    have hm₁ : m < n := hlt n (hlater.returned _ n hn)
    obtain hc | hlen := hlater.copied _ c hc
    · simp [hnone] at hc
    · omega
  refine ⟨hnum, hbefore, fun k c hk hgiven => ?_⟩
  rw [← hnum] at hbefore hk ⊢
  exact handed_on ⟨hm, ⟨_, hch⟩, hbefore⟩ hdur.order hk (hdur.given k c hgiven).2

end links

/-- Server 7 is started and answers call 0, whose handler has saved. It is shut down while the
    handler of call 1 runs, which saves afterwards, as does its `Kill` method; then it is started
    again. -/
def restartRun : List (Action ℕ ℕ) :=
  [.startServer, .mks, .addServer 0, .rpc (.addService 0 [0x53] [[0x4D]]),
    .rpc (.config (.makeEnd 0)), .rpc (.config (.connect 0 (some 7))),
    .rpc (.config (.enable 0 true)), .rpc (.call 0 [0x53, 0x2E, 0x4D] [1]),
    .rpc (.call 0 [0x53, 0x2E, 0x4D] [2]), .rpc (.receive 0), .rpc (.receive 1),
    .rpc (.req 0 .read), .rpc (.req 1 .read), .rpc (.req 0 (.launch false)),
    .rpc (.req 1 (.launch false)), .rpc (.req 0 .exec), .rpc (.req 1 .exec),
    .save 0 ⟨[1], [1]⟩, .rpc (.req 0 (.handlerReturns [9])), .rpc (.req 0 .pollReply),
    .rpc (.req 0 (.lastCheck false false)), .deleteServer, .shutdownServer, .rpc (.req 0 .send),
    .killReadRaftState 0, .save 1 ⟨[2], [2]⟩, .killReadSnapshot 0, .killSave 0, .startServer, .mks]

theorem acknowledged_durable_restart :
    ∃ s, run (step 7) start restartRun = some s ∧ s.given 1 = some ⟨[1], [1]⟩ ∧
      s.rpc.calls 0 = some ⟨⟨0, [0x53, 0x2E, 0x4D], [1], 0⟩, .returned true [9]⟩ ∧
      ∃ m save, Counts s.saves s.copied m save ∧ save.inst < 1 ∧ save.content = ⟨[1], [1]⟩ := by
  obtain ⟨s, hrun⟩ : ∃ s, run (step 7) start restartRun = some s := ⟨_, rfl⟩
  have hgiven : ((run (step 7) start restartRun).bind fun s => s.given 1) = some ⟨[1], [1]⟩ := rfl
  have hcall : ((run (step 7) start restartRun).bind fun s => s.rpc.calls 0) =
    some ⟨⟨0, [0x53, 0x2E, 0x4D], [1], 0⟩, .returned true [9]⟩ := rfl
  have hexecs :
      ((run (step 7) start restartRun).map fun s => entries 0 s.rpc.execs) = some [0] := rfl
  have hinst : ((run (step 7) start restartRun).bind fun s => s.instances 0) = some ⟨0, 0⟩ := rfl
  rw [hrun] at hgiven hcall hexecs hinst
  obtain ⟨server, hserver, hdurable⟩ := (acknowledged_durable hrun).1 0 _ _ hcall
  obtain rfl : server = 0 := by simpa [hserver] using hexecs
  obtain ⟨⟨save, hmem, hch⟩, hall⟩ := hdurable _ hinst
  obtain ⟨m, hm⟩ := List.mem_iff_getElem?.mp hmem
  obtain ⟨-, -, hlater⟩ := hall m save hm hch
  obtain ⟨m', save', -, hcounts, -, hlt, hc⟩ := hlater 1 _ Nat.zero_lt_one hgiven
  exact ⟨s, hrun, hgiven, hcall, m', save', hcounts, hlt, hc⟩

end DistSys.Tester
