import DistSys.Tester.Partition

/-! @go tester1/group.go, tester1/config.go | name:Groups, MakeGroup, MakeGroupStart, ExitGroup |
    scheme:machine, topology | invariant:step, run

    Several groups of servers on one network. They share its tables of ends and of servers, and the
    supply of random names; what keeps them apart is that every end has a name of its own and that
    the name of a server tells its group. So a group can be described alone, by the operations on
    it:

        on 0: make 2   on 7: make 3   on 0: ConnectAll   on 7: ShutdownServer 1
             │              └───────────────┼──────────────────┘
             └──────────────────────────────┘        two plans, one network

    Clients and their ends are left to their own model. A pointer to a group that has been replaced
    or deleted is not used any more. -/

namespace DistSys.Tester
open GoString (lit itoa)
open LabRpc (Network ServerRef)
open Machine (run run_cons run_foldl run_history run_invariant)

/-- A `ServerGrp` without what it shares with the others. -/
structure Grp (E : Type) where
  n : ℕ
  srvs : Fin n → Option (Server E n)
  connected : Fin n → Bool

/-- `Groups`, with the number of random names and of server objects made so far. -/
structure Groups (E : Type) where
  net : Network E GoString
  grps : ℕ → Option (Grp E)
  drawn : ℕ
  made : ServerRef

/-- The operations of a group, with `Partition`. -/
inductive SrvOp (n : ℕ) where
  | plain (op : GrpOp n)
  | partition (p1 p2 : List (Fin n))

inductive GroupsOp where
  | makeGroup (nsrv : ℕ)
  | makeGroupStart (nsrv : ℕ)
  | exitGroup
  | on (n : ℕ) (op : SrvOp n)

section definitions
variable {E : Type} [DecidableEq E] {n : ℕ} (names : ℕ → E)

def ServerGrp.does (sg : ServerGrp E n) : SrvOp n → Option (ServerGrp E n)
  | .plain op => sg.apply names op
  | .partition p1 p2 => sg.partition p1 p2

/-- `makeSrvGrp`, when names have been drawn and server objects made before. -/
def makeSrvGrpFrom (net : Network E GoString) (gid n drawn : ℕ) (made : ServerRef) :
    Option (ServerGrp E n) :=
  run (fun sg i => sg.newServer names i) ⟨net, fun _ => none, gid, fun _ => false, drawn, made⟩
    (List.finRange n)

example (net : Network E GoString) (gid n : ℕ) :
    makeSrvGrp names net gid n = makeSrvGrpFrom names net gid n 0 0 := rfl

def newGroups (net : Network E GoString) : Groups E := ⟨net, fun _ => none, 0, 0⟩

namespace Groups
variable (gs : Groups E) (gid : ℕ)

/-- The group as its methods see it. -/
def sg (g : Grp E) : ServerGrp E g.n := ⟨gs.net, g.srvs, gid, g.connected, gs.drawn, gs.made⟩

def put (sg : ServerGrp E n) : Groups E :=
  ⟨sg.net, Function.update gs.grps gid (some ⟨n, sg.srvs, sg.connected⟩), sg.drawn, sg.made⟩

def makeGroup (nsrv : ℕ) : Option (Groups E) :=
  (makeSrvGrpFrom names gs.net gid nsrv gs.drawn gs.made).map (gs.put gid)

/-- A method of `Group(gid)`. There has to be such a group, and of this size. -/
def on (n : ℕ) (op : SrvOp n) : Option (Groups E) :=
  (gs.grps gid).bind fun g =>
    if h : n = g.n then ((gs.sg gid g).does names (h ▸ op)).map (gs.put gid) else none

def makeGroupStart (nsrv : ℕ) : Option (Groups E) :=
  (gs.makeGroup names gid nsrv).bind fun gs => gs.on names gid nsrv (.plain .startServers)

def exitGroup : Option (Groups E) :=
  (gs.grps gid).bind fun g => (gs.on names gid g.n (.plain .shutdown)).map fun gs =>
    { gs with grps := Function.update gs.grps gid none }

def step (act : ℕ × GroupsOp) : Option (Groups E) :=
  match act.2 with
  | .makeGroup nsrv => gs.makeGroup names act.1 nsrv
  | .makeGroupStart nsrv => gs.makeGroupStart names act.1 nsrv
  | .exitGroup => gs.exitGroup names act.1
  | .on n op => gs.on names act.1 n op

end Groups
end definitions

/-! ### A group alone -/

/-- Which links of a group are up, and which of the names of its servers are registered. -/
structure GrpView (n : ℕ) where
  topology : Topology (Fin n)
  up : ℕ → Bool

namespace GrpView
variable {n : ℕ} (v : GrpView n)

def connect (i : Fin n) (others : List (Fin n)) : GrpView n :=
  { v with topology := v.topology.connect i others }

def disconnect (i : Fin n) (others : List (Fin n)) : GrpView n :=
  { v with topology := v.topology.disconnect i others }

def connectAll : GrpView n := (List.finRange n).foldl (fun v i => v.connect i (List.finRange n)) v

def startServer (i : Fin n) : GrpView n := ⟨v.topology.replace i, Function.update v.up i true⟩

def shutdownServer (i : Fin n) : GrpView n :=
  ⟨v.topology.disconnect i (List.finRange n), Function.update v.up i false⟩

def side (p q : List (Fin n)) : GrpView n := p.foldl (fun v i => (v.disconnect i q).connect i p) v

def does : SrvOp n → GrpView n
  | .plain .startServers => ((List.finRange n).foldl startServer v).connectAll
  | .plain (.restart i) => (v.startServer i).connectAll
  | .plain (.startServer i) => v.startServer i
  | .plain (.connectOne i) => v.connect i (List.finRange n)
  | .plain .connectAll => v.connectAll
  | .plain (.disconnectAll i) => v.disconnect i (List.finRange n)
  | .plain .shutdown => (List.finRange n).foldl shutdownServer v
  | .plain (.shutdownServer i) => v.shutdownServer i
  | .partition p1 p2 => (v.side p1 p2).side p2 p1

end GrpView

/-- All flags and links down. -/
def allOff (n : ℕ) : Topology (Fin n) := ⟨fun _ => false, fun _ _ => false⟩

/-- A group as the operations on it leave it, if there is one, and the names registered. -/
structure Plan where
  grp : Option (Σ n, Topology (Fin n))
  up : ℕ → Bool

def Plan.on (p : Plan) (n : ℕ) (op : SrvOp n) : Plan :=
  match p.grp with
  | none => p
  | some ⟨m, t⟩ =>
      if h : n = m then
        let v := GrpView.does ⟨t, p.up⟩ (h ▸ op)
        ⟨some ⟨m, v.topology⟩, v.up⟩
      else p

def Plan.step (p : Plan) : GroupsOp → Plan
  | .makeGroup nsrv => { p with grp := some ⟨nsrv, allOff nsrv⟩ }
  | .makeGroupStart nsrv =>
      Plan.on { p with grp := some ⟨nsrv, allOff nsrv⟩ } nsrv (.plain .startServers)
  | .exitGroup =>
      match p.grp with
      | none => p
      | some ⟨m, _⟩ => { p.on m (.plain .shutdown) with grp := none }
  | .on n op => p.on n op

/-- There has to be a group, and of this size, unless one is made. -/
def Plan.Allows (p : Plan) : GroupsOp → Prop
  | .makeGroup _ => True
  | .makeGroupStart _ => True
  | .exitGroup => ∃ g, p.grp = some g
  | .on n _ => ∃ t, p.grp = some ⟨n, t⟩

/-- What the operations on one group come to, in their order. -/
def planOf (gid : ℕ) (acts : List (ℕ × GroupsOp)) : Plan :=
  ((acts.filter (·.1 = gid)).map Prod.snd).foldl Plan.step ⟨none, fun _ => false⟩

/-! ### What a group touches -/

section frame
variable {E : Type} {n : ℕ} {names : ℕ → E}

def ServerGrp.Owns (sg : ServerGrp E n) (e : E) : Prop :=
  ∃ i srv j, sg.srvs i = some srv ∧ srv.endNames j = e

/-- Its ends lead to its own servers. -/
def ServerGrp.Leads (sg : ServerGrp E n) : Prop :=
  ∀ i srv j, sg.srvs i = some srv → sg.net.connections (srv.endNames j) = some (serverName sg.gid j)

structure ServerGrp.Sound (names : ℕ → E) (sg : ServerGrp E n) :
    Prop extends sg.Complete names where
  leads : sg.Leads

def ServerGrp.view (sg : ServerGrp E n) : GrpView n :=
  ⟨sg.topology, fun j => (sg.net.servers (some (serverName sg.gid j))).isSome⟩

/-- Two networks agree about an end. -/
structure SameEnd (net net' : Network E GoString) (e : E) : Prop where
  ends : net'.ends e = net.ends e
  enabled : net'.enabled e = net.enabled e
  connections : net'.connections e = net.connections e

/-- A group touches its own ends, those it draws, and the names of its own servers. -/
structure Touched (names : ℕ → E) (sg sg' : ServerGrp E n) : Prop where
  gid : sg'.gid = sg.gid
  drawn : sg.drawn ≤ sg'.drawn
  owned : ∀ e, sg'.Owns e → sg.Owns e ∨ ∃ k, sg.drawn ≤ k ∧ k < sg'.drawn ∧ names k = e
  outside : ∀ e, ¬ sg.Owns e → (∀ k, sg.drawn ≤ k → k < sg'.drawn → names k ≠ e) →
    SameEnd sg.net sg'.net e
  servers : ∀ name, (∀ i, name ≠ some (serverName sg.gid i)) →
    sg'.net.servers name = sg.net.servers name

variable {sg sg₁ sg₂ : ServerGrp E n}

theorem Touched.refl (sg : ServerGrp E n) : Touched names sg sg :=
  ⟨rfl, le_rfl, fun _ h => Or.inl h, fun _ _ _ => ⟨rfl, rfl, rfl⟩, fun _ _ => rfl⟩

theorem Touched.trans (h : Touched names sg sg₁) (h' : Touched names sg₁ sg₂) :
    Touched names sg sg₂ where
  gid := h'.gid.trans h.gid
  drawn := h.drawn.trans h'.drawn
  owned e he := by
    rcases h'.owned e he with he | ⟨k, hk, hk', hname⟩
    · exact (h.owned e he).imp_right fun ⟨k, hk, hk', hname⟩ =>
        ⟨k, hk, hk'.trans_le h'.drawn, hname⟩
    · exact Or.inr ⟨k, h.drawn.trans hk, hk', hname⟩
  outside e he hk := by
    have hfirst := h.outside e he fun k hlo hhi => hk k hlo (hhi.trans_le h'.drawn)
    have hnot : ¬ sg₁.Owns e := fun hown => by
      rcases h.owned e hown with hown | ⟨k, hlo, hhi, hname⟩
      · exact he hown
      · exact hk k hlo (hhi.trans_le h'.drawn) hname
    have hsecond := h'.outside e hnot fun k hlo => hk k (h.drawn.trans hlo)
    exact ⟨hsecond.ends.trans hfirst.ends, hsecond.enabled.trans hfirst.enabled,
      hsecond.connections.trans hfirst.connections⟩
  servers name hname := by rw [h'.servers name (by rw [h.gid]; exact hname), h.servers name hname]

/-- The operation goes through; what it touches and what it leaves is known. -/
def Does (names : ℕ → E) (sg : ServerGrp E n) (o : Option (ServerGrp E n)) (v : GrpView n) : Prop :=
  ∃ sg', o = some sg' ∧ (sg'.Sound names ∧ Touched names sg sg') ∧ sg'.view = v

theorem Does.bind {o : Option (ServerGrp E n)} {v : GrpView n}
    {f : ServerGrp E n → Option (ServerGrp E n)} {g : GrpView n → GrpView n} (h : Does names sg o v)
    (hf : ∀ sg : ServerGrp E n, sg.Sound names → Does names sg (f sg) (g sg.view)) :
    Does names sg (o.bind f) (g v) := by
  obtain ⟨sg₁, rfl, ⟨hs, ht⟩, rfl⟩ := h
  obtain ⟨sg₂, hsg₂, ⟨hs', ht'⟩, hview⟩ := hf sg₁ hs
  exact ⟨sg₂, hsg₂, ⟨hs', ht.trans ht'⟩, hview⟩

/-- A loop over servers. -/
theorem does_run {f : ServerGrp E n → Fin n → Option (ServerGrp E n)}
    {g : GrpView n → Fin n → GrpView n}
    (hstep : ∀ (sg : ServerGrp E n) i, sg.Sound names → Does names sg (f sg i) (g sg.view i))
    (h : sg.Sound names) (l : List (Fin n)) : Does names sg (run f sg l) (l.foldl g sg.view) := by
  refine run_foldl ⟨h, .refl sg⟩ l fun sg₁ i _ hinv => ?_
  obtain ⟨sg₂, hsg₂, ⟨hs, ht⟩, hview⟩ := hstep sg₁ i hinv.1
  exact ⟨sg₂, hsg₂, ⟨hs, hinv.2.trans ht⟩, hview⟩

/-! ### Switching ends -/

/-- Some ends have been enabled or disabled. -/
def Switches (own : E → Prop) (net net' : Network E GoString) : Prop :=
  ∃ enabled, net' = { net with enabled := enabled } ∧ ∀ e, ¬ own e → enabled e = net.enabled e

/-- The flags of a group and its own ends are switched. -/
theorem ServerGrp.Sound.switches {connected : Fin n → Bool} {net : Network E GoString}
    (h : sg.Sound names) (hsw : Switches sg.Owns sg.net net)
    (hc : ({ sg with connected := connected, net := net } : ServerGrp E n).Complete names) :
    ({ sg with connected := connected, net := net } : ServerGrp E n).Sound names ∧
      Touched names sg { sg with connected := connected, net := net } := by
  obtain ⟨enabled, rfl, hrest⟩ := hsw
  exact ⟨⟨hc, h.leads⟩, rfl, le_rfl, fun e he => Or.inl he, fun e he _ => ⟨rfl, hrest e he, rfl⟩,
    fun _ _ => rfl⟩

variable [DecidableEq E]

theorem Switches.enable {own : E → Prop} {net n₁ n₂ : Network E GoString} {e : E} {on : Bool}
    (h : Switches own net n₁) (he : own e) (hn : n₁.config (.enable e on) = some n₂) :
    Switches own net n₂ := by
  obtain ⟨enabled, rfl, hrest⟩ := h
  obtain rfl := Option.some.inj hn
  refine ⟨_, rfl, fun x hx => ?_⟩
  have hne : x ≠ e := fun heq => hx (heq ▸ he)
  exact (Function.update_of_ne hne _ _).trans (hrest x hx)

/-- The loops of `connect` and `disconnect`. -/
theorem Switches.run {ι : Type} {own : E → Prop}
    {f : Network E GoString → ι → Option (Network E GoString)}
    (hf : ∀ n₁ j n₂, f n₁ j = some n₂ → n₂ = n₁ ∨ ∃ e on, own e ∧
      n₁.config (.enable e on) = some n₂)
    {net n₁ n₂ : Network E GoString} {l : List ι} (h : Switches own net n₁)
    (hrun : run f n₁ l = some n₂) :
    Switches own net n₂ := by
  refine @run_invariant _ _ _ (Switches own net) (fun n₁ j n₂ h hstep => ?_) _ _ _ h hrun
  rcases hf n₁ j n₂ hstep with rfl | ⟨e, on, he, hconf⟩
  · exact h
  · exact h.enable he hconf

omit [DecidableEq E] in
theorem Switches.refl (own : E → Prop) (net : Network E GoString) : Switches own net net :=
  ⟨net.enabled, rfl, fun _ _ => rfl⟩

theorem ServerGrp.Sound.connect (h : sg.Sound names) (i : Fin n) (others : List (Fin n)) :
    Does names sg (sg.connect i others) (sg.view.connect i others) := by
  obtain ⟨sg', hsg', hc, htop⟩ := h.toComplete.connect (i := i) others
  obtain ⟨srv, hsrv, hsome⟩ := Option.bind_eq_some_iff.mp hsg'
  obtain ⟨n₁, hout, hsome⟩ := Option.bind_eq_some_iff.mp hsome
  obtain ⟨n₂, hin, rfl⟩ := Option.map_eq_some_iff.mp hsome
  have hsw : Switches sg.Owns sg.net n₂ := by
    refine ((Switches.refl sg.Owns sg.net).run (fun n₁ j n₂ hf => ?_) hout).run
      (fun n₁ j n₂ hf => ?_) hin
    · split at hf
      · exact Or.inr ⟨_, _, ⟨i, srv, j, hsrv, rfl⟩, hf⟩
      · exact Or.inl (Option.some.inj hf).symm
    · split at hf
      · obtain ⟨s, hs, hf⟩ := Option.bind_eq_some_iff.mp hf
        exact Or.inr ⟨_, _, ⟨j, s, i, hs, rfl⟩, hf⟩
      · exact Or.inl (Option.some.inj hf).symm
  refine ⟨_, hsg', h.switches hsw hc, ?_⟩
  obtain ⟨enabled, rfl, -⟩ := hsw
  simp only [ServerGrp.view, GrpView.connect, htop]

theorem ServerGrp.Sound.disconnect (h : sg.Sound names) (i : Fin n) (others : List (Fin n)) :
    Does names sg (sg.disconnect i others) (sg.view.disconnect i others) := by
  obtain ⟨sg', hsg', hc, htop⟩ := h.toComplete.disconnect (i := i) others
  obtain ⟨srv, hsrv, hsome⟩ := Option.bind_eq_some_iff.mp hsg'
  obtain ⟨n₁, hout, hsome⟩ := Option.bind_eq_some_iff.mp hsome
  obtain ⟨n₂, hin, rfl⟩ := Option.map_eq_some_iff.mp hsome
  have hsw : Switches sg.Owns sg.net n₂ := by
    refine ((Switches.refl sg.Owns sg.net).run (fun n₁ j n₂ hf => ?_) hout).run
      (fun n₁ j n₂ hf => ?_) hin
    · exact Or.inr ⟨_, _, ⟨i, srv, j, hsrv, rfl⟩, hf⟩
    · obtain ⟨s, hs, hf⟩ := Option.bind_eq_some_iff.mp hf
      exact Or.inr ⟨_, _, ⟨j, s, i, hs, rfl⟩, hf⟩
  refine ⟨_, hsg', h.switches hsw hc, ?_⟩
  obtain ⟨enabled, rfl, -⟩ := hsw
  simp only [ServerGrp.view, GrpView.disconnect, htop]

/-! ### Making ends -/

/-- The loop of `makeServer` leaves the other ends alone and connects each new one. -/
theorem run_makeEnd_connects {ι : Type} {e : ι → E} {srvname : ι → GoString}
    (he : Function.Injective e) {l : List ι} {net net' : Network E GoString}
    (hrun : run (fun net j => (net.config (.makeEnd (e j))).bind fun net =>
      net.config (.connect (e j) (some (srvname j)))) net l = some net') :
    net'.servers = net.servers ∧ (∀ x, (∀ j ∈ l, e j ≠ x) → SameEnd net net' x) ∧
      ∀ j ∈ l, net'.connections (e j) = some (srvname j) := by
  refine run_history (P := fun l net' => net'.servers = net.servers ∧
    (∀ x, (∀ j ∈ l, e j ≠ x) → SameEnd net net' x) ∧ ∀ j ∈ l,
      net'.connections (e j) = some (srvname j))
    ⟨rfl, fun _ _ => ⟨rfl, rfl, rfl⟩, fun _ h => absurd h List.not_mem_nil⟩ ?_ hrun
  rintro l n₁ j n₂ - ⟨hservers, hrest, hconn⟩ hstep
  obtain ⟨n₃, hmake, hn₂⟩ := Option.bind_eq_some_iff.mp hstep
  simp only [Network.config, Option.ite_none_left_eq_some] at hmake
  obtain rfl := Option.some.inj hmake.2
  obtain rfl := Option.some.inj hn₂
  refine ⟨hservers, fun x hx => ?_, fun j' hj' => ?_⟩
  · have hne : x ≠ e j := (hx j (by simp)).symm
    obtain ⟨hends, henabled, hconns⟩ := hrest x fun j' hj' => hx j' (List.mem_append_left _ hj')
    exact ⟨by simpa [hne] using hends, by simpa [hne] using henabled, by simpa [hne] using hconns⟩
  · rcases eq_or_ne j' j with rfl | hne
    · simp
    · have hmem : j' ∈ l := by simpa [hne] using hj'
      simpa [he.ne hne] using hconn j' hmem

/-- New ends lead to the servers of the group; those of other servers still do. -/
theorem ServerGrp.Wf.newServer_touches (hnames : Function.Injective names)
    (h : sg.Wf names) (hl : sg.Leads) {i : Fin n} (hnew : sg.newServer names i = some sg₁) :
    sg₁.Leads ∧ Touched names sg sg₁ ∧ sg₁.net.servers = sg.net.servers := by
  simp only [ServerGrp.newServer, makeServer, Option.map_map, Option.map_eq_some_iff] at hnew
  obtain ⟨net, hrun, rfl⟩ := hnew
  have hinj : Function.Injective fun j : Fin n => names (sg.drawn + j) := fun j j' heq =>
    Fin.ext (Nat.add_left_cancel (hnames heq))
  obtain ⟨hservers, hrest, hconn⟩ := run_makeEnd_connects hinj hrun
  refine ⟨fun a srv j hsrv => ?_, ⟨rfl, Nat.le_add_right _ _, fun e he => ?_, fun e _ hk => ?_,
    fun name _ => congrFun hservers name⟩, hservers⟩
  · obtain ⟨rfl, rfl⟩ | ⟨-, hsrv⟩ := update_some hsrv
    · exact hconn j (List.mem_finRange j)
    · obtain ⟨k, hk, hname⟩ := h.drawn a srv j hsrv
      refine (hrest _ fun j' _ heq => ?_).connections.trans (hl a srv j hsrv)
      have := hnames (heq.trans hname)
      omega
  · obtain ⟨a, srv, j, hsrv, rfl⟩ := he
    obtain ⟨rfl, rfl⟩ | ⟨-, hsrv⟩ := update_some hsrv
    · exact Or.inr ⟨sg.drawn + j, Nat.le_add_right _ _, Nat.add_lt_add_left j.isLt _, rfl⟩
    · exact Or.inl ⟨a, srv, j, hsrv, rfl⟩
  · exact hrest e fun j _ => hk _ (Nat.le_add_right _ _) (Nat.add_lt_add_left j.isLt _)

/-! ### The operations of a group -/

theorem serverName_injective {gid gid' i i' : ℕ} (h : serverName gid i = serverName gid' i') :
    gid = gid' ∧ i = i' := by
  have hdash : ∀ a s, itoa a ++ (lit "-" ++ s) = itoa a ++ 0x2D :: s := fun _ _ => rfl
  simp only [serverName, List.append_assoc, List.append_cancel_left_eq, hdash] at h
  obtain ⟨hgid, hi⟩ :=
    GoString.digits_append_inj (GoString.itoa_digits gid) (GoString.itoa_digits gid')
    (by decide) (by decide) h
  exact ⟨GoString.itoa_injective hgid, GoString.itoa_injective (List.cons_eq_cons.mp hi).2⟩

omit [DecidableEq E] in
/-- The name of one of its servers is registered, or no more. -/
theorem ServerGrp.Sound.register (h : sg.Sound names) (i : Fin n) (ref : Option ServerRef)
    (made : ServerRef) : Does names sg (some { sg with
      net := { sg.net with
        servers := Function.update sg.net.servers (some (serverName sg.gid i)) ref }
      made := made }) ⟨sg.topology, Function.update sg.view.up i ref.isSome⟩ := by
  refine ⟨_, rfl, ⟨⟨⟨⟨h.drawn, h.distinct, h.fresh⟩, h.present⟩, h.leads⟩,
    ⟨rfl, le_rfl, fun _ he => Or.inl he, fun _ _ _ => ⟨rfl, rfl, rfl⟩,
      fun name hname => Function.update_of_ne (hname i) _ _⟩⟩, ?_⟩
  simp only [ServerGrp.view, GrpView.mk.injEq]
  refine ⟨rfl, funext fun j => ?_⟩
  rcases eq_or_ne j i with rfl | hne
  · simp
  · have hname : some (serverName sg.gid j) ≠ some (serverName sg.gid i) := fun heq =>
      hne (serverName_injective (Option.some.inj heq)).2
    rw [Function.update_of_ne hname, Function.update_of_ne hne]

theorem ServerGrp.Sound.startServer (hnames : Function.Injective names)
    (h : sg.Sound names) (i : Fin n) :
    Does names sg (sg.startServer names i) (sg.view.startServer i) := by
  obtain ⟨srv, hsrv⟩ := h.present i
  obtain ⟨sg₁, hnew, hwf, htop, hpresent⟩ := h.newServer hnames i
  obtain ⟨hleads, htouched, hservers⟩ := h.newServer_touches hnames h.leads hnew
  have hsound : sg₁.Sound names := ⟨⟨hwf, fun a => hpresent a (Or.inr (h.present a))⟩, hleads⟩
  obtain ⟨sg₂, hsome, ⟨hs, ht⟩, hview⟩ := hsound.register i (some sg₁.made) (sg₁.made + 1)
  refine ⟨sg₂, ?_, ⟨hs, htouched.trans ht⟩, ?_⟩
  · rw [← hsome, ServerGrp.startServer, hsrv, Option.bind_some, hnew, Option.bind_some]
    rfl
  · rw [hview, htop]
    simp only [ServerGrp.view, GrpView.startServer, hservers, htouched.gid, Option.isSome_some]

theorem ServerGrp.Sound.shutdownServer (h : sg.Sound names) (i : Fin n) :
    Does names sg (sg.shutdownServer i) (sg.view.shutdownServer i) := by
  refine (h.disconnect i (List.finRange n)).bind
    (g := fun v => ⟨v.topology, Function.update v.up i false⟩) fun sg₁ hs => ?_
  exact hs.register i none sg₁.made

theorem ServerGrp.Sound.connectAll (h : sg.Sound names) :
    Does names sg sg.connectAll sg.view.connectAll :=
  does_run (fun _ i h => h.connect i _) h _

theorem ServerGrp.Sound.side (h : sg.Sound names) (p q : List (Fin n)) :
    Does names sg (sg.side p q) (sg.view.side p q) :=
  does_run
    (fun _ i h => (h.disconnect i q).bind (g := fun v => v.connect i p) fun _ h => h.connect i p)
    h p

/-- Every operation of a group goes through, and does what the view says. -/
theorem ServerGrp.Sound.does (hnames : Function.Injective names)
    (h : sg.Sound names) (op : SrvOp n) : Does names sg (sg.does names op) (sg.view.does op) := by
  cases op with
  | partition p1 p2 =>
    exact (h.side p1 p2).bind (g := fun v => v.side p2 p1) fun _ h => h.side p2 p1
  | plain op =>
    cases op with
    | startServers =>
      have hstart : Does names sg (sg.start names) _ :=
        does_run (fun _ i h => h.startServer hnames i) h _
      exact hstart.bind (g := GrpView.connectAll) fun _ h => h.connectAll
    | restart i => exact (h.startServer hnames i).bind (g := GrpView.connectAll) fun _ h =>
      h.connectAll
    | startServer i => exact h.startServer hnames i
    | connectOne i => exact h.connect i _
    | connectAll => exact h.connectAll
    | disconnectAll i => exact h.disconnect i _
    | shutdown => exact does_run (fun _ i h => h.shutdownServer i) h _
    | shutdownServer i => exact h.shutdownServer i

/-- `makeSrvGrp` makes the servers one by one; none of them is registered, all ends are disabled. -/
theorem run_newServer_touches (hnames : Function.Injective names)
    (l : List (Fin n)) {sg : ServerGrp E n} (hwf : sg.Wf names) (hl : sg.Leads)
    (htop : sg.topology = allOff n) :
    ∃ sg', run (fun sg i => sg.newServer names i) sg l = some sg' ∧ sg'.Wf names ∧ sg'.Leads ∧
      Touched names sg sg' ∧ sg'.net.servers = sg.net.servers ∧ sg'.topology = allOff n ∧
      ∀ a, a ∈ l ∨ (∃ srv, sg.srvs a = some srv) → ∃ srv, sg'.srvs a = some srv := by
  induction l generalizing sg with
  | nil =>
    exact ⟨sg, rfl, hwf, hl, .refl sg, rfl, htop, fun a ha => ha.resolve_left List.not_mem_nil⟩
  | cons i l ih =>
    obtain ⟨sg₁, hnew, hwf₁, htop₁, hpresent⟩ := hwf.newServer hnames i
    obtain ⟨hl₁, ht₁, hservers₁⟩ := hwf.newServer_touches hnames hl hnew
    have hoff : sg₁.topology = allOff n := by
      rw [htop₁, htop]
      simp [Topology.replace, allOff]
    obtain ⟨sg', hrun, hwf', hl', ht', hservers', htop', hpresent'⟩ := ih hwf₁ hl₁ hoff
    refine ⟨sg', run_cons.mpr ⟨sg₁, hnew, hrun⟩, hwf', hl', ht₁.trans ht',
      hservers'.trans hservers₁, htop', fun a ha => hpresent' a ?_⟩
    rcases ha with ha | ha
    · rcases List.mem_cons.mp ha with rfl | ha
      · exact Or.inr (hpresent a (Or.inl rfl))
      · exact Or.inl ha
    · exact Or.inr (hpresent a (Or.inr ha))

end frame

/-! ### All groups -/

section groups
variable {E : Type} {names : ℕ → E}

/-- The groups are sound, and no end belongs to two of them. -/
structure Groups.Inv (names : ℕ → E) (gs : Groups E) : Prop where
  sound : ∀ gid g, gs.grps gid = some g → (gs.sg gid g).Sound names
  apart : ∀ gid gid' g g' e, gs.grps gid = some g → gs.grps gid' = some g' → gid ≠ gid' →
    (gs.sg gid g).Owns e → ¬ (gs.sg gid' g').Owns e
  fresh : ∀ k, gs.drawn ≤ k → gs.net.ends (names k) = false

/-- What is to be seen of one group. -/
def Groups.plan (gs : Groups E) (gid : ℕ) : Plan where
  grp := (gs.grps gid).map fun g => ⟨g.n, (gs.sg gid g).topology⟩
  up j := (gs.net.servers (some (serverName gid j))).isSome

variable {gs gs' : Groups E} {gid n : ℕ}

theorem Groups.Inv.new {net : Network E GoString} (hfresh : ∀ k, net.ends (names k) = false) :
    (newGroups net).Inv names :=
  ⟨fun _ _ h => (by cases h), fun _ _ _ _ _ h => (by cases h), fun k _ => hfresh k⟩

/-- An end of another group was drawn before, and does not belong to this one. -/
theorem Groups.Inv.sameEnd (hnames : Function.Injective names) (h : gs.Inv names)
    {sg sg' : ServerGrp E n} (hdrawn : sg.drawn = gs.drawn) (hnet : sg.net = gs.net)
    (ht : Touched names sg sg') {gid' : ℕ} {g : Grp E}
    (hg : gs.grps gid' = some g) (hother : ∀ e, (gs.sg gid' g).Owns e → ¬ sg.Owns e) {e : E}
    (he : (gs.sg gid' g).Owns e) : SameEnd gs.net sg'.net e := by
  rw [← hnet]
  refine ht.outside e (hother e he) fun k hk _ heq => ?_
  obtain ⟨i, srv, j, hsrv, rfl⟩ := he
  obtain ⟨k', hk', hname⟩ := (h.sound gid' g hg).drawn i srv j hsrv
  have hsame := hnames (heq.trans hname)
  have hlt : k' < gs.drawn := hk'
  omega

/-- One group has been operated on. The others are sound as before, and look the same. -/
theorem Groups.Inv.put (hnames : Function.Injective names) (h : gs.Inv names)
    {sg sg' : ServerGrp E n} (hgid : sg.gid = gid) (hdrawn : sg.drawn = gs.drawn)
    (hnet : sg.net = gs.net)
    (hother : ∀ gid' g e, gs.grps gid' = some g → gid' ≠ gid → (gs.sg gid' g).Owns e → ¬ sg.Owns e)
    (hs : sg'.Sound names) (ht : Touched names sg sg') :
    (gs.put gid sg').Inv names ∧ ∀ gid', gid' ≠ gid →
      (gs.put gid sg').plan gid' = gs.plan gid' := by
  have hsame : ∀ {gid' g e}, gs.grps gid' = some g → gid' ≠ gid → (gs.sg gid' g).Owns e →
      SameEnd gs.net sg'.net e := fun hg hne he =>
    h.sameEnd hnames hdrawn hnet ht hg (fun e he => hother _ _ e hg hne he) he
  have hdrawn' : gs.drawn ≤ sg'.drawn := hdrawn ▸ ht.drawn
  have hgid' : sg'.gid = gid := ht.gid.trans hgid
  -- an end of the group, after the operation, is not one of another group
  have hnot : ∀ {gid' g e}, gs.grps gid' = some g → gid' ≠ gid →
      (gs.sg gid' g).Owns e → ¬ sg'.Owns e := by
    intro gid' g e hg hne he hown
    rcases ht.owned e hown with hown | ⟨k, hk, -, hname⟩
    · exact hother gid' g e hg hne he hown
    · obtain ⟨i, srv, j, hsrv, rfl⟩ := he
      obtain ⟨k', hk', hname'⟩ := (h.sound gid' g hg).drawn i srv j hsrv
      have hkk := hnames (hname.trans hname')
      have hlt : k' < gs.drawn := hk'
      omega
  refine ⟨⟨fun gid' g hg => ?_, fun gid₁ gid₂ g₁ g₂ e hg₁ hg₂ hne he he' => ?_,
    fun k hk => hs.fresh k hk⟩, fun gid' hne => ?_⟩
  · obtain ⟨rfl, rfl⟩ | ⟨hne, hg⟩ := update_some hg
    · subst hgid'
      exact hs
    · have hold := h.sound gid' g hg
      refine ⟨⟨⟨fun i srv j hsrv => ?_, hold.distinct, fun k hk => hs.fresh k hk⟩, hold.present⟩,
        fun i srv j hsrv => ?_⟩
      · obtain ⟨k, hk, hname⟩ := hold.drawn i srv j hsrv
        exact ⟨k, Nat.lt_of_lt_of_le hk hdrawn', hname⟩
      · exact (hsame hg hne ⟨i, srv, j, hsrv, rfl⟩).connections.trans (hold.leads i srv j hsrv)
  · obtain ⟨rfl, rfl⟩ | ⟨hne₁, hold₁⟩ := update_some hg₁ <;>
      obtain ⟨rfl, rfl⟩ | ⟨hne₂, hold₂⟩ := update_some hg₂
    · exact hne rfl
    · exact hnot hold₂ hne₂ he' he
    · exact hnot hold₁ hne₁ he he'
    · exact h.apart gid₁ gid₂ g₁ g₂ e hold₁ hold₂ hne he he'
  · simp only [Groups.plan, Groups.put, Function.update_of_ne hne, Plan.mk.injEq]
    constructor
    · cases hg : gs.grps gid' with
      | none => rfl
      | some g =>
        simp only [Option.map_some, ServerGrp.topology, Groups.sg]
        congr 3
        funext i j
        cases hsrv : g.srvs i with
        | none => rfl
        | some srv => exact (hsame hg hne ⟨i, srv, j, hsrv, rfl⟩).enabled
    · funext j
      rw [← hnet, ht.servers]
      intro i heq
      exact hne ((serverName_injective (Option.some.inj heq)).1.trans hgid)

theorem Groups.plan_put {sg : ServerGrp E n} (hgid : sg.gid = gid) :
    (gs.put gid sg).plan gid = ⟨some ⟨n, sg.topology⟩, sg.view.up⟩ := by
  subst hgid
  simp only [Groups.plan, Groups.put, Function.update_self, Option.map_some]
  rfl

theorem Groups.Inv.delete (h : gs.Inv names) (gid : ℕ) :
    ({ gs with grps := Function.update gs.grps gid none } : Groups E).Inv names := by
  have hold : ∀ {gid' g}, Function.update gs.grps gid none gid' = some g →
      gs.grps gid' = some g := by
    intro gid' g hg
    rcases eq_or_ne gid' gid with rfl | hne
    · simp at hg
    · rwa [Function.update_of_ne hne] at hg
  exact ⟨fun gid' g hg => h.sound gid' g (hold hg),
    fun gid₁ gid₂ g₁ g₂ e hg₁ hg₂ => h.apart gid₁ gid₂ g₁ g₂ e (hold hg₁) (hold hg₂), h.fresh⟩

/-- The operation on `gid` goes through and makes `p` of its plan; the other plans stay. -/
def Refines (names : ℕ → E) (gs : Groups E) (gid : ℕ) (o : Option (Groups E)) (p : Plan) : Prop :=
  ∃ gs', o = some gs' ∧ gs'.Inv names ∧ gs'.plan gid = p ∧ ∀ gid', gid' ≠ gid →
    gs'.plan gid' = gs.plan gid'

variable [DecidableEq E]

theorem Groups.Inv.on (hnames : Function.Injective names) (h : gs.Inv names) {g : Grp E}
    (hg : gs.grps gid = some g) (op : SrvOp g.n) :
    Refines names gs gid (gs.on names gid g.n op) ((gs.plan gid).on g.n op) := by
  obtain ⟨sg', hdoes, ⟨hs, ht⟩, hview⟩ := (h.sound gid g hg).does hnames op
  have hgid : (gs.sg gid g).gid = gid := rfl
  obtain ⟨hinv, hrest⟩ := h.put hnames hgid rfl rfl
    (fun gid' g' e hg' hne => h.apart gid' gid g' g e hg' hg hne) hs ht
  refine ⟨gs.put gid sg', by simp [Groups.on, hg, hdoes], hinv, ?_, hrest⟩
  have htop : sg'.topology = ((gs.sg gid g).view.does op).topology :=
    congrArg GrpView.topology hview
  rw [Groups.plan_put (ht.gid.trans hgid), hview, htop]
  simp only [Plan.on, Groups.plan, hg, Option.map_some, dite_true]
  rfl

theorem Groups.Inv.makeGroup (hnames : Function.Injective names) (h : gs.Inv names) (gid nsrv : ℕ) :
    Refines names gs gid (gs.makeGroup names gid nsrv) ((gs.plan gid).step (.makeGroup nsrv)) ∧
      ∀ gs', gs.makeGroup names gid nsrv = some gs' → ∃ g, gs'.grps gid = some g ∧ g.n = nsrv := by
  have hempty :
    (⟨gs.net, fun _ => none, gid, fun _ => false, gs.drawn, gs.made⟩ : ServerGrp E nsrv).Wf names :=
    ⟨fun _ _ _ h => (by cases h), fun _ _ _ _ _ _ h => (by cases h), h.fresh⟩
  obtain ⟨sg', hrun, hwf, hl, ht, hservers, htop, hpresent⟩ :=
    run_newServer_touches hnames (List.finRange nsrv) hempty (fun _ _ _ h => (by cases h)) rfl
  have hs : sg'.Sound names := ⟨⟨hwf, fun a => hpresent a (Or.inl (List.mem_finRange a))⟩, hl⟩
  have hgid : sg'.gid = gid := ht.gid
  obtain ⟨hinv, hrest⟩ := h.put hnames (ht.gid.symm.trans hgid) rfl rfl
    (by rintro _ _ _ _ _ _ ⟨_, _, _, hsrv, _⟩; cases hsrv) hs ht
  have hmake : gs.makeGroup names gid nsrv = some (gs.put gid sg') := by
    rw [Groups.makeGroup, makeSrvGrpFrom, hrun, Option.map_some]
  refine ⟨⟨gs.put gid sg', hmake, hinv, ?_, hrest⟩, fun gs' hgs' => ?_⟩
  · rw [Groups.plan_put hgid, htop]
    simp only [ServerGrp.view, hservers, hgid]
    rfl
  · obtain rfl := Option.some.inj (hmake.symm.trans hgs')
    exact ⟨_, Function.update_self .., rfl⟩

/-- An operation goes through where the plan allows it, and follows the plan. -/
theorem Groups.Inv.step (hnames : Function.Injective names) (h : gs.Inv names) {op : GroupsOp}
    (hallows : (gs.plan gid).Allows op) :
    Refines names gs gid (gs.step names (gid, op)) ((gs.plan gid).step op) := by
  cases op with
  | makeGroup nsrv => exact (h.makeGroup hnames gid nsrv).1
  | makeGroupStart nsrv =>
    obtain ⟨⟨gs₁, hmake, hinv, hplan, hrest⟩, hsize⟩ := h.makeGroup hnames gid nsrv
    obtain ⟨g, hg, rfl⟩ := hsize gs₁ hmake
    obtain ⟨gs₂, hon, hinv₂, hplan₂, hrest₂⟩ := hinv.on hnames hg (.plain .startServers)
    refine ⟨gs₂, ?_, hinv₂, ?_, fun gid' hne => (hrest₂ gid' hne).trans (hrest gid' hne)⟩
    · simp only [Groups.step, Groups.makeGroupStart, hmake, Option.bind_some, hon]
    · rw [hplan₂, hplan]
      rfl
  | exitGroup =>
    obtain ⟨p, hp⟩ := hallows
    obtain ⟨g, hg, rfl⟩ := Option.map_eq_some_iff.mp hp
    obtain ⟨gs₁, hon, hinv, hplan, hrest⟩ := h.on hnames hg (.plain .shutdown)
    refine ⟨{ gs₁ with grps := Function.update gs₁.grps gid none }, ?_, hinv.delete gid,
      ?_, fun gid' hne => ?_⟩
    · simp only [Groups.step, Groups.exitGroup, hg, Option.bind_some, hon, Option.map_some]
    · simp only [Plan.step, hp, ← hplan]
      simp [Groups.plan]
    · rw [← hrest gid' hne]
      simp only [Groups.plan, Function.update_of_ne hne]
      rfl
  | on n op =>
    obtain ⟨t, ht⟩ := hallows
    obtain ⟨g, hg, hsize⟩ := Option.map_eq_some_iff.mp ht
    obtain rfl : g.n = n := congrArg Sigma.fst hsize
    exact h.on hnames hg op

/-- Where the plan does not allow it, there is no such group, or not of this size. -/
theorem Groups.step_allows {op : GroupsOp} (hstep : gs.step names (gid, op) = some gs') :
    (gs.plan gid).Allows op := by
  cases op with
  | makeGroup nsrv => trivial
  | makeGroupStart nsrv => trivial
  | exitGroup =>
    obtain ⟨g, hg, -⟩ := Option.bind_eq_some_iff.mp hstep
    exact ⟨_, Option.map_eq_some_iff.mpr ⟨g, hg, rfl⟩⟩
  | on n op =>
    obtain ⟨g, hg, hon⟩ := Option.bind_eq_some_iff.mp hstep
    obtain ⟨rfl, -⟩ := Option.dite_none_right_eq_some.mp hon
    exact ⟨_, Option.map_eq_some_iff.mpr ⟨g, hg, rfl⟩⟩

/-- Each group is as the operations on it alone leave it. -/
theorem Groups.run_plan (hnames : Function.Injective names) {acts : List (ℕ × GroupsOp)}
    (hrun : run (Groups.step names) (newGroups LabRpc.makeNetwork) acts = some gs) :
    gs.Inv names ∧ ∀ gid, gs.plan gid = planOf gid acts := by
  refine run_history (P := fun acts gs => gs.Inv names ∧ ∀ gid, gs.plan gid = planOf gid acts)
    ⟨Groups.Inv.new fun _ => rfl, fun _ => rfl⟩ ?_ hrun
  rintro acts s ⟨a, op⟩ s' - ⟨hinv, hplan⟩ hstep
  obtain ⟨s₁, hs₁, hinv', hown, hrest⟩ := hinv.step hnames (Groups.step_allows hstep)
  obtain rfl := Option.some.inj (hs₁.symm.trans hstep)
  refine ⟨hinv', fun gid => ?_⟩
  rcases eq_or_ne gid a with rfl | hne
  · rw [hown, hplan]
    simp [planOf]
  · rw [hrest gid hne, hplan]
    simp [planOf, hne.symm]

/-- CORRECT: for any groups on one network and any order of operations on them: what a server of a
    group reaches, through which of its ends, and which operations go through, is what the
    operations on that group alone, in their order, come to. -/
theorem groups_independent (hnames : Function.Injective names) {acts : List (ℕ × GroupsOp)}
    (hrun : run (Groups.step names) (newGroups LabRpc.makeNetwork) acts = some gs) (gid : ℕ) :
    (∀ op, (∃ gs', gs.step names (gid, op) = some gs') ↔ (planOf gid acts).Allows op) ∧
      (gs.grps gid = none ↔ (planOf gid acts).grp = none) ∧
      ∀ g, gs.grps gid = some g → ∃ t, (planOf gid acts).grp = some ⟨g.n, t⟩ ∧
        g.connected = t.connected ∧ ∀ i, ∃ srv, g.srvs i = some srv ∧ ∀ j,
          (gs.net.readEndnameInfo (srv.endNames j)).servername = some (serverName gid j) ∧
          ((gs.net.readEndnameInfo (srv.endNames j)).Live ↔
            t.link i j = true ∧ (planOf gid acts).up j = true) := by
  obtain ⟨hinv, hplan⟩ := Groups.run_plan hnames hrun
  rw [← hplan gid]
  refine ⟨fun op => ⟨fun ⟨gs', hstep⟩ => Groups.step_allows hstep, fun hallows => ?_⟩,
    ?_, fun g hg => ?_⟩
  · obtain ⟨gs', hstep, -⟩ := hinv.step hnames hallows
    exact ⟨gs', hstep⟩
  · exact Option.map_eq_none_iff.symm
  · have hs := hinv.sound gid g hg
    refine ⟨(gs.sg gid g).topology, Option.map_eq_some_iff.mpr ⟨g, hg, rfl⟩, rfl, fun i => ?_⟩
    obtain ⟨srv, hsrv⟩ := hs.present i
    have hsrv' : g.srvs i = some srv := hsrv
    refine ⟨srv, hsrv', fun j => ?_⟩
    have hleads : gs.net.connections (srv.endNames j) = some (serverName gid j) :=
      hs.leads i srv j hsrv
    refine ⟨hleads, ?_⟩
    simp [LabRpc.EndInfo.Live, Network.readEndnameInfo, hleads,
      ServerGrp.topology, Groups.sg, hsrv', Groups.plan]

end groups

/-- Groups 0 and 7 are started in turn, and server 1 of group 7 is shut down. -/
def twoGroups : List (ℕ × GroupsOp) :=
  [(0, .makeGroup 2), (7, .makeGroupStart 3), (0, .on 2 (.plain .startServers)),
    (7, .on 3 (.plain (.shutdownServer 1)))]

/-- Both servers of group 0 can still be reached. -/
theorem groups_independent_two : ∃ gs g,
    run (Groups.step id) (newGroups (E := ℕ) LabRpc.makeNetwork) twoGroups = some gs ∧
      gs.grps 0 = some g ∧
    ∀ i, ∃ srv, g.srvs i = some srv ∧ ∀ j, (gs.net.readEndnameInfo (srv.endNames j)).Live := by
  have hsome : ((run (Groups.step id) (newGroups (E := ℕ) LabRpc.makeNetwork) twoGroups).bind
      fun gs => gs.grps 0).isSome = true := rfl
  obtain ⟨g, hg⟩ := Option.isSome_iff_exists.mp hsome
  obtain ⟨gs, hrun, hg⟩ := Option.bind_eq_some_iff.mp hg
  refine ⟨gs, g, hrun, hg, fun i => ?_⟩
  obtain ⟨t, ht, -, hreach⟩ := (groups_independent Function.injective_id hrun 0).2.2 g hg
  obtain ⟨srv, hsrv, hlive⟩ := hreach i
  refine ⟨srv, hsrv, fun j => (hlive j).2.mpr ?_⟩
  have hplan : ((planOf 0 twoGroups).grp.all fun p =>
      decide (∀ i j : Fin p.1, p.2.link i j = true ∧ (planOf 0 twoGroups).up j = true)) = true := by
    decide +kernel
  rw [ht, Option.all_some, decide_eq_true_eq] at hplan
  exact hplan i j

end DistSys.Tester
