import DistSys.LabRpc.Network
import DistSys.Schemes.Topology

/-! @go tester1/group.go, tester1/srv.go, raft1/test.go | name:ServerGrp, Server, restart |
    scheme:machine, topology

    A group of servers, each with its own ends to all of them. Starting a server gives it new ends
    with new random names; connecting and disconnecting it enables and disables ends one by one, in
    loops that look at the flags. Persisters and services are left to the model of a single server.

        srvs[i].endNames[j]   the end from i to j      connected[i]   server i is on the net

    The random names are taken from a supply in order. -/

namespace DistSys.Tester
open GoString (lit itoa)
open LabRpc (Network ServerRef)
open Machine (run run_cons run_foldl run_invariant)

/-- `ServerName`. A `Tgid` is an `int`; groups are numbered from `GRP0 = 0` on, so that negative
    numbers are left out. -/
def serverName (gid i : ℕ) : GoString := lit "server-" ++ itoa gid ++ lit "-" ++ itoa i

/-- The ends of a `Server`. -/
structure Server (E : Type) (n : ℕ) where
  endNames : Fin n → E

/-- `ServerGrp`, with the number of random names and of server objects made so far. -/
structure ServerGrp (E : Type) (n : ℕ) where
  net : Network E GoString
  srvs : Fin n → Option (Server E n)
  gid : ℕ
  connected : Fin n → Bool
  drawn : ℕ
  made : ServerRef

section definitions
variable {E : Type} [DecidableEq E] {n : ℕ} (names : ℕ → E)

/-- `makeServer`: a fresh set of ends, connected to the servers of the group by name. -/
def makeServer (net : Network E GoString) (gid drawn : ℕ) :
    Option (Server E n × Network E GoString) :=
  (run (fun net (j : Fin n) => (net.config (.makeEnd (names (drawn + j)))).bind fun net =>
      net.config (.connect (names (drawn + j)) (some (serverName gid j))))
    net (List.finRange n)).map fun net => (⟨fun j => names (drawn + j)⟩, net)

/-- A new server in place of `sg.srvs[i]`. -/
def ServerGrp.newServer (sg : ServerGrp E n) (i : Fin n) : Option (ServerGrp E n) :=
  (makeServer names sg.net sg.gid sg.drawn).map fun r =>
    { sg with srvs := Function.update sg.srvs i (some r.1), net := r.2, drawn := sg.drawn + n }

def makeSrvGrp (net : Network E GoString) (gid n : ℕ) : Option (ServerGrp E n) :=
  run (fun sg i => sg.newServer names i) ⟨net, fun _ => none, gid, fun _ => false, 0, 0⟩
    (List.finRange n)

/-- `Server.connect`. -/
def Server.connect (s : Server E n) (connected : Fin n → Bool) (net : Network E GoString)
    (others : List (Fin n)) : Option (Network E GoString) :=
  run (fun net j => if connected j then net.config (.enable (s.endNames j) true) else some net)
    net others

/-- `Server.disconnect`. -/
def Server.disconnect (s : Server E n) (net : Network E GoString) (others : List (Fin n)) :
    Option (Network E GoString) :=
  run (fun net j => net.config (.enable (s.endNames j) false)) net others

namespace ServerGrp
variable (sg : ServerGrp E n) (i : Fin n)

/-- `ServerGrp.connect`: outgoing ends, then incoming ones. -/
def connect (others : List (Fin n)) : Option (ServerGrp E n) :=
  let connected := Function.update sg.connected i true
  (sg.srvs i).bind fun srv => (srv.connect connected sg.net others).bind fun net =>
    (run (fun net j =>
        if connected j then (sg.srvs j).bind fun s => net.config (.enable (s.endNames i) true)
        else some net)
      net others).map fun net => { sg with connected := connected, net := net }

/-- `ServerGrp.disconnect`. -/
def disconnect (others : List (Fin n)) : Option (ServerGrp E n) :=
  let connected := Function.update sg.connected i false
  (sg.srvs i).bind fun srv => (srv.disconnect sg.net others).bind fun net =>
    (run (fun net j => (sg.srvs j).bind fun s => net.config (.enable (s.endNames i) false))
      net others).map fun net => { sg with connected := connected, net := net }

def connectOne : Option (ServerGrp E n) := sg.connect i (List.finRange n)

def connectAll : Option (ServerGrp E n) := run connectOne sg (List.finRange n)

def disconnectAll : Option (ServerGrp E n) := sg.disconnect i (List.finRange n)

/-- `StartServer`: the old server is asked for a new one, which is then registered. -/
def startServer : Option (ServerGrp E n) :=
  (sg.srvs i).bind fun _ => (sg.newServer names i).bind fun sg =>
    (sg.net.config (.addServer (some (serverName sg.gid i)) (some sg.made))).map fun net =>
      { sg with net := net, made := sg.made + 1 }

def start : Option (ServerGrp E n) := run (fun sg i => startServer names sg i) sg (List.finRange n)

def startServers : Option (ServerGrp E n) := (sg.start names).bind connectAll

/-- `ShutdownServer`. -/
def shutdownServer : Option (ServerGrp E n) :=
  (sg.disconnect i (List.finRange n)).bind fun sg =>
    (sg.net.config (.deleteServer (some (serverName sg.gid i)))).map fun net =>
      { sg with net := net }

def shutdown : Option (ServerGrp E n) := run shutdownServer sg (List.finRange n)

/-- `Test.restart`. -/
def restart : Option (ServerGrp E n) := (sg.startServer names i).bind connectAll

end ServerGrp

/-- The operations of a group, without `Partition`. -/
inductive GrpOp (n : ℕ) where
  | startServers
  | restart (i : Fin n)
  | startServer (i : Fin n)
  | connectOne (i : Fin n)
  | connectAll
  | disconnectAll (i : Fin n)
  | shutdown
  | shutdownServer (i : Fin n)

/-- `StartServer` alone is for a server that is not on the net. -/
def ServerGrp.allows (sg : ServerGrp E n) : GrpOp n → Bool
  | .startServer i => !sg.connected i
  | _ => true

def ServerGrp.apply (sg : ServerGrp E n) : GrpOp n → Option (ServerGrp E n)
  | .startServers => sg.startServers names
  | .restart i => sg.restart names i
  | .startServer i => sg.startServer names i
  | .connectOne i => sg.connectOne i
  | .connectAll => sg.connectAll
  | .disconnectAll i => sg.disconnectAll i
  | .shutdown => sg.shutdown
  | .shutdownServer i => sg.shutdownServer i

def ServerGrp.step (sg : ServerGrp E n) (op : GrpOp n) : Option (ServerGrp E n) :=
  if sg.allows op then sg.apply names op else none

end definitions

/-! ### Loops over ends -/

section loops
variable {E ι : Type} [DecidableEq E] {n : ℕ}

/-- A loop that switches ends one by one. -/
theorem run_enable (on : Bool) (p : ι → Bool) (e : ι → E) (l : List ι) (net : Network E GoString) :
    ∃ net',
      run (fun net j => if p j then net.config (.enable (e j) on) else some net) net l = some net' ∧
      net'.ends = net.ends ∧
      ∀ x, net'.enabled x = if ∃ j ∈ l, p j = true ∧ e j = x then on else net.enabled x := by
  induction l generalizing net with
  | nil => exact ⟨net, rfl, rfl, fun x => by simp⟩
  | cons j l ih =>
    cases hp : p j with
    | false =>
      obtain ⟨net', hrun, hends, henabled⟩ := ih net
      exact ⟨net', run_cons.mpr ⟨net, by simp [hp], hrun⟩, hends, fun x => by simp [henabled x, hp]⟩
    | true =>
      obtain ⟨net', hrun, hends, henabled⟩ :=
        ih { net with enabled := Function.update net.enabled (e j) on }
      refine ⟨net', run_cons.mpr ⟨_, by simp [hp, Network.config], hrun⟩, hends, fun x => ?_⟩
      rw [henabled x]
      rcases eq_or_ne x (e j) with rfl | hne
      · simp [hp]
      · simp [Function.update_of_ne hne, hp, hne.symm]

/-- A loop that makes ends which do not exist yet. -/
theorem run_makeEnd (e : ι → E) (names : ι → GoString) (he : Function.Injective e) (l : List ι)
    (net : Network E GoString) (hnodup : l.Nodup) (hnew : ∀ j ∈ l, net.ends (e j) = false) :
    ∃ net', run (fun net j => (net.config (.makeEnd (e j))).bind fun net =>
        net.config (.connect (e j) (some (names j)))) net l = some net' ∧
      (∀ j ∈ l, net'.enabled (e j) = false) ∧
      ∀ x, (∀ j ∈ l, e j ≠ x) → net'.enabled x = net.enabled x ∧ net'.ends x = net.ends x := by
  induction l generalizing net with
  | nil => exact ⟨net, rfl, fun _ h => absurd h List.not_mem_nil, fun _ _ => ⟨rfl, rfl⟩⟩
  | cons j l ih =>
    obtain ⟨hj, hl⟩ := List.nodup_cons.mp hnodup
    have hne : ∀ j' ∈ l, e j' ≠ e j := fun j' hj' heq => hj (he heq ▸ hj')
    obtain ⟨net', hrun, hoff, hrest⟩ := ih
      { net with ends := Function.update net.ends (e j) true
                 enabled := Function.update net.enabled (e j) false
                 connections := Function.update (Function.update net.connections (e j) none) (e j)
                   (some (names j)) } hl
      fun j' hj' => by simpa [hne j' hj'] using hnew j' (List.mem_cons_of_mem _ hj')
    refine ⟨net', run_cons.mpr ⟨_, ?_, hrun⟩, fun j' hj' => ?_, fun x hx => ?_⟩
    · simp [Network.config, hnew j List.mem_cons_self]
    · rcases List.mem_cons.mp hj' with rfl | hj'
      · simpa using (hrest (e j') hne).1
      · exact hoff j' hj'
    · have hxj : x ≠ e j := (hx j List.mem_cons_self).symm
      simpa [hxj] using hrest x fun j' hj' => hx j' (List.mem_cons_of_mem _ hj')

end loops

/-! ### The topology of a group -/

section refinement
variable {E : Type} {n : ℕ} {names : ℕ → E}

/-- Which of its ends are enabled. -/
def ServerGrp.topology (sg : ServerGrp E n) : Topology (Fin n) where
  connected := sg.connected
  link i j := (sg.srvs i).any fun srv => sg.net.enabled (srv.endNames j)

/-- The ends of the servers have names of their own, which were drawn; those to come are not in
    use. -/
structure ServerGrp.Wf (names : ℕ → E) (sg : ServerGrp E n) : Prop where
  drawn : ∀ i srv j, sg.srvs i = some srv → ∃ k < sg.drawn, srv.endNames j = names k
  distinct : ∀ i i' srv srv' j j', sg.srvs i = some srv → sg.srvs i' = some srv' →
    srv.endNames j = srv'.endNames j' → i = i' ∧ j = j'
  fresh : ∀ k, sg.drawn ≤ k → sg.net.ends (names k) = false

/-- All servers have been made, and the ends they have now are all different. -/
structure ServerGrp.Apart (sg : ServerGrp E n) : Prop where
  present : ∀ i, ∃ srv, sg.srvs i = some srv
  distinct : ∀ i i' srv srv' j j', sg.srvs i = some srv → sg.srvs i' = some srv' →
    srv.endNames j = srv'.endNames j' → i = i' ∧ j = j'

/-- Flags may have been switched, and ends between servers of the list. -/
structure Switched (l : List (Fin n)) (sg sg' : ServerGrp E n) : Prop where
  srvs : sg'.srvs = sg.srvs
  drawn : sg'.drawn = sg.drawn
  ends : sg'.net.ends = sg.net.ends
  enabled : ∀ e, (∀ a ∈ l, ∀ b ∈ l, ∀ srv, sg.srvs a = some srv → srv.endNames b ≠ e) →
    sg'.net.enabled e = sg.net.enabled e

/-- All servers have been made. -/
structure ServerGrp.Complete (names : ℕ → E) (sg : ServerGrp E n) : Prop extends sg.Wf names where
  present : ∀ i, ∃ srv, sg.srvs i = some srv

/-- The state is well formed and shows this topology. -/
def Shows (names : ℕ → E) (sg : Option (ServerGrp E n)) (t : Topology (Fin n)) : Prop :=
  ∃ sg', sg = some sg' ∧ sg'.Complete names ∧ sg'.topology = t

variable [DecidableEq E] {sg : ServerGrp E n} {i : Fin n}

omit [DecidableEq E] in
theorem ServerGrp.Complete.apart (h : sg.Complete names) : sg.Apart := ⟨h.present, h.distinct⟩

omit [DecidableEq E] in
theorem ServerGrp.Apart.endNames_iff (h : sg.Apart) {srv : Fin n → Server E n}
    (hsrv : ∀ a, sg.srvs a = some (srv a)) {a b j j' : Fin n} :
    (srv a).endNames j = (srv b).endNames j' ↔ a = b ∧ j = j' := by
  constructor
  · exact h.distinct a b _ _ j j' (hsrv a) (hsrv b)
  · rintro ⟨rfl, rfl⟩
    rfl

omit [DecidableEq E] in
/-- Switching ends and flags makes and removes no end. -/
theorem ServerGrp.Complete.switched {l : List (Fin n)} {sg' : ServerGrp E n} (h : sg.Complete names)
    (hsw : Switched l sg sg') : sg'.Complete names := by
  refine ⟨⟨?_, ?_, ?_⟩, ?_⟩
  · rw [hsw.srvs, hsw.drawn]
    exact h.drawn
  · rw [hsw.srvs]
    exact h.distinct
  · rw [hsw.ends, hsw.drawn]
    exact h.fresh
  · rw [hsw.srvs]
    exact h.present

/-- Connecting raises the flag and the ends from and to the servers named that are flagged. -/
theorem ServerGrp.Apart.connect (h : sg.Apart) (i : Fin n) (others : List (Fin n)) :
    ∃ sg', sg.connect i others = some sg' ∧ Switched (i :: others) sg sg' ∧
      sg'.topology = sg.topology.connect i others := by
  choose srv hsrv using h.present
  obtain ⟨net₁, hrun₁, hends₁, henabled₁⟩ :=
    run_enable true (Function.update sg.connected i true) (srv i).endNames others sg.net
  obtain ⟨net₂, hrun₂, hends₂, henabled₂⟩ :=
    run_enable true (Function.update sg.connected i true) (fun j => (srv j).endNames i) others net₁
  refine ⟨{ sg with connected := Function.update sg.connected i true, net := net₂ }, ?_,
    ⟨rfl, rfl, hends₂.trans hends₁, fun e he => ?_⟩, ?_⟩
  · simp [ServerGrp.connect, hsrv, Server.connect, hrun₁, hrun₂]
  · show net₂.enabled e = sg.net.enabled e
    rw [henabled₂, if_neg, henabled₁, if_neg]
    · rintro ⟨j, hj, -, hname⟩
      exact he i List.mem_cons_self j (List.mem_cons_of_mem _ hj) _ (hsrv i) hname
    · rintro ⟨j, hj, -, hname⟩
      exact he j (List.mem_cons_of_mem _ hj) i List.mem_cons_self _ (hsrv j) hname
  · simp only [ServerGrp.topology, Topology.connect, hsrv, Option.any_some, henabled₂, henabled₁,
      h.endNames_iff hsrv]
    congr 1
    funext a b
    rw [Bool.eq_iff_iff]
    simp only [Bool.or_eq_true, Bool.and_eq_true, decide_eq_true_eq, Bool.if_true_left]
    constructor
    · rintro (⟨j, hj, hconn, rfl, rfl⟩ | ⟨j, hj, hconn, rfl, rfl⟩ | hold)
      · exact Or.inr ⟨⟨rfl, hj⟩, hconn⟩
      · exact Or.inl (Or.inr ⟨⟨rfl, hj⟩, hconn⟩)
      · exact Or.inl (Or.inl hold)
    · rintro ((hold | ⟨⟨rfl, hj⟩, hconn⟩) | ⟨⟨rfl, hj⟩, hconn⟩)
      · exact Or.inr (Or.inr hold)
      · exact Or.inr (Or.inl ⟨b, hj, hconn, rfl, rfl⟩)
      · exact Or.inl ⟨a, hj, hconn, rfl, rfl⟩

/-- Disconnecting lowers the flag and the ends from and to the servers named. -/
theorem ServerGrp.Apart.disconnect (h : sg.Apart) (i : Fin n) (others : List (Fin n)) :
    ∃ sg', sg.disconnect i others = some sg' ∧ Switched (i :: others) sg sg' ∧
      sg'.topology = sg.topology.disconnect i others := by
  choose srv hsrv using h.present
  obtain ⟨net₁, hrun₁, hends₁, henabled₁⟩ :=
    run_enable false (fun _ => true) (srv i).endNames others sg.net
  obtain ⟨net₂, hrun₂, hends₂, henabled₂⟩ :=
    run_enable false (fun _ => true) (fun j => (srv j).endNames i) others net₁
  simp only [if_true] at hrun₁ hrun₂
  refine ⟨{ sg with connected := Function.update sg.connected i false, net := net₂ }, ?_,
    ⟨rfl, rfl, hends₂.trans hends₁, fun e he => ?_⟩, ?_⟩
  · simp [ServerGrp.disconnect, hsrv, Server.disconnect, hrun₁, hrun₂]
  · show net₂.enabled e = sg.net.enabled e
    rw [henabled₂, if_neg, henabled₁, if_neg]
    · rintro ⟨j, hj, -, hname⟩
      exact he i List.mem_cons_self j (List.mem_cons_of_mem _ hj) _ (hsrv i) hname
    · rintro ⟨j, hj, -, hname⟩
      exact he j (List.mem_cons_of_mem _ hj) i List.mem_cons_self _ (hsrv j) hname
  · simp only [ServerGrp.topology, Topology.disconnect, hsrv, Option.any_some, henabled₂, henabled₁,
      h.endNames_iff hsrv]
    congr 1
    funext a b
    rw [Bool.eq_iff_iff]
    simp only [Bool.if_false_left, Bool.and_eq_true, Bool.not_eq_true', decide_eq_false_iff_not,
      Bool.and_eq_false_imp, decide_eq_true_eq, true_and]
    constructor
    · rintro ⟨hin, hout, hold⟩
      exact ⟨⟨hold, fun ha hb => hout ⟨b, hb, ha.symm, rfl⟩⟩,
        fun hb ha => hin ⟨a, ha, rfl, hb.symm⟩⟩
    · rintro ⟨⟨hold, hout⟩, hin⟩
      refine ⟨?_, ?_, hold⟩
      · rintro ⟨j, hj, hja, hib⟩
        exact hin hib.symm (hja ▸ hj)
      · rintro ⟨j, hj, hia, hjb⟩
        exact hout hia.symm (hjb ▸ hj)

theorem ServerGrp.Complete.connect (h : sg.Complete names) (others : List (Fin n)) :
    Shows names (sg.connect i others) (sg.topology.connect i others) := by
  obtain ⟨sg', hsg', hsw, htop⟩ := h.apart.connect i others
  exact ⟨sg', hsg', h.switched hsw, htop⟩

theorem ServerGrp.Complete.disconnect (h : sg.Complete names) (others : List (Fin n)) :
    Shows names (sg.disconnect i others) (sg.topology.disconnect i others) := by
  obtain ⟨sg', hsg', hsw, htop⟩ := h.apart.disconnect i others
  exact ⟨sg', hsg', h.switched hsw, htop⟩

/-- A server gets new ends, which are disabled. -/
theorem ServerGrp.Wf.newServer (hnames : Function.Injective names) (h : sg.Wf names) (i : Fin n) :
    ∃ sg', sg.newServer names i = some sg' ∧ sg'.Wf names ∧ sg'.topology = sg.topology.replace i ∧
      ∀ a, a = i ∨ (∃ srv, sg.srvs a = some srv) → ∃ srv, sg'.srvs a = some srv := by
  have hinj : Function.Injective fun j : Fin n => names (sg.drawn + j) := fun j j' heq =>
    Fin.ext (Nat.add_left_cancel (hnames heq))
  obtain ⟨net, hrun, hoff, hrest⟩ := run_makeEnd _ (fun j : Fin n => serverName sg.gid j) hinj
    (List.finRange n) sg.net (List.nodup_finRange n) fun j _ => h.fresh _ (Nat.le_add_right _ _)
  have hold : ∀ {a srv}, sg.srvs a = some srv → ∀ (j j' : Fin n),
      names (sg.drawn + j') ≠ srv.endNames j := by
    intro a srv hsrv j j' heq
    obtain ⟨k, hk, hname⟩ := h.drawn a srv j hsrv
    have := hnames (heq.trans hname)
    omega
  refine ⟨{ sg with srvs := Function.update sg.srvs i (some ⟨fun j => names (sg.drawn + j)⟩)
                    net := net, drawn := sg.drawn + n }, ?_, ⟨?_, ?_, ?_⟩, ?_, ?_⟩
  · simp [ServerGrp.newServer, makeServer, hrun]
  · intro a srv j hsrv
    obtain ⟨rfl, rfl⟩ | ⟨-, hsrv⟩ := update_some hsrv
    · exact ⟨sg.drawn + j, Nat.add_lt_add_left j.isLt _, rfl⟩
    · obtain ⟨k, hk, hname⟩ := h.drawn a srv j hsrv
      exact ⟨k, Nat.lt_add_right n hk, hname⟩
  · intro a a' srv srv' j j' hsrv hsrv' heq
    obtain ⟨rfl, rfl⟩ | ⟨-, hs⟩ := update_some hsrv <;>
      obtain ⟨rfl, rfl⟩ | ⟨-, hs'⟩ := update_some hsrv'
    · exact ⟨rfl, hinj heq⟩
    · exact absurd heq (hold hs' j' j)
    · exact absurd heq.symm (hold hs j j')
    · exact h.distinct a a' srv srv' j j' hs hs' heq
  · intro k hk
    have hk : sg.drawn + n ≤ k := hk
    rw [(hrest (names k) fun j _ heq => ?_).2]
    · exact h.fresh k (Nat.le_of_add_right_le hk)
    · have := hnames heq
      omega
  · simp only [ServerGrp.topology, Topology.replace]
    congr 1
    funext a b
    rcases eq_or_ne a i with rfl | hne
    · simpa using hoff b (List.mem_finRange b)
    · simp only [Function.update_of_ne hne, if_neg hne]
      cases hsrv : sg.srvs a with
      | none => rfl
      | some srv => simp only [Option.any_some, (hrest _ fun j' _ => hold hsrv b j').1]
  · rintro a (rfl | ⟨srv, hsrv⟩)
    · exact ⟨_, Function.update_self ..⟩
    · rcases eq_or_ne a i with rfl | hne
      · exact ⟨_, Function.update_self ..⟩
      · exact ⟨srv, (Function.update_of_ne hne _ _).trans hsrv⟩

/-! ### The operations -/

omit [DecidableEq E] in
theorem Shows.bind {o : Option (ServerGrp E n)} {t : Topology (Fin n)}
    {f : ServerGrp E n → Option (ServerGrp E n)} {g : Topology (Fin n) → Topology (Fin n)}
    (h : Shows names o t)
    (hf : ∀ sg : ServerGrp E n, sg.Complete names → Shows names (f sg) (g sg.topology)) :
    Shows names (o.bind f) (g t) := by
  obtain ⟨sg, rfl, hsg, rfl⟩ := h
  exact hf sg hsg

omit [DecidableEq E] in
/-- A loop over servers. -/
theorem shows_run {f : ServerGrp E n → Fin n → Option (ServerGrp E n)}
    {g : Topology (Fin n) → Fin n → Topology (Fin n)}
    (hstep : ∀ (sg : ServerGrp E n) i, sg.Complete names → Shows names (f sg i) (g sg.topology i))
    (h : sg.Complete names) (l : List (Fin n)) : Shows names (run f sg l) (l.foldl g sg.topology) :=
  run_foldl h l fun sg i _ hsg => hstep sg i hsg

theorem ServerGrp.Complete.connectAll (h : sg.Complete names) :
    Shows names sg.connectAll (sg.topology.connectAll (List.finRange n)) :=
  shows_run (fun _ _ h => h.connect _) h _

theorem ServerGrp.Complete.startServer (hnames : Function.Injective names)
    (h : sg.Complete names) (i : Fin n) :
    Shows names (sg.startServer names i) (sg.topology.replace i) := by
  obtain ⟨srv, hsrv⟩ := h.present i
  obtain ⟨sg', hnew, hwf, htop, hpresent⟩ := h.newServer hnames i
  refine ⟨{ sg' with
    net := { sg'.net with
      servers := Function.update sg'.net.servers (some (serverName sg'.gid i)) (some sg'.made) }
    made := sg'.made + 1 }, ?_, ?_, ?_⟩
  · simp [ServerGrp.startServer, hsrv, hnew, Network.config]
  · exact ⟨⟨hwf.drawn, hwf.distinct, hwf.fresh⟩, fun a => hpresent a (Or.inr (h.present a))⟩
  · exact htop

theorem ServerGrp.Complete.shutdownServer (h : sg.Complete names) (i : Fin n) :
    Shows names (sg.shutdownServer i) (sg.topology.disconnect i (List.finRange n)) := by
  obtain ⟨sg', hsg', hwf, htop⟩ := h.disconnect (i := i) (List.finRange n)
  refine ⟨{ sg' with
    net := { sg'.net with
      servers := Function.update sg'.net.servers (some (serverName sg'.gid i)) none } }, ?_, ?_, ?_⟩
  · simp [ServerGrp.shutdownServer, hsg', Network.config]
  · exact ⟨⟨hwf.drawn, hwf.distinct, hwf.fresh⟩, hwf.present⟩
  · exact htop

/-- Every operation that is allowed goes through, and leaves the flags exact. -/
theorem exact_apply (hnames : Function.Injective names) (h : sg.Complete names)
    (hexact : sg.topology.Exact) (op : GrpOp n) (hallows : sg.allows op = true) :
    ∃ t, Shows names (sg.apply names op) t ∧ t.Exact := by
  have hall : ∀ a : Fin n, a ∈ List.finRange n := List.mem_finRange
  cases op with
  | startServers =>
    have hstart : Shows names (sg.start names) _ :=
      shows_run (fun _ i h => h.startServer hnames i) h _
    exact ⟨_, hstart.bind (g := fun t => t.connectAll _) fun _ h => h.connectAll,
      Topology.exact_connectAll hall _⟩
  | restart i =>
    exact ⟨_, (h.startServer hnames i).bind (g := fun t => t.connectAll _) fun _ h => h.connectAll,
      Topology.exact_connectAll hall _⟩
  | startServer i =>
    have hoff : sg.connected i = false := by simpa [ServerGrp.allows] using hallows
    exact ⟨_, h.startServer hnames i, hexact.replace hoff⟩
  | connectOne i => exact ⟨_, h.connect _, hexact.connect hall⟩
  | connectAll => exact ⟨_, h.connectAll, Topology.exact_connectAll hall _⟩
  | disconnectAll i => exact ⟨_, h.disconnect _, hexact.disconnect hall⟩
  | shutdown =>
    exact ⟨_, shows_run (fun _ i h => h.shutdownServer i) h _, hexact.foldl_disconnect hall _⟩
  | shutdownServer i => exact ⟨_, h.shutdownServer i, hexact.disconnect hall⟩

/-- `makeSrvGrp` makes all servers, with all ends disabled. -/
theorem run_newServer (hnames : Function.Injective names) (l : List (Fin n)) {sg : ServerGrp E n}
    (hwf : sg.Wf names) (hoff : ∀ i, sg.connected i = false) (hexact : sg.topology.Exact) :
    ∃ sg', run (fun sg i => sg.newServer names i) sg l = some sg' ∧
      sg'.Wf names ∧ sg'.topology.Exact ∧ ∀ a, a ∈ l ∨ (∃ srv, sg.srvs a = some srv) → ∃ srv,
      sg'.srvs a = some srv := by
  induction l generalizing sg with
  | nil => exact ⟨sg, rfl, hwf, hexact, fun a ha => ha.resolve_left List.not_mem_nil⟩
  | cons i l ih =>
    obtain ⟨sg₁, hnew, hwf₁, htop, hpresent⟩ := hwf.newServer hnames i
    have hconn : sg₁.connected = sg.connected := congrArg Topology.connected htop
    obtain ⟨sg', hrun, hwf', hexact', hpresent'⟩ := ih hwf₁ (fun a => hconn ▸ hoff a)
      (htop ▸ hexact.replace (hoff i))
    refine ⟨sg', run_cons.mpr ⟨sg₁, hnew, hrun⟩, hwf', hexact', fun a ha => hpresent' a ?_⟩
    rcases ha with ha | ha
    · rcases List.mem_cons.mp ha with rfl | ha
      · exact Or.inr (hpresent a (Or.inl rfl))
      · exact Or.inl ha
    · exact Or.inr (hpresent a (Or.inr ha))

theorem makeSrvGrp_exact (hnames : Function.Injective names) {net : Network E GoString}
    (hfresh : ∀ k, net.ends (names k) = false) (gid n : ℕ) :
    ∃ sg, makeSrvGrp names net gid n = some sg ∧ sg.Complete names ∧ sg.topology.Exact := by
  have hempty : (⟨net, fun _ => none, gid, fun _ => false, 0, 0⟩ : ServerGrp E n).Wf names :=
    ⟨fun _ _ _ h => (by cases h), fun _ _ _ _ _ _ h => (by cases h), fun k _ => hfresh k⟩
  obtain ⟨sg, hrun, hwf, hexact, hpresent⟩ :=
    run_newServer hnames (List.finRange n) hempty (fun _ => rfl) (fun _ _ => rfl)
  exact ⟨sg, hrun, ⟨hwf, fun a => hpresent a (Or.inl (List.mem_finRange a))⟩, hexact⟩

/-- CORRECT: for a group of any size, made on a network that does not have the random names to come,
    and after any allowed operations: the end from `i` to `j` is enabled just if both are connected.
    And no allowed operation fails. -/
theorem connected_exact (hnames : Function.Injective names) {net : Network E GoString}
    (hfresh : ∀ k, net.ends (names k) = false) (gid n : ℕ) :
    ∃ sg₀, makeSrvGrp names net gid n = some sg₀ ∧
      ∀ ops sg, run (ServerGrp.step names) sg₀ ops = some sg →
        (∀ i, ∃ srv, sg.srvs i = some srv ∧
          ∀ j, sg.net.enabled (srv.endNames j) = (sg.connected i && sg.connected j)) ∧
        ∀ op, sg.allows op = true → ∃ sg', sg.step names op = some sg' := by
  obtain ⟨sg₀, hmake, hcomplete, hexact⟩ := makeSrvGrp_exact hnames hfresh gid n
  refine ⟨sg₀, hmake, fun ops sg hrun => ?_⟩
  have hinv : sg.Complete names ∧ sg.topology.Exact := by
    refine @run_invariant _ _ _ (fun sg => sg.Complete names ∧ sg.topology.Exact)
      (fun s op s' hs hstep => ?_) _ _ _ ⟨hcomplete, hexact⟩ hrun
    simp only [ServerGrp.step, Option.ite_none_right_eq_some] at hstep
    obtain ⟨t, ⟨sg', hsg', hcomplete', rfl⟩, hexact'⟩ := exact_apply hnames hs.1 hs.2 op hstep.1
    obtain rfl := Option.some.inj (hsg'.symm.trans hstep.2)
    exact ⟨hcomplete', hexact'⟩
  refine ⟨fun i => ?_, fun op hallows => ?_⟩
  · obtain ⟨srv, hsrv⟩ := hinv.1.present i
    refine ⟨srv, hsrv, fun j => ?_⟩
    have hlink := hinv.2 i j
    simpa [ServerGrp.topology, hsrv] using hlink
  · obtain ⟨t, ⟨sg', hsg', -⟩, -⟩ := exact_apply hnames hinv.1 hinv.2 op hallows
    exact ⟨sg', by rw [ServerGrp.step, if_pos hallows, hsg']⟩

/-- Three servers of group 0, with numbers for names: all started, one shut down and started
    again. -/
theorem connected_exact_three :
    ∃ sg₀, makeSrvGrp id (LabRpc.makeNetwork : Network ℕ GoString) 0 3 = some sg₀ ∧
    ∃ sg, run (ServerGrp.step id) sg₀ [.startServers, .shutdownServer 1, .startServer 1] = some sg ∧
      ∀ i, ∃ srv, sg.srvs i = some srv ∧
        ∀ j, sg.net.enabled (srv.endNames j) = (sg.connected i && sg.connected j) := by
  obtain ⟨sg₀, hmake, hexact⟩ :=
    connected_exact Function.injective_id
      (fun _ => rfl : ∀ k, LabRpc.makeNetwork.ends (id k) = false) 0 3
  have hsome : ((makeSrvGrp id (LabRpc.makeNetwork : Network ℕ GoString) 0 3).bind fun sg₀ =>
    run (ServerGrp.step id) sg₀ [.startServers, .shutdownServer 1, .startServer 1]).isSome =
      true := rfl
  rw [hmake, Option.bind_some] at hsome
  obtain ⟨sg, hrun⟩ := Option.isSome_iff_exists.mp hsome
  exact ⟨sg₀, hmake, sg, hrun, (hexact _ sg hrun).1⟩

end refinement

end DistSys.Tester
