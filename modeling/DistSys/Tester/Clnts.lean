import DistSys.LabRpc.Calls
import DistSys.Tester.Clients

/-! @go tester1/clnts.go | name:Clnts, MakeClientTo, DeleteClient, cleanup, remove, Disconnect |
    scheme:machine, gomap

    All clients of a test on one network. Each makes its ends by itself; `DeleteClient` and
    `cleanup` delete the ends that a client has, and forget the client. The client itself keeps
    them, and goes on.

        MakeClientTo    Call a      DeleteClient    Call a            Call b
                        end to a    a is deleted    fails for ever    a new end, for ever

    The names that `Randstring` returns are never returned again, and others do not use them. -/

namespace DistSys.Tester
open LabRpc (Network NetOp Unreachable)
open Machine (run run_cons run_append run_invariant run_relation)

/-- `Clnts`, with all clients made so far and the names drawn by them. `clerks` is `nil` after
    `cleanup`. -/
structure Clnts (E : Type) where
  net : Network E GoString
  clnts : ℕ → Option (Clnt E)
  made : ℕ
  clerks : Option (GoMap ℕ Unit)
  drawn : E → Bool

inductive ClntsOp (E : Type) where
  | makeClientTo (srvs : Option (List GoString))
  | call (c : ℕ) (server : GoString) (name : E)
  | connectAll (c : ℕ) (o : RangeOrder GoString)
  | connectTo (c : ℕ) (o : RangeOrder GoString) (srvs : Option (List GoString))
  | disconnect (c : ℕ) (o : RangeOrder GoString) (server : GoString)
  | disconnectAll (c : ℕ) (o : RangeOrder GoString)
  | deleteClient (c : ℕ) (o : RangeOrder GoString)
  | cleanup (oc : RangeOrder ℕ) (o : RangeOrder GoString)
  /-- somebody else's call to the network -/
  | other (op : NetOp E GoString)

section definitions
variable {E : Type} [DecidableEq E]

/-- `Disconnect`. -/
def ClntState.disconnect (s : ClntState E) (o : RangeOrder GoString) (server : GoString) :
    Option (ClntState E) :=
  (run (fun net (e : GoString × E) =>
      if e.1 = server then net.config (.enable e.2 false) else some net)
    s.net (o.entries s.clnt.ends)).map fun net => { s with net := net }

/-- `remove`. -/
def Clnt.remove (clnt : Clnt E) (o : RangeOrder GoString) (net : Network E GoString) :
    Option (Network E GoString) :=
  run (fun net (e : GoString × E) => net.config (.deleteEnd e.2)) net (o.entries clnt.ends)

namespace Clnts
variable (s : Clnts E)

/-- A client with what an operation of its own made of it and of the network. -/
def put (c : ℕ) (r : ClntState E) : Clnts E :=
  { s with net := r.net, clnts := Function.update s.clnts c (some r.clnt) }

def on (c : ℕ) (f : ClntState E → Option (ClntState E)) : Option (Clnts E) :=
  (s.clnts c).bind fun clnt => (f ⟨s.net, clnt⟩).map (s.put c)

/-- A name is drawn if the client has no end to the server. -/
def call (c : ℕ) (server : GoString) (name : E) : Option (Clnts E) :=
  (s.clnts c).bind fun clnt =>
    match clnt.ends.lookup server with
    | some _ => some s
    | none =>
      if s.drawn name then none
      else (ClntState.call ⟨s.net, clnt⟩ server name).map fun r =>
        { s.put c r with drawn := Function.update s.drawn name true }

/-- The loop of `cleanup`. -/
def removeAll (o : RangeOrder GoString) (net : Network E GoString) (l : List ℕ) :
    Option (Network E GoString) :=
  run (fun net c => (s.clnts c).bind fun clnt => clnt.remove o net) net l

def deleteClient (c : ℕ) (o : RangeOrder GoString) : Option (Clnts E) :=
  match s.clerks with
  | none => some s
  | some clerks =>
    if c ∈ clerks then
      (s.clnts c).bind fun clnt => (clnt.remove o s.net).map fun net =>
        { s with net := net, clerks := some (clerks.erase c) }
    else some s

def cleanup (oc : RangeOrder ℕ) (o : RangeOrder GoString) : Option (Clnts E) :=
  (s.removeAll o s.net (oc.visit (s.clerks.getD ∅).keys)).map fun net =>
    { s with net := net, clerks := none }

/-- Writing to a `nil` map ends the process, and so does a fatal call to the network. -/
def step : ClntsOp E → Option (Clnts E)
  | .makeClientTo srvs =>
    s.clerks.map fun clerks => { s with
      clnts := Function.update s.clnts s.made (some (makeClntTo srvs))
      made := s.made + 1
      clerks := some (clerks.insert s.made ()) }
  | .call c server name => s.call c server name
  | .connectAll c o => s.on c fun r => r.connectAll o
  | .connectTo c o srvs => s.on c fun r => r.connectTo o srvs
  | .disconnect c o server => s.on c fun r => r.disconnect o server
  | .disconnectAll c o => s.on c fun r => r.disconnectAll o
  | .deleteClient c o => s.deleteClient c o
  | .cleanup oc o => s.cleanup oc o
  | .other op =>
    if ∀ e, endName op = some e → s.drawn e = false then
      (s.net.config op).map fun net => { s with net := net }
    else none

end Clnts
end definitions

/-- `makeClnts`, on a network that may be in use. -/
def makeClnts {E : Type} (net : Network E GoString) : Clnts E :=
  ⟨net, fun _ => none, 0, some ∅, fun _ => false⟩

/-! ### Ends that are deleted -/

section removal
variable {E : Type} [DecidableEq E]

/-- A loop that deletes ends which exist. -/
theorem run_deleteEnd (l : List (GoString × E)) (net : Network E GoString)
    (hnodup : (l.map Prod.snd).Nodup) (hends : ∀ e ∈ l.map Prod.snd, net.ends e = true) :
    ∃ net', run (fun net (e : GoString × E) => net.config (.deleteEnd e.2)) net l = some net' ∧
      (∀ e ∈ l.map Prod.snd, net'.ends e = false ∧ net'.connections e = none) ∧
      ∀ e, e ∉ l.map Prod.snd → net'.ends e = net.ends e ∧
        net'.connections e = net.connections e := by
  induction l generalizing net with
  | nil => exact ⟨net, rfl, fun _ h => absurd h List.not_mem_nil, fun _ _ => ⟨rfl, rfl⟩⟩
  | cons p l ih =>
    obtain ⟨hp, hl⟩ := List.nodup_cons.mp hnodup
    obtain ⟨hpe, hle⟩ := List.forall_mem_cons.mp hends
    obtain ⟨net', hrun, hgone, hrest⟩ := ih
      { net with ends := Function.update net.ends p.2 false
                 enabled := Function.update net.enabled p.2 false
                 connections := Function.update net.connections p.2 none } hl
      fun e he => by simpa [ne_of_mem_of_not_mem he hp] using hle e he
    refine ⟨net', run_cons.mpr ⟨_, by simp [Network.config, hpe], hrun⟩, ?_, ?_⟩
    · refine List.forall_mem_cons.mpr ⟨?_, hgone⟩
      simpa using hrest p.2 hp
    · intro e he
      obtain ⟨hne, hel⟩ := not_or.mp (List.mem_cons.not.mp he)
      simpa [show e ≠ p.2 from hne] using hrest e hel

/-- A loop that switches ends deletes none and connects none. -/
theorem run_enable_frame {ι : Type} (on : Bool) (p : ι → Bool) (e : ι → E) (l : List ι)
    {net net' : Network E GoString}
    (h : run (fun net j => if p j then net.config (.enable (e j) on) else some net) net l =
      some net') :
    net'.ends = net.ends ∧ net'.connections = net.connections := by
  refine @run_invariant _ _ _ (fun n => n.ends = net.ends ∧ n.connections = net.connections)
    (fun n j n' hn hstep => ?_) _ _ _ ⟨rfl, rfl⟩ h
  split at hstep
  · cases hstep
    exact hn
  · cases hstep
    exact hn

end removal

/-! ### What one operation does -/

section steps
variable {E : Type}

/-- The end that a client has to a server. -/
def Clnts.endOf (s : Clnts E) (c : ℕ) (server : GoString) : Option E :=
  (s.clnts c).bind fun clnt => clnt.ends.lookup server

/-- The client has not been deleted. -/
def Clnts.Live (s : Clnts E) (c : ℕ) : Prop := ∃ clerks, s.clerks = some clerks ∧ c ∈ clerks

/-- What an operation can do to clients and to ends whose names they have drawn. -/
inductive Change (s s' : Clnts E) : Prop where
  /-- nothing, or ends are switched -/
  | same (hend : s'.endOf = s.endOf) (hlive : ∀ c, s'.Live c ↔ s.Live c) (hmade : s'.made = s.made)
      (hdrawn : s'.drawn = s.drawn)
      (hnet : ∀ e, s.drawn e = true → s'.net.ends e = s.net.ends e ∧
        s'.net.connections e = s.net.connections e)
  /-- a new client -/
  | client (hend : s'.endOf = s.endOf) (hlive : ∀ c, s'.Live c ↔ s.Live c ∨ c = s.made)
      (hmade : s'.made = s.made + 1) (hdrawn : s'.drawn = s.drawn) (hnet : s'.net = s.net)
  /-- a client makes an end -/
  | makeEnd (c : ℕ) (server : GoString) (name : E) (hc : c < s.made)
      (hnone : s.endOf c server = none) (hnew : s.drawn name = false)
      (hlive : ∀ c, s'.Live c ↔ s.Live c) (hmade : s'.made = s.made)
      (hend : ∀ c' server', s'.endOf c' server' =
        if c' = c ∧ server' = server then some name else s.endOf c' server')
      (hdrawn : ∀ e, s'.drawn e = true ↔ e = name ∨ s.drawn e = true)
      (hname : s'.net.ends name = true ∧ s'.net.connections name = some server)
      (hnet : ∀ e, e ≠ name → s'.net.ends e = s.net.ends e ∧
        s'.net.connections e = s.net.connections e)
  /-- clients are deleted -/
  | remove (gone : ℕ → Prop) (hgone : ∀ c, gone c → s.Live c) (hend : s'.endOf = s.endOf)
      (hlive : ∀ c, s'.Live c ↔ s.Live c ∧ ¬ gone c) (hmade : s'.made = s.made)
        (hdrawn : s'.drawn = s.drawn)
      (hends : ∀ c server e, gone c → s.endOf c server = some e →
        s'.net.ends e = false ∧ s'.net.connections e = none)
      (hnet : ∀ e, (∀ c server, gone c → s.endOf c server ≠ some e) →
        s'.net.ends e = s.net.ends e ∧ s'.net.connections e = s.net.connections e)

/-- What holds in every state that can be reached. -/
structure Clnts.Inv (s : Clnts E) : Prop where
  slot : ∀ c, (∃ clnt, s.clnts c = some clnt) ↔ c < s.made
  clerk : ∀ c, s.Live c → c < s.made
  drawn : ∀ c server e, s.endOf c server = some e → s.drawn e = true
  apart : ∀ c c' server server' e, s.endOf c server = some e → s.endOf c' server' = some e →
    c = c' ∧ server = server'
  live : ∀ c server e, s.Live c → s.endOf c server = some e →
    s.net.ends e = true ∧ s.net.connections e = some server

theorem inv_makeClnts (net : Network E GoString) : (makeClnts net).Inv where
  slot := fun c => by simp [makeClnts]
  clerk := fun c h => by
    obtain ⟨clerks, hclerks, hc⟩ := h
    cases hclerks
    exact absurd hc (Finmap.notMem_empty)
  drawn := fun _ _ _ h => by cases h
  apart := fun _ _ _ _ _ h => by cases h
  live := fun _ _ _ _ h => by cases h

variable {s s' : Clnts E} {c : ℕ}

theorem endOf_eq {clnt : Clnt E} (hc : s.clnts c = some clnt) (server : GoString) :
    s.endOf c server = clnt.ends.lookup server := by
  rw [Clnts.endOf, hc, Option.bind_some]

theorem Clnts.Inv.lt_made (h : s.Inv) {server : GoString} {e : E}
    (hlook : s.endOf c server = some e) : c < s.made := by
  obtain ⟨clnt, hc, -⟩ := Option.bind_eq_some_iff.mp hlook
  exact (h.slot c).mp ⟨clnt, hc⟩

theorem endOf_put (c' : ℕ) (r : ClntState E) (server : GoString) :
    (s.put c r).endOf c' server = if c' = c then r.clnt.ends.lookup server
      else s.endOf c' server := by
  rcases eq_or_ne c' c with rfl | hne
  · simp [Clnts.endOf, Clnts.put]
  · simp [Clnts.endOf, Clnts.put, hne]

/-- An operation of a client that makes no end. -/
theorem Change.put {clnt : Clnt E} {r : ClntState E} (hc : s.clnts c = some clnt)
    (hclnt : r.clnt.ends = clnt.ends) (hends : r.net.ends = s.net.ends)
    (hconn : r.net.connections = s.net.connections) : Change s (s.put c r) := by
  refine .same ?_ (fun _ => Iff.rfl) rfl rfl fun e _ => ⟨congrFun hends e, congrFun hconn e⟩
  funext c' server
  rw [endOf_put, hclnt]
  split
  · rename_i heq
    rw [heq, endOf_eq hc]
  · rfl

theorem slot_put {clnt : Clnt E} (h : s.Inv) (hc : s.clnts c = some clnt)
    (r : ClntState E) (c' : ℕ) : (∃ clnt, (s.put c r).clnts c' = some clnt) ↔ c' < s.made := by
  rw [← h.slot]
  rcases eq_or_ne c' c with rfl | hne
  · simp [Clnts.put, hc]
  · simp [Clnts.put, hne]

/-- An operation of one client is one of these changes. -/
theorem Clnts.Inv.on_change (h : s.Inv) {f : ClntState E → Option (ClntState E)}
    (hstep : s.on c f = some s')
    (hf : ∀ clnt r, f ⟨s.net, clnt⟩ = some r → r.clnt.ends = clnt.ends ∧ r.net.ends = s.net.ends ∧
      r.net.connections = s.net.connections) :
    Change s s' ∧ ∀ c, (∃ clnt, s'.clnts c = some clnt) ↔ c < s'.made := by
  simp only [Clnts.on, Option.bind_eq_some_iff, Option.map_eq_some_iff] at hstep
  obtain ⟨clnt, hc, r, hr, rfl⟩ := hstep
  obtain ⟨hclnt, hends, hconn⟩ := hf clnt r hr
  exact ⟨.put hc hclnt hends hconn, slot_put h hc r⟩

/-- Every operation keeps the ends apart, and those of clients that have not been deleted in
    place. -/
theorem Clnts.Inv.change (h : s.Inv) (hchange : Change s s')
    (hslot : ∀ c, (∃ clnt, s'.clnts c = some clnt) ↔ c < s'.made) : s'.Inv := by
  cases hchange with
  | same hend hlive hmade hdrawn hnet =>
    refine ⟨hslot, ?_, by rw [hend, hdrawn]; exact h.drawn, by rw [hend]; exact h.apart, ?_⟩
    · intro c hc
      rw [hmade]
      exact h.clerk c ((hlive c).mp hc)
    · intro c server e hc hlook
      rw [hend] at hlook
      rw [(hnet e (h.drawn c server e hlook)).1, (hnet e (h.drawn c server e hlook)).2]
      exact h.live c server e ((hlive c).mp hc) hlook
  | client hend hlive hmade hdrawn hnet =>
    refine ⟨hslot, ?_, by rw [hend, hdrawn]; exact h.drawn, by rw [hend]; exact h.apart, ?_⟩
    · intro c hc
      rw [hmade]
      rcases (hlive c).mp hc with hc | rfl
      · exact Nat.lt_succ_of_lt (h.clerk c hc)
      · exact Nat.lt_succ_self _
    · intro c server e hc hlook
      rw [hend] at hlook
      rw [hnet]
      rcases (hlive c).mp hc with hc | rfl
      · exact h.live c server e hc hlook
      · exact absurd (h.lt_made hlook) (Nat.lt_irrefl _)
  | makeEnd c server name hc hnone hnew hlive hmade hend hdrawn hname hnet =>
    have hcases : ∀ {c' server' e}, s'.endOf c' server' = some e →
        (c' = c ∧ server' = server ∧ e = name) ∨ e ≠ name ∧ s.endOf c' server' = some e := by
      intro c' server' e hlook
      rw [hend] at hlook
      split at hlook
      · rename_i heq
        exact Or.inl ⟨heq.1, heq.2, (Option.some.inj hlook).symm⟩
      · refine Or.inr ⟨?_, hlook⟩
        rintro rfl
        exact Bool.false_ne_true (hnew.symm.trans (h.drawn c' server' _ hlook))
    refine ⟨hslot, ?_, ?_, ?_, ?_⟩
    · intro c' hc'
      rw [hmade]
      exact h.clerk c' ((hlive c').mp hc')
    · intro c' server' e hlook
      rw [hdrawn]
      obtain ⟨-, -, rfl⟩ | ⟨-, hlook⟩ := hcases hlook
      · exact Or.inl rfl
      · exact Or.inr (h.drawn c' server' e hlook)
    · intro c₁ c₂ server₁ server₂ e h₁ h₂
      obtain ⟨rfl, rfl, rfl⟩ | ⟨hne, h₁⟩ := hcases h₁
      · obtain ⟨rfl, rfl, -⟩ | ⟨hne, -⟩ := hcases h₂
        · exact ⟨rfl, rfl⟩
        · exact absurd rfl hne
      · obtain ⟨-, -, rfl⟩ | ⟨-, h₂⟩ := hcases h₂
        · exact absurd rfl hne
        · exact h.apart c₁ c₂ server₁ server₂ e h₁ h₂
    · intro c' server' e hc' hlook
      obtain ⟨rfl, rfl, rfl⟩ | ⟨hne, hlook⟩ := hcases hlook
      · exact hname
      · rw [(hnet e hne).1, (hnet e hne).2]
        exact h.live c' server' e ((hlive c').mp hc') hlook
  | remove gone hgone hend hlive hmade hdrawn hends hnet =>
    refine ⟨hslot, ?_, by rw [hend, hdrawn]; exact h.drawn, by rw [hend]; exact h.apart, ?_⟩
    · intro c hc
      rw [hmade]
      exact h.clerk c ((hlive c).mp hc).1
    · intro c server e hc hlook
      rw [hend] at hlook
      obtain ⟨hc, hkept⟩ := (hlive c).mp hc
      have hsame := hnet e fun c' server' hc' hlook' =>
        hkept ((h.apart c c' server server' e hlook hlook').1 ▸ hc')
      rw [hsame.1, hsame.2]
      exact h.live c server e hc hlook

/-! ### Clients that have been deleted -/

/-- A client that is deleted, and the ends it had when it was. -/
structure Clnts.Deleted (c : ℕ) (had : GoString → Option E) (s : Clnts E) : Prop where
  slot : c < s.made
  dead : ¬ s.Live c
  kept : ∀ server e, had server = some e → s.endOf c server = some e
  gone : ∀ server e, had server = some e → s.net.connections e = none
  later : ∀ server e, had server = none → s.endOf c server = some e →
    s.net.ends e = true ∧ s.net.connections e = some server

/-- No operation gives a deleted client back what it had, or takes from it what it makes. -/
theorem Clnts.Deleted.change {had : GoString → Option E} (hd : s.Deleted c had) (h : s.Inv)
    (hchange : Change s s') : s'.Deleted c had := by
  have hdrawn : ∀ {server e}, had server = some e → s.drawn e = true :=
    fun hhad => h.drawn c _ _ (hd.kept _ _ hhad)
  cases hchange with
  | same hend hlive hmade _ hnet =>
    refine ⟨hmade ▸ hd.slot, fun hc => hd.dead ((hlive c).mp hc),
      by rw [hend]; exact hd.kept, ?_, ?_⟩
    · intro server e hhad
      rw [(hnet e (hdrawn hhad)).2]
      exact hd.gone server e hhad
    · intro server e hhad hlook
      rw [hend] at hlook
      rw [(hnet e (h.drawn c server e hlook)).1, (hnet e (h.drawn c server e hlook)).2]
      exact hd.later server e hhad hlook
  | client hend hlive hmade _ hnet =>
    refine ⟨hmade ▸ Nat.lt_succ_of_lt hd.slot, ?_, by rw [hend]; exact hd.kept,
      by rw [hnet]; exact hd.gone, by rw [hend, hnet]; exact hd.later⟩
    intro hc
    rcases (hlive c).mp hc with hc | rfl
    · exact hd.dead hc
    · exact Nat.lt_irrefl _ hd.slot
  | makeEnd c' server' name hc' hnone hnew hlive hmade hend _ hname hnet =>
    have hne : ∀ {e}, s.drawn e = true → e ≠ name := by
      rintro e he rfl
      exact Bool.false_ne_true (hnew.symm.trans he)
    refine ⟨hmade ▸ hd.slot, fun hc => hd.dead ((hlive c).mp hc), ?_, ?_, ?_⟩
    · intro server e hhad
      have hlook := hd.kept server e hhad
      rw [hend, if_neg, hlook]
      rintro ⟨rfl, rfl⟩
      rw [hnone] at hlook
      cases hlook
    · intro server e hhad
      rw [(hnet e (hne (hdrawn hhad))).2]
      exact hd.gone server e hhad
    · intro server e hhad hlook
      rw [hend] at hlook
      split at hlook
      · rename_i heq
        obtain rfl := Option.some.inj hlook
        rw [heq.2]
        exact hname
      · have hkeep := hnet e (hne (h.drawn c server e hlook))
        rw [hkeep.1, hkeep.2]
        exact hd.later server e hhad hlook
  | remove gone hgone hend hlive hmade _ hends hnet =>
    refine ⟨hmade ▸ hd.slot, fun hc => hd.dead ((hlive c).mp hc).1,
      by rw [hend]; exact hd.kept, ?_, ?_⟩
    · intro server e hhad
      have hsame := hnet e fun c' server' hc' hlook' =>
        hd.dead ((h.apart c c' server server' e (hd.kept server e hhad) hlook').1 ▸ hgone c' hc')
      rw [hsame.2]
      exact hd.gone server e hhad
    · intro server e hhad hlook
      rw [hend] at hlook
      have hsame := hnet e fun c' server' hc' hlook' =>
        hd.dead ((h.apart c c' server server' e hlook hlook').1 ▸ hgone c' hc')
      rw [hsame.1, hsame.2]
      exact hd.later server e hhad hlook

/-! ### Deleting -/

variable [DecidableEq E]

/-- The ends of one client. -/
theorem Clnts.Inv.remove (h : s.Inv) {clnt : Clnt E} (hc : s.clnts c = some clnt)
    (o : RangeOrder GoString) (net : Network E GoString)
    (hends : ∀ server e, s.endOf c server = some e → net.ends e = true) :
    ∃ net', clnt.remove o net = some net' ∧
      (∀ server e, s.endOf c server = some e → net'.ends e = false ∧ net'.connections e = none) ∧
      ∀ e, (∀ server, s.endOf c server ≠ some e) →
        net'.ends e = net.ends e ∧ net'.connections e = net.connections e := by
  have hmem : ∀ e, e ∈ (o.entries clnt.ends).map Prod.snd ↔ ∃ server,
      s.endOf c server = some e := by
    intro e
    simp only [List.mem_map, Prod.exists, o.mem_entries, endOf_eq hc]
    constructor
    · rintro ⟨server, e', hlook, rfl⟩
      exact ⟨server, hlook⟩
    · rintro ⟨server, hlook⟩
      exact ⟨server, e, hlook, rfl⟩
  have hnodup : ((o.entries clnt.ends).map Prod.snd).Nodup := by
    refine List.Nodup.map_on ?_ (o.nodup_entries clnt.ends)
    rintro ⟨server, e⟩ hin ⟨server', e'⟩ hin' (rfl : e = e')
    rw [o.mem_entries, ← endOf_eq hc] at hin hin'
    rw [(h.apart c c server server' e hin hin').2]
  obtain ⟨net', hrun, hgone, hrest⟩ := run_deleteEnd (o.entries clnt.ends) net hnodup fun e he => by
    obtain ⟨server, hlook⟩ := (hmem e).mp he
    exact hends server e hlook
  refine ⟨net', hrun, ?_, ?_⟩
  · intro server e hlook
    exact hgone e ((hmem e).mpr ⟨server, hlook⟩)
  · intro e he
    refine hrest e fun hin => ?_
    obtain ⟨server, hlook⟩ := (hmem e).mp hin
    exact he server hlook

/-- The ends of several clients. -/
theorem Clnts.Inv.removeAll (h : s.Inv) (o : RangeOrder GoString) (l : List ℕ) (hl : l.Nodup)
    (net : Network E GoString) (hmade : ∀ c ∈ l, c < s.made)
    (hends : ∀ c ∈ l, ∀ server e, s.endOf c server = some e → net.ends e = true) :
    ∃ net', s.removeAll o net l = some net' ∧
      (∀ c ∈ l, ∀ server e, s.endOf c server = some e → net'.ends e = false ∧
        net'.connections e = none) ∧
      ∀ e, (∀ c ∈ l, ∀ server, s.endOf c server ≠ some e) →
        net'.ends e = net.ends e ∧ net'.connections e = net.connections e := by
  induction l generalizing net with
  | nil => exact ⟨net, rfl, fun _ h => absurd h List.not_mem_nil, fun _ _ => ⟨rfl, rfl⟩⟩
  | cons c l ih =>
    obtain ⟨hcl, hl⟩ := List.nodup_cons.mp hl
    obtain ⟨hc, hmade⟩ := List.forall_mem_cons.mp hmade
    obtain ⟨hcends, hends⟩ := List.forall_mem_cons.mp hends
    obtain ⟨clnt, hclnt⟩ := (h.slot c).mpr hc
    obtain ⟨net₁, hremove, hgone, hrest⟩ := h.remove hclnt o net hcends
    -- the other clients still have theirs
    have hother : ∀ c' ∈ l, ∀ server e, s.endOf c' server = some e → ∀ server',
        s.endOf c server' ≠ some e := by
      intro c' hc' server e hlook server' hlook'
      exact ne_of_mem_of_not_mem hc' hcl (h.apart c' c server server' e hlook hlook').1
    obtain ⟨net', hrun, hgone', hrest'⟩ := ih hl net₁ hmade fun c' hc' server e hlook => by
      rw [(hrest e (hother c' hc' server e hlook)).1]
      exact hends c' hc' server e hlook
    refine ⟨net', run_cons.mpr ⟨net₁, by rw [hclnt, Option.bind_some, hremove], hrun⟩, ?_, ?_⟩
    · refine List.forall_mem_cons.mpr ⟨?_, hgone'⟩
      intro server e hlook
      have hkeep :=
        hrest' e fun c' hc' server' hlook' => hother c' hc' server' e hlook' server hlook
      rw [hkeep.1, hkeep.2]
      exact hgone server e hlook
    · intro e he
      obtain ⟨hce, hle⟩ := List.forall_mem_cons.mp he
      have h₁ := hrest' e hle
      have h₂ := hrest e hce
      exact ⟨h₁.1.trans h₂.1, h₁.2.trans h₂.2⟩

/-- Live clients are deleted without an error, and their ends with them. -/
theorem Clnts.Inv.removed (h : s.Inv) (o : RangeOrder GoString) (l : List ℕ) (hl : l.Nodup)
    (hlive : ∀ c ∈ l, s.Live c) (clerks : Option (GoMap ℕ Unit))
    (hclerks : ∀ c, (∃ cl, clerks = some cl ∧ c ∈ cl) ↔ s.Live c ∧ c ∉ l) :
    ∃ net, s.removeAll o s.net l = some net ∧ Change s { s with net := net, clerks := clerks } ∧
      ∀ c ∈ l, ∀ server e, s.endOf c server = some e → net.ends e = false ∧
        net.connections e = none := by
  obtain ⟨net, hrun, hgone, hrest⟩ := h.removeAll o l hl s.net (fun c hc => h.clerk c (hlive c hc))
    fun c hc server e hlook => (h.live c server e (hlive c hc) hlook).1
  refine ⟨net, hrun, ?_, hgone⟩
  exact .remove (· ∈ l) hlive rfl hclerks rfl rfl (fun c server e hc => hgone c hc server e)
    fun e he => hrest e fun c hc server => he c server hc

theorem Clnts.Inv.cleanup (h : s.Inv) (oc : RangeOrder ℕ) (o : RangeOrder GoString) :
    ∃ s', s.cleanup oc o = some s' ∧ Change s s' ∧ s'.clnts = s.clnts ∧ s'.made = s.made := by
  have hmem : ∀ c, c ∈ oc.visit (s.clerks.getD ∅).keys ↔ s.Live c := by
    intro c
    rw [oc.mem_visit, Finmap.mem_keys, Clnts.Live]
    cases s.clerks with
    | none => simp [Finmap.notMem_empty]
    | some clerks => simp
  obtain ⟨net, hrun, hchange, -⟩ :=
    h.removed o _ (oc.nodup_visit _) (fun c hc => (hmem c).mp hc) none (by
    intro c
    simp [hmem])
  exact ⟨_, by rw [Clnts.cleanup, hrun, Option.map_some], hchange, rfl, rfl⟩

theorem Clnts.Inv.deleteClient (h : s.Inv) (hlive : s.Live c) (o : RangeOrder GoString) :
    ∃ s', s.deleteClient c o = some s' ∧ Change s s' ∧ s'.clnts = s.clnts ∧
      s'.made = s.made ∧ ¬ s'.Live c ∧ ∀ server e, s.endOf c server = some e →
      s'.net.ends e = false ∧ s'.net.connections e = none := by
  obtain ⟨clerks, hclerks, hc⟩ := hlive
  obtain ⟨clnt, hclnt⟩ := (h.slot c).mpr (h.clerk c ⟨clerks, hclerks, hc⟩)
  obtain ⟨net, hrun, hchange, hgone⟩ := h.removed o [c] (List.nodup_singleton c)
    (by rintro c' hc'; rw [List.mem_singleton.mp hc']; exact ⟨clerks, hclerks, hc⟩)
      (some (clerks.erase c)) (by
    intro c'
    simp [Clnts.Live, hclerks, Finmap.mem_erase, and_comm])
  have hremove : clnt.remove o s.net = some net := by
    simpa [Clnts.removeAll, run, hclnt] using hrun
  refine ⟨_,
    by simp only [Clnts.deleteClient, hclerks, if_pos hc, hclnt, Option.bind_some, hremove]; rfl,
    hchange, rfl, rfl, ?_, hgone c (List.mem_singleton_self c)⟩
  rintro ⟨clerks', hclerks', hc'⟩
  cases hclerks'
  exact (Finmap.mem_erase.mp hc').1 rfl

theorem Clnts.deleteClient_gone (hlive : ¬ s.Live c) (o : RangeOrder GoString) :
    s.deleteClient c o = some s := by
  rw [Clnts.deleteClient]
  split
  · rfl
  · rename_i clerks hclerks
    exact if_neg fun hc => hlive ⟨clerks, hclerks, hc⟩

theorem call_new {clnt : Clnt E} {net : Network E GoString} {r : ClntState E}
    {server : GoString} {name : E} (hnone : clnt.ends.lookup server = none)
    (h : ClntState.call ⟨net, clnt⟩ server name = some r) :
    r.clnt.ends = clnt.ends.insert server name ∧ r.net.ends = Function.update net.ends name true ∧
      r.net.connections = Function.update net.connections name (some server) := by
  simp only [ClntState.call, ClntState.makeEnd, hnone, Network.config] at h
  split at h
  · cases h
  · cases h
    exact ⟨rfl, rfl, by simp⟩

theorem Clnts.Inv.call_change (h : s.Inv) {server : GoString} {name : E}
    (hstep : s.call c server name = some s') :
    Change s s' ∧ ∀ c, (∃ clnt, s'.clnts c = some clnt) ↔ c < s'.made := by
  simp only [Clnts.call, Option.bind_eq_some_iff] at hstep
  obtain ⟨clnt, hc, hstep⟩ := hstep
  split at hstep
  · cases hstep
    exact ⟨.same rfl (fun _ => Iff.rfl) rfl rfl fun _ _ => ⟨rfl, rfl⟩, h.slot⟩
  · rename_i hnone
    split at hstep
    · cases hstep
    · rename_i hnew
      obtain ⟨r, hr, rfl⟩ := Option.map_eq_some_iff.mp hstep
      obtain ⟨hends, hnetEnds, hconn⟩ := call_new hnone hr
      refine ⟨.makeEnd c server name ((h.slot c).mp ⟨clnt, hc⟩) ?_ (by simpa using hnew)
        (fun _ => Iff.rfl) rfl ?_ ?_
        ?_ ?_, slot_put h hc r⟩
      · rw [endOf_eq hc, hnone]
      · intro c' server'
        refine (endOf_put c' r server').trans ?_
        rw [hends]
        rcases eq_or_ne c' c with rfl | hne
        · rcases eq_or_ne server' server with rfl | hne'
          · simp
          · simp [hne', Finmap.lookup_insert_of_ne _ hne', endOf_eq hc]
        · simp [hne]
      · intro e
        rcases eq_or_ne e name with rfl | hne
        · simp
        · simp [hne]
      · simp [Clnts.put, hnetEnds, hconn]
      · intro e hne
        simp [Clnts.put, hnetEnds, hconn, hne]

theorem config_connections {n n' : Network E GoString} {op : NetOp E GoString} {e : E}
    (h : n.config op = some n') (hne : some e ≠ endName op) :
    n'.connections e = n.connections e := by
  cases op with
  | makeEnd x | deleteEnd x =>
    have hx : e ≠ x := fun heq => hne (congrArg some heq)
    simp only [Network.config] at h
    split at h <;> cases h
    exact Function.update_of_ne hx _ _
  | connect x name =>
    have hx : e ≠ x := fun heq => hne (congrArg some heq)
    cases h
    exact Function.update_of_ne hx _ _
  | cleanup =>
    simp only [Network.config] at h
    split at h <;> cases h
    rfl
  | enable x b | addServer name srv | deleteServer name | reliable b
  | longReordering b | longDelays b =>
    cases h
    rfl

/-- Every operation is one of these changes. -/
theorem Clnts.Inv.step_change (h : s.Inv) {op : ClntsOp E} (hstep : s.step op = some s') :
    Change s s' ∧ ∀ c, (∃ clnt, s'.clnts c = some clnt) ↔ c < s'.made := by
  cases op with
  | makeClientTo srvs =>
    obtain ⟨clerks, hclerks, rfl⟩ := Option.map_eq_some_iff.mp hstep
    refine ⟨.client ?_ ?_ rfl rfl rfl, ?_⟩
    · funext c server
      rcases eq_or_ne c s.made with rfl | hne
      · have hnone : s.clnts s.made = none :=
          Option.eq_none_iff_forall_ne_some.mpr fun clnt hc =>
            absurd ((h.slot _).mp ⟨clnt, hc⟩) (Nat.lt_irrefl _)
        simp [Clnts.endOf, hnone, makeClntTo]
      · simp [Clnts.endOf, hne]
    · intro c
      simp [Clnts.Live, hclerks, or_comm]
    · intro c
      rcases eq_or_ne c s.made with rfl | hne
      · simp
      · simp only [Function.update_of_ne hne, h.slot]
        omega
  | call c server name => exact h.call_change hstep
  | connectAll c o =>
    rw [Clnts.step] at hstep
    refine h.on_change hstep fun clnt r hr => ?_
    obtain ⟨net, hrun, rfl⟩ := Option.map_eq_some_iff.mp hr
    exact ⟨rfl, run_enable_frame true (fun _ => true) _ _ hrun⟩
  | connectTo c o srvs =>
    rw [Clnts.step] at hstep
    refine h.on_change hstep fun clnt r hr => ?_
    obtain ⟨net, hrun, rfl⟩ := Option.map_eq_some_iff.mp hr
    exact ⟨rfl, run_enable_frame true (fun e : GoString × E => allows srvs e.1) _ _ hrun⟩
  | disconnect c o server =>
    rw [Clnts.step] at hstep
    refine h.on_change hstep fun clnt r hr => ?_
    obtain ⟨net, hrun, rfl⟩ := Option.map_eq_some_iff.mp hr
    refine ⟨rfl, run_enable_frame false (fun e : GoString × E => e.1 = server) (fun e => e.2)
      (o.entries clnt.ends) ?_⟩
    simpa using hrun
  | disconnectAll c o =>
    rw [Clnts.step] at hstep
    refine h.on_change hstep fun clnt r hr => ?_
    obtain ⟨net, hrun, rfl⟩ := Option.map_eq_some_iff.mp hr
    exact ⟨rfl, run_enable_frame false (fun _ => true) _ _ hrun⟩
  | deleteClient c o =>
    by_cases hlive : s.Live c
    · obtain ⟨s₁, hs₁, hchange, hclnts, hmade, -⟩ := h.deleteClient hlive o
      obtain rfl := Option.some.inj (hs₁.symm.trans hstep)
      exact ⟨hchange, by rw [hclnts, hmade]; exact h.slot⟩
    · obtain rfl := Option.some.inj ((Clnts.deleteClient_gone hlive o).symm.trans hstep)
      exact ⟨.same rfl (fun _ => Iff.rfl) rfl rfl fun _ _ => ⟨rfl, rfl⟩, h.slot⟩
  | cleanup oc o =>
    obtain ⟨s₁, hs₁, hchange, hclnts, hmade⟩ := h.cleanup oc o
    obtain rfl := Option.some.inj (hs₁.symm.trans hstep)
    exact ⟨hchange, by rw [hclnts, hmade]; exact h.slot⟩
  | other op =>
    rw [Clnts.step, Option.ite_none_right_eq_some] at hstep
    obtain ⟨hother, hstep⟩ := hstep
    obtain ⟨net, hnet, rfl⟩ := Option.map_eq_some_iff.mp hstep
    refine ⟨.same rfl (fun _ => Iff.rfl) rfl rfl fun e he => ?_, h.slot⟩
    have hne : some e ≠ endName op :=
      fun heq => Bool.false_ne_true ((hother e heq.symm).symm.trans he)
    exact ⟨(config_other hnet hne).2, config_connections hnet hne⟩

theorem inv_step (s : Clnts E) (op : ClntsOp E) (s' : Clnts E) (h : s.Inv)
    (hstep : s.step op = some s') : s'.Inv := by
  obtain ⟨hchange, hslot⟩ := h.step_change hstep
  exact h.change hchange hslot

/-- For ever after. -/
theorem Clnts.Inv.deleted_run (h : s.Inv) (hlive : s.Live c)
    {o : RangeOrder GoString} {s₁ : Clnts E} (hs₁ : s.deleteClient c o = some s₁)
    {ys : List (ClntsOp E)} (hrun : run Clnts.step s₁ ys = some s') : s'.Deleted c (s.endOf c) := by
  obtain ⟨s₂, hs₂, hchange, hclnts, hmade, hdead, hgone⟩ := h.deleteClient hlive o
  obtain rfl := Option.some.inj (hs₁.symm.trans hs₂)
  have hend : s₁.endOf = s.endOf := by
    funext c' server
    rw [Clnts.endOf, hclnts, Clnts.endOf]
  have hinv : s₁.Inv := h.change hchange (by rw [hclnts, hmade]; exact h.slot)
  have hdel : s₁.Deleted c (s.endOf c) := by
    refine ⟨hmade ▸ h.clerk c hlive, hdead, ?_, fun server e hhad => (hgone server e hhad).2, ?_⟩
    · intro server e hhad
      rw [hend, hhad]
    · intro server e hhad hlook
      rw [hend, hhad] at hlook
      cases hlook
  refine (@run_invariant _ _ _ (fun t => t.Inv ∧ t.Deleted c (s.endOf c)) ?_ _
    _ _ ⟨hinv, hdel⟩ hrun).2
  rintro t op t' ⟨ht, hdt⟩ hstep
  exact ⟨inv_step t op t' ht hstep, hdt.change ht (ht.step_change hstep).1⟩

/-- CORRECT: in every state that can be reached, the ends of the clients that have not been deleted
    exist and are connected to their servers; clients can be deleted and cleaned up without an
    error. A client that has been deleted can never reach a server again to which it had an end,
    whatever is done; but an end that it makes afterwards stays for ever. -/
theorem client_lifecycle (net : Network E GoString) (xs : List (ClntsOp E)) (s : Clnts E)
    (hrun : run Clnts.step (makeClnts net) xs = some s) :
    (∀ c server e, s.Live c → s.endOf c server = some e →
      s.net.ends e = true ∧ s.net.connections e = some server) ∧
    (∀ oc o, ∃ s', s.step (.cleanup oc o) = some s') ∧
    ∀ c o, ∃ s₁, s.step (.deleteClient c o) = some s₁ ∧
      (s.Live c → ∀ ys s', run Clnts.step s₁ ys = some s' →
      (∀ server e, s.endOf c server = some e → s'.endOf c server = some e ∧ Unreachable s'.net e) ∧
      ∀ server e, s.endOf c server = none → s'.endOf c server = some e →
        s'.net.ends e = true ∧ s'.net.connections e = some server) := by
  have h := run_invariant inv_step (inv_makeClnts net) hrun
  refine ⟨h.live, ?_, ?_⟩
  · intro oc o
    obtain ⟨s', hs', -⟩ := h.cleanup oc o
    exact ⟨s', hs'⟩
  · intro c o
    by_cases hlive : s.Live c
    · obtain ⟨s₁, hs₁, -⟩ := h.deleteClient hlive o
      refine ⟨s₁, hs₁, fun _ ys s' hys => ?_⟩
      have hdel := h.deleted_run hlive hs₁ hys
      exact ⟨fun server e hhad =>
        ⟨hdel.kept server e hhad, Or.inr (Or.inl (hdel.gone server e hhad))⟩, hdel.later⟩
    · exact ⟨s, Clnts.deleteClient_gone hlive o, fun hl => absurd hl hlive⟩

end steps

/-- A client that is deleted after a call to `a` is connected again, and calls `b`. -/
theorem client_lifecycle_late : ∃ s s' : Clnts ℕ,
    run Clnts.step (makeClnts LabRpc.makeNetwork) [.makeClientTo none, .call 0 (.lit "a") 0] =
      some s ∧
    run Clnts.step s [.deleteClient 0 (.ascending GoString), .connectAll 0 (.ascending GoString),
      .call 0 (.lit "b") 1] = some s' ∧ Unreachable s'.net 0 ∧ s'.net.ends 1 = true := by
  have hany : (run Clnts.step (makeClnts (LabRpc.makeNetwork : Network ℕ GoString))
      [.makeClientTo none, .call 0 (.lit "a") 0]).any (fun s =>
        s.endOf 0 (.lit "a") = some 0 && s.endOf 0 (.lit "b") = none &&
        s.clerks.any (fun clerks => 0 ∈ clerks) &&
        (run Clnts.step s [.deleteClient 0 (.ascending GoString),
          .connectAll 0 (.ascending GoString), .call 0 (.lit "b") 1]).any fun s' =>
            s'.endOf 0 (.lit "b") = some 1) = true := by
    decide +kernel
  obtain ⟨s, hs, hends⟩ := (Option.any_eq_true _ _).mp hany
  simp only [Bool.and_eq_true, decide_eq_true_eq] at hends
  obtain ⟨⟨⟨ha, hb⟩, hclerks⟩, hlater⟩ := hends
  obtain ⟨clerks, hclerks, hc⟩ := (Option.any_eq_true _ _).mp hclerks
  obtain ⟨s', hs', hb'⟩ := (Option.any_eq_true _ _).mp hlater
  obtain ⟨-, -, hdelete⟩ := client_lifecycle LabRpc.makeNetwork _ s hs
  obtain ⟨s₁, hs₁, hafter⟩ := hdelete 0 (.ascending GoString)
  obtain ⟨s₂, hs₂, hrest⟩ := run_cons.mp hs'
  obtain rfl := Option.some.inj (hs₁.symm.trans hs₂)
  obtain ⟨hgone, hkept⟩ := hafter ⟨clerks, hclerks, of_decide_eq_true hc⟩ _ s' hrest
  exact ⟨s, s', hs, hs', (hgone _ _ ha).2, (hkept _ _ hb (of_decide_eq_true hb')).1⟩

end DistSys.Tester
