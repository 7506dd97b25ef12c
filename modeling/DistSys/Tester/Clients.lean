import DistSys.Schemes.GoMap
import DistSys.Tester.Group

/-! @go tester1/clnts.go | name:Clnt, allowedL, makeEnd, ConnectAll, ConnectTo, DisconnectAll |
    scheme:machine

    A client makes an end to a server when it first calls it, enabled if the server is allowed, and
    its owner changes later which servers are. The bulk operations go over the ends made so far:
    `ConnectAll` enables all of them and `DisconnectAll` disables all of them, but `ConnectTo` only
    enables those that are allowed now, and leaves the others as they are.

        srvs = nil       Call a, Call b       a ■  b ■
        ConnectTo [b]                         a ■  b ■      a is no longer allowed

    The network is shared: other parties call it too, about ends of their own. -/

namespace DistSys.Tester
open LabRpc (Network NetOp)
open Machine (run)

/-- `Clnt`: the allocated ends by server, and the servers allowed, `none` for all of them. -/
structure Clnt (E : Type) where
  ends : GoMap GoString E
  srvs : Option (List GoString)

section definitions
variable {E : Type}

/-- The loop of `allowedL`, over the servers given. -/
def allows (srvs : Option (List GoString)) (server : GoString) : Bool :=
  match srvs with
  | none => true
  | some ns => ns.any fun n => n = server

def Clnt.allowedL (clnt : Clnt E) (server : GoString) : Bool := allows clnt.srvs server

def makeClntTo (srvs : Option (List GoString)) : Clnt E := ⟨∅, srvs⟩

/-- A client and the network. -/
structure ClntState (E : Type) where
  net : Network E GoString
  clnt : Clnt E

variable [DecidableEq E]

namespace ClntState
variable (s : ClntState E)

/-- `makeEnd`, with the name that `Randstring` returns if it is asked. -/
def makeEnd (server : GoString) (name : E) : Option (E × ClntState E) :=
  match s.clnt.ends.lookup server with
  | some e => some (e, s)
  | none =>
    (s.net.config (.makeEnd name)).bind fun net =>
      (net.config (.connect name (some server))).bind fun net =>
        (net.config (.enable name (s.clnt.allowedL server))).map fun net =>
          (name, ⟨net, { s.clnt with ends := s.clnt.ends.insert server name }⟩)

/-- `Call`, whose request through the end is left to the model of the network. -/
def call (server : GoString) (name : E) : Option (ClntState E) :=
  (s.makeEnd server name).map fun r => r.2

def connectAll (o : RangeOrder GoString) : Option (ClntState E) :=
  (run (fun net (e : GoString × E) => net.config (.enable e.2 true)) s.net
    (o.entries s.clnt.ends)).map fun net => ⟨net, { s.clnt with srvs := none }⟩

def connectTo (o : RangeOrder GoString) (srvs : Option (List GoString)) : Option (ClntState E) :=
  let clnt := { s.clnt with srvs := srvs }
  (run (fun net (e : GoString × E) =>
      if clnt.allowedL e.1 then net.config (.enable e.2 true) else some net)
    s.net (o.entries clnt.ends)).map fun net => ⟨net, clnt⟩

def disconnectAll (o : RangeOrder GoString) : Option (ClntState E) :=
  (run (fun net (e : GoString × E) => net.config (.enable e.2 false)) s.net
    (o.entries s.clnt.ends)).map fun net => ⟨net, { s.clnt with srvs := some [] }⟩

end ClntState

/-- The end that a call to the network is about. -/
def endName {S : Type} : NetOp E S → Option E
  | .makeEnd e | .deleteEnd e | .enable e _ | .connect e _ => some e
  | _ => none

inductive ClntOp (E : Type) where
  | call (server : GoString) (name : E)
  | connectAll (o : RangeOrder GoString)
  | connectTo (o : RangeOrder GoString) (srvs : Option (List GoString))
  | disconnectAll (o : RangeOrder GoString)
  /-- somebody else's call to the network -/
  | other (op : NetOp E GoString)

def ClntState.step (s : ClntState E) : ClntOp E → Option (ClntState E)
  | .call server name => s.call server name
  | .connectAll o => s.connectAll o
  | .connectTo o srvs => s.connectTo o srvs
  | .disconnectAll o => s.disconnectAll o
  | .other op =>
    if ∀ server ∈ s.clnt.ends.keys, s.clnt.ends.lookup server ≠ endName op then
      (s.net.config op).map fun net => { s with net := net }
    else none

end definitions

/-! ### What one operation does -/

section steps
variable {E : Type} {s s' : ClntState E}

/-- The ends of a client exist, and belong to one server each. -/
structure ClntState.Own (s : ClntState E) : Prop where
  live : ∀ server e, s.clnt.ends.lookup server = some e → s.net.ends e = true
  distinct : ∀ server server' e, s.clnt.ends.lookup server = some e →
    s.clnt.ends.lookup server' = some e → server = server'

/-- The ends of a client are enabled just if their server is allowed. -/
def ClntState.Exact (s : ClntState E) : Prop :=
  ∀ server e, s.clnt.ends.lookup server = some e →
    (s.net.enabled e = true ↔ s.clnt.allowedL server = true)

/-- A bulk operation: the ends of the servers that `p` selects are switched, and `srvs` are
    allowed. -/
structure ClntState.Bulk (s s' : ClntState E) (p : GoString → Bool) (on : Bool)
    (srvs : Option (List GoString)) : Prop where
  clnt : s'.clnt = { s.clnt with srvs := srvs }
  ends : s'.net.ends = s.net.ends
  enabled : ∀ server e, s.clnt.ends.lookup server = some e →
    s'.net.enabled e = if p server then on else s.net.enabled e

variable {o : RangeOrder GoString} {p : GoString → Bool} {on : Bool} {srvs : Option (List GoString)}

theorem ClntState.Bulk.own (hb : s.Bulk s' p on srvs) (h : s.Own) : s'.Own := by
  refine ⟨?_, ?_⟩ <;> rw [hb.clnt]
  · rw [hb.ends]
    exact h.live
  · exact h.distinct

/-- After a bulk operation the ends are exact just if it enabled what it allows, and nothing
    else. -/
theorem ClntState.Bulk.exact_after_iff (hb : s.Bulk s' p on srvs) : s'.Exact ↔
    ∀ server e, s.clnt.ends.lookup server = some e →
      (if p server then on else s.net.enabled e) = allows srvs server := by
  simp only [ClntState.Exact, Clnt.allowedL, hb.clnt]
  refine forall_congr' fun server => forall_congr' fun e => forall_congr' fun hlook => ?_
  rw [hb.enabled server e hlook]
  exact Bool.eq_iff_iff.symm

variable [DecidableEq E]

/-- The loop of the bulk operations, over the ends in any order. -/
theorem ClntState.Own.bulk (h : s.Own) (o : RangeOrder GoString) (p : GoString → Bool) (on : Bool)
    (srvs : Option (List GoString)) :
    ∃ net, run (fun net (e : GoString × E) =>
        if p e.1 then net.config (.enable e.2 on) else some net)
      s.net (o.entries s.clnt.ends) = some net ∧
      s.Bulk ⟨net, { s.clnt with srvs := srvs }⟩ p on srvs := by
  obtain ⟨net, hrun, hends, henabled⟩ :=
    run_enable on (fun e : GoString × E => p e.1) (fun e => e.2) (o.entries s.clnt.ends) s.net
  refine ⟨net, hrun, rfl, hends, fun server e hlook => ?_⟩
  show net.enabled e = _
  rw [henabled]
  cases hp : p server with
  | true => rw [if_pos ⟨(server, e), o.mem_entries.mpr hlook, hp, rfl⟩, if_pos rfl]
  | false =>
    rw [if_neg, if_neg Bool.false_ne_true]
    rintro ⟨⟨server', e'⟩, hmem, hp', rfl⟩
    obtain rfl := h.distinct server server' e' hlook (o.mem_entries.mp hmem)
    exact Bool.false_ne_true (hp.symm.trans hp')

theorem ClntState.Own.connectAll (h : s.Own) (o : RangeOrder GoString) :
    ∃ s', s.connectAll o = some s' ∧ s.Bulk s' (fun _ => true) true none := by
  obtain ⟨net, hrun, hb⟩ := h.bulk o (fun _ => true) true none
  simp only [if_true] at hrun
  exact ⟨_, by rw [ClntState.connectAll, hrun, Option.map_some], hb⟩

theorem ClntState.Own.connectTo (h : s.Own) (o : RangeOrder GoString)
    (srvs : Option (List GoString)) : ∃ s', s.connectTo o srvs = some s' ∧
      s.Bulk s' (allows srvs) true srvs := by
  obtain ⟨net, hrun, hb⟩ := h.bulk o (allows srvs) true srvs
  exact ⟨_, congrArg (Option.map _) hrun, hb⟩

theorem ClntState.Own.disconnectAll (h : s.Own) (o : RangeOrder GoString) :
    ∃ s', s.disconnectAll o = some s' ∧ s.Bulk s' (fun _ => true) false (some []) := by
  obtain ⟨net, hrun, hb⟩ := h.bulk o (fun _ => true) false (some [])
  simp only [if_true] at hrun
  exact ⟨_, by rw [ClntState.disconnectAll, hrun, Option.map_some], hb⟩

/-- A call to a server without an end makes one, under a name that is not in use. -/
theorem call_cases {server : GoString} {name : E} (h : s.call server name = some s') : s' = s ∨
    s.clnt.ends.lookup server = none ∧ s.net.ends name = false ∧
      s'.clnt = { s.clnt with ends := s.clnt.ends.insert server name } ∧
      s'.net.ends = Function.update s.net.ends name true ∧
      s'.net.enabled = Function.update s.net.enabled name (s.clnt.allowedL server) := by
  simp only [ClntState.call, ClntState.makeEnd, Option.map_eq_some_iff] at h
  obtain ⟨⟨e, s₁⟩, hmake, rfl⟩ := h
  split at hmake
  · simp only [Option.some.injEq, Prod.mk.injEq] at hmake
    exact Or.inl hmake.2.symm
  · rename_i hnone
    simp only [Network.config] at hmake
    split at hmake
    · simp at hmake
    · rename_i hnew
      simp only [Option.bind_some, Option.map_some, Option.some.injEq, Prod.mk.injEq] at hmake
      obtain ⟨-, rfl⟩ := hmake
      exact Or.inr ⟨hnone, by simpa using hnew, rfl, rfl, by simp⟩

omit [DecidableEq E] in
/-- A name that is not in use is not one of an end that the client has. -/
theorem ClntState.Own.ne_new (hown : s.Own) {name e : E} {server : GoString}
    (hnew : s.net.ends name = false) (hlook : s.clnt.ends.lookup server = some e) : e ≠ name := by
  rintro rfl
  exact Bool.false_ne_true (hnew.symm.trans (hown.live server e hlook))

/-- A call keeps the ends apart. -/
theorem own_call {server : GoString} {name : E} (hown : s.Own) (h : s.call server name = some s') :
    s'.Own := by
  obtain rfl | ⟨hnone, hnew, hclnt, hends, henabled⟩ := call_cases h
  · exact hown
  refine ⟨?_, ?_⟩
  · intro srv e hlook
    rw [hclnt] at hlook
    rw [hends]
    obtain ⟨-, rfl⟩ | ⟨-, hold⟩ := lookup_insert_cases hlook
    · exact Function.update_self ..
    · rw [Function.update_of_ne (hown.ne_new hnew hold)]
      exact hown.live srv e hold
  · intro srv srv' e hlook hlook'
    rw [hclnt] at hlook hlook'
    obtain ⟨rfl, rfl⟩ | ⟨-, hold⟩ := lookup_insert_cases hlook <;>
      obtain ⟨rfl, he⟩ | ⟨-, hold'⟩ := lookup_insert_cases hlook'
    · rfl
    · exact absurd rfl (hown.ne_new hnew hold')
    · exact absurd he (hown.ne_new hnew hold)
    · exact hown.distinct srv srv' e hold hold'

/-- And exact, since the new end is enabled just if its server is allowed. -/
theorem exact_call {server : GoString} {name : E} (hown : s.Own) (hexact : s.Exact)
    (h : s.call server name = some s') : s'.Exact := by
  obtain rfl | ⟨hnone, hnew, hclnt, hends, henabled⟩ := call_cases h
  · exact hexact
  intro srv e hlook
  rw [hclnt] at hlook
  rw [henabled, hclnt]
  obtain ⟨rfl, rfl⟩ | ⟨-, hold⟩ := lookup_insert_cases hlook
  · rw [Function.update_self]
    rfl
  · rw [Function.update_of_ne (hown.ne_new hnew hold)]
    exact hexact srv e hold

/-- A call about some other end leaves an end alone. -/
theorem config_other {n n' : Network E GoString} {op : NetOp E GoString} {e : E}
    (h : n.config op = some n') (hne : some e ≠ endName op) :
    n'.enabled e = n.enabled e ∧ n'.ends e = n.ends e := by
  cases op with
  | makeEnd x | deleteEnd x =>
    have hx : e ≠ x := fun heq => hne (congrArg some heq)
    simp only [Network.config] at h
    split at h <;> cases h
    simp [Function.update_of_ne hx]
  | enable x b =>
    have hx : e ≠ x := fun heq => hne (congrArg some heq)
    cases h
    simp [Function.update_of_ne hx]
  | cleanup =>
    simp only [Network.config] at h
    split at h <;> cases h
    exact ⟨rfl, rfl⟩
  | connect x name | addServer name srv | deleteServer name | reliable b
  | longReordering b | longDelays b =>
    cases h
    exact ⟨rfl, rfl⟩

/-- What others do leaves the client and its ends alone. -/
theorem other_cases {op : NetOp E GoString} (h : s.step (.other op) = some s') : s'.clnt = s.clnt ∧
    ∀ server e, s.clnt.ends.lookup server = some e →
      s'.net.enabled e = s.net.enabled e ∧ s'.net.ends e = s.net.ends e := by
  simp only [ClntState.step, Option.ite_none_right_eq_some, Option.map_eq_some_iff] at h
  obtain ⟨hother, net, hnet, rfl⟩ := h
  refine ⟨rfl, fun server e hlook => config_other hnet ?_⟩
  rw [← hlook]
  exact hother server (Finmap.mem_keys.mpr (Finmap.mem_of_lookup_eq_some hlook))

/-- Every operation keeps the ends apart. -/
theorem own_step (s : ClntState E) (op : ClntOp E) (s' : ClntState E) (hown : s.Own)
    (h : s.step op = some s') : s'.Own := by
  cases op with
  | call server name => exact own_call hown h
  | connectAll o =>
    obtain ⟨s₁, hs₁, hb⟩ := hown.connectAll o
    exact Option.some.inj (hs₁.symm.trans h) ▸ hb.own hown
  | connectTo o srvs =>
    obtain ⟨s₁, hs₁, hb⟩ := hown.connectTo o srvs
    exact Option.some.inj (hs₁.symm.trans h) ▸ hb.own hown
  | disconnectAll o =>
    obtain ⟨s₁, hs₁, hb⟩ := hown.disconnectAll o
    exact Option.some.inj (hs₁.symm.trans h) ▸ hb.own hown
  | other op =>
    obtain ⟨hclnt, hsame⟩ := other_cases h
    refine ⟨?_, ?_⟩ <;> rw [hclnt]
    · exact fun server e hlook => (hsame server e hlook).2.trans (hown.live server e hlook)
    · exact hown.distinct

/-- `ConnectTo` disables nothing, so it may forbid only servers without an end. -/
def ClntOp.Keeps (s : ClntState E) : ClntOp E → Prop
  | .connectTo _ srvs => ∀ server ∈ s.clnt.ends, s.clnt.allowedL server = true →
      allows srvs server = true
  | _ => True

/-- `ConnectTo` leads from exact ends to exact ends just if it forbids no server that was
    allowed and has an end. -/
theorem exact_connectTo {o : RangeOrder GoString} {srvs : Option (List GoString)} (hown : s.Own)
    (hexact : s.Exact) (h : s.connectTo o srvs = some s') :
    s'.Exact ↔ (ClntOp.connectTo o srvs).Keeps s := by
  obtain ⟨s₁, hs₁, hb⟩ := hown.connectTo o srvs
  obtain rfl := Option.some.inj (hs₁.symm.trans h)
  rw [hb.exact_after_iff]
  constructor
  · intro hall server hmem hwas
    obtain ⟨e, hlook⟩ := Finmap.mem_iff.mp hmem
    have hon := hall server e hlook
    rw [(hexact server e hlook).mpr hwas] at hon
    rw [← hon]
    split <;> rfl
  · intro hall server e hlook
    cases hnow : allows srvs server with
    | true => rfl
    | false =>
      rw [if_neg Bool.false_ne_true, ← Bool.not_eq_true, hexact server e hlook]
      intro hwas
      have hstill := hall server (Finmap.mem_of_lookup_eq_some hlook) hwas
      exact Bool.false_ne_true (hnow.symm.trans hstill)

/-- From exact ends, an operation leads to exact ends just if it keeps them. -/
theorem exact_step (s : ClntState E) (op : ClntOp E) (s' : ClntState E)
    (hown : s.Own) (hexact : s.Exact) (h : s.step op = some s') : s'.Exact ↔ op.Keeps s := by
  cases op with
  | call server name => exact iff_of_true (exact_call hown hexact h) trivial
  | connectAll o =>
    obtain ⟨s₁, hs₁, hb⟩ := hown.connectAll o
    obtain rfl := Option.some.inj (hs₁.symm.trans h)
    exact iff_of_true (hb.exact_after_iff.mpr fun _ _ _ => rfl) trivial
  | connectTo o srvs => exact exact_connectTo hown hexact h
  | disconnectAll o =>
    obtain ⟨s₁, hs₁, hb⟩ := hown.disconnectAll o
    obtain rfl := Option.some.inj (hs₁.symm.trans h)
    exact iff_of_true (hb.exact_after_iff.mpr fun _ _ _ => rfl) trivial
  | other op =>
    obtain ⟨hclnt, hsame⟩ := other_cases h
    refine iff_of_true (fun server e hlook => ?_) trivial
    rw [hclnt] at hlook ⊢
    rw [(hsame server e hlook).1]
    exact hexact server e hlook

end steps

/-! ### Whole runs -/

section runs
variable {E : Type}

/-- `MakeClientTo`, on a network that may be in use. -/
def makeClientTo (net : Network E GoString) (srvs : Option (List GoString)) : ClntState E :=
  ⟨net, makeClntTo srvs⟩

theorem makeClientTo_own (net : Network E GoString) (srvs : Option (List GoString)) :
    (makeClientTo net srvs).Own := by
  refine ⟨?_, ?_⟩ <;> intro server <;> simp [makeClientTo, makeClntTo]

theorem makeClientTo_exact (net : Network E GoString) (srvs : Option (List GoString)) :
    (makeClientTo net srvs).Exact := by
  intro server
  simp [makeClientTo, makeClntTo]

variable [DecidableEq E]

/-- CORRECT: after each operation of a run, the ends of the client are enabled just if their servers
    are allowed, exactly if no `ConnectTo` of the run forbids a server that was allowed and has an
    end. -/
theorem client_reaches_iff (net : Network E GoString) (srvs : Option (List GoString))
    (acts : List (ClntOp E)) :
    (∀ xs ys s, acts = xs ++ ys → run ClntState.step (makeClientTo net srvs) xs = some s →
      ∀ server e, s.clnt.ends.lookup server = some e →
        (s.net.enabled e = true ↔ s.clnt.allowedL server = true)) ↔
    ∀ xs o only ys s, acts = xs ++ .connectTo o only :: ys →
      run ClntState.step (makeClientTo net srvs) xs = some s →
        ∀ server ∈ s.clnt.ends, s.clnt.allowedL server = true → allows only server = true := by
  have hown := makeClientTo_own net srvs
  refine (Machine.run_always_iff hown (makeClientTo_exact net srvs) own_step exact_step acts).trans
    ⟨?_, ?_⟩
  · intro hkeeps xs o only ys s hacts hrun
    -- a `ConnectTo` can always be made
    obtain ⟨s', hs', -⟩ := (Machine.run_invariant own_step hown hrun).connectTo o only
    exact hkeeps xs (.connectTo o only) ys s s' hacts hrun hs'
  · intro hkeeps xs op ys s s' hacts hrun _
    cases op with
    | connectTo o only => exact hkeeps xs o only ys s hacts hrun
    | call server name | connectAll o | disconnectAll o | other op => exact trivial

/-- A client that may reach all servers calls server `a`; it is then connected to `b` only, and can
    still reach `a`. -/
theorem client_still_reaches : ∃ s : ClntState ℕ,
    run ClntState.step (makeClientTo LabRpc.makeNetwork none)
      [.call (.lit "a") 0, .connectTo (.ascending GoString) (some [.lit "b"])] = some s ∧
    s.clnt.ends.lookup (.lit "a") = some 0 ∧ s.net.enabled 0 = true ∧
      s.clnt.allowedL (.lit "a") = false := by
  have hrun : (run ClntState.step (makeClientTo (LabRpc.makeNetwork : Network ℕ GoString) none)
      [.call (.lit "a") 0, .connectTo (.ascending GoString) (some [.lit "b"])]).any (fun s =>
        s.clnt.ends.lookup (.lit "a") = some 0 && s.net.enabled 0 && !s.clnt.allowedL (.lit "a")) =
          true := by
    decide +kernel
  obtain ⟨s, hs, hends⟩ := (Option.any_eq_true _ _).mp hrun
  simp only [Bool.and_eq_true, decide_eq_true_eq, Bool.not_eq_true'] at hends
  exact ⟨s, hs, hends.1.1, hends.1.2, hends.2⟩

end runs

end DistSys.Tester
