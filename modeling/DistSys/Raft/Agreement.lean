import DistSys.Raft.Snapshots
import DistSys.Schemes.GoMap
import Mathlib.Data.Fintype.Card

/-! @go raft1/test.go | name:checkOneLeader, nCommitted, one | scheme:machine, gomap | invariant:run

    What the tester concludes about a Raft. `checkOneLeader` asks the connected servers one after
    the other, up to ten times; `one` submits a command and waits until enough records have it. Both
    look at servers that go on in the meantime.

        head ──Start refused by all──▶ asleep ──▶ head        head ──ten seconds──▶ failed
          └──Start accepted at k──▶ waiting k ──enough records have the command──▶ returned k
                                       └──two seconds──▶ head, or failed if there is no retry -/

namespace DistSys.Raft.Checker
open Machine (run run_invariant_along)

/-! ### One leader -/

section leader
variable {n : ℕ}

/-- What `IsConnected` and `GetState` say of each server, in one round of questions. -/
abbrev Round (n : ℕ) := Fin n → Option (ℤ × Bool)

/-- `leaders[term] = append(leaders[term], i)`, if the server is connected and a leader. -/
def addLeader (round : Round n) (leaders : GoMap ℤ (List (Fin n))) (i : Fin n) :
    GoMap ℤ (List (Fin n)) :=
  match round i with
  | some (term, true) => leaders.insert term ((leaders.lookup term).getD [] ++ [i])
  | _ => leaders

def leadersOf (round : Round n) : GoMap ℤ (List (Fin n)) :=
  (List.finRange n).foldl (addLeader round) ∅

/-- The loop over the map: the last term with a leader. -/
def lastTerm : List (ℤ × List (Fin n)) → ℤ → Except String ℤ
  | [], last => .ok last
  | (term, leaders) :: rest, last =>
    let count := leaders.length
    if leaders.length > 1 then .error s!"term {term} has {count} (>1) leaders"
    else lastTerm rest (if term > last then term else last)

/-- `checkOneLeader`, over the rounds that are left; each `range` has its own order. -/
def checkOneLeader : List (Round n × RangeOrder ℤ) → Except String (Fin n)
  | [] => .error "expected one leader, got none"
  | (round, o) :: rest =>
    match lastTerm (o.entries (leadersOf round)) (-1) with
    | .error msg => .error msg
    | .ok last =>
      if leadersOf round = ∅ then checkOneLeader rest
      else match (leadersOf round).lookup last with
        | some (leader :: _) => .ok leader
        | _ => .error "index out of range [0] with length 0"

/-- The server was found to be the leader of the term. -/
def Leads (round : Round n) (term : ℤ) (i : Fin n) : Prop := round i = some (term, true)

/-- The servers found to be leaders of the term, in their order. -/
def among (round : Round n) (l : List (Fin n)) (term : ℤ) : List (Fin n) :=
  l.filter fun i => round i = some (term, true)

/-- The map has the leaders of each term that has one. -/
theorem lookup_foldl_addLeader (round : Round n) (l : List (Fin n)) (term : ℤ) :
    (l.foldl (addLeader round) ∅).lookup term =
      if among round l term = [] then none else some (among round l term) := by
  induction l using List.reverseRecOn with
  | nil => rfl
  | append_singleton l i ih =>
    rw [List.foldl_append, List.foldl_cons, List.foldl_nil, addLeader]
    have hsplit : among round (l ++ [i]) term =
        among round l term ++ if round i = some (term, true) then [i] else [] := by
      rw [among, List.filter_append, among, List.filter_singleton]
      simp [Bool.cond_eq_ite]
    rw [hsplit]
    rcases hround : round i with _ | ⟨term', _ | _⟩
    · simp [ih]
    · simp [ih]
    · rcases eq_or_ne term term' with rfl | hne
      · rcases hbefore : among round l term with _ | ⟨j, js⟩
        · simp [ih, hbefore]
        · simp [ih, hbefore]
      · simp [Finmap.lookup_insert_of_ne _ hne, ih, hne.symm]

theorem lookup_leadersOf {round : Round n} {term : ℤ} {leaders : List (Fin n)} :
    (leadersOf round).lookup term = some leaders ↔
      leaders ≠ [] ∧ leaders = (List.finRange n).filter fun i => round i = some (term, true) := by
  rw [leadersOf, lookup_foldl_addLeader, ← among]
  split
  · next hnone => simp [hnone]
  · next hsome =>
    rw [Option.some.injEq]
    exact ⟨fun heq => ⟨heq ▸ hsome, heq.symm⟩, fun heq => heq.2.symm⟩

theorem mem_leaders {round : Round n} {term : ℤ} {leaders : List (Fin n)} {i : Fin n}
    (h : (leadersOf round).lookup term = some leaders) : i ∈ leaders ↔ Leads round term i := by
  rw [(lookup_leadersOf.mp h).2]
  simp [Leads]

theorem exists_leaders {round : Round n} {term : ℤ} {i : Fin n} (h : Leads round term i) :
    ∃ leaders, (leadersOf round).lookup term = some leaders := by
  refine ⟨_, lookup_leadersOf.mpr ⟨?_, rfl⟩⟩
  exact List.ne_nil_of_mem (List.mem_filter.mpr ⟨List.mem_finRange i, by simpa [Leads] using h⟩)

theorem leadersOf_eq_empty {round : Round n} : leadersOf round = ∅ ↔ ∀ term i,
    ¬ Leads round term i := by
  constructor
  · intro h term i hleads
    obtain ⟨leaders, hlook⟩ := exists_leaders hleads
    rw [h, Finmap.lookup_empty] at hlook
    cases hlook
  · intro h
    refine Finmap.ext_lookup fun term => ?_
    rw [Finmap.lookup_empty, Option.eq_none_iff_forall_ne_some]
    intro leaders hlook
    obtain ⟨i, hi⟩ := List.exists_mem_of_ne_nil _ (lookup_leadersOf.mp hlook).1
    exact h term i ((mem_leaders hlook).mp hi)

/-- No term has two leaders. -/
def Single (round : Round n) : Prop := ∀ term i j, Leads round term i → Leads round term j → i = j

theorem length_leaders {round : Round n} {term : ℤ} {leaders : List (Fin n)}
    (h : (leadersOf round).lookup term = some leaders) :
    leaders.length ≤ 1 ↔ ∀ i j, Leads round term i → Leads round term j → i = j := by
  have hnodup : leaders.Nodup := by
    rw [(lookup_leadersOf.mp h).2]
    exact (List.nodup_finRange n).filter _
  simp only [← mem_leaders h]
  constructor
  · intro hlen i j hi hj
    obtain ⟨k, hk⟩ | hnil : (∃ k, leaders = [k]) ∨ leaders = [] := by
      rcases leaders with _ | ⟨k, _ | ⟨k', ks⟩⟩
      · exact Or.inr rfl
      · exact Or.inl ⟨k, rfl⟩
      · simp at hlen
    · rw [hk] at hi hj
      rw [List.mem_singleton.mp hi, List.mem_singleton.mp hj]
    · rw [hnil] at hi
      cases hi
  · intro hall
    rcases leaders with _ | ⟨k, _ | ⟨k', ks⟩⟩
    · simp
    · simp
    · have hsame := hall k k' (by simp) (by simp)
      simp [hsame] at hnodup

/-- The loop over the map finds the greatest term, unless a term has two leaders. -/
theorem lastTerm_ok {es : List (ℤ × List (Fin n))} {last t : ℤ} :
    lastTerm es last = .ok t ↔ (∀ e ∈ es, e.2.length ≤ 1) ∧
      t = es.foldl (fun m e => max m e.1) last := by
  induction es generalizing last with
  | nil => simp [lastTerm, eq_comm]
  | cons e es ih =>
    obtain ⟨term, leaders⟩ := e
    rw [lastTerm]
    by_cases hlen : leaders.length > 1
    · rw [if_pos hlen]
      refine iff_of_false (fun h => by cases h) fun h => ?_
      have hone : leaders.length ≤ 1 := h.1 (term, leaders) List.mem_cons_self
      omega
    · have hmax : (if term > last then term else last) = max last term := by
        rcases lt_or_ge last term with hlt | hge
        · rw [if_pos hlt, max_eq_right hlt.le]
        · rw [if_neg (not_lt.mpr hge), max_eq_left hge]
      rw [if_neg hlen, ih, List.foldl_cons, hmax, List.forall_mem_cons]
      exact ⟨fun h => ⟨⟨not_lt.mp hlen, h.1⟩, h.2⟩, fun h => ⟨h.1.2, h.2⟩⟩

theorem le_foldl_max (es : List (ℤ × List (Fin n))) (last : ℤ) :
    last ≤ es.foldl (fun m e => max m e.1) last ∧
      (∀ e ∈ es, e.1 ≤ es.foldl (fun m e => max m e.1) last) ∧
      (es.foldl (fun m e => max m e.1) last = last ∨ ∃ e ∈ es,
        es.foldl (fun m e => max m e.1) last = e.1) := by
  induction es generalizing last with
  | nil => exact ⟨le_rfl, fun _ h => absurd h List.not_mem_nil, Or.inl rfl⟩
  | cons e es ih =>
    obtain ⟨hle, hall, hmem⟩ := ih (max last e.1)
    rw [List.foldl_cons]
    refine ⟨(le_max_left _ _).trans hle,
      List.forall_mem_cons.mpr ⟨(le_max_right _ _).trans hle, hall⟩, ?_⟩
    rcases hmem with hmem | ⟨e', he', hmem⟩
    · rcases max_choice last e.1 with hmax | hmax
      · exact Or.inl (hmem.trans hmax)
      · exact Or.inr ⟨e, List.mem_cons_self, hmem.trans hmax⟩
    · exact Or.inr ⟨e', List.mem_cons_of_mem _ he', hmem⟩

/-- The leader of the greatest term that has one. -/
def Newest (round : Round n) (i : Fin n) : Prop :=
  ∃ term, Leads round term i ∧ ∀ term' j, Leads round term' j → term' ≤ term

theorem entries_single {round : Round n} (o : RangeOrder ℤ) :
    (∀ e ∈ o.entries (leadersOf round), e.2.length ≤ 1) ↔ Single round := by
  constructor
  · intro h term i j hi hj
    obtain ⟨leaders, hlook⟩ := exists_leaders hi
    exact (length_leaders hlook).mp (h (term, leaders) (o.mem_entries.mpr hlook)) i j hi hj
  · rintro h ⟨term, leaders⟩ he
    exact (length_leaders (o.mem_entries.mp he)).mpr (h term)

theorem Newest.unique {round : Round n} (h : Single round) {i j : Fin n} (hi : Newest round i)
    (hj : Newest round j) : i = j := by
  obtain ⟨term, hleads, hgreatest⟩ := hi
  obtain ⟨term', hleads', hgreatest'⟩ := hj
  have hsame : term = term' := le_antisymm (hgreatest' term i hleads) (hgreatest term' j hleads')
  exact h term i j hleads (hsame ▸ hleads')

/-- One round without two leaders of a term, in whatever order the map is visited. -/
theorem Single.cases {round : Round n} (h : Single round)
    (hterm : ∀ term j, Leads round term j → 0 ≤ term)
    (o : RangeOrder ℤ) (rest : List (Round n × RangeOrder ℤ)) :
    (∀ term j, ¬ Leads round term j) ∧ checkOneLeader ((round, o) :: rest) = checkOneLeader rest ∨
      ∃ leader, Newest round leader ∧ checkOneLeader ((round, o) :: rest) = .ok leader := by
  obtain ⟨last, hlast⟩ : ∃ last, lastTerm (o.entries (leadersOf round)) (-1) = .ok last :=
    ⟨_, lastTerm_ok.mpr ⟨(entries_single o).mpr h, rfl⟩⟩
  obtain ⟨-, hle, hmem⟩ := le_foldl_max (o.entries (leadersOf round)) (-1)
  rw [← (lastTerm_ok.mp hlast).2] at hle hmem
  rw [checkOneLeader, hlast]
  dsimp only
  by_cases hempty : leadersOf round = ∅
  · rw [if_pos hempty]
    exact Or.inl ⟨leadersOf_eq_empty.mp hempty, rfl⟩
  · rw [if_neg hempty]
    have hbound : ∀ term j, Leads round term j → term ≤ last := by
      intro term j hleads
      obtain ⟨leaders, hlook⟩ := exists_leaders hleads
      exact hle (term, leaders) (o.mem_entries.mpr hlook)
    obtain ⟨term₀, j₀, h₀⟩ : ∃ term j, Leads round term j := by
      by_contra hnone
      exact hempty (leadersOf_eq_empty.mpr fun term j hleads => hnone ⟨term, j, hleads⟩)
    obtain ⟨leaders, hlook⟩ : ∃ leaders, (leadersOf round).lookup last = some leaders := by
      rcases hmem with hneg | ⟨⟨term, leaders⟩, he, heq⟩
      · -- some term has a leader, and it is above -1
        have hlow := hbound term₀ j₀ h₀
        have hnonneg := hterm term₀ j₀ h₀
        omega
      · have hsame : last = term := heq
        exact ⟨leaders, hsame ▸ o.mem_entries.mp he⟩
    obtain ⟨leader, tail, rfl⟩ := List.exists_cons_of_ne_nil (lookup_leadersOf.mp hlook).1
    rw [hlook]
    exact Or.inr ⟨leader, ⟨last, (mem_leaders hlook).mp List.mem_cons_self, hbound⟩, rfl⟩

theorem checkOneLeader_several {round : Round n} (h : ¬ Single round) (o : RangeOrder ℤ)
    (rest : List (Round n × RangeOrder ℤ)) (i : Fin n) :
    checkOneLeader ((round, o) :: rest) ≠ .ok i := by
  rw [checkOneLeader]
  rcases hlast : lastTerm (o.entries (leadersOf round)) (-1) with msg | last
  · exact fun hok => by cases hok
  · exact absurd ((entries_single o).mp (lastTerm_ok.mp hlast).1) h

/-- CORRECT: whatever the orders of the maps, a server is returned just if it leads the greatest
    term of the first round in which a leader is found, and no term has two leaders in that round.
    So if no term has two leaders, there is no accusation but that there was no leader at all. -/
theorem one_leader_iff (rounds : List (Round n × RangeOrder ℤ))
    (hterm : ∀ r ∈ rounds, ∀ term j, Leads r.1 term j → 0 ≤ term) :
    (∀ i, checkOneLeader rounds = .ok i ↔ ∃ pre r post, rounds = pre ++ r :: post ∧
      (∀ q ∈ pre, ∀ term j, ¬ Leads q.1 term j) ∧ Single r.1 ∧ Newest r.1 i) ∧
    ((∀ r ∈ rounds, Single r.1) → (∃ i, checkOneLeader rounds = .ok i) ∨
      checkOneLeader rounds = .error "expected one leader, got none" ∧
        ∀ r ∈ rounds, ∀ term j, ¬ Leads r.1 term j) := by
  induction rounds with
  | nil =>
    refine ⟨fun i => iff_of_false (fun h => by cases h) ?_,
      fun _ => Or.inr ⟨rfl, fun _ h => by cases h⟩⟩
    rintro ⟨pre, r, post, hnil, -⟩
    exact absurd hnil.symm (by simp)
  | cons r rounds ih =>
    obtain ⟨round, o⟩ := r
    obtain ⟨hround, hrest⟩ := List.forall_mem_cons.mp hterm
    obtain ⟨hok, hsafe⟩ := ih hrest
    refine ⟨fun i => ⟨fun h => ?_, ?_⟩, fun hall => ?_⟩
    · have hsingle : Single round := by
        by_contra hseveral
        exact checkOneLeader_several hseveral o rounds i h
      rcases hsingle.cases hround o rounds with ⟨hnone, hcheck⟩ | ⟨leader, hnewest, hcheck⟩
      · obtain ⟨pre, r, post, rfl, hpre, hr⟩ := (hok i).mp (hcheck.symm.trans h)
        exact ⟨(round, o) :: pre, r, post, rfl, List.forall_mem_cons.mpr ⟨hnone, hpre⟩, hr⟩
      · cases hcheck.symm.trans h
        exact ⟨[], (round, o), rounds, rfl, fun _ h => absurd h List.not_mem_nil, hsingle, hnewest⟩
    · rintro ⟨pre, r, post, heq, hpre, hsingle, hnewest⟩
      rcases pre with _ | ⟨q, pre⟩
      · obtain ⟨rfl, rfl⟩ := List.cons.inj heq
        rcases Single.cases hsingle hround o rounds with ⟨hnone, -⟩ | ⟨leader, hleader, hcheck⟩
        · obtain ⟨term, hleads, -⟩ := hnewest
          exact absurd hleads (hnone term i)
        · rw [hcheck, hleader.unique hsingle hnewest]
      · obtain ⟨rfl, rfl⟩ := List.cons.inj heq
        obtain ⟨hnone, hpre⟩ := List.forall_mem_cons.mp hpre
        have hquiet : Single round := fun term i j hi _ => absurd hi (hnone term i)
        rcases hquiet.cases hround o (pre ++ r :: post) with
          ⟨-, hcheck⟩ | ⟨leader, ⟨term, hleads, -⟩, -⟩
        · exact hcheck.trans ((hok i).mpr ⟨pre, r, post, rfl, hpre, hsingle, hnewest⟩)
        · exact absurd hleads (hnone term leader)
    · obtain ⟨hsingle, hall⟩ := List.forall_mem_cons.mp hall
      rcases Single.cases hsingle hround o rounds with ⟨hnone, hcheck⟩ | ⟨leader, -, hcheck⟩
      · rcases hsafe hall with ⟨i, hi⟩ | ⟨herror, hnever⟩
        · exact Or.inl ⟨i, hcheck.trans hi⟩
        · exact Or.inr ⟨hcheck.trans herror, List.forall_mem_cons.mpr ⟨hnone, hnever⟩⟩
      · exact Or.inl ⟨leader, hcheck⟩

/-- Of three servers, one still takes itself for the leader of an old term. -/
def oldLeader : Round 3 := fun i =>
  if i.val = 0 then some (1, true) else if i.val = 1 then some (4, true) else none

theorem one_leader_old :
    checkOneLeader [((fun _ => some (1, false) : Round 3), RangeOrder.ascending ℤ),
      (oldLeader, RangeOrder.ascending ℤ)] = .ok 1 := by
  have hleads : ∀ term j, Leads oldLeader term j ↔ (j = 0 ∧ term = 1) ∨ j = 1 ∧ term = 4 := by
    intro term j
    rcases eq_or_ne j 0 with rfl | h0
    · simp [Leads, oldLeader, eq_comm]
    · rcases eq_or_ne j 1 with rfl | h1
      · simp [Leads, oldLeader, eq_comm]
      · have hval : (j : ℕ) ≠ 1 := fun h => h1 (Fin.ext h)
        simp [Leads, oldLeader, Fin.val_eq_zero_iff, h0, h1, hval]
  have hnobody : ∀ term (j : Fin 3), ¬ Leads (fun _ => some (1, false) : Round 3) term j := by
    simp [Leads]
  refine ((one_leader_iff _ ?_).1 1).mpr ⟨[_], _, [], rfl, ?_, ?_, 4, ?_, ?_⟩
  · refine List.forall_mem_cons.mpr ⟨fun term j h => absurd h (hnobody term j), ?_⟩
    refine List.forall_mem_singleton.mpr fun term j h => ?_
    rcases (hleads term j).mp h with ⟨-, rfl⟩ | ⟨-, rfl⟩ <;> decide
  · exact List.forall_mem_singleton.mpr hnobody
  · intro term i j hi hj
    rcases (hleads term i).mp hi with ⟨rfl, rfl⟩ | ⟨rfl, rfl⟩ <;>
      rcases (hleads _ j).mp hj with ⟨rfl, h⟩ | ⟨rfl, h⟩ <;> first | rfl | cases h
  · exact (hleads 4 1).mpr (Or.inr ⟨rfl, rfl⟩)
  · intro term j h
    rcases (hleads term j).mp h with ⟨-, rfl⟩ | ⟨-, rfl⟩ <;> decide

end leader

/-! ### Agreement -/

section definitions
variable {C : Type} {n : ℕ} [DecidableEq C] [ToString C]

/-- The loop of `nCommitted`, over `count` and `cmd`. -/
def Test.countLoop (ts : Test C n) (index : ℤ) : List (Fin n) → ℕ × Option C →
    Except String (ℕ × Option C)
  | [], s => .ok s
  | i :: is, (count, cmd) =>
    match ts.current i with
    | none => .error nilPointer
    | some rs =>
      match rs.logs index with
      | none => countLoop ts index is (count, cmd)
      | some cmd1 =>
        let old := (cmd.map toString).getD "<nil>"
        if count > 0 ∧ cmd ≠ some cmd1 then
          .error s!"committed values at index {index} do not match ({old} != {cmd1})"
        else countLoop ts index is (count + 1, some cmd1)

/-- `nCommitted`; an error of `applier` has ended the process before it is read here. -/
def Test.nCommitted (ts : Test C n) (index : ℤ) : Except String (ℕ × Option C) :=
  ts.countLoop index (List.finRange n) (0, none)

end definitions

/-- Where `one` is. With no server left to try it is asleep. -/
inductive OnePc where
  | head (starts : ℕ)
  | trying (starts left : ℕ)
  | waiting (starts : ℕ) (index : ℤ)
  | returned (index : ℤ)
  | failed
  deriving DecidableEq

/-- The command is still to be submitted. -/
def OnePc.Idle : OnePc → Prop
  | .head _ => True
  | .trying _ _ => True
  | _ => False

/-- A call of `one` beside everything else, with the number of times that its command was
    accepted. -/
structure One (C : Type) (n : ℕ) where
  sys : Sys C n
  pc : OnePc
  submitted : ℕ
  finished : Bool

inductive OneAction (C : Type) (n : ℕ) where
  /-- Raft and the tester go on -/
  | sys (x : SysAction C n)
  /-- `cleanup`: the test is finished -/
  | cleanup
  /-- the outer loop goes on -/
  | enter
  /-- the outer loop ends -/
  | leave
  /-- the next server is tried: it has no leader to offer, or accepts the command at an index -/
  | start (answer : Option ℤ)
  | wake
  /-- `nCommitted` -/
  | poll
  /-- two seconds have passed -/
  | giveUp

section definitions
variable {C : Type} {n : ℕ} [DecidableEq C] [ToString C]

/-- `one(cmd, expectedServers, retry)`; `none` if the process ends. -/
def One.step (nil cmd : C) (expectedServers : ℤ) (retry : Bool) (s : One C n) :
    OneAction C n → Option (One C n)
  | .sys x => (s.sys.step nil x).map fun sys => { s with sys := sys }
  | .cleanup => some { s with finished := true }
  | .enter =>
    match s.pc with
    | .head starts => if s.finished then none else some { s with pc := .trying starts n }
    | _ => none
  | .leave =>
    match s.pc with
    | .head _ => some { s with pc := if s.finished then .returned (-1) else .failed }
    | _ => none
  | .start answer =>
    match s.pc with
    | .trying starts (left + 1) =>
      let starts := (starts + 1) % n
      match answer with
      | none => some { s with pc := .trying starts left }
      | some index =>
        -- index -1 is taken for a refusal after the loop
        some { s with
          pc := if index ≠ -1 then .waiting starts index else .trying starts 0
          submitted := s.submitted + 1 }
    | _ => none
  | .wake =>
    match s.pc with
    | .trying starts 0 => some { s with pc := .head starts }
    | _ => none
  | .poll =>
    match s.pc with
    | .waiting _ index =>
      match s.sys.test.nCommitted index with
      | .error _ => none
      | .ok (nd, cmd1) =>
        if nd > 0 ∧ nd ≥ expectedServers ∧ cmd1 = some cmd then
          some { s with pc := .returned index }
        else some s
    | _ => none
  | .giveUp =>
    match s.pc with
    | .waiting starts _ => some { s with pc := if retry then .head starts else .failed }
    | _ => none

end definitions

def One.begin (C : Type) (n : ℕ) : One C n := ⟨Sys.start C n, .head 0, 0, false⟩

section agreement
variable {C : Type} {n : ℕ}

/-- Raft is right, with the provisos of `Sys.Proper`, and its indexes start with 1. -/
def One.Proper (snapshot : Bool) (log : ℤ → C) (s : One C n) : OneAction C n → Prop
  | .sys x => s.sys.Proper snapshot log x
  | .start (some index) => 1 ≤ index
  | _ => True

instance decidableOneProper [DecidableEq C] (snapshot : Bool) (log : ℤ → C) (s : One C n) :
    ∀ x, Decidable (s.Proper snapshot log x)
  | .sys x => inferInstanceAs (Decidable (s.sys.Proper snapshot log x))
  | .start (some index) => inferInstanceAs (Decidable (1 ≤ index))
  | .start none | .cleanup | .enter | .leave | .wake | .poll | .giveUp => isTrue trivial

/-- The instance in place of the server has been sent the index. -/
def Sys.reached (s : Sys C n) (index : ℤ) (i : Fin n) : Bool :=
  (s.test.srvs i).any fun b => index ≤ s.sent b

variable {snapshot : Bool} {nil cmd : C} {log : ℤ → C} {expectedServers : ℤ} {retry : Bool}

/-- What `one` knows, wherever it is. -/
structure One.Inv (snapshot : Bool) (nil cmd : C) (log : ℤ → C) (retry : Bool)
    (s : One C n) : Prop where
  good : s.sys.Good snapshot nil log
  waiting : ∀ starts index, s.pc = .waiting starts index → 1 ≤ index
  returned : ∀ index, s.pc = .returned index → index = -1 ∧ s.finished = true ∨
    1 ≤ index ∧ log index = cmd
  once : retry = false → s.submitted ≤ 1 ∧ (s.pc.Idle → s.submitted = 0)

theorem One.inv_begin : (One.begin C n).Inv snapshot nil cmd log retry where
  good := good_start
  waiting := fun _ _ h => by cases h
  returned := fun _ h => by cases h
  once := fun _ => ⟨Nat.zero_le 1, fun _ => rfl⟩

/-- `one` begins anew, or fails. -/
theorem One.Inv.move {s : One C n} (h : s.Inv snapshot nil cmd log retry) {pc : OnePc}
    (hpc : pc.Idle ∨ pc = .failed) (hidle : retry = false → pc.Idle → s.submitted = 0) :
    ({ s with pc := pc } : One C n).Inv snapshot nil cmd log retry := by
  refine ⟨h.good, ?_, ?_, fun hretry => ⟨(h.once hretry).1, hidle hretry⟩⟩
  · rintro starts index rfl
    rcases hpc with hpc | hpc <;> cases hpc
  · rintro index rfl
    rcases hpc with hpc | hpc <;> cases hpc

variable [DecidableEq C] [ToString C]

/-- The records of a right Raft are counted without an accusation. -/
theorem Sys.Good.countLoop {s : Sys C n} (h : s.Good snapshot nil log)
    {index : ℤ} (hindex : 1 ≤ index) (hplace : ∀ j, ∃ b, s.test.srvs j = some b) (is : List (Fin n))
    {count : ℕ} {old : Option C} (hold : 0 < count → old = some (log index)) :
    s.test.countLoop index is (count, old) = .ok (count + is.countP (s.reached index),
      if 0 < is.countP (s.reached index) then some (log index) else old) := by
  induction is generalizing count old with
  | nil => rfl
  | cons i is ih =>
    obtain ⟨b, hb⟩ := hplace i
    obtain ⟨rs, hrs, -⟩ := h.wf.place i b hb
    have hlogs := (h.follows b rs hrs).upTo index hindex
    have hcurrent : s.test.current i = some rs := by rw [Test.current, hb, Option.bind_some, hrs]
    rw [Test.countLoop, hcurrent]
    dsimp only
    by_cases hsent : index ≤ s.sent b
    · have hreached : s.reached index i = true := by simpa [Sys.reached, hb] using hsent
      have hagrees : ¬ (count > 0 ∧ old ≠ some (log index)) := fun hne => hne.2 (hold hne.1)
      rw [hlogs, if_pos hsent]
      dsimp only
      rw [if_neg hagrees, ih fun _ => rfl, List.countP_cons_of_pos hreached]
      congr 2
      · omega
      · simp
    · have hreached : ¬ s.reached index i = true := by simpa [Sys.reached, hb] using hsent
      rw [hlogs, if_neg hsent]
      dsimp only
      rw [ih hold, List.countP_cons_of_neg hreached]

theorem Sys.Good.nCommitted {s : Sys C n} (h : s.Good snapshot nil log)
    {index : ℤ} (hindex : 1 ≤ index) (hplace : ∀ j, ∃ b, s.test.srvs j = some b) :
    s.test.nCommitted index = .ok ((List.finRange n).countP (s.reached index),
      if 0 < (List.finRange n).countP (s.reached index) then some (log index) else none) := by
  rw [Test.nCommitted, h.countLoop hindex hplace _ fun h => absurd h (lt_irrefl 0), Nat.zero_add]

/-- The count goes through only where all servers have been put in place. -/
theorem countLoop_place {ts : Test C n} {index : ℤ} (is : List (Fin n)) {p q : ℕ × Option C}
    (h : ts.countLoop index is p = .ok q) : ∀ i ∈ is, ∃ b, ts.srvs i = some b := by
  induction is generalizing p with
  | nil => exact fun _ hi => absurd hi List.not_mem_nil
  | cons i is ih =>
    obtain ⟨count, old⟩ := p
    rw [Test.countLoop] at h
    rcases hcurrent : ts.current i with _ | rs
    · rw [hcurrent] at h
      cases h
    · obtain ⟨b, hb, -⟩ := Option.bind_eq_some_iff.mp hcurrent
      refine List.forall_mem_cons.mpr ⟨⟨b, hb⟩, ?_⟩
      rw [hcurrent] at h
      dsimp only at h
      rcases hlogs : rs.logs index with _ | cmd1
      · rw [hlogs] at h
        exact ih h
      · rw [hlogs] at h
        dsimp only at h
        split at h
        · cases h
        · exact ih h

/-- A poll of `one` goes through where all servers are in place, and ends it just if enough of them
    have been sent the index and the log has the command there. -/
theorem One.Inv.poll {s : One C n} (h : s.Inv snapshot nil cmd log retry) {starts : ℕ} {index : ℤ}
    (hpc : s.pc = .waiting starts index) (hplace : ∀ j, ∃ b, s.sys.test.srvs j = some b) :
    s.step nil cmd expectedServers retry .poll =
      if log index = cmd ∧ 0 < (List.finRange n).countP (s.sys.reached index) ∧
          expectedServers ≤ (List.finRange n).countP (s.sys.reached index) then
        some { s with pc := .returned index } else some s := by
  rw [One.step, hpc]
  dsimp only
  rw [h.good.nCommitted (h.waiting starts index hpc) hplace]
  dsimp only
  refine if_congr ?_ rfl rfl
  constructor
  · rintro ⟨hpos, henough, hcmd⟩
    rw [if_pos hpos] at hcmd
    exact ⟨Option.some.inj hcmd, hpos, henough⟩
  · rintro ⟨hcmd, hpos, henough⟩
    rw [if_pos hpos, hcmd]
    exact ⟨hpos, henough, rfl⟩

/-- Whatever Raft, the tester and `one` do. -/
theorem One.inv_step (s : One C n) (x : OneAction C n) (s' : One C n)
    (h : s.Inv snapshot nil cmd log retry) (hx : s.Proper snapshot log x)
    (hstep : s.step nil cmd expectedServers retry x = some s') :
    s'.Inv snapshot nil cmd log retry := by
  cases x with
  | sys x =>
    obtain ⟨sys, hsys, hgood⟩ := good_step s.sys x h.good hx
    rw [One.step, hsys, Option.map_some] at hstep
    obtain rfl := Option.some.inj hstep
    exact ⟨hgood, h.waiting, h.returned, h.once⟩
  | cleanup =>
    obtain rfl := Option.some.inj hstep
    exact ⟨h.good, h.waiting,
      fun index hpc => (h.returned index hpc).imp_left fun hend => ⟨hend.1, rfl⟩, h.once⟩
  | enter =>
    rw [One.step] at hstep
    split at hstep
    · next starts hpc =>
      split at hstep
      · cases hstep
      · obtain rfl := Option.some.inj hstep
        exact h.move (Or.inl trivial) fun hretry _ => (h.once hretry).2 (hpc ▸ trivial)
    · cases hstep
  | leave =>
    rw [One.step] at hstep
    split at hstep
    · obtain rfl := Option.some.inj hstep
      by_cases hfinished : s.finished = true
      · rw [if_pos hfinished]
        refine ⟨h.good, (fun _ _ heq => by cases heq), fun index heq => Or.inl ?_,
          fun hretry => ⟨(h.once hretry).1, False.elim⟩⟩
        cases heq
        exact ⟨rfl, hfinished⟩
      · rw [if_neg hfinished]
        exact h.move (Or.inr rfl) fun _ => False.elim
    · cases hstep
  | start answer =>
    rw [One.step] at hstep
    split at hstep
    · next starts left hpc =>
      have hnone : retry = false → s.submitted = 0 :=
        fun hretry => (h.once hretry).2 (hpc ▸ trivial)
      rcases answer with _ | index
      · obtain rfl := Option.some.inj hstep
        exact h.move (Or.inl trivial) fun hretry _ => hnone hretry
      · have hindex : 1 ≤ index := hx
        have hne : index ≠ -1 := by omega
        obtain rfl := Option.some.inj hstep
        rw [if_pos hne]
        refine ⟨h.good, fun _ _ heq => ?_, (fun _ heq => by cases heq),
          fun hretry => ⟨?_, False.elim⟩⟩
        · cases heq
          exact hindex
        · exact (congrArg (· + 1) (hnone hretry)).le
    · cases hstep
  | wake =>
    rw [One.step] at hstep
    split at hstep
    · next starts hpc =>
      obtain rfl := Option.some.inj hstep
      exact h.move (Or.inl trivial) fun hretry _ => (h.once hretry).2 (hpc ▸ trivial)
    · cases hstep
  | poll =>
    have hstep' := hstep
    rw [One.step] at hstep'
    split at hstep'
    · next starts index hpc =>
      have hplace : ∀ j, ∃ b, s.sys.test.srvs j = some b := by
        rcases hcount : s.sys.test.nCommitted index with msg | q
        · rw [hcount] at hstep'
          cases hstep'
        · exact fun j => countLoop_place _ hcount j (List.mem_finRange j)
      rw [h.poll hpc hplace] at hstep
      split at hstep
      · next hcond =>
        obtain rfl := Option.some.inj hstep
        refine ⟨h.good, (fun _ _ heq => by cases heq), fun _ heq => ?_,
          fun hretry => ⟨(h.once hretry).1, False.elim⟩⟩
        cases heq
        exact Or.inr ⟨h.waiting starts index hpc, hcond.1⟩
      · obtain rfl := Option.some.inj hstep
        exact h
    · cases hstep'
  | giveUp =>
    rw [One.step] at hstep
    split at hstep
    · obtain rfl := Option.some.inj hstep
      rcases retry with _ | _
      · exact h.move (Or.inr rfl) fun _ => False.elim
      · exact h.move (Or.inl trivial) fun hretry => by cases hretry
    · cases hstep

/-- CORRECT: on a Raft that commits one log and sends its commands to instances in place, however
    it, the tester and `one` take turns: an index that `one` returns has the command in the log,
    unless the test was finished before; without retry the command is accepted once at most. While
    it waits there is no accusation, and it returns just when as many servers as expected, and at
    least one, have been sent the index, and the log has the command there. -/
theorem one_agrees (snapshot : Bool) (nil cmd : C) (log : ℤ → C)
    (expectedServers : ℤ) (retry : Bool) (xs : List (OneAction C n)) (s : One C n)
    (hrun : run (One.step nil cmd expectedServers retry) (One.begin C n) xs = some s)
    (hxs : Machine.Along (One.step nil cmd expectedServers retry) (One.Proper snapshot log)
      (One.begin C n) xs) :
    (∀ index, s.pc = .returned index → index = -1 ∧ s.finished = true ∨
      1 ≤ index ∧ log index = cmd) ∧
    (retry = false → s.submitted ≤ 1) ∧
    ∀ starts index, s.pc = .waiting starts index → (∀ j, ∃ b, s.sys.test.srvs j = some b) →
      ∃ s', s.step nil cmd expectedServers retry .poll = some s' ∧ s'.sys = s.sys ∧
        (s'.pc = .returned index ↔ log index = cmd ∧
          0 < (List.finRange n).countP (s.sys.reached index) ∧
          expectedServers ≤ (List.finRange n).countP (s.sys.reached index)) := by
  have h : s.Inv snapshot nil cmd log retry :=
    run_invariant_along One.inv_step One.inv_begin hxs hrun
  refine ⟨h.returned, fun hretry => (h.once hretry).1, fun starts index hpc hplace => ?_⟩
  rw [h.poll hpc hplace]
  split
  · next hcond => exact ⟨_, rfl, rfl, iff_of_true rfl hcond⟩
  · next hcond => exact ⟨s, rfl, rfl, iff_of_false (fun heq => by rw [hpc] at heq; cases heq) hcond⟩

/-- Three servers, of which two are to agree. The second has no leader to offer, the third accepts
    the command at index 1 and applies it. The first crashes and starts again before it is sent the
    command, as instance 3. -/
def oneRun (i j k : Fin 3) : List (OneAction ℕ 3) :=
  [.sys (.test (.newRfsrv i none)), .sys (.test (.mksrv i)), .sys (.test (.newRfsrv j none)),
    .sys (.test (.mksrv j)), .sys (.test (.newRfsrv k none)), .sys (.test (.mksrv k)),
    .enter, .start none, .start (some 1), .sys (.test (.applier 2 ⟨1, 7⟩)), .poll, .sys (.kill 0),
    .sys (.test (.newRfsrv i none)), .sys (.test (.mksrv i)), .poll,
    .sys (.test (.applier 3 ⟨1, 7⟩))]

/-- The next poll ends it. -/
theorem one_agrees_restart : ∃ s,
    run (One.step 0 7 2 false) (One.begin ℕ 3) (oneRun 0 1 2) = some s ∧
    s.pc = .waiting 2 1 ∧ s.submitted ≤ 1 ∧
    ∃ s', s.step 0 7 2 false .poll = some s' ∧ s'.pc = .returned 1 := by
  have hproper : Machine.Along (One.step 0 7 2 false) (One.Proper false fun _ => 7) (One.begin ℕ 3)
      (oneRun 0 1 2) := by decide +kernel
  have hend : ((run (One.step 0 7 2 false) (One.begin ℕ 3) (oneRun 0 1 2)).any fun s => decide (
      s.pc = .waiting 2 1 ∧ (∀ j, (s.sys.test.srvs j).isSome = true) ∧
      (List.finRange 3).countP (s.sys.reached 1) = 2)) = true := by decide +kernel
  obtain ⟨s, hrun, hs⟩ := (Option.any_eq_true _ _).mp hend
  obtain ⟨hpc, hplace, hcount⟩ := of_decide_eq_true hs
  obtain ⟨-, honce, hpoll⟩ := one_agrees false 0 7 _ 2 false (oneRun 0 1 2) s hrun hproper
  obtain ⟨s', hs', -, hreturned⟩ := hpoll 2 1 hpc fun j => Option.isSome_iff_exists.mp (hplace j)
  refine ⟨s, hrun, hpc, honce rfl, s', hs', hreturned.mpr ?_⟩
  rw [hcount]
  decide

end agreement

end DistSys.Raft.Checker
