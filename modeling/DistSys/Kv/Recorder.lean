import DistSys.Kv.Documented
import DistSys.Schemes.Points

/-! @go kvtest1/porcupine.go | name:OpLog.Append, Test.Get, Test.Put, checkPorcupine |
    scheme:machine, points | invariant:run

    Processes call their clerks through the test, which reads the clock before and after the call
    and appends the operation to the log when it gets to it. The clerk keeps to the documentation:
    of all the times a request reaches the server one decides, and what the server answers then is
    returned, or `ErrMaybe` for a put.

        idle ── call ──▶ calling ── serve ──▶ calling ── returns ──▶ returned ── stop ──▶ ended
          start := now            (decides)                               end := now
        ended ── Append ──▶ idle

    As long as the clock is not set back, the log is linearizable for the store, and so for the
    checker's model, unless a put was answered `ErrNoKey`, which the model does not know. The clock
    is the time since 1970, which can be set back; the times of a log are then out of order. -/

namespace DistSys.Kv.Recorder
open GoString (lit)
open Machine (run run_cons run_append run_history)
open Linear

instance instDecidableAdmissible (x : Request × KvOutput) (out : KvOutput) :
    Decidable (Admissible x out) :=
  inferInstanceAs (Decidable (_ ∨ _))

/-- A call of `Get` or `Put` of the test: `cli`, the key, the request, and `start`. -/
structure Call where
  cli : ℤ
  key : GoString
  req : Request
  start : ℤ
  deriving DecidableEq

/-- Where a process is. Of a call it is recorded what the server answered when it decided. -/
inductive Pc where
  | idle
  | calling (c : Call) (served : Option KvOutput)
  | returned (c : Call) (out : KvOutput)
  | ended (c : Call) (out : KvOutput) (stop : ℤ)
  deriving DecidableEq

/-- The operation that is appended. -/
def Call.operation (c : Call) (out : KvOutput) (stop : ℤ) : Operation :=
  ⟨c.cli, c.req.input c.key, c.start, out, stop⟩

/-- The clock, what the server stores, the processes, and `oplog`. -/
structure State where
  now : ℤ
  store : GoString → Option KvState
  procs : ℕ → Pc
  log : List Operation

inductive Action where
  | tick (d : ℤ)
  | call (i : ℕ) (cli : ℤ) (key : GoString) (req : Request)
  | serve (i : ℕ)
  | returns (i : ℕ) (out : KvOutput)
  | stop (i : ℕ)
  | record (i : ℕ)
  deriving DecidableEq

def State.set (s : State) (i : ℕ) (pc : Pc) : State :=
  { s with procs := Function.update s.procs i pc }

def step (s : State) : Action → Option State
  | .tick d => some { s with now := s.now + d }
  | .call i cli key req =>
      if s.procs i = .idle then some (s.set i (.calling ⟨cli, key, req, s.now⟩ none)) else none
  | .serve i =>
      match s.procs i with
      | .calling c none =>
        some { s.set i (.calling c (some (Kv.serve (s.store c.key) c.req).2)) with
          store := Function.update s.store c.key (Kv.serve (s.store c.key) c.req).1 }
      | _ => none
  | .returns i out =>
      match s.procs i with
      | .calling c (some out₀) =>
        if Admissible (c.req, out₀) out then some (s.set i (.returned c out)) else none
      | _ => none
  | .stop i =>
      match s.procs i with
      | .returned c out => some (s.set i (.ended c out s.now))
      | _ => none
  | .record i =>
      match s.procs i with
      | .ended c out stop => some { s.set i .idle with log := s.log ++ [c.operation out stop] }
      | _ => none

/-- Nothing is stored, and nothing has been called. -/
def start : State where
  now := 0
  store := fun _ => none
  procs := fun _ => .idle
  log := []

/-! ### What a step does -/

/-- The effects of the steps. -/
inductive Effect (s : State) : Action → State → Prop where
  | tick (d : ℤ) : Effect s (.tick d) { s with now := s.now + d }
  | call {i : ℕ} (cli : ℤ) (key : GoString) (req : Request) (hpc : s.procs i = .idle) :
      Effect s (.call i cli key req) (s.set i (.calling ⟨cli, key, req, s.now⟩ none))
  | serve {i : ℕ} {c : Call} (hpc : s.procs i = .calling c none) : Effect s (.serve i)
      { s.set i (.calling c (some (Kv.serve (s.store c.key) c.req).2)) with
        store := Function.update s.store c.key (Kv.serve (s.store c.key) c.req).1 }
  | returns {i : ℕ} {c : Call} {out₀ out : KvOutput} (hpc : s.procs i = .calling c (some out₀))
      (hout : Admissible (c.req, out₀) out) : Effect s (.returns i out) (s.set i (.returned c out))
  | stop {i : ℕ} {c : Call} {out : KvOutput} (hpc : s.procs i = .returned c out) :
      Effect s (.stop i) (s.set i (.ended c out s.now))
  | record {i : ℕ} {c : Call} {out : KvOutput} {stop : ℤ} (hpc : s.procs i = .ended c out stop) :
      Effect s (.record i) { s.set i .idle with log := s.log ++ [c.operation out stop] }

theorem step_effect {s s' : State} {a : Action} (hstep : step s a = some s') : Effect s a s' := by
  cases a with
  | tick d => cases hstep; exact .tick d
  | call i cli key req =>
    simp only [step, Option.ite_none_right_eq_some, Option.some.injEq] at hstep
    obtain ⟨hpc, rfl⟩ := hstep
    exact .call cli key req hpc
  | serve i =>
    simp only [step] at hstep
    split at hstep
    · cases hstep
      exact .serve ‹_›
    · cases hstep
  | returns i out =>
    simp only [step] at hstep
    split at hstep
    · simp only [Option.ite_none_right_eq_some, Option.some.injEq] at hstep
      obtain ⟨hout, rfl⟩ := hstep
      exact .returns ‹_› hout
    · cases hstep
  | stop i =>
    simp only [step] at hstep
    split at hstep
    · cases hstep
      exact .stop ‹_›
    · cases hstep
  | record i =>
    simp only [step] at hstep
    split at hstep
    · cases hstep
      exact .record ‹_›
    · cases hstep

/-! ### The points of the calls -/

/-- What the server did for a call: the key, the request and its answer. -/
abbrev Did := GoString × Request × KvOutput

/-- The server, asked for one key, and answering just so. -/
def attend (s : GoString → Option KvState) (e : Did) : Option (GoString → Option KvState) :=
  if (Kv.serve (s e.1) e.2.1).2 = e.2.2 then some (Function.update s e.1 (Kv.serve (s e.1) e.2.1).1)
    else none

abbrev Pt := Point ℕ ℤ Did Operation

/-- The operation records what was done at the point, and its call spans it. -/
def Records (p : Pt) (v : Operation) : Prop :=
  ∃ c out₀ out stop, v = Call.operation c out stop ∧ p.effect = (c.key, c.req, out₀) ∧
    Admissible (c.req, out₀) out ∧ c.start ≤ p.time ∧ p.time ≤ stop

/-- Which points of a process are open, where it is. -/
def Holds (now : ℤ) (pts : List Pt) : Pc → Prop
  | .idle => pts = []
  | .calling c none => pts = [] ∧ c.start ≤ now
  | .calling c (some out₀) => ∃ p, pts = [p] ∧ p.effect = (c.key, c.req, out₀) ∧ c.start ≤ p.time
  | .returned c out => ∃ p out₀, pts = [p] ∧ p.effect = (c.key, c.req, out₀) ∧ c.start ≤ p.time ∧
      Admissible (c.req, out₀) out
  | .ended c out stop => ∃ p out₀, pts = [p] ∧ p.effect = (c.key, c.req, out₀) ∧ c.start ≤ p.time ∧
      Admissible (c.req, out₀) out ∧ p.time ≤ stop

/-- The points so far. -/
structure Points (s : State) (l : List Pt) : Prop where
  sorted : l.Pairwise fun p q => p.time ≤ q.time
  past : ∀ p ∈ l, p.time ≤ s.now
  stored : run attend (fun _ => none) (l.map Point.effect) = some s.store
  logged : s.log.Perm (finished l)
  recorded : ∀ p ∈ l, ∀ v, p.op = some v → Records p v
  held : ∀ i, Holds s.now (opened i l) (s.procs i)

theorem Holds.mono {now now' : ℤ} {pts : List Pt} {pc : Pc} (h : Holds now pts pc)
    (hle : now ≤ now') : Holds now' pts pc := by
  cases pc with
  | calling c served =>
    cases served with
    | none => exact ⟨h.1, h.2.trans hle⟩
    | some out₀ => exact h
  | _ => exact h

/-- One process moves on, with the points as they are. -/
theorem Points.set {s : State} {l : List Pt} (h : Points s l) {i : ℕ} {pc : Pc}
    (hpc : Holds s.now (opened i l) pc) : Points (s.set i pc) l := by
  refine ⟨h.sorted, h.past, h.stored, h.logged, h.recorded, ?_⟩
  intro j
  rcases eq_or_ne j i with rfl | hne
  · simpa [State.set] using hpc
  · simpa [State.set, Function.update_of_ne hne] using h.held j

/-- The server decides, and the call gets its point. -/
theorem Points.serve {s : State} {l : List Pt} (h : Points s l) {i : ℕ} {c : Call}
    (hpc : s.procs i = .calling c none) :
    Points { s.set i (.calling c (some (Kv.serve (s.store c.key) c.req).2)) with
        store := Function.update s.store c.key (Kv.serve (s.store c.key) c.req).1 }
      (l ++ [⟨i, s.now, (c.key, c.req, (Kv.serve (s.store c.key) c.req).2), none⟩]) := by
  have hi := h.held i
  rw [hpc] at hi
  constructor
  case sorted =>
    refine List.pairwise_append.mpr ⟨h.sorted, List.pairwise_singleton _ _, ?_⟩
    intro p hp q hq
    rw [List.mem_singleton.mp hq]
    exact h.past p hp
  case past =>
    intro p hp
    rcases List.mem_append.mp hp with hp | hp
    · exact h.past p hp
    · rw [List.mem_singleton.mp hp]
      exact le_refl _
  case stored =>
    rw [List.map_append, run_append]
    exact ⟨s.store, h.stored, by simp [run, attend]⟩
  case logged =>
    rw [finished_append]
    simpa [finished, State.set] using h.logged
  case recorded =>
    intro p hp v hv
    rcases List.mem_append.mp hp with hp | hp
    · exact h.recorded p hp v hv
    · rw [List.mem_singleton.mp hp] at hv
      cases hv
  case held =>
    intro j
    rw [opened_append, opened_singleton _ _ rfl]
    rcases eq_or_ne j i with rfl | hne
    · simp only [State.set, Function.update_self, if_true, hi.1, List.nil_append]
      exact ⟨_, rfl, rfl, hi.2⟩
    · simpa [State.set, Function.update_of_ne hne, hne.symm] using h.held j

/-- The operation is appended, and its point filled in. -/
theorem Points.record {s : State} {l : List Pt} (h : Points s l) {i : ℕ} {c : Call}
    {out : KvOutput} {stop : ℤ} (hpc : s.procs i = .ended c out stop) :
    Points { s.set i .idle with log := s.log ++ [c.operation out stop] }
      (finish i (c.operation out stop) l) := by
  have hi := h.held i
  rw [hpc] at hi
  obtain ⟨p, out₀, hopen, heffect, hstart, hout, hstop⟩ := hi
  constructor
  case sorted =>
    have hsorted := List.pairwise_map.mpr h.sorted
    rw [← map_finish (i := i) (a := c.operation out stop) fun _ => rfl] at hsorted
    exact List.pairwise_map.mp hsorted
  case past =>
    intro q hq
    rcases mem_finish hq with hq | ⟨q', hq', rfl⟩
    · exact h.past q hq
    · exact h.past q' (mem_opened.mp hq').1
  case stored =>
    rw [map_finish fun _ => rfl]
    exact h.stored
  case logged =>
    exact (List.perm_append_singleton _ _).trans
      ((h.logged.cons _).trans (finished_finish hopen).symm)
  case recorded =>
    intro q hq v hv
    rcases mem_finish hq with hq | ⟨q', hq', rfl⟩
    · exact h.recorded q hq v hv
    · rw [hopen] at hq'
      obtain rfl := List.mem_singleton.mp hq'
      cases hv
      exact ⟨c, out₀, out, stop, rfl, heffect, hout, hstart, hstop⟩
  case held =>
    intro j
    rcases eq_or_ne j i with rfl | hne
    · simp [State.set, opened_finish_self, Holds]
    · simpa [State.set, Function.update_of_ne hne, opened_finish_of_ne hne] using h.held j

/-- The clock is not set back. -/
def NeverBack (acts : List Action) : Prop := ∀ d, .tick d ∈ acts → 0 ≤ d

/-- Every step keeps the points, or adds to them. -/
theorem points_step {s s' : State} {a : Action} {l : List Pt}
    (hclock : NeverBack [a]) (h : Points s l) (hstep : step s a = some s') : ∃ l, Points s' l := by
  cases step_effect hstep with
  | tick d =>
    have hle : s.now ≤ s.now + d := by
      have := hclock d (List.mem_singleton_self _)
      omega
    exact ⟨l, h.sorted, fun p hp => (h.past p hp).trans hle, h.stored, h.logged, h.recorded,
      fun i => (h.held i).mono hle⟩
  | @call i cli key req hpc =>
    have hi := h.held i
    rw [hpc] at hi
    exact ⟨l, h.set ⟨hi, le_refl _⟩⟩
  | serve hpc => exact ⟨_, h.serve hpc⟩
  | @returns i c out₀ out hpc hout =>
    have hi := h.held i
    rw [hpc] at hi
    obtain ⟨p, hopen, heffect, hstart⟩ := hi
    exact ⟨l, h.set ⟨p, out₀, hopen, heffect, hstart, hout⟩⟩
  | @stop i c out hpc =>
    have hi := h.held i
    rw [hpc] at hi
    obtain ⟨p, out₀, hopen, heffect, hstart, hout⟩ := hi
    have hp : p ∈ opened i l := by rw [hopen]; exact List.mem_singleton_self p
    exact ⟨l, h.set ⟨p, out₀, hopen, heffect, hstart, hout, h.past p (mem_opened.mp hp).1⟩⟩
  | record hpc => exact ⟨_, h.record hpc⟩

/-- There are points for every run. -/
theorem points_run {acts : List Action} {s : State} (hclock : NeverBack acts)
    (hrun : run step start acts = some s) : ∃ l, Points s l := by
  refine run_history (P := fun acts s => NeverBack acts → ∃ l, Points s l) ?_ ?_ hrun hclock
  · intro _
    exact ⟨[], List.Pairwise.nil, by simp, rfl, List.Perm.refl _, by simp, fun _ => rfl⟩
  · intro acts s a s' _ ih hstep hclock
    obtain ⟨l, h⟩ := ih fun d hd => hclock d (List.mem_append_left _ hd)
    exact points_step (fun d hd => hclock d (List.mem_append_right _ hd)) h hstep

/-! ### The model accepts what was recorded -/

/-- The state of the model for a key. -/
def modelled (s : GoString → Option KvState) (k : GoString) : KvState := (s k).getD init

/-- The put was answered `ErrNoKey`. -/
def NoKey (v : Operation) : Prop := v.input.op = 1 ∧ v.output.err = lit "ErrNoKey"

instance instDecidableNoKey : DecidablePred NoKey := fun _ => inferInstanceAs (Decidable (_ ∧ _))

/-- The model of a key does what the server does. -/
theorem accept_serve {st : Option KvState} {req : Request} {out : KvOutput} (key : GoString)
    (hout : Admissible (req, (Kv.serve st req).2) out)
    (hkey : ¬ ((req.input key).op = 1 ∧ out.err = lit "ErrNoKey")) :
    accept (st.getD init) (req.input key, out) = some ((Kv.serve st req).1.getD init) := by
  cases req with
  | get =>
    obtain rfl | ⟨hget, -⟩ := hout
    · cases st <;> simp [accept, modelStep, Request.input, Kv.serve, init]
    · exact absurd rfl hget
  | put value version =>
    by_cases habsent : st = none ∧ version ≠ 0
    · -- the model refuses the put for another version
      obtain ⟨rfl, hversion⟩ := habsent
      have hserve : Kv.serve none (.put value version) = (none, ⟨[], 0, lit "ErrNoKey"⟩) :=
        if_neg hversion
      rw [hserve] at hout ⊢
      obtain rfl | ⟨-, rfl⟩ := hout
      · exact absurd ⟨rfl, rfl⟩ hkey
      · simp [accept, modelStep, Request.input, init, hversion.symm]
    · have hst : st = some (st.getD init) ∨ (st = none ∧ st.getD init = init ∧ version = 0) := by
        cases st with
        | none => exact Or.inr ⟨rfl, rfl, by simpa using habsent⟩
        | some st => exact Or.inl rfl
      obtain ⟨st', hst', hright, -⟩ := accept_put key value hst out
      rw [hst', Option.getD_some]
      exact hright hout.right

theorem store_attend {s t : GoString → Option KvState} {p : Pt} {v : Operation}
    (hrecords : Records p v) (hkey : ¬ NoKey v) (hattend : attend s p.effect = some t) :
    storeStep Operation.step (fun v => v.input.key) (modelled s) v = some (modelled t) := by
  obtain ⟨c, out₀, out, stop, rfl, heffect, hout, -, -⟩ := hrecords
  have hinput : (c.req.input c.key).key = c.key := by cases c.req <;> rfl
  rw [heffect, attend] at hattend
  simp only [Option.ite_none_right_eq_some, Option.some.injEq] at hattend
  obtain ⟨rfl, rfl⟩ := hattend
  have haccept := accept_serve c.key hout hkey
  simp only [storeStep, Call.operation, Operation.step, hinput]
  rw [show modelled s c.key = (s c.key).getD init from rfl, haccept, Option.map_some]
  congr 1
  funext k
  rcases eq_or_ne k c.key with rfl | hne
  · simp [modelled]
  · simp [modelled, Function.update_of_ne hne]

/-- A put answered `ErrNoKey` is not accepted in any state. -/
theorem step_noKey {v : Operation} (h : NoKey v) (st : KvState) : Operation.step st v = none := by
  have hok : v.output.err ≠ lit "OK" := by rw [h.2]; decide
  have hversion : v.output.err ≠ lit "ErrVersion" := by rw [h.2]; decide
  have hmaybe : v.output.err ≠ lit "ErrMaybe" := by rw [h.2]; decide
  simp only [Operation.step, accept, modelStep, h.1]
  by_cases hst : st.version = v.input.version
  · simp [hst, hok, hmaybe]
  · simp [hst, hversion, hmaybe]

theorem not_keyLinearizable {history : List Operation} {v : Operation}
    (hv : v ∈ history) (h : NoKey v) : ¬ KeyLinearizable history := by
  rintro ⟨l, hperm, -, haccepts⟩
  obtain ⟨before, after, rfl⟩ := List.append_of_mem (hperm.mem_iff.mpr hv)
  obtain ⟨st, hrun⟩ := Option.isSome_iff_exists.mp haccepts
  obtain ⟨u, -, hrun⟩ := run_append.mp hrun
  obtain ⟨t, hstep, -⟩ := run_cons.mp hrun
  rw [step_noKey h u] at hstep
  cases hstep

/-- A group of the partition is the part of one key. -/
theorem mem_partition {o : RangeOrder GoString} {history group : List Operation} :
    group ∈ partition o history ↔ ∃ v ∈ history,
      group = history.filter (·.input.key = v.input.key) := by
  obtain ⟨keys, -, hkeys, hpartition⟩ := partition_eq o history
  rw [hpartition, List.mem_map]
  constructor
  · rintro ⟨k, hk, rfl⟩
    obtain ⟨v, hv, rfl⟩ := (hkeys k).mp hk
    exact ⟨v, hv, rfl⟩
  · rintro ⟨v, hv, rfl⟩
    exact ⟨v.input.key, (hkeys _).mpr ⟨v, hv, rfl⟩, rfl⟩

/-- CORRECT: if the clock was not set back and all calls are recorded, the log is linearizable for
    the model, key by key, unless a put was answered `ErrNoKey`. -/
theorem recorded_linearizable_iff (o : RangeOrder GoString) {acts : List Action} {s : State}
    (hclock : NeverBack acts) (hrun : run step start acts = some s)
    (hidle : ∀ i, s.procs i = .idle) :
    (∀ group ∈ partition o s.log, KeyLinearizable group) ↔ ∀ v ∈ s.log, ¬ NoKey v := by
  constructor
  · intro hall v hv hkey
    refine not_keyLinearizable ?_ hkey (hall _ (mem_partition.mpr ⟨v, hv, rfl⟩))
    exact List.mem_filter.mpr ⟨hv, decide_eq_true rfl⟩
  · intro hkey group hgroup
    obtain ⟨v, -, rfl⟩ := mem_partition.mp hgroup
    obtain ⟨l, h⟩ := points_run hclock hrun
    -- no point is open, as every process is idle
    have hop : ∀ p ∈ l, ∃ v, p.op = some v := by
      intro p hp
      have hopen := h.held p.owner
      rw [hidle] at hopen
      refine Option.ne_none_iff_exists'.mp fun hnone => ?_
      have hp : p ∈ opened p.owner l := mem_opened.mpr ⟨hp, rfl, hnone⟩
      rw [show opened p.owner l = [] from hopen] at hp
      cases hp
    have hbetween : ∀ p ∈ l, ∀ v, p.op = some v → v.call ≤ p.time ∧ p.time ≤ v.ret := by
      intro p hp v hv
      obtain ⟨c, out₀, out, stop, rfl, -, -, hstart, hstop⟩ := h.recorded p hp v hv
      exact ⟨hstart, hstop⟩
    have hlog : ∀ p ∈ l, ∀ v, p.op = some v → v ∈ s.log := fun p hp v hv =>
      h.logged.mem_iff.mpr (List.mem_filterMap.mpr ⟨p, hp, hv⟩)
    have hstore : StoreLinearizable s.log := by
      refine linearizable_of_points (f := modelled) h.logged h.sorted hbetween h.stored ?_
      intro p hp
      obtain ⟨v, hv⟩ := hop p hp
      exact ⟨v, hv, fun s t => store_attend (h.recorded p hp v hv) (hkey v (hlog p hp v hv))⟩
    have hcall : ∀ v ∈ s.log, v.call ≤ v.ret := by
      intro v hv
      obtain ⟨p, hp, hv⟩ := List.mem_filterMap.mp (h.logged.mem_iff.mp hv)
      exact (hbetween p hp v hv).1.trans (hbetween p hp v hv).2
    exact (locality hcall).mp hstore _

/-- A put and a get of one key overlap; the get is served first and recorded last. The put loses its
    answer. -/
def overlapping : List Action :=
  [.call 0 5 (lit "x") (.put (lit "v") 0), .tick 10, .call 1 6 (lit "x") .get,
    .serve 1, .tick 1, .serve 0, .returns 0 ⟨[], 0, lit "ErrMaybe"⟩, .tick 1,
    .returns 1 ⟨[], 0, lit "ErrNoKey"⟩, .stop 1, .tick 5, .stop 0, .record 0, .record 1]

theorem recorded_linearizable_overlapping : NeverBack overlapping ∧
    ∃ s, run step start overlapping = some s ∧ (∀ i, s.procs i = .idle) ∧
    s.log = [⟨5, ⟨1, lit "x", lit "v", 0⟩, 0, ⟨[], 0, lit "ErrMaybe"⟩, 17⟩,
      ⟨6, ⟨0, lit "x", [], 0⟩, 10, ⟨[], 0, lit "ErrNoKey"⟩, 12⟩] ∧
    ∀ group ∈ partition (RangeOrder.ascending GoString) s.log, KeyLinearizable group := by
  obtain ⟨s, hs⟩ : ∃ s, run step start overlapping = some s := ⟨_, rfl⟩
  have hidle : ∀ i, s.procs i = .idle := by
    cases hs
    rintro (_ | _ | i) <;> rfl
  have hlog : s.log = [⟨5, ⟨1, lit "x", lit "v", 0⟩, 0, ⟨[], 0, lit "ErrMaybe"⟩, 17⟩,
      ⟨6, ⟨0, lit "x", [], 0⟩, 10, ⟨[], 0, lit "ErrNoKey"⟩, 12⟩] := by
    cases hs
    rfl
  have hclock : NeverBack overlapping := by
    intro d hd
    simp only [overlapping, List.mem_cons, reduceCtorEq, Action.tick.injEq,
      List.not_mem_nil, or_false, false_or] at hd
    omega
  refine ⟨hclock, s, hs, hidle, hlog, (recorded_linearizable_iff _ hclock hs hidle).mpr ?_⟩
  rw [hlog]
  decide

/-- A put is answered and recorded, the clock is set back, and then the value is read. -/
def setBack : List Action :=
  [.tick 10, .call 0 0 (lit "x") (.put (lit "v") 0), .serve 0,
    .returns 0 ⟨[], 0, lit "OK"⟩, .stop 0, .record 0, .tick (-20), .call 0 0 (lit "x") .get,
    .serve 0, .returns 0 ⟨lit "v", 1, lit "OK"⟩, .stop 0, .record 0]

/-- With the clock set back, the log of a right store is not linearizable for the model. -/
theorem setBack_rejected : ∃ s, run step start setBack = some s ∧ (∀ i, s.procs i = .idle) ∧
    (∀ v ∈ s.log, ¬ NoKey v) ∧ ¬ KeyLinearizable s.log := by
  obtain ⟨s, hs⟩ : ∃ s, run step start setBack = some s := ⟨_, rfl⟩
  have hidle : ∀ i, s.procs i = .idle := by
    cases hs
    rintro (_ | i) <;> rfl
  have hlog : s.log = [⟨0, ⟨1, lit "x", lit "v", 0⟩, 10, ⟨[], 0, lit "OK"⟩, 10⟩,
      ⟨0, ⟨0, lit "x", [], 0⟩, -10, ⟨lit "v", 1, lit "OK"⟩, -10⟩] := by
    cases hs
    rfl
  refine ⟨s, hs, hidle, by rw [hlog]; decide, ?_⟩
  rw [hlog]
  rintro ⟨l, hperm, htime, haccepts⟩
  -- the get returned before the put was called, so it comes first, and finds nothing
  obtain ⟨a, b, rfl⟩ := List.length_eq_two.mp hperm.length_eq
  have ha := hperm.mem_iff.mp List.mem_cons_self
  simp only [List.mem_cons, List.not_mem_nil, or_false] at ha
  rcases ha with rfl | rfl
  · obtain rfl := List.singleton_perm_singleton.mp ((List.perm_cons _).mp hperm)
    simp [InTime] at htime
  · have hnone :
        Operation.step init ⟨0, ⟨0, lit "x", [], 0⟩, -10, ⟨lit "v", 1, lit "OK"⟩, -10⟩ = none := by
      decide
    simp [run, hnone] at haccepts

end DistSys.Kv.Recorder
