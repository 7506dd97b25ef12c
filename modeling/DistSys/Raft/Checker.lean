import DistSys.Schemes.Machine
import Mathlib.Algebra.Order.Group.Int
import Mathlib.Data.List.FinRange

/-! @go raft1/test.go, raft1/server.go | name:checkLogs, applier, ingestSnap, mksrv | scheme:machine

    The Raft tester records what each server applies, and compares every command with the records of
    all servers. A restart puts a new record in place of the old one, whose goroutine may still be
    running: its commands go into the record that is in place. A snapshot replaces a record as a
    whole, and is compared with nothing.

        apply k v     every record in place has v or nothing at k   ──▶  record k v
        ingest        index fits                                    ──▶  record := snapshot
        restart       new record, empty or from a snapshot          ──▶  put in place

    Each of these is one step. An error ends the process. -/

namespace DistSys.Raft.Checker
open Machine (run)

/-- The command of an `ApplyMsg`, with its index. -/
structure ApplyMsg (C : Type) where
  commandIndex : ℤ
  command : C

/-- A snapshot, decoded. -/
structure Snapshot (C : Type) where
  lastIncludedIndex : ℤ
  xlog : List C
  deriving DecidableEq

/-- `rfsrv`: whose record it is, and the record. -/
structure Rfsrv (C : Type) (n : ℕ) where
  me : Fin n
  logs : ℤ → Option C
  lastApplied : ℤ

/-- `Test`: all `rfsrv` made so far, those in place, and those that `mksrv` has made but not yet put
    in place. -/
structure Test (C : Type) (n : ℕ) where
  rfsrvs : ℕ → Option (Rfsrv C n)
  made : ℕ
  srvs : Fin n → Option ℕ
  starting : Fin n → Option ℕ
  maxIndex : ℤ

inductive Action (C : Type) (n : ℕ) where
  /-- `newRfsrv`, with the snapshot of the persister -/
  | newRfsrv (i : Fin n) (snapshot : Option (Snapshot C))
  /-- `ts.srvs[i] = s` -/
  | mksrv (i : Fin n)
  /-- `applier` has a command -/
  | applier (a : ℕ) (m : ApplyMsg C)
  /-- `applierSnap` has a command -/
  | applierSnap (a : ℕ) (m : ApplyMsg C)
  /-- `applierSnap` has a snapshot -/
  | ingest (a : ℕ) (snapshot : Snapshot C) (index : ℤ)

section definitions
variable {C : Type} {n : ℕ}

def nilPointer : String := "invalid memory address or nil pointer dereference"

/-- `rs.logs[j] = xlog[j]` for all `j`, in a new map. -/
def Snapshot.logs (snapshot : Snapshot C) (k : ℤ) : Option C :=
  if 0 ≤ k then snapshot.xlog[k.toNat]? else none

def Rfsrv.ingestSnap (rs : Rfsrv C n) (snapshot : Snapshot C) (index : ℤ) :
    Except String (Rfsrv C n) :=
  let me := rs.me
  if index ≠ -1 ∧ index ≠ snapshot.lastIncludedIndex then
    .error s!"server {me} snapshot doesn't match m.SnapshotIndex"
  else .ok { rs with logs := snapshot.logs, lastApplied := snapshot.lastIncludedIndex }

def newRfsrv (srv : Fin n) : Option (Snapshot C) → Except String (Rfsrv C n)
  | none => .ok ⟨srv, fun _ => none, 0⟩
  | some snapshot => Rfsrv.ingestSnap ⟨srv, fun _ => none, 0⟩ snapshot (-1)

namespace Test

section
variable (ts : Test C n)

/-- The record in place of a server. -/
def current (i : Fin n) : Option (Rfsrv C n) := (ts.srvs i).bind ts.rfsrvs

def set (a : ℕ) (rs : Rfsrv C n) : Test C n :=
  { ts with rfsrvs := Function.update ts.rfsrvs a (some rs) }

/-- A snapshot in `applierSnap`. -/
def ingest (a : ℕ) (snapshot : Snapshot C) (index : ℤ) : Except String (Test C n) :=
  match ts.rfsrvs a with
  | none => .error nilPointer
  | some rs =>
    match rs.ingestSnap snapshot index with
    | .error msg => .error s!"apply error: {msg}"
    | .ok rs => .ok (ts.set a rs)

end

variable [DecidableEq C] [ToString C] (ts : Test C n)

/-- The loop of `checkLogs` over the servers: the error of the last one that differs. -/
def checkLoop (i : Fin n) (m : ApplyMsg C) : List (Fin n) → Option String →
    Except String (Option String)
  | [], err => .ok err
  | j :: js, err =>
    match ts.current j with
    | none => .error nilPointer
    | some rs =>
      match rs.logs m.commandIndex with
      | some old =>
        let index := m.commandIndex
        let v := m.command
        checkLoop i m js
          (if old ≠ v then some s!"commit index={index} server={i} {v} != server={j} {old}"
            else err)
      | none => checkLoop i m js err

/-- `checkLogs`: the error if there is one, and whether the index before is recorded. -/
def checkLogs (i : Fin n) (m : ApplyMsg C) : Except String ((Option String × Bool) × Test C n) :=
  match ts.checkLoop i m (List.finRange n) none with
  | .error msg => .error msg
  | .ok err =>
    match ts.srvs i, ts.current i with
    | some a, some me =>
      .ok ((err, (me.logs (m.commandIndex - 1)).isSome),
        { ts.set a { me with logs := Function.update me.logs m.commandIndex (some m.command) } with
          maxIndex := if m.commandIndex > ts.maxIndex then m.commandIndex else ts.maxIndex })
    | _, _ => .error nilPointer

/-- What `applier` and `applierSnap` have in common: `checkLogs`, and the check of the order. -/
def record (i : Fin n) (m : ApplyMsg C) : Except String (Test C n) :=
  match ts.checkLogs i m with
  | .error msg => .error msg
  | .ok ((err, prevok), ts') =>
    let index := m.commandIndex
    match if index > 1 ∧ prevok = false then some s!"server {i} apply out of order {index}"
      else err with
    | some msg => .error s!"apply error: {msg}"
    | none => .ok ts'

def applier (a : ℕ) (m : ApplyMsg C) : Except String (Test C n) :=
  match ts.rfsrvs a with
  | none => .error nilPointer
  | some rs => ts.record rs.me m

/-- A command in `applierSnap`, without the snapshots that it makes. -/
def applierSnap (a : ℕ) (m : ApplyMsg C) : Except String (Test C n) :=
  match ts.rfsrvs a with
  | none => .error nilPointer
  | some rs =>
    let me := rs.me
    let expected := rs.lastApplied + 1
    let index := m.commandIndex
    if index ≠ expected then
      .error s!"apply error: server {me} apply out of order, expected index {expected}, got {index}"
    else match ts.record rs.me m with
      | .error msg => .error msg
      | .ok ts' =>
        match ts'.rfsrvs a with
        | none => .error nilPointer
        | some rs => .ok (ts'.set a { rs with lastApplied := index })

def step : Action C n → Option (Test C n)
  | .newRfsrv i snapshot =>
    if ts.starting i = none then
      (newRfsrv i snapshot).toOption.map fun rs =>
        { ts.set ts.made rs with
          made := ts.made + 1, starting := Function.update ts.starting i (some ts.made) }
    else none
  | .mksrv i =>
    (ts.starting i).map fun a =>
      { ts with
        srvs := Function.update ts.srvs i (some a)
        starting := Function.update ts.starting i none }
  | .applier a m => (ts.applier a m).toOption
  | .applierSnap a m => (ts.applierSnap a m).toOption
  | .ingest a snapshot index => (ts.ingest a snapshot index).toOption

end Test

/-- `makeTest`: no server has been started. -/
def makeTest (C : Type) (n : ℕ) : Test C n := ⟨fun _ => none, 0, fun _ => none, fun _ => none, 0⟩

end definitions

/-! ### What a step can do -/

section effects
variable {C : Type} {n : ℕ} {ts ts' : Test C n}

/-- Two records have the same command where both have one. -/
def Agrees (logs logs' : ℤ → Option C) : Prop := ∀ k v w, logs k = some v → logs' k = some w → v = w

/-- A record with an index above 1 has the index before. -/
def Ordered (logs : ℤ → Option C) : Prop :=
  ∀ k, 1 < k → (logs k).isSome = true → (logs (k - 1)).isSome = true

theorem Agrees.symm {logs logs' : ℤ → Option C} (h : Agrees logs logs') : Agrees logs' logs :=
  fun k v w hv hw => (h k w v hw hv).symm

theorem Agrees.refl (logs : ℤ → Option C) : Agrees logs logs :=
  fun _ _ _ hv hw => Option.some.inj (hv.symm.trans hw)

theorem ordered_empty : Ordered (fun _ => none : ℤ → Option C) := fun _ _ h => by cases h

/-- A snapshot is recorded from index 0 on, without a gap. -/
theorem ordered_snapshot (snapshot : Snapshot C) : Ordered snapshot.logs := by
  intro k hk hsome
  simp only [Snapshot.logs, if_pos (by omega : (0 : ℤ) ≤ k), if_pos (by omega : (0 : ℤ) ≤ k - 1),
    isSome_getElem?] at hsome ⊢
  omega

theorem ordered_update {logs : ℤ → Option C} (h : Ordered logs) {k : ℤ} (v : C)
    (hprev : 1 < k → (logs (k - 1)).isSome = true) : Ordered (Function.update logs k (some v)) := by
  intro k' hk' hsome
  rcases eq_or_ne k' k with rfl | hne
  · rw [Function.update_of_ne (by omega)]
    exact hprev hk'
  · rw [Function.update_of_ne hne] at hsome
    rcases eq_or_ne (k' - 1) k with heq | hne'
    · rw [heq, Function.update_self]
      rfl
    · rw [Function.update_of_ne hne']
      exact h k' hk' hsome

theorem toOption_eq_some {α : Type} {x : Except String α} {a : α}
    (h : x.toOption = some a) : x = .ok a := by
  cases x with
  | error msg => cases h
  | ok b => exact congrArg Except.ok (Option.some.inj h)

theorem newRfsrv_ok {i : Fin n} {snapshot : Option (Snapshot C)} {rs : Rfsrv C n}
    (h : newRfsrv i snapshot = .ok rs) : rs.me = i ∧ Ordered rs.logs := by
  cases snapshot with
  | none =>
    cases h
    exact ⟨rfl, ordered_empty⟩
  | some snapshot =>
    simp only [newRfsrv, Rfsrv.ingestSnap] at h
    split at h
    · cases h
    · cases h
      exact ⟨rfl, ordered_snapshot snapshot⟩

theorem ingest_ok {a : ℕ} {snapshot : Snapshot C} {index : ℤ}
    (h : ts.ingest a snapshot index = .ok ts') : ∃ rs, ts.rfsrvs a = some rs ∧
      ts' =
        ts.set a { rs with logs := snapshot.logs, lastApplied := snapshot.lastIncludedIndex } := by
  simp only [Test.ingest, Rfsrv.ingestSnap] at h
  split at h
  · cases h
  rename_i rs hrs
  split at h
  · cases h
  rename_i rs' hrs'
  split at hrs'
  · cases hrs'
  · cases hrs'
    exact ⟨rs, hrs, (Except.ok.inj h).symm⟩

/-- A command that is recorded without an error: where it goes, and what was checked. -/
structure Recorded (ts : Test C n) (i : Fin n) (m : ApplyMsg C) (ts' : Test C n) : Prop where
  agreed : ∀ j rs, ts.current j = some rs → ∀ old,
    rs.logs m.commandIndex = some old → old = m.command
  written : ∃ a me x, ts.srvs i = some a ∧ ts.rfsrvs a = some me ∧
    (1 < m.commandIndex → (me.logs (m.commandIndex - 1)).isSome = true) ∧
    ts' =
      { ts.set a { me with logs := Function.update me.logs m.commandIndex (some m.command) } with
      maxIndex := x }

variable [DecidableEq C] [ToString C]

/-- Without an error, no server in place has another command at the index. -/
theorem checkLoop_ok {i : Fin n} {m : ApplyMsg C} (js : List (Fin n)) (err : Option String)
    (h : ts.checkLoop i m js err = .ok none) : err = none ∧
      ∀ j ∈ js, ∀ rs, ts.current j = some rs → ∀ old, rs.logs m.commandIndex = some old →
        old = m.command := by
  induction js generalizing err with
  | nil => exact ⟨Except.ok.inj h, by simp⟩
  | cons j js ih =>
    rw [Test.checkLoop] at h
    split at h
    · cases h
    rename_i rs hrs
    split at h
    · rename_i old hold
      obtain ⟨hnone, hjs⟩ := ih _ h
      split at hnone
      · cases hnone
      rename_i heq
      refine ⟨hnone, List.forall_mem_cons.mpr ⟨fun rs' hrs' old' hold' => ?_, hjs⟩⟩
      obtain rfl := Option.some.inj (hrs.symm.trans hrs')
      obtain rfl := Option.some.inj (hold.symm.trans hold')
      exact not_not.mp heq
    · rename_i hempty
      obtain ⟨hnone, hjs⟩ := ih _ h
      refine ⟨hnone, List.forall_mem_cons.mpr ⟨fun rs' hrs' old' hold' => ?_, hjs⟩⟩
      obtain rfl := Option.some.inj (hrs.symm.trans hrs')
      rw [hempty] at hold'
      cases hold'

theorem record_ok {i : Fin n} {m : ApplyMsg C} (h : ts.record i m = .ok ts') :
    Recorded ts i m ts' := by
  simp only [Test.record, Test.checkLogs] at h
  cases hloop : ts.checkLoop i m (List.finRange n) none with
  | error msg => simp [hloop] at h
  | ok err =>
    cases ha : ts.srvs i with
    | none => simp [hloop, ha] at h
    | some a =>
      cases hme : ts.rfsrvs a with
      | none => simp [hloop, ha, Test.current, hme] at h
      | some me =>
        simp only [hloop, ha, Test.current, Option.bind_some, hme] at h
        by_cases hout : m.commandIndex > 1 ∧ (me.logs (m.commandIndex - 1)).isSome = false
        · simp [hout] at h
        · rw [if_neg hout] at h
          cases err with
          | some msg => cases h
          | none =>
            refine ⟨fun j => (checkLoop_ok _ _ hloop).2 j (List.mem_finRange j),
              a, me, _, ha, hme, ?_, (Except.ok.inj h).symm⟩
            intro hk
            by_contra hno
            exact hout ⟨hk, by simpa using hno⟩

theorem applier_ok {a : ℕ} {m : ApplyMsg C} (h : ts.applier a m = .ok ts') :
    ∃ i, Recorded ts i m ts' := by
  rw [Test.applier] at h
  split at h
  · cases h
  · exact ⟨_, record_ok h⟩

/-- `applierSnap` notes the index as well, in its own `rfsrv`. -/
theorem applierSnap_ok {a : ℕ} {m : ApplyMsg C} (h : ts.applierSnap a m = .ok ts') :
    ∃ i ts₁ rs, Recorded ts i m ts₁ ∧ ts₁.rfsrvs a = some rs ∧
      ts' = ts₁.set a { rs with lastApplied := m.commandIndex } := by
  simp only [Test.applierSnap] at h
  split at h
  · cases h
  split at h
  · cases h
  split at h
  · cases h
  rename_i ts₁ hrecord
  split at h
  · cases h
  rename_i rs hrs
  exact ⟨_, ts₁, rs, record_ok hrecord, hrs, (Except.ok.inj h).symm⟩

end effects

/-! ### Invariants -/

section invariants
variable {C : Type} {n : ℕ} {ts ts' : Test C n}

/-- The `rfsrv` in place or starting are those of their servers, and all records are in order. -/
structure Wf (ts : Test C n) : Prop where
  place : ∀ i a, ts.srvs i = some a → ∃ rs, ts.rfsrvs a = some rs ∧ rs.me = i
  starting : ∀ i a, ts.starting i = some a → ∃ rs, ts.rfsrvs a = some rs ∧ rs.me = i
  made : ∀ a rs, ts.rfsrvs a = some rs → a < ts.made
  ordered : ∀ a rs, ts.rfsrvs a = some rs → Ordered rs.logs

/-- The records in place agree with each other. -/
def Agree (ts : Test C n) : Prop :=
  ∀ i j rs rs', ts.current i = some rs → ts.current j = some rs' → Agrees rs.logs rs'.logs

theorem wf_makeTest : Wf (makeTest C n) := by
  refine ⟨?_, ?_, ?_, ?_⟩ <;> intro _ _ h <;> cases h

theorem agree_makeTest : Agree (makeTest C n) := fun _ _ _ _ h => by cases h

/-- An `rfsrv` changes, but not whose it is. -/
theorem Wf.set (h : Wf ts) {a : ℕ} {rs rs' : Rfsrv C n} (ha : ts.rfsrvs a = some rs)
    (hme : rs'.me = rs.me) (hord : Ordered rs'.logs) : Wf (ts.set a rs') := by
  have hkeep : ∀ {i b}, (∃ r, ts.rfsrvs b = some r ∧ r.me = i) →
      ∃ r, (ts.set a rs').rfsrvs b = some r ∧ r.me = i := by
    rintro i b ⟨r, hr, rfl⟩
    rcases eq_or_ne b a with rfl | hne
    · obtain rfl := Option.some.inj (ha.symm.trans hr)
      exact ⟨rs', Function.update_self .., hme⟩
    · exact ⟨r, (Function.update_of_ne hne _ _).trans hr, rfl⟩
  constructor
  case place =>
    intro i b hb
    exact hkeep (h.place i b hb)
  case starting =>
    intro i b hb
    exact hkeep (h.starting i b hb)
  case made =>
    intro b r hr
    obtain ⟨rfl, -⟩ | ⟨-, hr⟩ := update_some hr
    · exact h.made b rs ha
    · exact h.made b r hr
  case ordered =>
    intro b r hr
    obtain ⟨-, rfl⟩ | ⟨-, hr⟩ := update_some hr
    · exact hord
    · exact h.ordered b r hr

theorem current_set (a : ℕ) (rs : Rfsrv C n) (j : Fin n) :
    (ts.set a rs).current j = if ts.srvs j = some a then some rs else ts.current j := by
  simp only [Test.current, Test.set]
  cases hj : ts.srvs j with
  | none => rfl
  | some b =>
    rcases eq_or_ne b a with rfl | hne
    · simp
    · simp [hne]

/-- Where the record in place of some servers is replaced, the new one has to agree with the
    others. -/
theorem Agree.replace (h : Agree ts) {p : Fin n → Prop} [DecidablePred p] {rs : Rfsrv C n}
    (hcur : ∀ j, ts'.current j = if p j then some rs else ts.current j)
    (hnew : ∀ i j rs', p i → ¬ p j → ts.current j = some rs' → Agrees rs.logs rs'.logs) :
    Agree ts' := by
  intro i j r r' hi hj
  rw [hcur] at hi hj
  split at hi
  · rename_i hpi
    obtain rfl := Option.some.inj hi
    split at hj
    · obtain rfl := Option.some.inj hj
      exact Agrees.refl _
    · rename_i hpj
      exact hnew i j r' hpi hpj hj
  · rename_i hpi
    split at hj
    · rename_i hpj
      obtain rfl := Option.some.inj hj
      exact (hnew j i r hpj hpi hi).symm
    · exact h i j r r' hi hj

theorem Agree.set (h : Agree ts) {a : ℕ} {rs : Rfsrv C n}
    (hnew : ∀ i j rs', ts.srvs i = some a → ts.srvs j ≠ some a → ts.current j = some rs' →
      Agrees rs.logs rs'.logs) : Agree (ts.set a rs) :=
  h.replace (current_set a rs) hnew

/-- An `rfsrv` is in place of one server. -/
theorem Wf.place_inj (h : Wf ts) {i j : Fin n} {a : ℕ} (hi : ts.srvs i = some a)
    (hj : ts.srvs j = some a) : i = j := by
  obtain ⟨rs, hrs, rfl⟩ := h.place i a hi
  obtain ⟨rs', hrs', rfl⟩ := h.place j a hj
  rw [Option.some.inj (hrs.symm.trans hrs')]

/-- A command is recorded after the one before it. -/
theorem Recorded.wf {i : Fin n} {m : ApplyMsg C} (h : Recorded ts i m ts')
    (hw : Wf ts) : Wf ts' := by
  obtain ⟨a, me, x, ha, hme, hprev, rfl⟩ := h.written
  have hset :
    Wf (ts.set a { me with logs := Function.update me.logs m.commandIndex (some m.command) }) :=
    hw.set hme rfl (ordered_update (hw.ordered a me hme) m.command hprev)
  exact ⟨hset.place, hset.starting, hset.made, hset.ordered⟩

/-- A command that was compared with all records agrees with them. -/
theorem Recorded.agree {i : Fin n} {m : ApplyMsg C} (h : Recorded ts i m ts') (hagree : Agree ts) :
    Agree ts' := by
  obtain ⟨a, me, x, ha, hme, -, rfl⟩ := h.written
  have hcur : ts.current i = some me := by rw [Test.current, ha, Option.bind_some, hme]
  refine hagree.set fun _ j rs' _ _ hj k v w hv hw => ?_
  dsimp only at hv
  rcases eq_or_ne k m.commandIndex with rfl | hne
  · rw [Function.update_self, Option.some.injEq] at hv
    rw [← hv, h.agreed j rs' hj w hw]
  · rw [Function.update_of_ne hne] at hv
    exact hagree i j me rs' hcur hj k v w hv hw

/-- `lastApplied` is no part of a record. -/
theorem Agree.setApplied (h : Agree ts) {a : ℕ} {rs : Rfsrv C n}
    (hrs : ts.rfsrvs a = some rs) (k : ℤ) : Agree (ts.set a { rs with lastApplied := k }) := by
  refine h.set fun i j rs' hi _ hj => ?_
  exact h i j rs rs' (by rw [Test.current, hi, Option.bind_some, hrs]) hj

/-- What replaces a record as a whole agrees with the records of the other servers in place. -/
def Action.Compatible (ts : Test C n) : Action C n → Prop
  | .mksrv i => ∀ a rs j rs', ts.starting i = some a → ts.rfsrvs a = some rs → j ≠ i →
      ts.current j = some rs' → Agrees rs.logs rs'.logs
  | .ingest a snapshot _ => ∀ i j rs', ts.srvs i = some a → j ≠ i → ts.current j = some rs' →
      Agrees snapshot.logs rs'.logs
  | _ => True

theorem agree_mksrv {i : Fin n} {a : ℕ} {rs : Rfsrv C n} (hstarting : ts.starting i = some a)
    (hrs : ts.rfsrvs a = some rs) (hagree : Agree ts) :
    Agree { ts with
      srvs := Function.update ts.srvs i (some a)
      starting := Function.update ts.starting i none } ↔ (Action.mksrv i).Compatible ts := by
  have hcur : ∀ j, ({ ts with
      srvs := Function.update ts.srvs i (some a)
      starting := Function.update ts.starting i none } : Test C n).current j =
      if j = i then some rs else ts.current j := by
    intro j
    rcases eq_or_ne j i with rfl | hne
    · simp [Test.current, hrs]
    · simp [Test.current, hne]
  constructor
  · intro h a' rs₁ j rs' ha' hrs₁ hne hj
    obtain rfl := Option.some.inj (hstarting.symm.trans ha')
    obtain rfl := Option.some.inj (hrs.symm.trans hrs₁)
    exact h i j rs rs' (by rw [hcur, if_pos rfl]) (by rw [hcur, if_neg hne, hj])
  · intro h
    refine hagree.replace hcur fun j j' rs' hj hne hj' => ?_
    exact h a rs j' rs' hstarting hrs hne hj'

theorem agree_ingest {a : ℕ} {snapshot : Snapshot C} {index : ℤ} {rs : Rfsrv C n} (hw : Wf ts)
    (hlogs : rs.logs = snapshot.logs) (hagree : Agree ts) :
    Agree (ts.set a rs) ↔ (Action.ingest a snapshot index).Compatible ts := by
  constructor
  · intro h i j rs' hi hne hj
    have hja : ts.srvs j ≠ some a := fun hja => hne (hw.place_inj hja hi)
    rw [← hlogs]
    exact h i j rs rs' (by rw [current_set, if_pos hi]) (by rw [current_set, if_neg hja, hj])
  · intro h
    refine hagree.set fun i j rs' hi hja hj => ?_
    rw [hlogs]
    exact h i j rs' hi (fun heq => hja (heq ▸ hi)) hj

variable [DecidableEq C] [ToString C]

/-- Every step keeps the records in order. -/
theorem wf_step (ts : Test C n) (x : Action C n) (ts' : Test C n) (hw : Wf ts)
    (h : ts.step x = some ts') : Wf ts' := by
  cases x with
  | newRfsrv i snapshot =>
    simp only [Test.step, Option.ite_none_right_eq_some, Option.map_eq_some_iff] at h
    obtain ⟨-, rs, hnew, rfl⟩ := h
    obtain ⟨hme, hord⟩ := newRfsrv_ok (toOption_eq_some hnew)
    have hold : ∀ {j b}, (∃ r, ts.rfsrvs b = some r ∧ r.me = j) →
        ∃ r, Function.update ts.rfsrvs ts.made (some rs) b = some r ∧ r.me = j := by
      rintro j b ⟨r, hr, rfl⟩
      exact ⟨r, (Function.update_of_ne (hw.made b r hr).ne _ _).trans hr, rfl⟩
    constructor
    case place =>
      intro j b hb
      exact hold (hw.place j b hb)
    case starting =>
      intro j b hb
      obtain ⟨rfl, rfl⟩ | ⟨-, hb⟩ := update_some hb
      · exact ⟨rs, Function.update_self .., hme⟩
      · exact hold (hw.starting j b hb)
    case made =>
      intro b r hr
      obtain ⟨rfl, -⟩ | ⟨-, hr⟩ := update_some hr
      · exact Nat.lt_succ_self _
      · exact (hw.made b r hr).trans (Nat.lt_succ_self _)
    case ordered =>
      intro b r hr
      obtain ⟨-, rfl⟩ | ⟨-, hr⟩ := update_some hr
      · exact hord
      · exact hw.ordered b r hr
  | mksrv i =>
    simp only [Test.step, Option.map_eq_some_iff] at h
    obtain ⟨a, ha, rfl⟩ := h
    refine ⟨fun j b hb => ?_, fun j b hb => ?_, hw.made, hw.ordered⟩
    · obtain ⟨rfl, rfl⟩ | ⟨-, hb⟩ := update_some hb
      · exact hw.starting j b ha
      · exact hw.place j b hb
    · rcases eq_or_ne j i with rfl | hne
      · simp at hb
      · exact hw.starting j b (by simpa [hne] using hb)
  | applier a m =>
    obtain ⟨i, hrec⟩ := applier_ok (toOption_eq_some h)
    exact hrec.wf hw
  | applierSnap a m =>
    obtain ⟨i, ts₁, rs, hrec, hrs, rfl⟩ := applierSnap_ok (toOption_eq_some h)
    exact (hrec.wf hw).set hrs rfl ((hrec.wf hw).ordered a rs hrs)
  | ingest a snapshot index =>
    obtain ⟨rs, hrs, rfl⟩ := ingest_ok (toOption_eq_some h)
    exact hw.set hrs rfl (ordered_snapshot snapshot)

/-- From records that agree, a step leads to records that agree just if it is compatible. -/
theorem agree_step (ts : Test C n) (x : Action C n) (ts' : Test C n)
    (hw : Wf ts) (hagree : Agree ts) (h : ts.step x = some ts') : Agree ts' ↔ x.Compatible ts := by
  cases x with
  | newRfsrv i snapshot =>
    simp only [Test.step, Option.ite_none_right_eq_some, Option.map_eq_some_iff] at h
    obtain ⟨-, rs, -, rfl⟩ := h
    refine iff_of_true ?_ trivial
    -- a new `rfsrv` is not in place yet
    have hset : Agree (ts.set ts.made rs) := hagree.set fun j _ _ hj => by
      obtain ⟨r, hr, -⟩ := hw.place j _ hj
      exact absurd (hw.made _ r hr) (Nat.lt_irrefl _)
    exact hset
  | mksrv i =>
    simp only [Test.step, Option.map_eq_some_iff] at h
    obtain ⟨a, ha, rfl⟩ := h
    obtain ⟨rs, hrs, -⟩ := hw.starting i a ha
    exact agree_mksrv ha hrs hagree
  | applier a m =>
    obtain ⟨i, hrec⟩ := applier_ok (toOption_eq_some h)
    exact iff_of_true (hrec.agree hagree) trivial
  | applierSnap a m =>
    obtain ⟨i, ts₁, rs, hrec, hrs, rfl⟩ := applierSnap_ok (toOption_eq_some h)
    exact iff_of_true ((hrec.agree hagree).setApplied hrs _) trivial
  | ingest a snapshot index =>
    obtain ⟨rs, -, rfl⟩ := ingest_ok (toOption_eq_some h)
    exact agree_ingest hw rfl hagree

/-- CORRECT: along a run without an error, the records in place are always in order, and they always
    agree with each other exactly if every snapshot that replaces the record of a server in place,
    and every new record when it is put in place, agrees with the records of the other servers. -/
theorem checker_agreement_iff (acts : List (Action C n)) :
    (∀ xs ys ts, acts = xs ++ ys → run Test.step (makeTest C n) xs = some ts →
      (∀ i j rs rs' k v w, ts.current i = some rs → ts.current j = some rs' →
        rs.logs k = some v → rs'.logs k = some w → v = w) ∧
      ∀ i rs k, ts.current i = some rs → 1 < k → (rs.logs k).isSome = true →
        (rs.logs (k - 1)).isSome = true) ↔
    ∀ xs x ys ts ts', acts = xs ++ x :: ys → run Test.step (makeTest C n) xs = some ts →
      ts.step x = some ts' → x.Compatible ts := by
  rw [← Machine.run_always_iff wf_makeTest agree_makeTest wf_step agree_step acts]
  refine forall_congr' fun xs => forall_congr' fun ys => forall_congr' fun ts =>
    forall_congr' fun _ =>
    forall_congr' fun hrun => ?_
  -- the order of the records needs no condition
  constructor
  · rintro ⟨hagree, -⟩ i j rs rs' hi hj k v w
    exact hagree i j rs rs' k v w hi hj
  · intro hagree
    refine ⟨fun i j rs rs' k v w hi hj => hagree i j rs rs' hi hj k v w, fun i rs k hi => ?_⟩
    obtain ⟨a, -, hrs⟩ := Option.bind_eq_some_iff.mp hi
    exact (Machine.run_invariant wf_step wf_makeTest hrun).ordered a rs hrs k

end invariants

/-- Two servers are started, the first applies 7 at index 1, and the second ingests a snapshot with
    8 there. -/
def divergingRun : List (Action ℕ 2) :=
  [.newRfsrv 0 none, .mksrv 0, .newRfsrv 1 none, .mksrv 1, .applierSnap 0 ⟨1, 7⟩,
    .ingest 1 ⟨1, [0, 8]⟩ 1]

theorem checker_misses_snapshot : ∃ ts, run Test.step (makeTest ℕ 2) divergingRun = some ts ∧
    ∃ rs rs', ts.current 0 = some rs ∧ ts.current 1 = some rs' ∧ rs.logs 1 = some 7 ∧
      rs'.logs 1 = some 8 := by
  have hrun : (run Test.step (makeTest ℕ 2) divergingRun).map
      (fun ts => ((ts.current 0).map fun rs => rs.logs 1, (ts.current 1).map fun rs => rs.logs 1)) =
      some (some (some 7), some (some 8)) := by decide +kernel
  obtain ⟨ts, hts, hlogs⟩ := Option.map_eq_some_iff.mp hrun
  obtain ⟨h0, h1⟩ := Prod.mk.inj hlogs
  obtain ⟨rs, hrs, hrs7⟩ := Option.map_eq_some_iff.mp h0
  obtain ⟨rs', hrs', hrs8⟩ := Option.map_eq_some_iff.mp h1
  exact ⟨ts, hts, rs, rs', hrs, hrs', hrs7, hrs8⟩

end DistSys.Raft.Checker
