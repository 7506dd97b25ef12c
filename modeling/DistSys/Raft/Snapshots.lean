import DistSys.Raft.Checker

/-! @go raft1/server.go, raft1/test.go | name:applierSnap, Kill, newRfsrv, checkLogs |
    scheme:machine | invariant:run

    The tester with the snapshots that `applierSnap` makes of its own record, after every tenth
    index. They come back from Raft: on the channel, or from the persister when a server starts.

        Raft ──command k──▶ record in place ──▶ (k + 1) % 10 = 0: snapshot 0 … k ──▶ Raft
         ▲                                                                            │
         └─────────────────────── newRfsrv, ingestSnap ◀──────────────────────────────┘

    Seen from a Raft that is right: one log is committed, every instance is sent its commands in
    order, and only snapshots that the tester has made come back. Such a Raft is never accused,
    under two provisos. Commands are sent to instances in place: one that has been replaced, or is
    not in place yet, writes into the record of another, and is accused just if it is ahead of that
    one. And no instance is killed between a tenth command and its snapshot, which `applierSnap`
    then asks of nil. -/

namespace DistSys.Raft.Checker
open Machine (run)

def snapShotInterval : ℤ := 10

/-- The tester, and of each `rfsrv` whether it still has its `raft`, the index of the snapshot that
    it is about to make, and the last index that Raft has sent to it. `created` are the snapshots
    handed to Raft. -/
structure Sys (C : Type) (n : ℕ) where
  test : Test C n
  raft : ℕ → Bool
  pending : ℕ → Option ℤ
  sent : ℕ → ℤ
  created : List (Snapshot C)

inductive SysAction (C : Type) (n : ℕ) where
  | test (x : Action C n)
  /-- `Kill`: `rs.raft = nil` -/
  | kill (a : ℕ)
  /-- `rs.raft.Snapshot` -/
  | snapshot (a : ℕ)

section definitions
variable {C : Type} {n : ℕ}

/-- What `applierSnap` encodes; `nil` stands for what is not in the record. -/
def Rfsrv.snapshot (nil : C) (rs : Rfsrv C n) (index : ℤ) : Snapshot C :=
  ⟨index, (List.range (index + 1).toNat).map fun j : ℕ => (rs.logs j).getD nil⟩

namespace Sys

/-- What a step of the tester changes besides. -/
def act (s : Sys C n) (x : Action C n) (ts : Test C n) : Option (Sys C n) :=
  match x with
  | .newRfsrv _ snapshot =>
    let index := (snapshot.map (·.lastIncludedIndex)).getD 0
    some { s with
      test := ts, raft := Function.update s.raft s.test.made true
      sent := Function.update s.sent s.test.made index }
  | .mksrv _ => some { s with test := ts }
  | .applier a m => some { s with test := ts, sent := Function.update s.sent a m.commandIndex }
  | .applierSnap a m =>
    if s.pending a = none then
      some { s with
        test := ts, sent := Function.update s.sent a m.commandIndex
        pending := if (m.commandIndex + 1) % snapShotInterval = 0 then
            Function.update s.pending a (some m.commandIndex) else s.pending }
    else none
  | .ingest a snapshot _ =>
    if s.pending a = none then
      some { s with test := ts, sent := Function.update s.sent a snapshot.lastIncludedIndex }
    else none

/-- `none` if the process ends. -/
def step [DecidableEq C] [ToString C] (nil : C) (s : Sys C n) : SysAction C n → Option (Sys C n)
  | .test x => (s.test.step x).bind (s.act x)
  | .kill a => some { s with raft := Function.update s.raft a false }
  | .snapshot a =>
    match s.pending a, s.test.rfsrvs a with
    | some index, some rs =>
      if s.raft a then
        some { s with
          created := s.created ++ [rs.snapshot nil index]
          pending := Function.update s.pending a none }
      else none
    | _, _ => none

end Sys

def Sys.start (C : Type) (n : ℕ) : Sys C n :=
  ⟨makeTest C n, fun _ => false, fun _ => none, fun _ => 0, []⟩

/-! ### A Raft that is right -/

/-- The next command of the log goes to instance `a`. -/
structure Sys.Sends (log : ℤ → C) (s : Sys C n) (a : ℕ) (m : ApplyMsg C) : Prop where
  idle : s.pending a = none
  index : m.commandIndex = s.sent a + 1
  command : m.command = log m.commandIndex
  complete : ∀ j, ∃ b, s.test.srvs j = some b

def Sys.InPlace (s : Sys C n) (a : ℕ) : Prop :=
  ∃ rs, s.test.rfsrvs a = some rs ∧ s.test.srvs rs.me = some a

/-- What a right Raft and the tester do; `snapshot` is the flag of the test. Commands are sent to
    instances in place, when all servers have been started, and a snapshot is made by an instance
    that has not been killed. -/
def Sys.Proper (snapshot : Bool) (log : ℤ → C) (s : Sys C n) : SysAction C n → Prop
  | .test (.newRfsrv i S) =>
    s.test.starting i = none ∧ ∀ snap, S = some snap → snapshot = true ∧ snap ∈ s.created
  | .test (.mksrv i) => ∃ a, s.test.starting i = some a
  | .test (.applier a m) => snapshot = false ∧ s.Sends log a m ∧ s.InPlace a
  | .test (.applierSnap a m) => snapshot = true ∧ s.Sends log a m ∧ s.InPlace a
  | .test (.ingest a snap index) => snapshot = true ∧ s.pending a = none ∧
      (∃ rs, s.test.rfsrvs a = some rs) ∧ snap ∈ s.created ∧ index = snap.lastIncludedIndex
  | .kill _ => True
  | .snapshot a => (∃ k, s.pending a = some k) ∧ s.raft a = true

section decidable
variable [DecidableEq C] (snapshot : Bool) (log : ℤ → C) (s : Sys C n)

instance decidableSends (a : ℕ) (m : ApplyMsg C) : Decidable (s.Sends log a m) :=
  decidable_of_iff
    (s.pending a = none ∧ m.commandIndex = s.sent a + 1 ∧ m.command = log m.commandIndex ∧
      ∀ j, (s.test.srvs j).isSome = true)
    ⟨fun h => ⟨h.1, h.2.1, h.2.2.1, fun j => Option.isSome_iff_exists.mp (h.2.2.2 j)⟩,
      fun h => ⟨h.1, h.2, h.3, fun j => Option.isSome_iff_exists.mpr (h.4 j)⟩⟩

instance decidableInPlace (a : ℕ) : Decidable (s.InPlace a) :=
  decidable_of_iff ((s.test.rfsrvs a).any (fun rs => s.test.srvs rs.me = some a) = true)
    (by simp [Sys.InPlace, Option.any_eq_true])

instance decidableProper : ∀ x, Decidable (s.Proper snapshot log x)
  | .test (.newRfsrv i S) =>
    decidable_of_iff (s.test.starting i = none ∧
        S.all (fun snap => snapshot = true ∧ snap ∈ s.created) = true)
      (by simp [Sys.Proper, Option.all_eq_true])
  | .test (.mksrv i) =>
    decidable_of_iff ((s.test.starting i).isSome = true) Option.isSome_iff_exists
  | .test (.applier a m) =>
    inferInstanceAs (Decidable (snapshot = false ∧ s.Sends log a m ∧ s.InPlace a))
  | .test (.applierSnap a m) =>
    inferInstanceAs (Decidable (snapshot = true ∧ s.Sends log a m ∧ s.InPlace a))
  | .test (.ingest a snap index) =>
    decidable_of_iff (snapshot = true ∧ s.pending a = none ∧ (s.test.rfsrvs a).isSome = true ∧
        snap ∈ s.created ∧ index = snap.lastIncludedIndex)
      (by simp only [Sys.Proper, Option.isSome_iff_exists])
  | .kill _ => isTrue trivial
  | .snapshot a =>
    decidable_of_iff ((s.pending a).isSome = true ∧ s.raft a = true)
      (by simp only [Sys.Proper, Option.isSome_iff_exists])

end decidable

/-- The snapshot of the log up to an index; there is no command at index 0. -/
def committed (nil : C) (log : ℤ → C) (index : ℤ) : Snapshot C :=
  ⟨index, (List.range (index + 1).toNat).map fun j : ℕ => if j = 0 then nil else log j⟩

/-- Record `logs` has the commands of the log up to index `k`, and no others. -/
structure Follows (nil : C) (log : ℤ → C) (k : ℤ) (logs : ℤ → Option C) : Prop where
  nonneg : 0 ≤ k
  upTo : ∀ j, 1 ≤ j → logs j = if j ≤ k then some (log j) else none
  zero : (logs 0).getD nil = nil

end definitions

section records
variable {C : Type} {n : ℕ} {nil : C} {log : ℤ → C} {k : ℤ}

theorem follows_empty : Follows nil log 0 (fun _ => none) where
  nonneg := le_refl 0
  upTo := fun j hj => by rw [if_neg (by omega)]
  zero := rfl

theorem committed_logs {j : ℤ} (hj : 0 ≤ j) :
    (committed nil log k).logs j = if j ≤ k then some (if j = 0 then nil else log j) else none := by
  obtain ⟨j, rfl⟩ := Int.eq_ofNat_of_zero_le hj
  rw [Snapshot.logs, if_pos hj, committed, List.getElem?_map, Int.toNat_natCast]
  by_cases hle : (j : ℤ) ≤ k
  · rw [if_pos hle, List.getElem?_range (by omega), Option.map_some]
    simp only [Int.natCast_eq_zero]
  · rw [if_neg hle, List.getElem?_eq_none (by rw [List.length_range]; omega), Option.map_none]

theorem follows_committed (hk : 0 ≤ k) : Follows nil log k (committed nil log k).logs where
  nonneg := hk
  upTo := by
    intro j hj
    rw [committed_logs (by omega), if_neg (by omega : ¬ j = 0)]
  zero := by
    rw [committed_logs le_rfl, if_pos hk, if_pos rfl, Option.getD_some]

theorem Follows.snapshot {rs : Rfsrv C n} (h : Follows nil log k rs.logs) :
    rs.snapshot nil k = committed nil log k := by
  refine congrArg (Snapshot.mk k) (List.map_congr_left ?_)
  intro j hj
  have hj := List.mem_range.mp hj
  rcases eq_or_ne j 0 with rfl | hne
  · exact h.zero
  · rw [h.upTo j (by omega), if_pos (by omega), Option.getD_some, if_neg hne]

theorem Follows.concat {logs : ℤ → Option C} (h : Follows nil log k logs) :
    Follows nil log (k + 1) (Function.update logs (k + 1) (some (log (k + 1)))) where
  nonneg := by have := h.nonneg; omega
  upTo := by
    intro j hj
    rcases eq_or_ne j (k + 1) with rfl | hne
    · rw [Function.update_self, if_pos le_rfl]
    · rw [Function.update_of_ne hne, h.upTo j hj]
      exact if_congr (by omega) rfl rfl
  zero := by
    have := h.nonneg
    rw [Function.update_of_ne (by omega), h.zero]

/-- The next command fits onto a record just if the record has come as far as the sender. -/
theorem Follows.isSome_iff {logs : ℤ → Option C} (h : Follows nil log k logs) {j : ℤ} (hj : 0 ≤ j) :
    (1 < j + 1 → (logs (j + 1 - 1)).isSome = true) ↔ j ≤ k := by
  have hk := h.nonneg
  rw [add_sub_cancel_right]
  rcases eq_or_lt_of_le hj with rfl | hpos
  · exact iff_of_true (fun h => by omega) hk
  · rw [h.upTo j hpos]
    by_cases hle : j ≤ k
    · simp [hle]
    · simp [hle, hpos]

end records

/-! ### What the tester accepts -/

section accepts
variable {C : Type} {n : ℕ} [DecidableEq C] [ToString C] {ts : Test C n}
  {i : Fin n} {m : ApplyMsg C}

/-- The loop finds nothing if no record in place differs. -/
theorem checkLoop_agreed (js : List (Fin n)) (err : Option String)
    (h : ∀ j ∈ js, ∃ rs, ts.current j = some rs ∧ ∀ old, rs.logs m.commandIndex = some old →
      old = m.command) :
    ts.checkLoop i m js err = .ok err := by
  induction js generalizing err with
  | nil => rfl
  | cons j js ih =>
    obtain ⟨⟨rs, hrs, hold⟩, hjs⟩ := List.forall_mem_cons.mp h
    rw [Test.checkLoop, hrs]
    cases hlogs : rs.logs m.commandIndex with
    | none => simp only [hlogs, ih _ hjs]
    | some old => simp only [hlogs, hold old hlogs, ne_eq, not_true_eq_false, if_false, ih _ hjs]

/-- A command that no record contradicts is recorded just if the record in place has the index
    before. -/
theorem record_iff {b : ℕ} {me : Rfsrv C n}
    (h : ∀ j, ∃ rs, ts.current j = some rs ∧ ∀ old,
      rs.logs m.commandIndex = some old → old = m.command)
    (hb : ts.srvs i = some b) (hme : ts.rfsrvs b = some me) :
    (∃ ts', ts.record i m = .ok ts') ↔
      (1 < m.commandIndex → (me.logs (m.commandIndex - 1)).isSome = true) := by
  have hcur : ts.current i = some me := by rw [Test.current, hb, Option.bind_some, hme]
  simp only [Test.record, Test.checkLogs, checkLoop_agreed _ _ fun j _ => h j, hb, hcur]
  by_cases hout : m.commandIndex > 1 ∧ (me.logs (m.commandIndex - 1)).isSome = false
  · simp [hout]
  · simp only [if_neg hout, Except.ok.injEq, exists_eq', true_iff]
    intro hk
    by_contra hno
    exact hout ⟨hk, by simpa using hno⟩

end accepts

/-! ### Runs of a right Raft -/

section runs
variable {C : Type} {n : ℕ}

/-- Every record holds what has been sent to it, and so does every snapshot. -/
structure Sys.Good (snapshot : Bool) (nil : C) (log : ℤ → C) (s : Sys C n) : Prop where
  wf : Wf s.test
  follows : ∀ a rs, s.test.rfsrvs a = some rs → Follows nil log (s.sent a) rs.logs
  applied : snapshot = true → ∀ a rs, s.test.rfsrvs a = some rs → rs.lastApplied = s.sent a
  created : ∀ snap ∈ s.created, 0 ≤ snap.lastIncludedIndex ∧
    snap = committed nil log snap.lastIncludedIndex
  pending : ∀ a k, s.pending a = some k → s.sent a = k ∧ ∃ rs, s.test.rfsrvs a = some rs

variable {snapshot : Bool} {nil : C} {log : ℤ → C} {s : Sys C n}

theorem good_start : (Sys.start C n).Good snapshot nil log where
  wf := wf_makeTest
  follows := fun _ _ h => by cases h
  applied := fun _ _ _ h => by cases h
  created := fun _ h => by cases h
  pending := fun _ _ h => by cases h

theorem ne_of_pending {a b : ℕ} {k : ℤ} (ha : s.pending a = none) (hb : s.pending b = some k) :
    b ≠ a ∧ s.pending b = some k := by
  refine ⟨?_, hb⟩
  rintro rfl
  rw [ha] at hb
  cases hb

/-- One `rfsrv` is new, or has been sent something. -/
theorem Sys.Good.sent (h : s.Good snapshot nil log) {ts : Test C n} {a : ℕ} {rs : Rfsrv C n} {k : ℤ}
    {raft : ℕ → Bool} {pending : ℕ → Option ℤ} (hwf : Wf ts)
    (hts : ts.rfsrvs = Function.update s.test.rfsrvs a (some rs)) (hrs : Follows nil log k rs.logs)
    (happlied : snapshot = true → rs.lastApplied = k)
    (hpending : ∀ b j, pending b = some j → (b = a ∧ j = k) ∨ b ≠ a ∧ s.pending b = some j) :
    Sys.Good snapshot nil log
      ⟨ts, raft, pending, Function.update s.sent a k, s.created⟩ := by
  constructor
  case wf => exact hwf
  case follows =>
    intro b r hr
    rw [hts] at hr
    obtain ⟨rfl, rfl⟩ | ⟨hne, hr⟩ := update_some hr
    · simpa using hrs
    · simpa [hne] using h.follows b r hr
  case applied =>
    intro hsnap b r hr
    rw [hts] at hr
    obtain ⟨rfl, rfl⟩ | ⟨hne, hr⟩ := update_some hr
    · simpa using happlied hsnap
    · simpa [hne] using h.applied hsnap b r hr
  case created => exact h.created
  case pending =>
    intro b j hj
    rw [hts]
    obtain ⟨rfl, rfl⟩ | ⟨hne, hj⟩ := hpending b j hj
    · simp
    · simpa [hne] using h.pending b j hj

theorem newRfsrv_follows {i : Fin n} {S : Option (Snapshot C)} (h : s.Good snapshot nil log)
    (hS : ∀ snap, S = some snap → snap ∈ s.created) : ∃ rs, newRfsrv i S = .ok rs ∧
      Follows nil log ((S.map (·.lastIncludedIndex)).getD 0) rs.logs ∧
      rs.lastApplied = (S.map (·.lastIncludedIndex)).getD 0 := by
  cases S with
  | none => exact ⟨_, rfl, follows_empty, rfl⟩
  | some snap =>
    obtain ⟨hnonneg, hsnap⟩ := h.created snap (hS snap rfl)
    refine ⟨⟨i, snap.logs, snap.lastIncludedIndex⟩, ?_, ?_, rfl⟩
    · rw [newRfsrv, Rfsrv.ingestSnap, if_neg (fun h => h.1 rfl)]
    · rw [hsnap]
      exact follows_committed hnonneg

/-- A command that is recorded by the instance in place, which it was sent to. -/
theorem Recorded.good {m : ApplyMsg C} {ts : Test C n} {a : ℕ} {rs : Rfsrv C n}
    (h : s.Good snapshot nil log) (hrs : s.test.rfsrvs a = some rs)
    (hplace : s.test.srvs rs.me = some a) (hsend : s.Sends log a m)
    (hrec : Recorded s.test rs.me m ts) :
    ∃ rs', ts.rfsrvs = Function.update s.test.rfsrvs a (some rs') ∧
      rs'.lastApplied = rs.lastApplied ∧ Follows nil log m.commandIndex rs'.logs := by
  obtain ⟨b, me, x, hb, hme, -, rfl⟩ := hrec.written
  obtain rfl := Option.some.inj (hplace.symm.trans hb)
  obtain rfl := Option.some.inj (hrs.symm.trans hme)
  refine ⟨_, rfl, rfl, ?_⟩
  rw [hsend.command, hsend.index]
  exact (h.follows a rs hrs).concat

variable [DecidableEq C] [ToString C]

/-- The command that an instance is sent goes into the record in place, if that is as far. -/
theorem Sys.Good.record_iff (h : s.Good snapshot nil log) {a b : ℕ}
    {rs : Rfsrv C n} {m : ApplyMsg C} (hrs : s.test.rfsrvs a = some rs)
    (hb : s.test.srvs rs.me = some b) (hsend : s.Sends log a m) :
    (∃ ts, s.test.record rs.me m = .ok ts) ↔ s.sent a ≤ s.sent b := by
  obtain ⟨me, hme, -⟩ := h.wf.place _ b hb
  have hindex := hsend.index
  have hnonneg := (h.follows a rs hrs).nonneg
  have hagree : ∀ j, ∃ r, s.test.current j = some r ∧
      ∀ old, r.logs m.commandIndex = some old → old = m.command := by
    intro j
    obtain ⟨c, hc⟩ := hsend.complete j
    obtain ⟨r, hr, -⟩ := h.wf.place j c hc
    refine ⟨r, by rw [Test.current, hc, Option.bind_some, hr], ?_⟩
    intro old hold
    rw [(h.follows c r hr).upTo _ (by omega), Option.ite_none_right_eq_some] at hold
    rw [hsend.command]
    exact (Option.some.inj hold.2).symm
  rw [Checker.record_iff hagree hb hme, hindex]
  exact (h.follows b me hme).isSome_iff hnonneg

theorem applier_eq {ts : Test C n} {a : ℕ} {rs : Rfsrv C n} {m : ApplyMsg C}
    (hrs : ts.rfsrvs a = some rs) : ts.applier a m = ts.record rs.me m := by rw [Test.applier, hrs]

theorem applierSnap_iff {ts : Test C n} {a : ℕ} {rs : Rfsrv C n} {m : ApplyMsg C}
    (hrs : ts.rfsrvs a = some rs) (hindex : m.commandIndex = rs.lastApplied + 1) :
    (∃ ts', ts.applierSnap a m = .ok ts') ↔ ∃ ts', ts.record rs.me m = .ok ts' := by
  simp only [Test.applierSnap, hrs, hindex, ne_eq, not_true_eq_false, if_false]
  cases hrecord : ts.record rs.me m with
  | error msg => simp
  | ok ts₁ =>
    obtain ⟨b, me, x, -, -, -, rfl⟩ := (record_ok hrecord).written
    rcases eq_or_ne a b with rfl | hne
    · simp [Test.set]
    · simp [Test.set, hne, hrs]

/-- The command is recorded for the server of the instance. -/
theorem applierSnap_place {ts ts' : Test C n} {a : ℕ} {rs : Rfsrv C n} {m : ApplyMsg C}
    (hrs : ts.rfsrvs a = some rs) (h : ts.applierSnap a m = .ok ts') :
    ∃ ts₁ r, Recorded ts rs.me m ts₁ ∧ ts₁.rfsrvs a = some r ∧
      ts' = ts₁.set a { r with lastApplied := m.commandIndex } := by
  simp only [Test.applierSnap, hrs] at h
  split at h
  · cases h
  split at h
  · cases h
  rename_i ts₁ hrecord
  split at h
  · cases h
  rename_i r hr
  exact ⟨ts₁, r, record_ok hrecord, hr, (Except.ok.inj h).symm⟩

/-- A command reaches the goroutine of an instance. -/
def command (snapshot : Bool) (a : ℕ) (m : ApplyMsg C) : Action C n :=
  if snapshot then .applierSnap a m else .applier a m

/-- Whatever a right Raft and the tester do is accepted. -/
theorem good_step (s : Sys C n) (x : SysAction C n) (h : s.Good snapshot nil log)
    (hx : s.Proper snapshot log x) : ∃ s', s.step nil x = some s' ∧ s'.Good snapshot nil log := by
  cases x with
  | test x =>
    cases x with
    | newRfsrv i S =>
      obtain ⟨hstarting, hS⟩ := hx
      obtain ⟨rs, hnew, hfollows, happlied⟩ :=
        newRfsrv_follows (i := i) h fun snap hsnap => (hS snap hsnap).2
      have hstep : s.test.step (.newRfsrv i S) = some { s.test.set s.test.made rs with
          made := s.test.made + 1
          starting := Function.update s.test.starting i (some s.test.made) } := by
        rw [Test.step, if_pos hstarting, hnew]
        rfl
      refine ⟨_, by rw [Sys.step, hstep]; rfl, ?_⟩
      refine h.sent (wf_step _ _ _ h.wf hstep) rfl hfollows (fun _ => happlied) ?_
      intro b j hj
      obtain ⟨-, r, hr⟩ := h.pending b j hj
      exact Or.inr ⟨(h.wf.made b r hr).ne, hj⟩
    | mksrv i =>
      obtain ⟨a, ha⟩ := hx
      have hstep : s.test.step (.mksrv i) = some { s.test with
          srvs := Function.update s.test.srvs i (some a)
          starting := Function.update s.test.starting i none } := by
        rw [Test.step, ha]
        rfl
      refine ⟨_, by rw [Sys.step, hstep]; rfl, ?_⟩
      exact ⟨wf_step _ _ _ h.wf hstep, h.follows, h.applied, h.created, h.pending⟩
    | applier a m =>
      obtain ⟨rfl, hsend, rs, hrs, hplace⟩ := hx
      obtain ⟨ts, hrecord⟩ := (h.record_iff hrs hplace hsend).mpr le_rfl
      have hstep : s.test.step (.applier a m) = some ts := by
        rw [Test.step, applier_eq hrs, hrecord]
        rfl
      obtain ⟨rs', hts, -, hfollows⟩ := (record_ok hrecord).good h hrs hplace hsend
      refine ⟨_, by rw [Sys.step, hstep]; rfl, ?_⟩
      refine h.sent (wf_step _ _ _ h.wf hstep) hts hfollows (fun h => by cases h) ?_
      exact fun b j hj => Or.inr (ne_of_pending hsend.idle hj)
    | applierSnap a m =>
      obtain ⟨rfl, hsend, rs, hrs, hplace⟩ := hx
      have hindex : m.commandIndex = rs.lastApplied + 1 := by
        rw [hsend.index, h.applied rfl a rs hrs]
      obtain ⟨ts, happly⟩ :=
        (applierSnap_iff hrs hindex).mpr ((h.record_iff hrs hplace hsend).mpr le_rfl)
      have hstep : s.test.step (.applierSnap a m) = some ts := by
        rw [Test.step, happly]
        rfl
      obtain ⟨ts₁, r, hrec, hr, rfl⟩ := applierSnap_place hrs happly
      obtain ⟨rs', hts, -, hfollows⟩ := hrec.good h hrs hplace hsend
      obtain rfl : rs' = r := by simpa [hts] using hr
      refine ⟨_, by rw [Sys.step, hstep]; exact if_pos hsend.idle, ?_⟩
      refine h.sent (wf_step _ _ _ h.wf hstep) (?_ : _ = Function.update s.test.rfsrvs a
        (some { rs' with lastApplied := m.commandIndex })) hfollows (fun _ => rfl) ?_
      · simp [Test.set, hts]
      · intro b j hj
        split at hj
        · obtain ⟨rfl, rfl⟩ | hother := update_some hj
          · exact Or.inl ⟨rfl, rfl⟩
          · exact Or.inr hother
        · exact Or.inr (ne_of_pending hsend.idle hj)
    | ingest a snap index =>
      obtain ⟨rfl, hidle, ⟨rs, hrs⟩, hmem, rfl⟩ := hx
      obtain ⟨hnonneg, hsnap⟩ := h.created snap hmem
      have hstep : s.test.step (.ingest a snap snap.lastIncludedIndex) = some (s.test.set a
          { rs with logs := snap.logs, lastApplied := snap.lastIncludedIndex }) := by
        rw [Test.step, Test.ingest, hrs]
        simp [Rfsrv.ingestSnap, Except.toOption]
      refine ⟨_, by rw [Sys.step, hstep]; exact if_pos hidle, ?_⟩
      refine h.sent (wf_step _ _ _ h.wf hstep) rfl ?_ (fun _ => rfl) ?_
      · conv_rhs => rw [hsnap]
        exact follows_committed hnonneg
      · exact fun b j hj => Or.inr (ne_of_pending hidle hj)
  | kill a =>
    exact ⟨_, rfl, h.wf, h.follows, h.applied, h.created, h.pending⟩
  | snapshot a =>
    obtain ⟨⟨k, hk⟩, hraft⟩ := hx
    obtain ⟨hsent, rs, hrs⟩ := h.pending a k hk
    refine ⟨{ s with
        created := s.created ++ [rs.snapshot nil k]
        pending := Function.update s.pending a none },
      by simp [Sys.step, hk, hrs, hraft], h.wf, h.follows, h.applied, ?_, ?_⟩
    · intro snap hsnap
      rcases List.mem_append.mp hsnap with hsnap | hsnap
      · exact h.created snap hsnap
      · obtain rfl := List.mem_singleton.mp hsnap
        have hfollows := h.follows a rs hrs
        rw [hsent] at hfollows
        exact ⟨hfollows.nonneg, hfollows.snapshot⟩
    · intro b j hj
      rcases eq_or_ne b a with rfl | hne
      · simp at hj
      · exact h.pending b j (by simpa [hne] using hj)

end runs

/-- The log of the runs below: commands 7, 8, 9 and so on, from index 1. -/
def countingLog (k : ℤ) : ℕ := k.toNat + 6

/-- Two servers. The first applies nine commands, makes its snapshot, is killed, and starts again
    from the snapshot as instance 2, which is sent the tenth command. The second is sent the
    snapshot. -/
def restartRun (i j : Fin 2) : List (SysAction ℕ 2) :=
  [.test (.newRfsrv i none), .test (.mksrv i), .test (.newRfsrv j none), .test (.mksrv j)] ++
  (List.range 9).map (fun k : ℕ => .test (.applierSnap 0 ⟨k + 1, countingLog (k + 1)⟩)) ++
  [.snapshot 0, .kill 0, .test (.newRfsrv i (some (committed 0 countingLog 9))),
    .test (.mksrv i), .test (.applierSnap 2 ⟨10, 16⟩),
    .test (.ingest 1 (committed 0 countingLog 9) 9), .test (.applierSnap 1 ⟨10, 16⟩)]

-- without the provisos: a replaced instance that is ahead, and a kill before the snapshot
example : (run (Sys.step 0) (Sys.start ℕ 1)
    [.test (.newRfsrv (Fin.last 0) none), .test (.mksrv (Fin.last 0)),
      .test (.applierSnap 0 ⟨1, 7⟩), .test (.applierSnap 0 ⟨2, 8⟩), .kill 0,
      .test (.newRfsrv (Fin.last 0) none), .test (.mksrv (Fin.last 0)),
      .test (.applierSnap 0 ⟨3, 9⟩)]).isNone = true := by decide +kernel

example : (run (Sys.step 0) (Sys.start ℕ 1)
    ([.test (.newRfsrv (Fin.last 0) none), .test (.mksrv (Fin.last 0))] ++
      (List.range 9).map (fun k : ℕ => .test (.applierSnap 0 ⟨k + 1, k⟩)) ++
      [.kill 0, .snapshot 0])).isNone = true := by decide +kernel

end DistSys.Raft.Checker
