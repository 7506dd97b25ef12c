import DistSys.Mr.Coordinator

/-! @go mr/coordinator.go | name:AssignTask, NotifyComplete | scheme:machine | invariant:counters,
    flags

    Counters, statuses and flags tell one story. Each phase (map, reduce) keeps a task list, a count
    of finished tasks and a flag; the invariant of a phase says that the count is the number of
    tasks in `Success`, that the flag is up exactly when all of them are, and that the inputs are
    those `MakeCoordinator` wrote. Assigning and completing keep it, in any order and any number of
    times. -/

namespace DistSys.Mr

variable {ι : Type}

/-- Number of tasks that have succeeded. -/
def successes (tasks : List (Task ι)) : ℕ := tasks.countP fun t => t.status = .success

/-- Invariant of one phase. -/
structure Phase (inputs : List ι) (tasks : List (Task ι)) (doneNum : ℕ) (flag : Bool) : Prop where
  inputs : tasks.map (·.input) = inputs
  num : doneNum = successes tasks
  flag : flag = true ↔ ∀ t ∈ tasks, t.status = .success
  status : ∀ t ∈ tasks, t.status = .todo ∨ t.status = .assigned ∨ t.status = .success

/-- What the later state of a task list keeps of the earlier one. -/
def LaterTasks (ts ts' : List (Task ι)) : Prop :=
  ts'.length = ts.length ∧ ∀ (i : ℕ) (t t' : Task ι), ts[i]? = some t → ts'[i]? = some t' →
    t'.input = t.input ∧ (t.status = .success → t'.status = .success)

/-! ### Changing one task -/

theorem getElem?_modify_cases {f : Task ι → Task ι} {ts : List (Task ι)} {i j : ℕ} {t' : Task ι}
    (h : (ts.modify i f)[j]? = some t') :
    i ≠ j ∧ ts[j]? = some t' ∨ i = j ∧ ∃ t, ts[j]? = some t ∧ t' = f t := by
  by_cases hij : i = j
  · subst hij
    rw [List.getElem?_modify_eq] at h
    cases ht : ts[i]? with
    | none => simp [ht] at h
    | some t => exact Or.inr ⟨rfl, t, rfl, by simpa [ht] using h.symm⟩
  · rw [List.getElem?_modify_ne _ _ hij] at h
    exact Or.inl ⟨hij, h⟩

theorem mem_modify {f : Task ι → Task ι} {ts : List (Task ι)} {i : ℕ} {t' : Task ι}
    (h : t' ∈ ts.modify i f) : t' ∈ ts ∨ ∃ t, ts[i]? = some t ∧ t' = f t := by
  obtain ⟨j, hj⟩ := List.mem_iff_getElem?.mp h
  rcases getElem?_modify_cases hj with ⟨_, hj⟩ | ⟨rfl, ht⟩
  · exact Or.inl (List.mem_of_getElem? hj)
  · exact Or.inr ht

theorem map_input_modify {f : Task ι → Task ι} (hf : ∀ t, (f t).input = t.input)
    (ts : List (Task ι)) (i : ℕ) : (ts.modify i f).map (·.input) = ts.map (·.input) := by
  refine List.ext_getElem? fun j => ?_
  simp only [List.getElem?_map, List.getElem?_modify]
  by_cases hij : i = j <;> cases ts[j]? <;> simp [hij, hf]

theorem laterTasks_refl (ts : List (Task ι)) : LaterTasks ts ts :=
  ⟨rfl, fun i t t' h h' => by rw [h] at h'; cases h'; exact ⟨rfl, id⟩⟩

theorem laterTasks_trans {ts ts' ts'' : List (Task ι)} (h : LaterTasks ts ts')
    (h' : LaterTasks ts' ts'') : LaterTasks ts ts'' := by
  refine ⟨h'.1.trans h.1, fun i t t'' ht ht'' => ?_⟩
  have hi : i < ts'.length := by rw [← h'.1]; exact (List.getElem?_eq_some_iff.mp ht'').1
  obtain ⟨hin, hs⟩ := h.2 i t _ ht (List.getElem?_eq_getElem hi)
  obtain ⟨hin', hs'⟩ := h'.2 i _ t'' (List.getElem?_eq_getElem hi) ht''
  exact ⟨hin'.trans hin, fun hsucc => hs' (hs hsucc)⟩

theorem laterTasks_modify {f : Task ι → Task ι} {ts : List (Task ι)} {i : ℕ}
    (hf : ∀ t, ts[i]? = some t → (f t).input = t.input ∧
      (t.status = .success → (f t).status = .success)) :
    LaterTasks ts (ts.modify i f) := by
  refine ⟨by simp, fun j t t' ht ht' => ?_⟩
  rcases getElem?_modify_cases ht' with ⟨_, hj⟩ | ⟨rfl, u, hu, rfl⟩
  · rw [ht] at hj; cases hj
    exact ⟨rfl, id⟩
  · rw [ht] at hu; cases hu
    exact hf t ht

/-! ### Assigning -/

section assign
variable {inputs : List ι} {ts : List (Task ι)} {n i : ℕ} {flag : Bool} {t : Task ι}

theorem successes_modify_of_ne {f : Task ι → Task ι} (ht : ts[i]? = some t)
    (hs : t.status ≠ .success) (hf : (f t).status ≠ .success) :
    successes (ts.modify i f) = successes ts := by
  induction ts generalizing i with
  | nil => simp at ht
  | cons u us ih =>
    cases i with
    | zero =>
      simp only [List.getElem?_cons_zero, Option.some.injEq] at ht
      subst ht
      simp [successes, hs, hf]
    | succ i =>
      have := ih (i := i) (by simpa using ht)
      simp only [successes, List.modify_succ_cons, List.countP_cons] at this ⊢
      rw [this]

/-- Assigning a task that has not succeeded keeps the phase's invariant. -/
theorem phase_assign (now : Time) (hp : Phase inputs ts n flag) (ht : ts[i]? = some t)
    (hs : t.status ≠ .success) : Phase inputs (ts.modify i (·.assign now)) n flag := by
  have hne : (t.assign now).status ≠ .success := by simp [Task.assign]
  refine ⟨?_, ?_, ?_, ?_⟩
  · rw [map_input_modify (f := (·.assign now)) (fun _ => rfl)]; exact hp.inputs
  · rw [successes_modify_of_ne ht hs hne]; exact hp.num
  · -- the flag is down on both sides: the task itself has not succeeded
    rw [hp.flag]
    constructor
    · intro hall; exact absurd (hall t (List.mem_of_getElem? ht)) hs
    · intro hall
      refine absurd (hall (t.assign now) (List.mem_iff_getElem?.mpr ⟨i, ?_⟩)) hne
      simp [ht]
  · intro t' ht'
    rcases mem_modify ht' with hmem | ⟨u, _, rfl⟩
    · exact hp.status t' hmem
    · exact Or.inr (Or.inl rfl)

theorem laterTasks_assign (now : Time) (ht : ts[i]? = some t) (hs : t.status ≠ .success) :
    LaterTasks ts (ts.modify i (·.assign now)) := by
  refine laterTasks_modify fun u hu => ⟨rfl, fun hsu => ?_⟩
  rw [ht] at hu; cases hu
  exact absurd hsu hs

end assign

/-! ### Completing -/

section complete
variable {inputs : List ι} {ts : List (Task ι)} {n i : ℕ} {flag : Bool}

theorem modify_finish_of_success {ts : List (Task ι)} {i : ℕ}
    (h : ts[i]?.map (·.status) = some .success) : ts.modify i (·.finish) = ts := by
  induction ts generalizing i with
  | nil => simp
  | cons t ts ih =>
    cases i with
    | zero =>
      simp only [List.getElem?_cons_zero, Option.map_some, Option.some.injEq] at h
      cases t
      cases h
      rfl
    | succ i => rw [List.modify_succ_cons, ih (by simpa using h)]

/-- Either way the task ends in `Success` and nothing else changes. -/
theorem complete_tasks (ts : List (Task ι)) (n i : ℕ) :
    (complete ts n i).1 = ts.modify i (·.finish) := by
  rw [complete]
  split
  · rfl
  · rename_i h; exact (modify_finish_of_success (not_not.mp h)).symm

theorem successes_finish {ts : List (Task ι)} {i : ℕ} (hi : i < ts.length)
    (hs : ts[i]?.map (·.status) ≠ some .success) :
    successes (ts.modify i (·.finish)) = successes ts + 1 := by
  induction ts generalizing i with
  | nil => simp at hi
  | cons t ts ih =>
    cases i with
    | zero =>
      simp only [List.getElem?_cons_zero, Option.map_some, ne_eq, Option.some.injEq] at hs
      simp [successes, Task.finish, hs]
    | succ i =>
      have hrest : successes (ts.modify i (·.finish)) = successes ts + 1 :=
        ih (by simpa using hi) (by simpa using hs)
      simp only [successes, List.modify_succ_cons, List.countP_cons] at hrest ⊢
      omega

/-- The count moves with the number of successes: a second completion is not counted. -/
theorem complete_num (hi : i < ts.length) (hn : n = successes ts) :
    (complete ts n i).2 = successes (complete ts n i).1 := by
  rw [complete]
  split
  · rename_i h; simp only; rw [successes_finish hi h, hn]
  · exact hn

/-- Completing a task keeps the phase's invariant, the flag included. -/
theorem phase_complete (hp : Phase inputs ts n flag) (hi : i < ts.length) :
    Phase inputs (complete ts n i).1 (complete ts n i).2
      (if (complete ts n i).2 = ts.length then true else flag) := by
  have hnum := complete_num hi hp.num
  have hlen : (complete ts n i).1.length = ts.length := by rw [complete_tasks]; simp
  have hiff : (complete ts n i).2 = ts.length ↔ ∀ t ∈ (complete ts n i).1, t.status = .success := by
    rw [hnum, ← hlen, successes, List.countP_eq_length]; simp
  refine ⟨?_, hnum, ?_, ?_⟩
  · rw [complete_tasks, map_input_modify (f := (·.finish)) (fun _ => rfl)]; exact hp.inputs
  · split
    · rename_i h; simpa using hiff.mp h
    · rename_i h
      constructor
      · intro hflag
        -- all had succeeded before, so they still do
        refine fun t ht => ?_
        rw [complete_tasks] at ht
        rcases mem_modify ht with hmem | ⟨u, _, rfl⟩
        · exact hp.flag.mp hflag t hmem
        · rfl
      · intro hall; exact absurd (hiff.mpr hall) h
  · intro t ht
    rw [complete_tasks] at ht
    rcases mem_modify ht with hmem | ⟨u, _, rfl⟩
    · exact hp.status t hmem
    · exact Or.inr (Or.inr rfl)

theorem laterTasks_complete (ts : List (Task ι)) (n i : ℕ) : LaterTasks ts (complete ts n i).1 := by
  rw [complete_tasks]; exact laterTasks_modify fun t _ => ⟨rfl, fun _ => rfl⟩

end complete

/-! ### The coordinator -/

/-- Invariant of the coordinator of a job. -/
structure Bookkept (files : List GoString) (nReduce : ℕ) (c : Coordinator) : Prop where
  size : c.nReduce = nReduce
  maps : Phase files c.mapTasks c.mapTaskDoneNum c.mapTasksDone
  reduces : Phase ((List.range nReduce).map (reduceFiles files.length)) c.reduceTasks
    c.reduceTaskDoneNum c.reduceTasksDone
  allDone : c.allDone = c.reduceTasksDone

/-- What a later state of the coordinator keeps: successes stay, flags stay up, inputs stay. -/
structure Later (c c' : Coordinator) : Prop where
  maps : LaterTasks c.mapTasks c'.mapTasks
  reduces : LaterTasks c.reduceTasks c'.reduceTasks
  mapTasksDone : c.mapTasksDone = true → c'.mapTasksDone = true
  reduceTasksDone : c.reduceTasksDone = true → c'.reduceTasksDone = true
  allDone : c.allDone = true → c'.allDone = true

theorem later_refl (c : Coordinator) : Later c c :=
  ⟨laterTasks_refl _, laterTasks_refl _, id, id, id⟩

theorem later_trans (c c' c'' : Coordinator) (h : Later c c') (h' : Later c' c'') : Later c c'' :=
  ⟨laterTasks_trans h.maps h'.maps, laterTasks_trans h.reduces h'.reduces,
    fun hc => h'.mapTasksDone (h.mapTasksDone hc),
      fun hc => h'.reduceTasksDone (h.reduceTasksDone hc),
    fun hc => h'.allDone (h.allDone hc)⟩

section coordinator
variable {files : List GoString} {nReduce : ℕ} {c c' : Coordinator}

theorem Bookkept.mapLength (h : Bookkept files nReduce c) : c.mapTasks.length = files.length := by
  rw [← h.maps.inputs, List.length_map]

theorem Bookkept.reduceLength (h : Bookkept files nReduce c) : c.reduceTasks.length = nReduce := by
  have := congrArg List.length h.reduces.inputs
  simpa using this

/-- A fresh phase with at least one task is all `Todo`, so nothing is counted and the flag is
    down. -/
theorem phase_todo {inputs : List ι} {ts : List (Task ι)} (hin : ts.map (·.input) = inputs)
    (hne : inputs ≠ []) (htodo : ∀ t ∈ ts, t.status = .todo) : Phase inputs ts 0 false := by
  refine ⟨hin, ?_, ?_, fun t ht => Or.inl (htodo t ht)⟩
  · rw [successes, eq_comm, List.countP_eq_zero]
    intro t ht; simp [htodo t ht]
  · obtain ⟨t, ht⟩ := List.exists_mem_of_ne_nil ts (by rintro rfl; exact hne hin.symm)
    simp only [Bool.false_eq_true, false_iff]
    intro hall
    exact absurd ((htodo t ht).symm.trans (hall t ht)) (by decide)

theorem bookkept_make (hf : files ≠ []) (hn : 1 ≤ nReduce) :
    Bookkept files nReduce (makeCoordinator files nReduce) := by
  refine ⟨rfl, phase_todo ?_ hf ?_, phase_todo ?_ ?_ ?_, rfl⟩
  · refine List.ext_getElem? fun i => ?_
    simp only [makeCoordinator, List.getElem?_map, List.getElem?_mapIdx]
    cases files[i]? <;> rfl
  · intro t ht
    simp only [makeCoordinator, List.mem_mapIdx] at ht
    obtain ⟨i, hi, rfl⟩ := ht; rfl
  · simp [makeCoordinator, Function.comp_def]
  · simp only [ne_eq, List.map_eq_nil_iff, List.range_eq_nil]; omega
  · intro t ht
    simp only [makeCoordinator, List.mem_map] at ht
    obtain ⟨i, _, rfl⟩ := ht; rfl

/-- `AssignTask`. -/
theorem bookkept_assignTask (ck : Clock) (hb : Bookkept files nReduce c) :
    Bookkept files nReduce (assignTask ck c).1 ∧ Later c (assignTask ck c).1 := by
  rcases assignTask_cases ck c with
    ⟨i, t, _, ht, hdue, he⟩ | ⟨_, _, he⟩ | ⟨i, t, _, _, ht, hdue, he⟩ |
    ⟨_, _, _, he⟩ | ⟨_, _, _, he⟩ | ⟨_, _, _, he⟩ <;> rw [he]
  · have hs := Task.due_status hdue
    exact ⟨⟨hb.size, phase_assign ck.now hb.maps ht hs, hb.reduces, hb.allDone⟩,
      laterTasks_assign ck.now ht hs, laterTasks_refl _, id, id, id⟩
  · exact ⟨hb, later_refl c⟩
  · have hs := Task.due_status hdue
    exact ⟨⟨hb.size, hb.maps, phase_assign ck.now hb.reduces ht hs, hb.allDone⟩,
      laterTasks_refl _, laterTasks_assign ck.now ht hs, id, id, id⟩
  · exact ⟨hb, later_refl c⟩
  · exact ⟨hb, later_refl c⟩
  · exact ⟨hb, later_refl c⟩

theorem bookkept_finishMap {i : ℕ} (hb : Bookkept files nReduce c) (hi : i < c.mapTasks.length) :
    Bookkept files nReduce (finishMap c i) ∧ Later c (finishMap c i) := by
  have hlen : (complete c.mapTasks c.mapTaskDoneNum i).1.length = c.mapTasks.length := by
    rw [complete_tasks]; simp
  have hp := phase_complete hb.maps hi
  rw [← hlen] at hp
  refine ⟨⟨hb.size, hp, hb.reduces, hb.allDone⟩, laterTasks_complete _ _ _,
    laterTasks_refl _, ?_, id, id⟩
  intro hd; simp [finishMap, hd]

theorem bookkept_finishReduce {i : ℕ} (hb : Bookkept files nReduce c)
    (hi : i < c.reduceTasks.length) : Bookkept files nReduce (finishReduce c i) ∧
      Later c (finishReduce c i) := by
  have hp := phase_complete hb.reduces hi
  rw [hb.reduceLength, ← hb.size] at hp
  refine ⟨⟨hb.size, hb.maps, hb.size ▸ hp, ?_⟩, laterTasks_refl _,
    laterTasks_complete _ _ _, id, ?_, ?_⟩
  · simp only [finishReduce, hb.allDone]
  · intro hd; simp [finishReduce, hd]
  · intro hd; simp [finishReduce, hd]

/-- `NotifyComplete`. -/
theorem bookkept_notifyComplete {args : WorkerArgs} (hb : Bookkept files nReduce c)
    (h : notifyComplete args c = .ok c') : Bookkept files nReduce c' ∧ Later c c' := by
  rcases notifyComplete_cases h with ⟨i, _, _, hi, rfl⟩ | ⟨i, _, _, hi, rfl⟩ | ⟨_, _, rfl⟩
  · exact bookkept_finishMap hb hi
  · exact bookkept_finishReduce hb hi
  · exact ⟨hb, later_refl _⟩

end coordinator

/-! ### Runs -/

/-- A call of one of the two handlers. -/
inductive Op where
  | assign (ck : Clock)
  | notify (args : WorkerArgs)

/-- The index reported is one of the phase's tasks, assigned or not. -/
def Op.InRange (fileN nReduce : ℕ) : Op → Prop
  | .assign _ => True
  | .notify ⟨_, workID, .mapTask⟩ => 0 ≤ workID ∧ workID < fileN
  | .notify ⟨_, workID, .reduceTask⟩ => 0 ≤ workID ∧ workID < nReduce
  | .notify _ => True

/-- One call; a fatal one ends the process. -/
def coordStep (c : Coordinator) : Op → Option Coordinator
  | .assign ck => some (assignTask ck c).1
  | .notify args => (notifyComplete args c).toOption

theorem bookkept_step {files : List GoString} {nReduce : ℕ} (c : Coordinator)
    (op : Op) (c' : Coordinator) (hb : Bookkept files nReduce c) (h : coordStep c op = some c') :
    Bookkept files nReduce c' ∧ Later c c' := by
  cases op with
  | assign ck => cases h; exact bookkept_assignTask ck hb
  | notify args =>
    cases hn : notifyComplete args c with
    | error msg => simp [coordStep, hn, Except.toOption] at h
    | ok d => simp only [coordStep, hn, Except.toOption, Option.some.injEq] at h
              subst h
              exact bookkept_notifyComplete hb hn

/-- A call in range never ends the process. -/
theorem coordStep_inRange {files : List GoString} {nReduce : ℕ} (c : Coordinator) (op : Op)
    (hb : Bookkept files nReduce c) (hr : op.InRange files.length nReduce) :
    ∃ c', coordStep c op = some c' ∧ Bookkept files nReduce c' := by
  have hok : ∃ c', coordStep c op = some c' := by
    cases op with
    | assign ck => exact ⟨_, rfl⟩
    | notify args =>
      obtain ⟨st, id, ty⟩ := args
      cases ty with
      | mapTask =>
        obtain ⟨i, rfl⟩ := Int.eq_ofNat_of_zero_le hr.1
        have hi : i < c.mapTasks.length := by have := hr.2; rw [hb.mapLength]; omega
        exact ⟨_, by rw [coordStep, notifyComplete_map hi]; rfl⟩
      | reduceTask =>
        obtain ⟨i, rfl⟩ := Int.eq_ofNat_of_zero_le hr.1
        have hi : i < c.reduceTasks.length := by have := hr.2; rw [hb.reduceLength]; omega
        exact ⟨_, by rw [coordStep, notifyComplete_reduce hi]; rfl⟩
      | exit => exact ⟨_, rfl⟩
      | wait => exact ⟨_, rfl⟩
      | other n => exact ⟨_, rfl⟩
  obtain ⟨c', hc'⟩ := hok
  exact ⟨c', hc', (bookkept_step c op c' hb hc').1⟩

/-- CORRECT: after any calls with indices in range, each counter is the number of successes of its
    phase, each flag is up exactly when its phase is finished, the inputs are those of
    `MakeCoordinator`; and whatever calls follow, successes stay and flags stay up. -/
theorem coordinator_bookkeeping (files : List GoString) (nReduce : ℕ)
    (hf : files ≠ []) (hn : 1 ≤ nReduce) (ops ops' : List Op)
    (hops : ∀ op ∈ ops ++ ops', op.InRange files.length nReduce) :
    ∃ c c', Machine.run coordStep (makeCoordinator files nReduce) ops = some c ∧
      Machine.run coordStep c ops' = some c' ∧
      c.mapTaskDoneNum = successes c.mapTasks ∧ c.reduceTaskDoneNum = successes c.reduceTasks ∧
      (c.mapTasksDone = true ↔ ∀ t ∈ c.mapTasks, t.status = .success) ∧
      c.reduceTasksDone = c.allDone ∧
        (c.allDone = true ↔ ∀ t ∈ c.reduceTasks, t.status = .success) ∧
      c.mapTasks.map (·.input) = files ∧
      c.reduceTasks.map (·.input) = (List.range nReduce).map (reduceFiles files.length) ∧
      Later c c' := by
  obtain ⟨c, hrun, hb⟩ := Machine.run_total coordStep_inRange (bookkept_make hf hn)
    (fun op hop => hops op (List.mem_append_left _ hop))
  obtain ⟨c', hrun', _⟩ := Machine.run_total coordStep_inRange hb
    (fun op hop => hops op (List.mem_append_right _ hop))
  refine ⟨c, c', hrun, hrun', hb.maps.num, hb.reduces.num, hb.maps.flag, hb.allDone.symm, ?_,
    hb.maps.inputs, hb.reduces.inputs, ?_⟩
  · rw [hb.allDone]; exact hb.reduces.flag
  · exact Machine.run_relation bookkept_step later_refl later_trans hb hrun'

/-- A reduce task reported before anything was assigned, then the map task, twice. -/
theorem coordinator_bookkeeping_stale : ∃ c c',
    Machine.run coordStep (makeCoordinator [GoString.lit "pg.txt"] 1)
      [.notify ⟨.success, 0, .reduceTask⟩] = some c ∧
    Machine.run coordStep c [.notify ⟨.success, 0, .mapTask⟩, .assign ⟨fun _ => 5, 5⟩,
      .notify ⟨.success, 0, .mapTask⟩] = some c' ∧
    c.reduceTasksDone = c.allDone ∧ Later c c' := by
  obtain ⟨c, c', h, h', _, _, _, hall, _, _, _, hl⟩ :=
    coordinator_bookkeeping [GoString.lit "pg.txt"] 1
    (by simp) (by simp) [.notify ⟨.success, 0, .reduceTask⟩]
    [.notify ⟨.success, 0, .mapTask⟩, .assign ⟨fun _ => 5, 5⟩, .notify ⟨.success, 0, .mapTask⟩]
    (by simp [Op.InRange])
  exact ⟨c, c', h, h', hall, hl⟩

end DistSys.Mr
