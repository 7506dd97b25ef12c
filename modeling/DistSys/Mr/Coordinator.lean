import DistSys.Schemes.GoString
import DistSys.Schemes.Machine

/-! @go mr/coordinator.go, mr/rpc.go | name:Coordinator | scheme:machine

    The coordinator of a MapReduce job. Every handler runs under one mutex, so a handler is a
    function on the coordinator's state. A task that has not been reported within ten seconds of its
    assignment is assigned again; reduce tasks wait until every map task has been reported.

        Todo ──AssignTask──▶ Assigned ──NotifyComplete──▶ Success
                              │    ▲                         ▲
                              └────┘ more than 10 s ago      │
        Todo ────────────────────NotifyComplete──────────────┘ (never assigned)

    Time is in nanoseconds. A call of `AssignTask` reads the clock once for each assigned task it
    looks at and once more for the stamp of the task it assigns. -/

namespace DistSys.Mr
open GoString (lit itoa)

abbrev Time := ℤ

def second : Time := 1000000000

/-- `TaskTypeT`; `other` is any further value of the underlying `int`. -/
inductive TaskTypeT where | mapTask | reduceTask | exit | wait | other (n : ℤ)
  deriving DecidableEq

inductive TaskStatus where | success | fail | askANewTask | todo | assigned
  deriving DecidableEq

/-- A task: `input` is the `fileName` of a `mapTask` and the `files` of a `reduceTask`. -/
structure Task (ι : Type) where
  taskID : ℕ
  input : ι
  status : TaskStatus
  timeStamp : Time
  deriving DecidableEq

abbrev MapTask := Task GoString
abbrev ReduceTask := Task (List GoString)

structure Coordinator where
  nReduce : ℕ
  mapTasks : List MapTask
  reduceTasks : List ReduceTask
  inputfiles : List GoString
  mapTasksDone : Bool
  mapTaskDoneNum : ℕ
  reduceTaskDoneNum : ℕ
  reduceTasksDone : Bool
  allDone : Bool
  deriving DecidableEq

structure WorkerArgs where
  taskStatus : TaskStatus
  workID : ℤ
  taskType : TaskTypeT
  deriving DecidableEq

structure CoordinatorReply where
  taskType : TaskTypeT
  inputFiles : List GoString
  nReduce : ℕ
  workId : ℕ
  deriving DecidableEq

/-- What a worker reports for the task of a reply. -/
def CoordinatorReply.report (reply : CoordinatorReply) : WorkerArgs :=
  ⟨.success, reply.workId, reply.taskType⟩

/-- The clock readings of one call: `since i` when task `i` is looked at, `now` for the stamp. -/
structure Clock where
  since : ℕ → Time
  now : Time

variable {ι : Type}

/-- `status == Todo || (status == Assigned && time.Since(timeStamp) > 10*time.Second)`. -/
def Task.due (t : Task ι) (now : Time) : Bool :=
  t.status = .todo || (t.status = .assigned && now - t.timeStamp > 10 * second)

/-- `status = Assigned; timeStamp = time.Now()`. -/
def Task.assign (t : Task ι) (now : Time) : Task ι :=
  { t with status := .assigned, timeStamp := now }

/-- The scan for the first due task, from index `i` on. -/
def findDue (since : ℕ → Time) : ℕ → List (Task ι) → Option ℕ
  | _, [] => none
  | i, t :: ts => if t.due (since i) then some i else findDue since (i + 1) ts

def assignTask (ck : Clock) (c : Coordinator) : Coordinator × CoordinatorReply :=
  if !c.mapTasksDone then
    match findDue ck.since 0 c.mapTasks with
    | some i => ({ c with mapTasks := c.mapTasks.modify i (·.assign ck.now) },
        ⟨.mapTask, (c.mapTasks[i]?.map (·.input)).toList, c.nReduce, i⟩)
    | none => (c, ⟨.wait, [], c.nReduce, 0⟩)
  else if !c.reduceTasksDone then
    match findDue ck.since 0 c.reduceTasks with
    | some i => ({ c with reduceTasks := c.reduceTasks.modify i (·.assign ck.now) },
        ⟨.reduceTask, (c.reduceTasks[i]?.map (·.input)).getD [], c.nReduce, i⟩)
    | none => (c, ⟨.wait, [], c.nReduce, 0⟩)
  else if c.allDone then (c, ⟨.exit, [], c.nReduce, 0⟩)
  else (c, ⟨.wait, [], c.nReduce, 0⟩)

/-- `status = Success`. -/
def Task.finish (t : Task ι) : Task ι := { t with status := .success }

/-- `if status != Success { status = Success; doneNum += 1 }` for the task at index `i`. -/
def complete (tasks : List (Task ι)) (doneNum i : ℕ) : List (Task ι) × ℕ :=
  if (tasks[i]?.map (·.status)) ≠ some .success then (tasks.modify i (·.finish), doneNum + 1)
  else (tasks, doneNum)

/-- The `MapTask` case of `NotifyComplete`, for an index in range. -/
def finishMap (c : Coordinator) (i : ℕ) : Coordinator :=
  let (tasks, doneNum) := complete c.mapTasks c.mapTaskDoneNum i
  { c with
    mapTasks := tasks
    mapTaskDoneNum := doneNum
    mapTasksDone := if doneNum = tasks.length then true else c.mapTasksDone }

/-- The `ReduceTask` case of `NotifyComplete`, for an index in range. -/
def finishReduce (c : Coordinator) (i : ℕ) : Coordinator :=
  let (tasks, doneNum) := complete c.reduceTasks c.reduceTaskDoneNum i
  { c with
    reduceTasks := tasks
    reduceTaskDoneNum := doneNum
    reduceTasksDone := if doneNum = c.nReduce then true else c.reduceTasksDone
    allDone := if doneNum = c.nReduce then true else c.allDone }

/-- `NotifyComplete`: the `error` is the text of the fatal log line, or of the run-time panic. -/
def notifyComplete (args : WorkerArgs) (c : Coordinator) : Except String Coordinator :=
  match args.taskType with
  | .mapTask =>
    if args.workID ≥ c.mapTasks.length then .error "workID >= len(c.mapTasks)"
    else if args.workID < 0 then .error "index out of range"
    else .ok (finishMap c args.workID.toNat)
  | .reduceTask =>
    if args.workID ≥ c.reduceTasks.length then .error "workID >= len(c.reduceTasks)"
    else if args.workID < 0 then .error "index out of range"
    else .ok (finishReduce c args.workID.toNat)
  | _ => .ok c

def Coordinator.done (c : Coordinator) : Bool := c.allDone

/-- `fmt.Sprintf("mr-%d-%d", j, i)`: what map task `j` leaves for reduce task `i`. -/
def intermediateName (j i : ℕ) : GoString := lit "mr-" ++ itoa j ++ lit "-" ++ itoa i

/-- The `files` of reduce task `i`, one for each of the `fileN` map tasks. -/
def reduceFiles (fileN i : ℕ) : List GoString :=
  (List.range fileN).map fun j => intermediateName j i

/-- A task's zero `timeStamp`. -/
def zeroTime : Time := 0

def makeCoordinator (files : List GoString) (nReduce : ℕ) : Coordinator where
  nReduce := nReduce
  mapTasks := files.mapIdx fun i f => ⟨i, f, .todo, zeroTime⟩
  reduceTasks := (List.range nReduce).map fun i => ⟨i, reduceFiles files.length i, .todo, zeroTime⟩
  inputfiles := files
  mapTasksDone := false
  mapTaskDoneNum := 0
  reduceTaskDoneNum := 0
  reduceTasksDone := false
  allDone := false

/-! ### What the scan and the completion do -/

theorem findDue_some {since : ℕ → Time} {ts : List (Task ι)} {k i : ℕ}
    (h : findDue since k ts = some i) : ∃ t, k ≤ i ∧ ts[i - k]? = some t ∧
      t.due (since i) = true := by
  induction ts generalizing k with
  | nil => simp [findDue] at h
  | cons t ts ih =>
    simp only [findDue] at h
    split at h
    · rename_i hdue
      cases Option.some.inj h
      exact ⟨t, le_refl _, by simp, hdue⟩
    · obtain ⟨t', hk, ht', hdue⟩ := ih h
      refine ⟨t', by omega, ?_, hdue⟩
      rw [show i - k = (i - (k + 1)) + 1 by omega, List.getElem?_cons_succ]
      exact ht'

theorem findDue_none {since : ℕ → Time} {ts : List (Task ι)} {k : ℕ} (h : findDue since k ts = none)
    (i : ℕ) (t : Task ι) (ht : ts[i]? = some t) : t.due (since (k + i)) = false := by
  induction ts generalizing k i with
  | nil => simp at ht
  | cons u ts ih =>
    simp only [findDue] at h
    split at h
    · simp at h
    · rename_i hdue
      cases i with
      | zero =>
        simp only [List.getElem?_cons_zero, Option.some.injEq] at ht; subst ht; simpa using hdue
      | succ i =>
        rw [List.getElem?_cons_succ] at ht
        have := ih h i ht
        rwa [show k + 1 + i = k + (i + 1) by omega] at this

/-- A due task has not succeeded. -/
theorem Task.due_status {t : Task ι} {now : Time} (h : t.due now = true) : t.status ≠ .success := by
  intro hs; simp [Task.due, hs] at h

/-- Everything `AssignTask` can do, with the reply it gives. -/
theorem assignTask_cases (ck : Clock) (c : Coordinator) :
    (∃ i t, c.mapTasksDone = false ∧ c.mapTasks[i]? = some t ∧ t.due (ck.since i) = true ∧
      assignTask ck c = ({ c with mapTasks := c.mapTasks.modify i (·.assign ck.now) },
        ⟨.mapTask, [t.input], c.nReduce, i⟩)) ∨
    (c.mapTasksDone = false ∧
      (∀ i (t : MapTask), c.mapTasks[i]? = some t → t.due (ck.since i) = false) ∧
      assignTask ck c = (c, ⟨.wait, [], c.nReduce, 0⟩)) ∨
    (∃ i t, c.mapTasksDone = true ∧ c.reduceTasksDone = false ∧ c.reduceTasks[i]? = some t ∧
      t.due (ck.since i) = true ∧
      assignTask ck c = ({ c with reduceTasks := c.reduceTasks.modify i (·.assign ck.now) },
        ⟨.reduceTask, t.input, c.nReduce, i⟩)) ∨
    (c.mapTasksDone = true ∧ c.reduceTasksDone = false ∧
      (∀ i (t : ReduceTask), c.reduceTasks[i]? = some t → t.due (ck.since i) = false) ∧
      assignTask ck c = (c, ⟨.wait, [], c.nReduce, 0⟩)) ∨
    (c.mapTasksDone = true ∧ c.reduceTasksDone = true ∧ c.allDone = true ∧
      assignTask ck c = (c, ⟨.exit, [], c.nReduce, 0⟩)) ∨
    (c.mapTasksDone = true ∧ c.reduceTasksDone = true ∧ c.allDone = false ∧
      assignTask ck c = (c, ⟨.wait, [], c.nReduce, 0⟩)) := by
  cases hm : c.mapTasksDone with
  | false =>
    cases hd : findDue ck.since 0 c.mapTasks with
    | some i =>
      obtain ⟨t, _, ht, hdue⟩ := findDue_some hd
      exact Or.inl ⟨i, t, rfl, ht, hdue, by simp only [assignTask, hm, hd]; simp_all⟩
    | none =>
      refine Or.inr (Or.inl ⟨rfl, fun i t ht => ?_, by simp [assignTask, hm, hd]⟩)
      simpa using findDue_none hd i t ht
  | true =>
    cases hr : c.reduceTasksDone with
    | false =>
      cases hd : findDue ck.since 0 c.reduceTasks with
      | some i =>
        obtain ⟨t, _, ht, hdue⟩ := findDue_some hd
        exact Or.inr (Or.inr (Or.inl ⟨i, t, rfl, rfl, ht, hdue, by
          simp only [assignTask, hm, hr, hd]; simp_all⟩))
      | none =>
        refine Or.inr
          (Or.inr (Or.inr (Or.inl ⟨rfl, rfl, fun i t ht => ?_, by simp [assignTask, hm, hr, hd]⟩)))
        simpa using findDue_none hd i t ht
    | true => cases ha : c.allDone <;> simp [assignTask, hm, hr, ha]

theorem notifyComplete_map {st : TaskStatus} {c : Coordinator} {i : ℕ}
    (hi : i < c.mapTasks.length) : notifyComplete ⟨st, i, .mapTask⟩ c = .ok (finishMap c i) := by
  simp only [notifyComplete]
  rw [if_neg (by omega), if_neg (by omega), Int.toNat_natCast]

theorem notifyComplete_reduce {st : TaskStatus} {c : Coordinator} {i : ℕ}
    (hi : i < c.reduceTasks.length) :
    notifyComplete ⟨st, i, .reduceTask⟩ c = .ok (finishReduce c i) := by
  simp only [notifyComplete]
  rw [if_neg (by omega), if_neg (by omega), Int.toNat_natCast]

/-- Everything `NotifyComplete` can do when it returns. -/
theorem notifyComplete_cases {args : WorkerArgs} {c c' : Coordinator}
    (h : notifyComplete args c = .ok c') :
    (∃ i : ℕ, args.taskType = .mapTask ∧ args.workID = i ∧ i < c.mapTasks.length ∧
    c' = finishMap c i) ∨
    (∃ i : ℕ, args.taskType = .reduceTask ∧ args.workID = i ∧ i < c.reduceTasks.length ∧
      c' = finishReduce c i) ∨
    (args.taskType ≠ .mapTask ∧ args.taskType ≠ .reduceTask ∧ c' = c) := by
  rw [notifyComplete] at h
  split at h
  · rename_i ht
    split at h
    · simp at h
    split at h
    · simp at h
    cases h
    exact Or.inl ⟨args.workID.toNat, ht, by omega, by omega, rfl⟩
  · rename_i ht
    split at h
    · simp at h
    split at h
    · simp at h
    cases h
    exact Or.inr (Or.inl ⟨args.workID.toNat, ht, by omega, by omega, rfl⟩)
  · rename_i hm hr
    cases h
    exact Or.inr (Or.inr ⟨hm, hr, rfl⟩)

end DistSys.Mr
