import DistSys.Mr.Bookkeeping
import Mathlib.Data.Int.ConditionallyCompleteOrder
import Mathlib.Tactic.Linarith

/-! @go mr/coordinator.go | name:AssignTask, NotifyComplete | scheme:machine | ghost:history

    The law of the coordinator's schedule. The code keeps one status and one time stamp per task;
    the ghost history keeps every call. The invariant reads the former off the latter: a task is
    `Success` when its completion is in the history, `Assigned` when its last assignment, stamped
    with its time, is, and `Todo` when neither is.

        history:  assign k @t₁   …   assign k @t₂   …   complete k   …
                        └── > 10 s ──┘                       └── never assigned again -/

namespace DistSys.Mr

variable {ι : Type}

/-- A task of the job. -/
inductive TaskId where | map (i : ℕ) | reduce (i : ℕ)
  deriving DecidableEq

def TaskId.index : TaskId → ℕ
  | .map i => i
  | .reduce i => i

/-- A processed call: worker, clock readings, and what was replied or reported. -/
inductive Event where
  | assigned (w : ℕ) (ck : Clock) (reply : CoordinatorReply)
  | notified (w : ℕ) (time : Time) (args : WorkerArgs)

/-- The task a reply hands out. -/
def CoordinatorReply.task (r : CoordinatorReply) : Option TaskId :=
  match r.taskType with
  | .mapTask => some (.map r.workId)
  | .reduceTask => some (.reduce r.workId)
  | _ => none

/-- The task a report is about. -/
def WorkerArgs.task (a : WorkerArgs) : Option TaskId :=
  match a.taskType with
  | .mapTask => some (.map a.workID.toNat)
  | .reduceTask => some (.reduce a.workID.toNat)
  | _ => none

/-- The task an event assigns, if any. -/
def Event.assigns : Event → Option TaskId
  | .assigned _ _ reply => reply.task
  | .notified _ _ _ => none

/-- The task an event completes, if any. -/
def Event.completes : Event → Option TaskId
  | .assigned _ _ _ => none
  | .notified _ _ args => args.task

/-- The last clock reading of an event: the stamp, for an assignment. -/
def Event.time : Event → Time
  | .assigned _ ck _ => ck.now
  | .notified _ time _ => time

/-- Readings within a call do not go back. -/
def Clock.Ticks (ck : Clock) : Prop := Monotone ck.since ∧ ∀ i, ck.since i ≤ ck.now

/-- A worker reports only what it was assigned. -/
def Honest (h : List Event) (w : ℕ) (args : WorkerArgs) : Prop :=
  ∃ ck reply, Event.assigned w ck reply ∈ h ∧ reply.task ≠ none ∧
    args.taskType = reply.taskType ∧ args.workID = reply.workId

/-- Runs of the coordinator with honest workers and a clock that does not go back. -/
inductive History (files : List GoString) (nReduce : ℕ) : List Event → Coordinator → Prop
  | make : History files nReduce [] (makeCoordinator files nReduce)
  | assign {h : List Event} {c : Coordinator} (w : ℕ) (ck : Clock) : History files nReduce h c →
      ck.Ticks → (∀ e ∈ h, e.time ≤ ck.since 0) →
      History files nReduce (h ++ [.assigned w ck (assignTask ck c).2]) (assignTask ck c).1
  | notify {h : List Event} {c c' : Coordinator} (w : ℕ) (time : Time) (args : WorkerArgs) :
      History files nReduce h c → (∀ e ∈ h, e.time ≤ time) → Honest h w args →
      notifyComplete args c = .ok c' → History files nReduce (h ++ [.notified w time args]) c'

/-- What the history says about one task's record. -/
structure Tracks (h : List Event) (k : TaskId) (t : Task ι) : Prop where
  success : t.status = .success ↔ ∃ e ∈ h, e.completes = some k
  todo : t.status = .todo → ∀ e ∈ h, e.assigns ≠ some k
  assigned : t.status = .assigned → ∃ e ∈ h, e.assigns = some k ∧ e.time = t.timeStamp
  stamp : ∀ e ∈ h, e.assigns = some k → e.time ≤ t.timeStamp

/-- Invariant of a run: the counters, and the history behind every record. -/
structure Tracked (files : List GoString) (nReduce : ℕ) (h : List Event)
    (c : Coordinator) : Prop where
  book : Bookkept files nReduce c
  maps : ∀ i (t : MapTask), c.mapTasks[i]? = some t → Tracks h (.map i) t
  reduces : ∀ i (t : ReduceTask), c.reduceTasks[i]? = some t → Tracks h (.reduce i) t

/-! ### One more event -/

section tracks
variable {h : List Event} {k : TaskId} {t : Task ι} {ev : Event}

/-- An event about another task changes nothing here. -/
theorem tracks_other (ht : Tracks h k t) (ha : ev.assigns ≠ some k) (hc : ev.completes ≠ some k) :
    Tracks (h ++ [ev]) k t := by
  refine ⟨?_, ?_, ?_, ?_⟩
  · rw [ht.success]
    constructor
    · rintro ⟨e, he, hk⟩; exact ⟨e, List.mem_append_left _ he, hk⟩
    · rintro ⟨e, he, hk⟩
      rcases List.mem_append.mp he with he | he
      · exact ⟨e, he, hk⟩
      · rw [List.mem_singleton.mp he] at hk; exact absurd hk hc
  · intro hs e he
    rcases List.mem_append.mp he with he | he
    · exact ht.todo hs e he
    · rw [List.mem_singleton.mp he]; exact ha
  · intro hs
    obtain ⟨e, he, hk⟩ := ht.assigned hs
    exact ⟨e, List.mem_append_left _ he, hk⟩
  · intro e he hk
    rcases List.mem_append.mp he with he | he
    · exact ht.stamp e he hk
    · rw [List.mem_singleton.mp he] at hk; exact absurd hk ha

/-- An assignment is stamped with its own time, which no earlier one exceeds. -/
theorem tracks_assign (ev : Event) (ht : Tracks h k t) (hs : t.status ≠ .success)
    (ha : ev.assigns = some k) (hc : ev.completes = none) (hle : ∀ e ∈ h, e.time ≤ ev.time) :
    Tracks (h ++ [ev]) k (t.assign ev.time) := by
  refine ⟨?_, ?_, ?_, ?_⟩
  · simp only [Task.assign, reduceCtorEq, false_iff, not_exists, not_and]
    intro e he hk
    rcases List.mem_append.mp he with he | he
    · exact hs (ht.success.mpr ⟨e, he, hk⟩)
    · rw [List.mem_singleton.mp he, hc] at hk; simp at hk
  · simp [Task.assign]
  · intro _; exact ⟨ev, by simp, ha, rfl⟩
  · intro e he _
    rcases List.mem_append.mp he with he | he
    · exact hle e he
    · rw [List.mem_singleton.mp he]; rfl

/-- A completion leaves `Success`. -/
theorem tracks_finish (ht : Tracks h k t) (hc : ev.completes = some k) (ha : ev.assigns = none) :
    Tracks (h ++ [ev]) k t.finish := by
  refine ⟨?_, ?_, ?_, ?_⟩
  · simp only [Task.finish, true_iff]; exact ⟨ev, by simp, hc⟩
  · simp [Task.finish]
  · simp [Task.finish]
  · intro e he hk
    rcases List.mem_append.mp he with he | he
    · exact ht.stamp e he hk
    · rw [List.mem_singleton.mp he, ha] at hk; simp at hk

/-- A list in which one task changed, and the history says so, is tracked. -/
theorem tracks_modify {ts : List (Task ι)} {f : Task ι → Task ι} {i : ℕ} {key : ℕ → TaskId}
    (hinj : Function.Injective key) (hts : ∀ j t, ts[j]? = some t → Tracks h (key j) t)
    (hi : ∀ t, ts[i]? = some t → Tracks (h ++ [ev]) (key i) (f t))
    (ha : ev.assigns = some (key i) ∨ ev.assigns = none)
    (hc : ev.completes = some (key i) ∨ ev.completes = none) :
    ∀ j t, (ts.modify i f)[j]? = some t → Tracks (h ++ [ev]) (key j) t := by
  intro j t hj
  rcases getElem?_modify_cases hj with ⟨hij, hj⟩ | ⟨rfl, u, hu, rfl⟩
  · have hne : key i ≠ key j := fun he => hij (hinj he)
    refine tracks_other (hts j t hj) ?_ ?_
    · rcases ha with ha | ha <;> rw [ha] <;> simp [hne]
    · rcases hc with hc | hc <;> rw [hc] <;> simp [hne]
  · exact hi u hu

end tracks

theorem map_injective : Function.Injective TaskId.map := fun _ _ h => by cases h; rfl

theorem reduce_injective : Function.Injective TaskId.reduce := fun _ _ h => by cases h; rfl

section tracked
variable {files : List GoString} {nReduce : ℕ} {h : List Event} {c c' : Coordinator}

theorem tracked_make (hf : files ≠ []) (hn : 1 ≤ nReduce) :
    Tracked files nReduce [] (makeCoordinator files nReduce) := by
  refine ⟨bookkept_make hf hn, ?_, ?_⟩
  · intro i t ht
    simp only [makeCoordinator, List.getElem?_mapIdx, Option.map_eq_some_iff] at ht
    obtain ⟨f, _, rfl⟩ := ht
    exact ⟨by simp, by simp, by simp, by simp⟩
  · intro i t ht
    simp only [makeCoordinator, List.getElem?_map, Option.map_eq_some_iff] at ht
    obtain ⟨f, _, rfl⟩ := ht
    exact ⟨by simp, by simp, by simp, by simp⟩

/-- An event that neither assigns nor completes anything. -/
theorem tracked_idle {ev : Event} (ht : Tracked files nReduce h c) (ha : ev.assigns = none)
    (hc : ev.completes = none) : Tracked files nReduce (h ++ [ev]) c :=
  ⟨ht.book, fun i t hi => tracks_other (ht.maps i t hi) (by simp [ha]) (by simp [hc]),
    fun i t hi => tracks_other (ht.reduces i t hi) (by simp [ha]) (by simp [hc])⟩

/-- `AssignTask`. -/
theorem tracked_assign (w : ℕ) {ck : Clock} (ht : Tracked files nReduce h c)
    (hle : ∀ e ∈ h, e.time ≤ ck.now) :
    Tracked files nReduce (h ++ [.assigned w ck (assignTask ck c).2]) (assignTask ck c).1 := by
  have hbook := (bookkept_assignTask ck ht.book).1
  rcases assignTask_cases ck c with
    ⟨i, t, _, hti, hdue, he⟩ | ⟨_, _, he⟩ | ⟨i, t, _, _, hti, hdue, he⟩ |
    ⟨_, _, _, he⟩ | ⟨_, _, _, he⟩ | ⟨_, _, _, he⟩ <;> rw [he] at hbook ⊢
  · refine ⟨hbook, tracks_modify map_injective ht.maps ?_ (Or.inl rfl) (Or.inr rfl), ?_⟩
    · intro u hu
      rw [hti] at hu; cases hu
      exact tracks_assign (.assigned w ck _) (ht.maps i t hti) (Task.due_status hdue) rfl rfl hle
    · exact fun j u hu =>
        tracks_other (ht.reduces j u hu) (by simp [Event.assigns, CoordinatorReply.task])
        (by simp [Event.completes])
  · exact tracked_idle ht rfl rfl
  · refine ⟨hbook, ?_, tracks_modify reduce_injective ht.reduces ?_ (Or.inl rfl) (Or.inr rfl)⟩
    · exact fun j u hu =>
        tracks_other (ht.maps j u hu) (by simp [Event.assigns, CoordinatorReply.task])
        (by simp [Event.completes])
    · intro u hu
      rw [hti] at hu; cases hu
      exact tracks_assign (.assigned w ck _) (ht.reduces i t hti) (Task.due_status hdue) rfl rfl hle
  · exact tracked_idle ht rfl rfl
  · exact tracked_idle ht rfl rfl
  · exact tracked_idle ht rfl rfl

/-- `NotifyComplete`. -/
theorem tracked_notify (w : ℕ) (time : Time) {args : WorkerArgs} (ht : Tracked files nReduce h c)
    (hok : notifyComplete args c = .ok c') :
    Tracked files nReduce (h ++ [.notified w time args]) c' := by
  have hbook := (bookkept_notifyComplete ht.book hok).1
  rcases notifyComplete_cases hok with ⟨i, hty, hid, _, rfl⟩ | ⟨i, hty, hid, _, rfl⟩ | ⟨hm, hr, rfl⟩
  · have hc : Event.completes (.notified w time args) = some (.map i) := by
      simp [Event.completes, WorkerArgs.task, hty, hid]
    refine ⟨hbook, ?_, ?_⟩
    · simp only [finishMap, complete_tasks]
      exact tracks_modify map_injective ht.maps
        (fun t hti => tracks_finish (ht.maps i t hti) hc rfl) (Or.inr rfl) (Or.inl hc)
    · exact fun j u hu => tracks_other (ht.reduces j u hu) (by simp [Event.assigns]) (by simp [hc])
  · have hc : Event.completes (.notified w time args) = some (.reduce i) := by
      simp [Event.completes, WorkerArgs.task, hty, hid]
    refine ⟨hbook, ?_, ?_⟩
    · exact fun j u hu => tracks_other (ht.maps j u hu) (by simp [Event.assigns]) (by simp [hc])
    · simp only [finishReduce, complete_tasks]
      exact tracks_modify reduce_injective ht.reduces
        (fun t hti => tracks_finish (ht.reduces i t hti) hc rfl) (Or.inr rfl) (Or.inl hc)
  · exact tracked_idle ht rfl (by simp only [Event.completes, WorkerArgs.task])

/-- Every history tracks the state it leads to. -/
theorem History.tracked (hf : files ≠ []) (hn : 1 ≤ nReduce) (hist : History files nReduce h c) :
    Tracked files nReduce h c := by
  induction hist with
  | make => exact tracked_make hf hn
  | assign w ck _ htick hle ih => exact tracked_assign w ih fun e he => (hle e he).trans (htick.2 0)
  | notify w time args _ _ _ hok ih => exact tracked_notify w time ih hok

end tracked

/-! ### The law -/

/-- `k` was reported in `h`. -/
def Completed (h : List Event) (k : TaskId) : Prop := ∃ e ∈ h, e.completes = some k

/-- The tasks the coordinator hands out after `h`: reduce tasks once every map task was reported. -/
def Current (fileN nReduce : ℕ) (h : List Event) : TaskId → Prop
  | .map i => i < fileN
  | .reduce i => i < nReduce ∧ ∀ m < fileN, Completed h (.map m)

/-- What may follow the calls of `pre`. -/
structure Law (fileN nReduce : ℕ) (pre : List Event) (ev : Event) : Prop where
  later : ∀ e ∈ pre, e.time ≤ ev.time
  apart : ∀ k, ev.assigns = some k → ∀ e ∈ pre, e.assigns = some k → ev.time - e.time > 10 * second
  fresh : ∀ k, ev.assigns = some k → ¬Completed pre k
  mapsFirst : ∀ i, ev.assigns = some (.reduce i) → ∀ m < fileN, Completed pre (.map m)
  exitLast : ∀ w ck reply, ev = .assigned w ck reply → reply.taskType = .exit →
    ∀ r < nReduce, Completed pre (.reduce r)
    /-- The last assignment `e` of an unfinished task is at most ten seconds old when it is looked
    at. -/
  waiting : ∀ w ck reply, ev = .assigned w ck reply → reply.taskType = .wait →
    ∀ k, Current fileN nReduce pre k → ¬Completed pre k →
      ∃ e ∈ pre, e.assigns = some k ∧ (∀ e' ∈ pre, e'.assigns = some k → e'.time ≤ e.time) ∧
        ck.since k.index - e.time ≤ 10 * second

section law
variable {files : List GoString} {nReduce : ℕ} {h : List Event} {c : Coordinator}
  {k : TaskId} {t : Task ι}

/-- A due task was never reported, and its earlier assignments are more than ten seconds old. -/
theorem due_apart {now : Time} (ht : Tracks h k t) (hdue : t.due now = true) :
    ¬Completed h k ∧ ∀ e ∈ h, e.assigns = some k → now - e.time > 10 * second := by
  refine ⟨fun hc => Task.due_status hdue (ht.success.mpr hc), fun e he hk => ?_⟩
  simp only [Task.due, Bool.or_eq_true, Bool.and_eq_true, decide_eq_true_eq] at hdue
  rcases hdue with hs | ⟨_, hgap⟩
  · exact absurd hk (ht.todo hs e he)
  · have := ht.stamp e he hk
    linarith

/-- A task that is not due and not reported was last assigned at most ten seconds ago. -/
theorem not_due_recent {now : Time} (ht : Tracks h k t) (hdue : t.due now = false)
    (hst : t.status = .todo ∨ t.status = .assigned ∨ t.status = .success) (hc : ¬Completed h k) :
    ∃ e ∈ h, e.assigns = some k ∧ (∀ e' ∈ h, e'.assigns = some k → e'.time ≤ e.time) ∧
      now - e.time ≤ 10 * second := by
  rcases hst with hs | hs | hs
  · simp [Task.due, hs] at hdue
  · obtain ⟨e, he, hk, htime⟩ := ht.assigned hs
    refine ⟨e, he, hk, fun e' he' hk' => htime ▸ ht.stamp e' he' hk', ?_⟩
    simp only [Task.due, hs, reduceCtorEq, decide_false, Bool.false_or, decide_true, Bool.true_and,
      decide_eq_false_iff_not] at hdue
    linarith
  · exact absurd (ht.success.mp hs) hc

/-- The map phase is over exactly when every map task was reported. -/
theorem Tracked.mapsDone_iff (ht : Tracked files nReduce h c) :
    c.mapTasksDone = true ↔ ∀ m < files.length, Completed h (.map m) := by
  rw [ht.book.maps.flag]
  constructor
  · intro hall m hm
    rw [← ht.book.mapLength] at hm
    exact (ht.maps m _ (List.getElem?_eq_getElem hm)).success.mp (hall _ (List.getElem_mem hm))
  · intro hall t hmem
    obtain ⟨m, hm⟩ := List.mem_iff_getElem?.mp hmem
    have hlt : m < files.length := by
      rw [← ht.book.mapLength]; exact (List.getElem?_eq_some_iff.mp hm).1
    exact (ht.maps m t hm).success.mpr (hall m hlt)

theorem Tracked.reducesDone (ht : Tracked files nReduce h c) (hd : c.reduceTasksDone = true) :
    ∀ r < nReduce, Completed h (.reduce r) := by
  intro r hr
  rw [← ht.book.reduceLength] at hr
  exact (ht.reduces r _ (List.getElem?_eq_getElem hr)).success.mp
    (ht.book.reduces.flag.mp hd _ (List.getElem_mem hr))

/-- A reply that hands out nothing has only the last two clauses to meet. -/
theorem law_idle {fileN w : ℕ} {ck : Clock} {reply : CoordinatorReply}
    (hle : ∀ e ∈ h, e.time ≤ ck.now) (hn : reply.task = none)
    (hexit : reply.taskType = .exit → ∀ r < nReduce, Completed h (.reduce r))
    (hwait : reply.taskType = .wait → ∀ k, Current fileN nReduce h k → ¬Completed h k →
      ∃ e ∈ h, e.assigns = some k ∧ (∀ e' ∈ h, e'.assigns = some k → e'.time ≤ e.time) ∧
        ck.since k.index - e.time ≤ 10 * second) :
    Law fileN nReduce h (.assigned w ck reply) := by
  have hn' : Event.assigns (.assigned w ck reply) = none := hn
  refine ⟨hle, ?_, ?_, ?_, ?_, ?_⟩
  · intro k hk; simp [hn'] at hk
  · intro k hk; simp [hn'] at hk
  · intro i hk; simp [hn'] at hk
  · rintro _ _ _ ⟨⟩; exact hexit
  · rintro _ _ _ ⟨⟩; exact hwait

/-- A reply that hands out a due task has only the first four. -/
theorem law_task {fileN w : ℕ} {ck : Clock} {reply : CoordinatorReply} {now : Time}
    (hle : ∀ e ∈ h, e.time ≤ ck.now) (hk : reply.task = some k) (ht : Tracks h k t)
    (hdue : t.due now = true) (hnow : now ≤ ck.now)
    (hmaps : ∀ i, k = .reduce i → ∀ m < fileN, Completed h (.map m)) :
    Law fileN nReduce h (.assigned w ck reply) := by
  have hk' : Event.assigns (.assigned w ck reply) = some k := hk
  obtain ⟨hc, hgap⟩ := due_apart ht hdue
  refine ⟨hle, ?_, ?_, ?_, ?_, ?_⟩
  · intro k' h' e he hke
    rw [hk'] at h'; cases h'
    exact lt_of_lt_of_le (hgap e he hke) (sub_le_sub_right hnow _)
  · intro k' h'; rw [hk'] at h'; cases h'; exact hc
  · intro i h'; rw [hk'] at h'; exact hmaps i (Option.some.inj h')
  · rintro _ _ _ ⟨⟩ hty; simp [CoordinatorReply.task, hty] at hk
  · rintro _ _ _ ⟨⟩ hty; simp [CoordinatorReply.task, hty] at hk

/-- The reply of `AssignTask` obeys the law. -/
theorem law_assign (w : ℕ) {ck : Clock} (ht : Tracked files nReduce h c) (htick : ck.Ticks)
    (hle : ∀ e ∈ h, e.time ≤ ck.now) :
    Law files.length nReduce h (.assigned w ck (assignTask ck c).2) := by
  rcases assignTask_cases ck c with
    ⟨i, t, _, hti, hdue, he⟩ | ⟨hm, hnd, he⟩ | ⟨i, t, hm, _, hti, hdue, he⟩ |
    ⟨hm, hr, hnd, he⟩ | ⟨_, hr, _, he⟩ | ⟨_, hr, ha, _⟩
  · rw [he]
    exact law_task (k := .map i) hle rfl (ht.maps i t hti) hdue (htick.2 i) (fun _ h => by cases h)
  · rw [he]
    refine law_idle hle rfl (fun h => by cases h) ?_
    rintro - (i | i) hcur hc
    · have hi : i < c.mapTasks.length := by rw [ht.book.mapLength]; exact hcur
      exact not_due_recent (ht.maps i _ (List.getElem?_eq_getElem hi))
        (hnd i _ (List.getElem?_eq_getElem hi)) (ht.book.maps.status _ (List.getElem_mem hi)) hc
    · -- no reduce task is current: some map task was not reported
      rw [ht.mapsDone_iff.mpr hcur.2] at hm; simp at hm
  · rw [he]
    exact law_task (k := .reduce i) hle rfl (ht.reduces i t hti) hdue (htick.2 i)
      (fun _ _ => ht.mapsDone_iff.mp hm)
  · rw [he]
    refine law_idle hle rfl (fun h => by cases h) ?_
    rintro - (i | i) hcur hc
    · exact absurd (ht.mapsDone_iff.mp hm i hcur) hc
    · have hi : i < c.reduceTasks.length := by rw [ht.book.reduceLength]; exact hcur.1
      exact not_due_recent (ht.reduces i _ (List.getElem?_eq_getElem hi))
        (hnd i _ (List.getElem?_eq_getElem hi)) (ht.book.reduces.status _ (List.getElem_mem hi)) hc
  · rw [he]; exact law_idle hle rfl (fun _ => ht.reducesDone hr) (fun h => by cases h)
  · rw [ht.book.allDone, hr] at ha; simp at ha

theorem law_notify {fileN w : ℕ} {time : Time} {args : WorkerArgs} (hle : ∀ e ∈ h, e.time ≤ time) :
    Law fileN nReduce h (.notified w time args) := by
  refine ⟨hle, ?_, ?_, ?_, ?_, ?_⟩
  · intro _ hk; cases hk
  · intro _ hk; cases hk
  · intro _ hk; cases hk
  · intro _ _ _ hk; cases hk
  · intro _ _ _ hk; cases hk

/-- Each call of a history obeys the law with respect to the calls before it. -/
theorem History.law (hf : files ≠ []) (hn : 1 ≤ nReduce) (hist : History files nReduce h c) :
    ∀ pre ev post, h = pre ++ ev :: post → Law files.length nReduce pre ev := by
  -- the last call of a longer history is the new one, any other belongs to the history before
  have snoc : ∀ {h : List Event} {new : Event},
      (∀ pre ev post, h = pre ++ ev :: post → Law files.length nReduce pre ev) →
      Law files.length nReduce h new →
      ∀ pre ev post, h ++ [new] = pre ++ ev :: post → Law files.length nReduce pre ev := by
    intro h new ih hnew pre ev post heq
    rcases List.eq_nil_or_concat post with rfl | ⟨post', last, rfl⟩
    · obtain ⟨rfl, hev⟩ := List.append_inj' heq rfl
      cases List.singleton_inj.mp hev
      exact hnew
    · rw [List.concat_eq_append, ← List.cons_append, ← List.append_assoc] at heq
      exact ih pre ev post' (List.append_inj' heq rfl).1
  induction hist with
  | make => intro pre ev post h; simp at h
  | assign w ck hist htick hle ih =>
    exact snoc ih (law_assign w (hist.tracked hf hn) htick fun e he => (hle e he).trans (htick.2 0))
  | notify w time args _ hle _ _ ih => exact snoc ih (law_notify hle)

end law

/-- Every completion is processed within ten seconds of its assignment, as far as the run goes. -/
def Prompt (h : List Event) : Prop :=
  ∀ pre ev post k, h = pre ++ ev :: post → ev.assigns = some k →
    (∃ e ∈ post, e.completes = some k ∧ e.time - ev.time ≤ 10 * second) ∨
      ∀ e ∈ post, e.time - ev.time ≤ 10 * second

/-- In a prompt run a task that was assigned is not assigned again. -/
theorem prompt_once {fileN nReduce : ℕ} {h : List Event} {k : TaskId}
    (hlaw : ∀ pre ev post, h = pre ++ ev :: post → Law fileN nReduce pre ev) (hp : Prompt h)
    {pre mid post : List Event} {a b : Event} (heq : h = pre ++ a :: mid ++ b :: post)
    (ha : a.assigns = some k) : b.assigns ≠ some k := by
  intro hb
  have hgap := (hlaw _ b post heq).apart k hb a (by simp) ha
  rcases hp pre a (mid ++ b :: post) k (by rw [heq]; simp) ha with ⟨e, he, hk, hle⟩ | hall
  · rcases List.mem_append.mp he with he | he
    · exact (hlaw _ b post heq).fresh k hb ⟨e, by simp [he], hk⟩
    · rcases List.mem_cons.mp he with rfl | he
      · cases e <;> simp [Event.assigns, Event.completes] at hb hk
      · -- the report comes after `b`, yet within ten seconds of `a`
        obtain ⟨p, q, rfl⟩ := List.append_of_mem he
        have := (hlaw (pre ++ a :: mid ++ b :: p) e q (by rw [heq]; simp)).later b (by simp)
        linarith
  · have := hall b (by simp)
    linarith

/-- CORRECT: every call of a run obeys the law, and in a prompt run no task is assigned twice. -/
theorem scheduling_history (files : List GoString) (nReduce : ℕ)
    (hf : files ≠ []) (hn : 1 ≤ nReduce) (h : List Event) (c : Coordinator)
    (hist : History files nReduce h c) :
    (∀ pre ev post, h = pre ++ ev :: post → Law files.length nReduce pre ev) ∧
    (Prompt h → ∀ k, h.countP (fun ev => ev.assigns = some k) ≤ 1) := by
  have hlaw := hist.law hf hn
  refine ⟨hlaw, fun hp k => ?_⟩
  by_contra hcount
  have hlen : 2 ≤ (h.filter fun ev => ev.assigns = some k).length := by
    rw [← List.countP_eq_length_filter]; omega
  obtain ⟨a, b, rest, hfil⟩ :
      ∃ a b rest, h.filter (fun ev => ev.assigns = some k) = a :: b :: rest := by
    cases hfil : h.filter fun ev => ev.assigns = some k with
    | nil => simp [hfil] at hlen
    | cons a l =>
      cases l with
      | nil => simp [hfil] at hlen
      | cons b rest => exact ⟨a, b, rest, rfl⟩
  obtain ⟨pre, post, rfl, _, ha, hpost⟩ := List.filter_eq_cons_iff.mp hfil
  obtain ⟨mid, post', rfl, _, hb, _⟩ := List.filter_eq_cons_iff.mp hpost
  exact prompt_once hlaw hp (show _ = pre ++ a :: mid ++ b :: post' by simp) (of_decide_eq_true ha)
    (of_decide_eq_true hb)

/-- A map task assigned to one worker, eleven seconds later to another, then reported by that
    one. -/
theorem scheduling_history_retry : ∃ h c, History [GoString.lit "pg.txt"] 1 h c ∧
    h.map (·.assigns) = [some (.map 0), some (.map 0), none] ∧
    ∀ pre ev post, h = pre ++ ev :: post → Law 1 1 pre ev := by
  have h₀ : History [GoString.lit "pg.txt"] 1 [] _ := .make
  have h₁ := h₀.assign 0 ⟨fun _ => 0, 0⟩ ⟨monotone_const, fun _ => le_rfl⟩ (by simp)
  have h₂ := h₁.assign 1 ⟨fun _ => 11 * second, 11 * second⟩ ⟨monotone_const, fun _ => le_rfl⟩
    (by simp [Event.time, second])
  have h₃ := h₂.notify 1 (12 * second) ⟨.success, 0, .mapTask⟩ (by simp [Event.time, second])
    ⟨_, _, List.mem_append_right _ (List.mem_singleton.mpr rfl), by decide, rfl, rfl⟩ rfl
  exact ⟨_, _, h₃, by decide, (scheduling_history _ 1 (by simp) le_rfl _ _ h₃).1⟩

end DistSys.Mr
