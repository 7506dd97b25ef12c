import DistSys.Mr.Safety

/-! @go mr/coordinator.go, mr/worker.go, main/mrsequential.go | name:Worker, main | scheme:machine

    A finished job has written what the sequential program writes. The invariant ties the statuses
    of the coordinator to the files: a map task is `Success` only when all its buckets are in place,
    a reduce task only when its output is. It survives stragglers, crashes, lost and late calls,
    since every worker that ever renames a file renames one with the same content.

        status Success  ⇒  output right  ⇐  report in flight  ⇐  worker at `report` -/

namespace DistSys.Mr
open GoString (lit)
open Grouping (reduced KeySorted)

/-- Invariant of a job. -/
structure Safe (J : Job) (fs₀ : Disk) (s : State) : Prop where
  book : Bookkept J.files J.nReduce s.coord
  wf : s.fs.Wf
  inputs : ∀ f ∈ J.files, s.fs.Holds f (content fs₀ f)
  maps : ∀ m (t : MapTask), s.coord.mapTasks[m]? = some t → t.status = .success →
    ∀ r < J.nReduce, J.Right fs₀ s.fs (.inter m r)
  reduces : ∀ r (t : ReduceTask), s.coord.reduceTasks[r]? = some t → t.status = .success →
    J.Right fs₀ s.fs (.out r)
  requests : ∀ w args, Request.notify w args ∈ s.requests →
    ∃ reply : CoordinatorReply, args = reply.report ∧ TaskDone J fs₀ s.fs reply
  replies : ∀ w reply, (w, reply) ∈ s.replies → ReplyOk J fs₀ s.fs reply
  workers : ∀ w, PcOk J fs₀ s.fs (s.workers w)
  apart : ∀ w w' i, w ≠ w' → (s.workers w).writes = some i →
    (s.workers w').writes ≠ some i ∧ (s.workers w').reads ≠ some i

section safe
variable {J : Job} {fs₀ : Disk} {s s' : State}

theorem safe_start (hP : J.Proper fs₀) : Safe J fs₀ (J.start fs₀) := by
  have hb := bookkept_make hP.files hP.nReduce
  constructor
  case book => exact hb
  case wf => exact hP.wf
  case inputs =>
    intro f hf
    obtain ⟨bytes, hr⟩ := Option.isSome_iff_exists.mp (hP.readable f hf)
    obtain ⟨ino, hd, rfl⟩ := Option.map_eq_some_iff.mp hr
    exact ⟨ino, hd, by simp [Job.start, content, FileSystem.read, hd]⟩
  case maps =>
    intro m t ht hs
    simp only [Job.start, makeCoordinator, List.getElem?_mapIdx, Option.map_eq_some_iff] at ht
    obtain ⟨f, _, rfl⟩ := ht
    simp at hs
  case reduces =>
    intro r t ht hs
    simp only [Job.start, makeCoordinator, List.getElem?_map, Option.map_eq_some_iff] at ht
    obtain ⟨i, _, rfl⟩ := ht
    simp at hs
  case requests => simp [Job.start]
  case replies => simp [Job.start]
  case workers =>
    intro w
    trivial
  case apart =>
    intro w w' i _ h
    simp [Job.start, Pc.writes] at h

/-- Files stay apart when what one worker has open now is no concern of the others. -/
theorem apart_setWorker (hs : Safe J fs₀ s) {w : ℕ} {pc : Pc}
    (hmine : ∀ v i, v ≠ w → pc.writes = some i → (s.workers v).writes ≠ some i ∧
      (s.workers v).reads ≠ some i)
    (htheirs : ∀ v i, v ≠ w → (s.workers v).writes = some i →
      pc.writes ≠ some i ∧ pc.reads ≠ some i)
    (v v' i : ℕ) (hne : v ≠ v') (hv : ((s.setWorker w pc).workers v).writes = some i) :
    ((s.setWorker w pc).workers v').writes ≠ some i ∧
      ((s.setWorker w pc).workers v').reads ≠ some i := by
  simp only [State.setWorker] at hv ⊢
  rcases eq_or_ne v w with rfl | hvw
  · rw [Function.update_self] at hv
    rw [Function.update_of_ne hne.symm]
    exact hmine v' i hne.symm hv
  · rw [Function.update_of_ne hvw] at hv
    rcases eq_or_ne v' w with rfl | hvw'
    · rw [Function.update_self]
      exact htheirs v i hvw hv
    · rw [Function.update_of_ne hvw']
      exact hs.apart v v' i hne hv

/-- A worker moves on without a file open. -/
theorem safe_setWorker (hs : Safe J fs₀ s) (w : ℕ) {pc : Pc} (h : PcOk J fs₀ s.fs pc)
    (hw : pc.writes = none) (hr : pc.reads = none) : Safe J fs₀ (s.setWorker w pc) :=
  { hs with
    workers := (Function.forall_update_iff s.workers fun _ pc => PcOk J fs₀ s.fs pc).mpr
      ⟨h, fun v _ => hs.workers v⟩
    apart :=
      apart_setWorker hs (fun v i _ hi => by simp [hw] at hi) (fun v i _ _ => by simp [hw, hr]) }

theorem pcOk_writes {fs : Disk} {pc : Pc} {i : ℕ} (h : PcOk J fs₀ fs pc) (hi : pc.writes = some i) :
    ∃ path bytes, Writing J fs path i bytes := by
  cases pc with
  | mapEncode reply r path ino kva todo =>
    obtain ⟨_, _, _, _, done, _, hw⟩ := h
    cases hi; exact ⟨path, _, hw⟩
  | reduceWrite reply intermediate path ino k =>
    obtain ⟨_, _, done, _, hw⟩ := h
    cases hi; exact ⟨path, _, hw⟩
  | _ => simp [Pc.writes] at hi

theorem pcOk_reads {fs : Disk} {pc : Pc} {i : ℕ} (h : PcOk J fs₀ fs pc) (hi : pc.reads = some i) :
    i < fs.next := by
  cases pc with
  | reduceRead reply intermediate ino buf todo =>
    obtain ⟨_, _, k, _, _, _, hrd, _⟩ := h
    cases hi; exact hrd.used
  | _ => simp [Pc.reads] at hi

/-- A worker works on its task. -/
theorem safe_work (hP : J.Proper fs₀) (hs : Safe J fs₀ s) (w : ℕ) {choice : Choice}
    {fs' : Disk} {pc' : Pc} (h : workerStep J s.fs (s.workers w) choice = some (fs', pc')) :
    Safe J fs₀ { s.setWorker w pc' with fs := fs' } := by
  have hstep := stepOk_worker hP hs.wf hs.inputs (hs.workers w) h
  obtain ⟨touched, hframe, htouch⟩ : ∃ touched, Frame J fs₀ touched s.fs fs' ∧
      ∀ i, touched = some i → (s.workers w).writes = some i := by
    rcases hstep.frame with hf | ⟨i, hi, hf⟩
    · exact ⟨none, hf, by simp⟩
    · exact ⟨some i, hf, fun j hj => by rw [hi, hj]⟩
  -- what `w` has open now is no file that another worker writes
  have hnew : ∀ v i, v ≠ w → (s.workers v).writes = some i → pc'.writes ≠ some i ∧
      pc'.reads ≠ some i := by
    intro v i hne hv
    obtain ⟨path, bytes, hwr⟩ := pcOk_writes (hs.workers v) hv
    refine ⟨fun hi => ?_, fun hi => ?_⟩
    · rcases hstep.writes i hi with hi | rfl
      · exact (hs.apart w v i hne.symm hi).1 hv
      · exact absurd (hs.wf path _ hwr.mine.1) (lt_irrefl _)
    · rcases hstep.reads i hi with hi | ⟨o, ho⟩
      · exact (hs.apart v w i hne hv).2 hi
      · exact name_ne_path o hwr.temp (hwr.mine.2 _ ho)
  -- and a file it has just made is known to nobody else
  have hmine : ∀ v i, v ≠ w → pc'.writes = some i →
      (s.workers v).writes ≠ some i ∧ (s.workers v).reads ≠ some i := by
    intro v i hne hi
    rcases hstep.writes i hi with hi | rfl
    · exact hs.apart w v i hne.symm hi
    · refine ⟨fun hv => ?_, fun hv => absurd (pcOk_reads (hs.workers v) hv) (lt_irrefl _)⟩
      obtain ⟨path, bytes, hwr⟩ := pcOk_writes (hs.workers v) hv
      exact absurd (hs.wf path _ hwr.mine.1) (lt_irrefl _)
  refine ⟨hs.book, hframe.wf, fun f hf => hframe.inputs f hf (hs.inputs f hf),
    fun m t ht hsucc r hr => hframe.right _ (hs.maps m t ht hsucc r hr),
    fun r t ht hsucc => hframe.right _ (hs.reduces r t ht hsucc), fun v args hmem => ?_,
    fun v reply hmem => replyOk_frame hframe (hs.replies v reply hmem), ?_,
      apart_setWorker hs hmine hnew⟩
  · obtain ⟨reply, ha, hd⟩ := hs.requests v args hmem
    exact ⟨reply, ha, taskDone_frame hframe hd⟩
  · refine (Function.forall_update_iff s.workers fun _ pc => PcOk J fs₀ fs' pc).mpr
      ⟨hstep.known,
        fun v hvw => pcOk_frame hframe (hs.workers v) (fun i hi ht => ?_) (fun i hi ht => ?_)⟩
    · exact (hs.apart w v i hvw.symm (htouch i ht)).1 hi
    · exact (hs.apart w v i hvw.symm (htouch i ht)).2 hi

/-- What the coordinator says of its tasks is right on the disk. -/
theorem safe_coord (hs : Safe J fs₀ s) {coord : Coordinator} (hb : Bookkept J.files J.nReduce coord)
    (hm : ∀ m (t : MapTask), coord.mapTasks[m]? = some t → t.status = .success →
      ∀ r < J.nReduce, J.Right fs₀ s.fs (.inter m r))
    (hr : ∀ r (t : ReduceTask), coord.reduceTasks[r]? = some t → t.status = .success →
      J.Right fs₀ s.fs (.out r)) : Safe J fs₀ { s with coord := coord } :=
  { hs with book := hb, maps := hm, reduces := hr }

/-- The reply of `AssignTask`: reduce tasks are handed out when every map task is `Success`. -/
theorem replyOk_assign (hs : Safe J fs₀ s) (ck : Clock) :
    ReplyOk J fs₀ s.fs (assignTask ck s.coord).2 := by
  rcases assignTask_cases ck s.coord with
    ⟨i, t, _, hti, _, he⟩ | ⟨_, _, he⟩ | ⟨i, t, hm, _, hti, _, he⟩ |
    ⟨_, _, _, he⟩ | ⟨_, _, _, he⟩ | ⟨_, _, _, he⟩ <;> rw [he]
  · have hi : i < J.files.length := by
      rw [← hs.book.mapLength]; exact (List.getElem?_eq_some_iff.mp hti).1
    refine ⟨fun _ => ⟨⟨rfl, hi⟩, hs.book.size, fun f hf => ?_⟩, fun h => by simp at h⟩
    rw [← hs.book.maps.inputs, List.getElem?_map, hti] at hf
    cases hf; rfl
  · exact ⟨fun h => by simp at h, fun h => by simp at h⟩
  · have hi : i < J.nReduce := by
      rw [← hs.book.reduceLength]; exact (List.getElem?_eq_some_iff.mp hti).1
    refine ⟨fun h => by simp at h, fun _ => ⟨⟨rfl, hi⟩, ?_, fun m hlt => ?_⟩⟩
    · have hin := congrArg (·[i]?) hs.book.reduces.inputs
      simp only [List.getElem?_map, hti, Option.map_some, List.getElem?_range hi,
        Option.some.injEq] at hin
      exact hin
    · rw [← hs.book.mapLength] at hlt
      exact hs.maps m _ (List.getElem?_eq_getElem hlt)
        (hs.book.maps.flag.mp hm _ (List.getElem_mem hlt)) i hi
  · exact ⟨fun h => by simp at h, fun h => by simp at h⟩
  · exact ⟨fun h => by simp at h, fun h => by simp at h⟩
  · exact ⟨fun h => by simp at h, fun h => by simp at h⟩

theorem success_of_assign {ι : Type} {ts : List (Task ι)} {i j : ℕ} {now : Time} {t : Task ι}
    (h : (ts.modify i (·.assign now))[j]? = some t) (hs : t.status = .success) :
    ts[j]? = some t := by
  rcases getElem?_modify_cases h with ⟨_, h⟩ | ⟨_, u, _, rfl⟩
  · exact h
  · simp [Task.assign] at hs

/-- An assignment makes no task `Success`. -/
theorem assignTask_success (ck : Clock) (c : Coordinator) :
    (∀ (m : ℕ) (t : MapTask), (assignTask ck c).1.mapTasks[m]? = some t → t.status = .success →
      c.mapTasks[m]? = some t) ∧
    ∀ (r : ℕ) (t : ReduceTask), (assignTask ck c).1.reduceTasks[r]? = some t → t.status = .success →
      c.reduceTasks[r]? = some t := by
  rcases assignTask_cases ck c with ⟨i, u, _, _, _, he⟩ | ⟨_, _, he⟩ | ⟨i, u, _, _, _, _, he⟩ |
    ⟨_, _, _, he⟩ | ⟨_, _, _, he⟩ | ⟨_, _, _, he⟩ <;> rw [he]
  · exact ⟨fun _ _ ht hsucc => success_of_assign ht hsucc, fun _ _ ht _ => ht⟩
  · exact ⟨fun _ _ ht _ => ht, fun _ _ ht _ => ht⟩
  · exact ⟨fun _ _ ht _ => ht, fun _ _ ht hsucc => success_of_assign ht hsucc⟩
  all_goals exact ⟨fun _ _ ht _ => ht, fun _ _ ht _ => ht⟩

/-- The coordinator assigns a task. -/
theorem safe_assign (hs : Safe J fs₀ s) (w : ℕ) (ck : Clock) :
    Safe J fs₀ { s with coord := (assignTask ck s.coord).1,
                        replies := s.replies ++ [(w, (assignTask ck s.coord).2)] } := by
  have hreply := replyOk_assign hs ck
  obtain ⟨hmaps, hreduces⟩ := assignTask_success ck s.coord
  have hcoord : Safe J fs₀ { s with coord := (assignTask ck s.coord).1 } :=
    safe_coord hs (bookkept_assignTask ck hs.book).1
      (fun m t ht hsucc => hs.maps m t (hmaps m t ht hsucc) hsucc)
      (fun r t ht hsucc => hs.reduces r t (hreduces r t ht hsucc) hsucc)
  refine { hcoord with replies := fun v reply hmem => ?_ }
  rcases List.mem_append.mp hmem with hmem | hmem
  · exact hs.replies v reply hmem
  · cases List.mem_singleton.mp hmem; exact hreply

/-- The coordinator takes a report, which was sent when the task's files were in place. -/
theorem safe_notify (hs : Safe J fs₀ s) {reply : CoordinatorReply} (hd : TaskDone J fs₀ s.fs reply)
    {coord : Coordinator} (h : notifyComplete reply.report s.coord = .ok coord) :
    Safe J fs₀ { s with coord := coord } := by
  have hb := (bookkept_notifyComplete hs.book h).1
  rcases notifyComplete_cases h with ⟨i, hty, hid, _, rfl⟩ | ⟨i, hty, hid, _, rfl⟩ | ⟨_, _, rfl⟩
  · obtain rfl : reply.workId = i := by simpa [CoordinatorReply.report] using hid
    refine safe_coord hs hb (fun m t ht hsucc => ?_) hs.reduces
    simp only [finishMap, complete_tasks] at ht
    rcases getElem?_modify_cases ht with ⟨_, ht⟩ | ⟨rfl, _⟩
    · exact hs.maps m t ht hsucc
    · rcases hd with ⟨_, hright⟩ | ⟨hr, _⟩
      · exact hright
      · exact absurd (hr.type.symm.trans hty) (by simp)
  · obtain rfl : reply.workId = i := by simpa [CoordinatorReply.report] using hid
    refine safe_coord hs hb hs.maps (fun r t ht hsucc => ?_)
    simp only [finishReduce, complete_tasks] at ht
    rcases getElem?_modify_cases ht with ⟨_, ht⟩ | ⟨rfl, _⟩
    · exact hs.reduces r t ht hsucc
    · rcases hd with ⟨hm, _⟩ | ⟨_, hright⟩
      · exact absurd (hm.type.symm.trans hty) (by simp)
      · exact hright
  · exact hs

theorem pcOk_dispatch {fs : Disk} {reply : CoordinatorReply} (h : ReplyOk J fs₀ fs reply) :
    PcOk J fs₀ fs (dispatch reply) ∧ (dispatch reply).writes = none ∧
      (dispatch reply).reads = none := by
  rw [dispatch]
  split
  · rename_i hty; exact ⟨fun _ => ⟨h, hty⟩, rfl, rfl⟩
  · rename_i hty
    obtain ⟨hr, hfiles, hright⟩ := h.2 hty
    exact ⟨⟨hr, hright, 0, Nat.zero_le _, by simp [hfiles], by simp [Job.pairs]⟩, rfl, rfl⟩
  · exact ⟨trivial, rfl, rfl⟩
  · exact ⟨trivial, rfl, rfl⟩
  · exact ⟨trivial, rfl, rfl⟩

/-- A call goes out. -/
theorem safe_send (hs : Safe J fs₀ s) {q : Request}
    (hq : ∀ w args, q = .notify w args → ∃ reply : CoordinatorReply, args = reply.report ∧
      TaskDone J fs₀ s.fs reply) : Safe J fs₀ { s with requests := s.requests ++ [q] } := by
  refine { hs with requests := fun w args hmem => ?_ }
  rcases List.mem_append.mp hmem with hmem | hmem
  · exact hs.requests w args hmem
  · exact hq w args (List.mem_singleton.mp hmem).symm

theorem safe_eraseRequest (hs : Safe J fs₀ s) (k : ℕ) :
    Safe J fs₀ { s with requests := s.requests.eraseIdx k } :=
  { hs with requests := fun w args hmem => hs.requests w args (List.mem_of_mem_eraseIdx hmem) }

theorem safe_eraseReply (hs : Safe J fs₀ s) (k : ℕ) :
    Safe J fs₀ { s with replies := s.replies.eraseIdx k } :=
  { hs with replies := fun w reply hmem => hs.replies w reply (List.mem_of_mem_eraseIdx hmem) }

/-- The coordinator processes a call. -/
theorem safe_process (hs : Safe J fs₀ s) {ck : Clock} {q : Request} (h : s.process ck q = some s')
    (hq : ∀ w args, q = .notify w args → ∃ reply : CoordinatorReply, args = reply.report ∧
      TaskDone J fs₀ s.fs reply) : Safe J fs₀ s' := by
  cases q with
  | assign w => cases h; exact safe_assign hs w ck
  | notify w args =>
    obtain ⟨reply, rfl, hd⟩ := hq w args rfl
    obtain ⟨coord, hok, rfl⟩ := Option.map_eq_some_iff.mp h
    cases hn : notifyComplete reply.report s.coord with
    | error msg => simp [hn, Except.toOption] at hok
    | ok c =>
      simp only [hn, Except.toOption, Option.some.injEq] at hok
      subst hok
      exact safe_notify hs hd hn

/-- Every action of the job. -/
theorem safe_step (hP : J.Proper fs₀) (s : State) (a : Action) (s' : State) (hs : Safe J fs₀ s)
    (h : jobStep J s a = some s') : Safe J fs₀ s' := by
  cases a with
  | ask w =>
    simp only [jobStep] at h
    split at h
    · cases h
      exact safe_send (safe_setWorker hs w (show PcOk J fs₀ s.fs .asking from trivial) rfl rfl)
        (fun _ _ h => by cases h)
    · simp at h
  | work w choice =>
    obtain ⟨⟨fs', pc'⟩, hw, rfl⟩ := Option.map_eq_some_iff.mp h
    exact safe_work hP hs w hw
  | notify w =>
    simp only [jobStep] at h
    split at h
    · rename_i reply hpc
      cases h
      have hd : TaskDone J fs₀ s.fs reply := by simpa [hpc, PcOk] using hs.workers w
      refine safe_send (safe_setWorker hs w (show PcOk J fs₀ s.fs .awaiting from trivial) rfl rfl)
        (fun _ _ h => ?_)
      cases h
      exact ⟨reply, rfl, hd⟩
    · simp at h
  | handle k ck =>
    obtain ⟨q, hk, hq⟩ := Option.bind_eq_some_iff.mp h
    refine safe_process (safe_eraseRequest hs k) hq (fun w args he => ?_)
    exact hs.requests w args (he ▸ List.mem_of_getElem? hk)
  | deliver k =>
    obtain ⟨⟨w, reply⟩, hk, rfl⟩ := Option.map_eq_some_iff.mp h
    obtain ⟨hpc, hw, hr⟩ := pcOk_dispatch (hs.replies w reply (List.mem_of_getElem? hk))
    rw [State.receive]
    split
    · exact safe_setWorker (safe_eraseReply hs k) w hpc hw hr
    · exact safe_eraseReply hs k
  | loseRequest k => cases h; exact safe_eraseRequest hs k
  | loseReply k => cases h; exact safe_eraseReply hs k
  | callReturns w =>
    obtain ⟨pc, hpc, rfl⟩ := Option.map_eq_some_iff.mp h
    rw [afterCall.eq_def] at hpc
    split at hpc
    · cases hpc; exact safe_setWorker hs w trivial rfl rfl
    · -- a map task without input
      cases hpc; exact safe_setWorker hs w (fun h => by simp at h) rfl rfl
    · simp at hpc
  | crash w => cases h; exact safe_setWorker hs w trivial rfl rfl

end safe

/-! ### What the files hold together -/

section together
variable {J : Job} {fs₀ : Disk}

/-- Every string the map function emits on the inputs is UTF-8. -/
def Job.EmitsUtf8 (J : Job) (fs₀ : Disk) : Prop :=
  ∀ f ∈ J.files, ∀ kv ∈ J.mapf f (content fs₀ f), Utf8.Valid kv.key ∧ Utf8.Valid kv.value

/-- The inputs of a job with their contents. -/
def Job.inputs (J : Job) (fs₀ : Disk) : List (GoString × GoString) :=
  J.files.map fun f => (f, content fs₀ f)

/-- The output files exist and their records are together those of the sequential program. -/
def Job.Finished (J : Job) (fs₀ : Disk) (fs : Disk) : Prop :=
  ∃ records : ℕ → List (GoString × GoString),
    (∀ r < J.nReduce, fs.Holds (outName r) (render (records r))) ∧
    ∀ all, Sequential J.mapf J.reducef (J.inputs fs₀) all →
      ((List.range J.nReduce).flatMap records).Perm all

theorem flatMap_range {α β : Type} (g : α → List β) (l : List α) :
    (List.range l.length).flatMap (fun m => match l[m]? with | some x => g x | none => []) =
      l.flatMap g := by
  induction l with
  | nil => rfl
  | cons x l ih =>
    rw [List.length_cons, List.range_succ_eq_map, List.flatMap_cons,
      List.flatMap_map, List.flatMap_cons, ← ih]
    rfl

/-- Bucket `r` of all map tasks, in the order in which the sequential program emits the pairs. -/
theorem pairs_eq_filter (hu : J.EmitsUtf8 fs₀) (r : ℕ) : J.pairs fs₀ r J.files.length =
    (sequentialPairs J.mapf (J.inputs fs₀)).filter fun kv => ihash kv.key % J.nReduce = r := by
  have hseq : sequentialPairs J.mapf (J.inputs fs₀) =
      (List.range J.files.length).flatMap (J.emitted fs₀) := by
    rw [sequentialPairs, Job.inputs, List.flatMap_map, ← flatMap_range]
    refine List.flatMap_congr fun m _ => ?_
    rw [Job.emitted]
    cases J.files[m]? <;> rfl
  rw [hseq, List.filter_flatMap, Job.pairs]
  refine List.flatMap_congr fun m hm => ?_
  have hvalid : ∀ kv ∈ bucket J.nReduce r (J.emitted fs₀ m), kv.toValid = kv := by
    intro kv hkv
    have hlt := List.mem_range.mp hm
    have hkv' := List.mem_of_mem_filter hkv
    simp only [Job.emitted, List.getElem?_eq_getElem hlt] at hkv'
    obtain ⟨hk, hv⟩ := hu _ (List.getElem_mem hlt) kv hkv'
    rw [KeyValue.toValid, Utf8.toValid_of_valid hk, Utf8.toValid_of_valid hv]
  rw [List.map_congr_left hvalid, List.map_id', bucket]

/-- The records of the reduce tasks are together those of the sequential program. -/
theorem records_perm (hP : J.Proper fs₀) (hu : J.EmitsUtf8 fs₀) {all : List (GoString × GoString)}
    (hall : Sequential J.mapf J.reducef (J.inputs fs₀) all) :
    ((List.range J.nReduce).flatMap (J.records fs₀)).Perm all := by
  obtain ⟨sorted, hperm, hsort, rfl⟩ := hall
  rw [sequentialRecords_eq hsort 0, List.drop_zero]
  refine Grouping.reduced_partition hP.reducef (fun k => Nat.mod_lt (ihash k) hP.nReduce)
    fun r _ => ?_
  exact (List.mergeSort_perm _ _).trans (pairs_eq_filter hu r ▸ (hperm.filter _).symm)

/-- When every reduce task is `Success`, the outputs are in place. -/
theorem finished_of_done (hP : J.Proper fs₀) (hu : J.EmitsUtf8 fs₀) {s : State} (hs : Safe J fs₀ s)
    (hd : s.coord.done = true) : J.Finished fs₀ s.fs := by
  refine ⟨J.records fs₀, fun r hr => ?_, fun all hall => records_perm hP hu hall⟩
  rw [← hs.book.reduceLength] at hr
  have hflag : s.coord.reduceTasksDone = true := hs.book.allDone ▸ hd
  exact hs.reduces r _ (List.getElem?_eq_getElem hr)
    (hs.book.reduces.flag.mp hflag _ (List.getElem_mem hr))

/-- A job that is done stays done. -/
theorem done_step (s : State) (a : Action) (s' : State) (hs : Safe J fs₀ s)
    (h : jobStep J s a = some s') : s.coord.done = true → s'.coord.done = true := by
  cases a with
  | ask w =>
    simp only [jobStep] at h
    split at h
    · cases h; exact id
    · simp at h
  | work w choice => obtain ⟨p, _, rfl⟩ := Option.map_eq_some_iff.mp h; exact id
  | notify w =>
    simp only [jobStep] at h
    split at h
    · cases h; exact id
    · simp at h
  | handle k ck =>
    obtain ⟨q, _, hq⟩ := Option.bind_eq_some_iff.mp h
    cases q with
    | assign w => cases hq; exact (bookkept_assignTask ck hs.book).2.allDone
    | notify w args =>
      obtain ⟨coord, hok, rfl⟩ := Option.map_eq_some_iff.mp hq
      cases hn : notifyComplete args s.coord with
      | error msg => simp [hn, Except.toOption] at hok
      | ok c =>
        simp only [hn, Except.toOption, Option.some.injEq] at hok
        subst hok
        exact (bookkept_notifyComplete hs.book hn).2.allDone
  | deliver k =>
    obtain ⟨p, _, rfl⟩ := Option.map_eq_some_iff.mp h
    rw [State.receive]
    split <;> exact id
  | loseRequest k => cases h; exact id
  | loseReply k => cases h; exact id
  | callReturns w => obtain ⟨pc, _, rfl⟩ := Option.map_eq_some_iff.mp h; exact id
  | crash w => cases h; exact id

end together

/-- CORRECT: in every run no reduce worker fails to open an input, and once the job is done, the
    output files hold together the records of the sequential program, then and ever after. -/
theorem job_correct (J : Job) (fs₀ : Disk) (hP : J.Proper fs₀) (hu : J.EmitsUtf8 fs₀)
    (acts : List Action) (s : State) (hrun : Machine.run (jobStep J) (J.start fs₀) acts = some s) :
    (∀ w f, s.workers w ≠ .fatal (.failToOpen f)) ∧
    (s.coord.done = true → ∀ acts' s', Machine.run (jobStep J) s acts' = some s' →
      s'.coord.done = true ∧ J.Finished fs₀ s'.fs) := by
  have hs : Safe J fs₀ s := Machine.run_invariant (safe_step hP) (safe_start hP) hrun
  refine ⟨fun w f hw => ?_, fun hd acts' s' hrun' => ?_⟩
  · have := hs.workers w
    simp [hw, PcOk] at this
  · have hs' : Safe J fs₀ s' := Machine.run_invariant (safe_step hP) hs hrun'
    have hd' : s'.coord.done = true := Machine.run_relation
      (fun s a s' hs h => ⟨safe_step hP s a s' hs h, done_step s a s' hs h⟩) (fun _ => id)
      (fun _ _ _ h h' hd => h' (h hd)) hs hrun' hd
    exact ⟨hd', finished_of_done hP hu hs' hd'⟩

/-! ### A job of one file -/

/-- One file, one reduce task; the content of the file is the only key. -/
def echoJob : Job where
  mapf := fun _ content => [⟨content, []⟩]
  reducef := fun _ _ => lit "1"
  files := [lit "in"]
  nReduce := 1
  tempDir := lit "/tmp"

/-- The disk with that file only. -/
def echoDisk (bytes : GoString) : Disk where
  dir := fun name => if name = lit "in" then some 0 else none
  data := fun _ => bytes
  next := 1

theorem echo_placed (bytes : GoString) {J : Job} (hfiles : J.files = [lit "in"])
    (hnReduce : 1 ≤ J.nReduce) : J.Placed (echoDisk bytes) := by
  refine ⟨by simp [hfiles], hnReduce, fun name i hi => ?_, ?_, ?_⟩
  · simp only [echoDisk] at hi ⊢
    split at hi
    · cases hi; omega
    · simp at hi
  · intro f hf
    cases List.mem_singleton.mp (hfiles ▸ hf)
    rfl
  · intro f hf o
    cases List.mem_singleton.mp (hfiles ▸ hf)
    cases o <;> simp [Output.name, intermediateName, outName, lit]

theorem echo_proper (bytes : GoString) : echoJob.Proper (echoDisk bytes) :=
  ⟨echo_placed bytes rfl (le_refl 1), fun _ _ _ _ => rfl⟩

/-- One worker does the map task, then the reduce task, reading `key` back. -/
def echoRun (key : GoString) : List Action :=
  let ck : Clock := ⟨fun _ => 0, 0⟩
  [.ask 0, .handle 0 ck, .deliver 0, .work 0 .go, .work 0 (.random []), .work 0 .go, .work 0 .go,
    .work 0 .go, .notify 0, .handle 0 ck, .callReturns 0,
    .ask 0, .handle 0 ck, .deliver 0, .work 0 .go, .work 0 (.chunk 100), .work 0 (.chunk 0),
    .work 0 (.sorted [⟨key, []⟩]), .work 0 (.random []), .work 0 .go, .work 0 .go,
      .notify 0, .handle 0 ck]

/-- The file holds an `a`. -/
theorem job_correct_echo : ∃ s, Machine.run (jobStep echoJob) (echoJob.start (echoDisk (lit "a")))
    (echoRun (lit "a")) = some s ∧ s.coord.done = true ∧
      echoJob.Finished (echoDisk (lit "a")) s.fs := by
  have hdone : (Machine.run (jobStep echoJob) (echoJob.start (echoDisk (lit "a")))
      (echoRun (lit "a"))).map (·.coord.done) = some true := by decide +kernel
  obtain ⟨s, hrun, hd⟩ := Option.map_eq_some_iff.mp hdone
  have hu : echoJob.EmitsUtf8 (echoDisk (lit "a")) := by
    intro f hf kv hkv
    cases List.mem_singleton.mp hf
    cases List.mem_singleton.mp hkv
    decide
  exact ⟨s, hrun, hd, ((job_correct _ _ (echo_proper _) hu _ s hrun).2 hd [] s rfl).2⟩

/-- The file holds a byte that is not UTF-8: the worker writes U+FFFD, the sequential program the
    byte itself. -/
theorem echo_not_utf8 : echoJob.Proper (echoDisk [0xFF]) ∧
    ∃ s, Machine.run (jobStep echoJob) (echoJob.start (echoDisk [0xFF]))
      (echoRun Utf8.replacement) = some s ∧ s.coord.done = true ∧
      ¬echoJob.Finished (echoDisk [0xFF]) s.fs := by
  have hend : (Machine.run (jobStep echoJob) (echoJob.start (echoDisk [0xFF]))
      (echoRun Utf8.replacement)).map (fun s => (s.coord.done, s.fs.read (outName 0))) =
        some (true, some [0xEF, 0xBF, 0xBD, 0x20, 0x31, 0x0A]) := by decide +kernel
  obtain ⟨s, hrun, hs⟩ := Option.map_eq_some_iff.mp hend
  obtain ⟨hd, hout⟩ := Prod.mk.inj hs
  refine ⟨echo_proper _, s, hrun, hd, ?_⟩
  rintro ⟨records, hfile, hperm⟩
  have hseq : Sequential echoJob.mapf echoJob.reducef (echoJob.inputs (echoDisk [0xFF]))
      [([0xFF], lit "1")] :=
    ⟨[⟨[0xFF], []⟩], List.Perm.refl _, by decide, by rw [sequentialRecords_eq (by decide) 0]; rfl⟩
  have hrec : records 0 = [([0xFF], lit "1")] := by
    have := hperm _ hseq
    simpa [echoJob, List.range_succ] using this
  have := (hfile 0 (by decide)).read
  rw [hout, hrec] at this
  exact absurd this (by decide)

end DistSys.Mr
