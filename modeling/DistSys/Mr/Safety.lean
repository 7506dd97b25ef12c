import DistSys.Mr.Outputs

/-! @go mr/worker.go | name:handleMapTask, handleReduceTask | scheme:machine, files | invariant:per
    worker

    What is known of a worker wherever it is, and that its next step keeps it. The knowledge of a
    worker is about files that have their right content, a file it writes in private, and a file it
    reads; none of these can be changed by a step of another worker. -/

namespace DistSys.Mr
open Grouping (reduced KeySorted)

section
variable (J : Job) (fs₀ fs : Disk)

/-- The reply is about a map task of the job. -/
structure IsMap (reply : CoordinatorReply) : Prop where
  type : reply.taskType = .mapTask
  lt : reply.workId < J.files.length

/-- The reply is about a reduce task of the job. -/
structure IsReduce (reply : CoordinatorReply) : Prop where
  type : reply.taskType = .reduceTask
  lt : reply.workId < J.nReduce

/-- A reply to `AssignTask`: a map task comes with its input, a reduce task only when its inputs are
    complete. -/
def ReplyOk (reply : CoordinatorReply) : Prop :=
  (reply.taskType = .mapTask → IsMap J reply ∧ reply.nReduce = J.nReduce ∧
    ∀ f, J.files[reply.workId]? = some f → reply.inputFiles = [f]) ∧
  (reply.taskType = .reduceTask → IsReduce J reply ∧
    reply.inputFiles = reduceFiles J.files.length reply.workId ∧
    ∀ m < J.files.length, J.Right fs₀ fs (.inter m reply.workId))

/-- The task of the reply is done: all it has to write is there. -/
def TaskDone (reply : CoordinatorReply) : Prop :=
  (IsMap J reply ∧ ∀ r < J.nReduce, J.Right fs₀ fs (.inter reply.workId r)) ∨
  (IsReduce J reply ∧ J.Right fs₀ fs (.out reply.workId))

/-- What is known of a worker. -/
def PcOk : Pc → Prop
  | .mapStart reply => reply.inputFiles.length = 1 → ReplyOk J fs₀ fs reply ∧
      reply.taskType = .mapTask
  | .mapBucket reply r todo => IsMap J reply ∧
      todo = (buckets J.nReduce (J.emitted fs₀ reply.workId)).drop r ∧
      ∀ r' < r, r' < J.nReduce → J.Right fs₀ fs (.inter reply.workId r')
  | .mapEncode reply r path ino kva todo => IsMap J reply ∧ r < J.nReduce ∧
      todo = (buckets J.nReduce (J.emitted fs₀ reply.workId)).drop (r + 1) ∧
      (∀ r' < r, r' < J.nReduce → J.Right fs₀ fs (.inter reply.workId r')) ∧
      ∃ done, bucket J.nReduce r (J.emitted fs₀ reply.workId) = done ++ kva ∧
        Writing J fs path ino (done.flatMap encode)
  | .reduceOpen reply intermediate todo => IsReduce J reply ∧
      (∀ m < J.files.length, J.Right fs₀ fs (.inter m reply.workId)) ∧
      ∃ k ≤ J.files.length, todo = (reduceFiles J.files.length reply.workId).drop k ∧
        intermediate = J.pairs fs₀ reply.workId k
  | .reduceRead reply intermediate ino buf todo => IsReduce J reply ∧
      (∀ m < J.files.length, J.Right fs₀ fs (.inter m reply.workId)) ∧
      ∃ k < J.files.length, todo = (reduceFiles J.files.length reply.workId).drop (k + 1) ∧
        intermediate = J.pairs fs₀ reply.workId k ∧
        Reading fs ino (J.want fs₀ (.inter k reply.workId)) ∧
          buf <+: J.want fs₀ (.inter k reply.workId)
  | .reduceSorted reply intermediate => IsReduce J reply ∧ KeySorted (·.key) intermediate ∧
      intermediate.Perm (J.pairs fs₀ reply.workId J.files.length)
  | .reduceWrite reply intermediate path ino i => IsReduce J reply ∧
      KeySorted (·.key) intermediate ∧ ∃ done, done ++
      reduced (·.key) (·.value) J.reducef (intermediate.drop i) = J.records fs₀ reply.workId ∧
        Writing J fs path ino (render done)
  | .report reply => TaskDone J fs₀ fs reply
  | .fatal reason => reason = .inputFiles
  | _ => True

end

/-- The file a worker has open for writing. -/
def Pc.writes : Pc → Option ℕ
  | .mapEncode _ _ _ ino _ _ => some ino
  | .reduceWrite _ _ _ ino _ => some ino
  | _ => none

/-- The file a worker has open for reading. -/
def Pc.reads : Pc → Option ℕ
  | .reduceRead _ _ ino _ _ => some ino
  | _ => none

section
variable {J : Job} {fs₀ fs fs' : Disk} {touched : Option ℕ} {reply : CoordinatorReply}

theorem replyOk_frame (hf : Frame J fs₀ touched fs fs') (h : ReplyOk J fs₀ fs reply) :
    ReplyOk J fs₀ fs' reply :=
  ⟨h.1, fun ht => ⟨(h.2 ht).1, (h.2 ht).2.1, fun m hm => hf.right _ ((h.2 ht).2.2 m hm)⟩⟩

theorem taskDone_frame (hf : Frame J fs₀ touched fs fs') : TaskDone J fs₀ fs reply →
    TaskDone J fs₀ fs' reply
  | .inl ⟨hm, hr⟩ => .inl ⟨hm, fun r h => hf.right _ (hr r h)⟩
  | .inr ⟨hr, ho⟩ => .inr ⟨hr, hf.right _ ho⟩

/-- A worker knows what it knew after a step on a file that it has not open. -/
theorem pcOk_frame (hf : Frame J fs₀ touched fs fs') {pc : Pc} (h : PcOk J fs₀ fs pc)
    (hw : ∀ i, pc.writes = some i → touched ≠ some i)
    (hr : ∀ i, pc.reads = some i → touched ≠ some i) :
    PcOk J fs₀ fs' pc := by
  cases pc with
  | mapStart reply => exact fun hl => ⟨replyOk_frame hf (h hl).1, (h hl).2⟩
  | mapBucket reply r todo =>
    obtain ⟨hm, ht, hright⟩ := h
    exact ⟨hm, ht, fun r' h₁ h₂ => hf.right _ (hright r' h₁ h₂)⟩
  | mapEncode reply r path ino kva todo =>
    obtain ⟨hm, hlt, ht, hright, done, hdone, hwr⟩ := h
    exact ⟨hm, hlt, ht, fun r' h₁ h₂ => hf.right _ (hright r' h₁ h₂), done, hdone,
      hf.writing _ _ _ (hw ino rfl) hwr⟩
  | reduceOpen reply intermediate todo =>
    obtain ⟨hm, hright, hk⟩ := h
    exact ⟨hm, fun m hlt => hf.right _ (hright m hlt), hk⟩
  | reduceRead reply intermediate ino buf todo =>
    obtain ⟨hm, hright, k, hk, ht, hi, hrd, hbuf⟩ := h
    exact ⟨hm, fun m hlt => hf.right _ (hright m hlt), k, hk, ht, hi,
      hf.reading _ _ (hr ino rfl) hrd, hbuf⟩
  | reduceWrite reply intermediate path ino i =>
    obtain ⟨hm, hs, done, hdone, hwr⟩ := h
    exact ⟨hm, hs, done, hdone, hf.writing _ _ _ (hw ino rfl) hwr⟩
  | report reply => exact taskDone_frame hf h
  | _ => exact h

end

/-- What a step of a worker does: the worker's knowledge, the frame for everybody else, and where
    the files it now has open come from. -/
structure StepOk (J : Job) (fs₀ fs : Disk) (pc : Pc) (fs' : Disk) (pc' : Pc) : Prop where
  frame : Frame J fs₀ none fs fs' ∨ ∃ i, pc.writes = some i ∧ Frame J fs₀ (some i) fs fs'
  known : PcOk J fs₀ fs' pc'
  writes : ∀ i, pc'.writes = some i → pc.writes = some i ∨ i = fs.next
  reads : ∀ i, pc'.reads = some i → pc.reads = some i ∨ ∃ o : Output, fs.dir o.name = some i

section step
variable {J : Job} {fs₀ fs : Disk} (hP : J.Proper fs₀) (hwf : fs.Wf)
  (hin : ∀ f ∈ J.files, fs.Holds f (content fs₀ f)) {reply : CoordinatorReply}
include hwf

/-- A step that leaves the files alone and opens none. -/
theorem stepOk_local {pc pc' : Pc} (h : PcOk J fs₀ fs pc') (hw : pc'.writes = none)
    (hr : ∀ i, pc'.reads = some i → pc.reads = some i) : StepOk J fs₀ fs pc fs pc' :=
  ⟨.inl (frame_refl hwf), h, fun i hi => by simp [hw] at hi, fun i hi => .inl (hr i hi)⟩

include hin in
theorem stepOk_mapStart {choice : Choice} {fs' : Disk} {pc' : Pc}
    (h : PcOk J fs₀ fs (.mapStart reply))
    (hs : workerStep J fs (.mapStart reply) choice = some (fs', pc')) :
    StepOk J fs₀ fs (.mapStart reply) fs' pc' := by
  cases choice with
  | go =>
    simp only [workerStep] at hs
    split at hs
    · rename_i f hfiles
      obtain ⟨hok, hty⟩ := h (by simp [hfiles])
      obtain ⟨hm, hnr, hinput⟩ := hok.1 hty
      have hf := List.getElem?_eq_getElem hm.lt
      have hmem : f ∈ J.files := by
        have := hinput _ hf
        rw [hfiles, List.singleton_inj] at this
        rw [this]; exact List.getElem_mem hm.lt
      rw [(hin f hmem).read] at hs
      cases hs
      refine stepOk_local hwf ⟨hm, ?_, by simp⟩ rfl (fun i hi => by simp [Pc.reads] at hi)
      have hfe : J.files[reply.workId]? = some f := by
        have := hinput _ hf
        rw [hfiles, List.singleton_inj] at this
        rw [hf, this]
      simp [Job.emitted, hfe, hnr]
    · cases hs
      exact stepOk_local hwf rfl rfl (fun i hi => by simp [Pc.reads] at hi)
  | _ => simp [workerStep] at hs

omit hwf in
theorem drop_buckets {nReduce r : ℕ} {kvs kva : List KeyValue} {todo : List (List KeyValue)}
    (h : (buckets nReduce kvs).drop r = kva :: todo) :
    r < nReduce ∧ kva = bucket nReduce r kvs ∧ todo = (buckets nReduce kvs).drop (r + 1) := by
  have hlen : r < (buckets nReduce kvs).length := by
    by_contra hge
    simp [List.drop_eq_nil_of_le (Nat.le_of_not_lt hge)] at h
  rw [List.drop_eq_getElem_cons hlen, List.cons.injEq] at h
  refine ⟨by simpa [buckets_eq] using hlen, ?_, h.2.symm⟩
  rw [← h.1]
  simp [buckets_eq]

include hin in
theorem stepOk_mapBucket {r : ℕ} {todo : List (List KeyValue)} {choice : Choice}
    {fs' : Disk} {pc' : Pc} (h : PcOk J fs₀ fs (.mapBucket reply r todo))
    (hs : workerStep J fs (.mapBucket reply r todo) choice = some (fs', pc')) :
    StepOk J fs₀ fs (.mapBucket reply r todo) fs' pc' := by
  obtain ⟨hm, htodo, hright⟩ := h
  cases todo with
  | nil =>
    cases choice with
    | go =>
      cases hs
      -- every bucket has been renamed
      have hr : J.nReduce ≤ r := by
        have := List.drop_eq_nil_iff.mp htodo.symm
        simpa [buckets_eq] using this
      exact stepOk_local hwf (.inl ⟨hm, fun r' hr' => hright r' (hr'.trans_le hr) hr'⟩) rfl
        (fun i hi => by simp [Pc.reads] at hi)
    | _ => simp [workerStep] at hs
  | cons kva todo =>
    cases choice with
    | random part =>
      obtain ⟨hr, hkva, htodo⟩ := drop_buckets htodo.symm
      simp only [workerStep, Option.map_eq_some_iff] at hs
      obtain ⟨⟨fs₁, ino⟩, hcreate, hs⟩ := hs
      cases hs
      have hframe : Frame J fs₀ none fs fs₁ := frame_create hwf hcreate
      refine ⟨.inl hframe,
        ⟨hm, hr, htodo, fun r' h₁ h₂ => hframe.right _ (hright r' h₁ h₂), [], ?_, ?_⟩,
        fun i hi => ?_, fun i hi => by simp [Pc.reads] at hi⟩
      · exact hkva.symm
      · exact writing_create hwf hin (slash_mem_joinPath _ _) hcreate
      · cases hi; exact .inr (FileSystem.create_spec hcreate).2.1
    | _ => simp [workerStep] at hs

include hP in
theorem stepOk_mapEncode {r ino : ℕ} {path : GoString} {kva : List KeyValue}
    {todo : List (List KeyValue)} {choice : Choice} {fs' : Disk} {pc' : Pc}
    (h : PcOk J fs₀ fs (.mapEncode reply r path ino kva todo))
    (hs : workerStep J fs (.mapEncode reply r path ino kva todo) choice = some (fs', pc')) :
    StepOk J fs₀ fs (.mapEncode reply r path ino kva todo) fs' pc' := by
  obtain ⟨hm, hr, htodo, hright, done, hdone, hw⟩ := h
  cases kva with
  | nil =>
    cases choice with
    | go =>
      cases hs
      rw [List.append_nil] at hdone
      rw [← hdone] at hw
      obtain ⟨hframe, hself⟩ := frame_rename hP hwf (o := .inter reply.workId r) hw
      refine ⟨.inr ⟨ino, rfl, hframe⟩, ⟨hm, htodo, fun r' h₁ h₂ => ?_⟩,
        fun i hi => by simp [Pc.writes] at hi, fun i hi => by simp [Pc.reads] at hi⟩
      rcases Nat.lt_succ_iff_lt_or_eq.mp h₁ with h₁ | rfl
      · exact hframe.right _ (hright r' h₁ h₂)
      · exact hself
    | _ => simp [workerStep] at hs
  | cons kv kva =>
    cases choice with
    | go =>
      cases hs
      have hframe : Frame J fs₀ (some ino) fs _ := frame_append (encode kv) hwf hw
      refine ⟨.inr ⟨ino, rfl, hframe⟩,
        ⟨hm, hr, htodo, fun r' h₁ h₂ => hframe.right _ (hright r' h₁ h₂),
        done ++ [kv], by simp [hdone], ?_⟩, fun i hi => .inl hi,
          fun i hi => by simp [Pc.reads] at hi⟩
      simpa using writing_append (encode kv) hw
    | _ => simp [workerStep] at hs

omit hwf in
theorem drop_reduceFiles {fileN r k : ℕ} {f : GoString} {todo : List GoString}
    (h : (reduceFiles fileN r).drop k = f :: todo) :
    k < fileN ∧ f = intermediateName k r ∧ todo = (reduceFiles fileN r).drop (k + 1) := by
  have hlen : k < (reduceFiles fileN r).length := by
    by_contra hge
    simp [List.drop_eq_nil_of_le (Nat.le_of_not_lt hge)] at h
  rw [List.drop_eq_getElem_cons hlen, List.cons.injEq] at h
  refine ⟨by simpa [reduceFiles] using hlen, ?_, h.2.symm⟩
  rw [← h.1]
  simp [reduceFiles]

theorem stepOk_reduceOpen {intermediate : List KeyValue} {todo : List GoString}
    {choice : Choice} {fs' : Disk} {pc' : Pc}
    (h : PcOk J fs₀ fs (.reduceOpen reply intermediate todo))
    (hs : workerStep J fs (.reduceOpen reply intermediate todo) choice = some (fs', pc')) :
    StepOk J fs₀ fs (.reduceOpen reply intermediate todo) fs' pc' := by
  obtain ⟨hm, hright, k, hk, htodo, hpairs⟩ := h
  cases todo with
  | nil =>
    cases choice with
    | sorted kva =>
      simp only [workerStep] at hs
      split at hs
      · rename_i hsort
        cases hs
        have hkeq : k = J.files.length := by
          have := List.drop_eq_nil_iff.mp htodo.symm
          simp only [reduceFiles, List.length_map, List.length_range] at this
          omega
        subst hkeq hpairs
        exact stepOk_local hwf ⟨hm, hsort.2, hsort.1⟩ rfl (fun i hi => by simp [Pc.reads] at hi)
      · simp at hs
    | _ => simp [workerStep] at hs
  | cons f todo =>
    cases choice with
    | go =>
      obtain ⟨hlt, rfl, hrest⟩ := drop_reduceFiles htodo.symm
      -- the file is there: the task was assigned after every map task was reported
      obtain ⟨ino, hdir, hdata⟩ := hright k hlt
      simp only [workerStep,
        show fs.dir (intermediateName k reply.workId) = some ino from hdir] at hs
      cases hs
      refine ⟨.inl (frame_refl hwf), ⟨hm, hright, k, hlt, hrest, hpairs, ⟨hwf _ _ hdir, hdata⟩,
        List.nil_prefix⟩, fun i hi => by simp [Pc.writes] at hi, fun i hi => ?_⟩
      cases hi
      exact .inr ⟨.inter k reply.workId, hdir⟩
    | _ => simp [workerStep] at hs

omit hwf in
theorem pairs_succ (r k : ℕ) : J.pairs fs₀ r (k + 1) =
    J.pairs fs₀ r k ++ decodeFile (J.want fs₀ (.inter k r)) := by
  rw [Job.want, decodeFile_encode, Job.pairs, List.range_succ, List.flatMap_append]
  simp [Job.pairs]

theorem stepOk_reduceRead {intermediate : List KeyValue} {ino : ℕ} {buf : GoString}
    {todo : List GoString} {choice : Choice} {fs' : Disk} {pc' : Pc}
    (h : PcOk J fs₀ fs (.reduceRead reply intermediate ino buf todo))
    (hs : workerStep J fs (.reduceRead reply intermediate ino buf todo) choice = some (fs', pc')) :
    StepOk J fs₀ fs (.reduceRead reply intermediate ino buf todo) fs' pc' := by
  obtain ⟨hm, hright, k, hk, htodo, hpairs, hrd, hbuf⟩ := h
  cases choice with
  | chunk n =>
    simp only [workerStep, hrd.data] at hs
    obtain ⟨rest, hrest⟩ := hbuf
    split at hs
    · cases hs
      refine stepOk_local hwf ⟨hm, hright, k, hk, htodo, hpairs, hrd, ?_⟩ rfl (fun i hi => hi)
      rw [← hrest, List.drop_left]
      exact List.prefix_append_right_inj buf |>.mpr (List.take_prefix _ _)
    · rename_i hlen
      cases hs
      have hfull : buf = J.want fs₀ (.inter k reply.workId) := by
        rw [← hrest] at hlen ⊢
        have hnil : rest = [] := by simpa using hlen
        rw [hnil, List.append_nil]
      refine stepOk_local hwf ⟨hm, hright, k + 1, hk, htodo, ?_⟩ rfl
        (fun i hi => by simp [Pc.reads] at hi)
      rw [pairs_succ, hpairs, hfull]
  | _ => simp [workerStep] at hs

include hP in
omit hwf in
/-- Whatever order the pairs were sorted in, the records are those of the task. -/
theorem records_eq {r : ℕ} {kva : List KeyValue} (hperm : kva.Perm (J.pairs fs₀ r J.files.length))
    (hsort : KeySorted (·.key) kva) : reduced (·.key) (·.value) J.reducef kva = J.records fs₀ r :=
  Grouping.reduced_sorted hP.reducef (hperm.trans (List.mergeSort_perm _ _).symm) hsort
    (Grouping.keySorted_mergeSort _ _)

include hP hin in
theorem stepOk_reduceSorted {intermediate : List KeyValue} {choice : Choice} {fs' : Disk} {pc' : Pc}
    (h : PcOk J fs₀ fs (.reduceSorted reply intermediate))
    (hs : workerStep J fs (.reduceSorted reply intermediate) choice = some (fs', pc')) :
    StepOk J fs₀ fs (.reduceSorted reply intermediate) fs' pc' := by
  obtain ⟨hm, hsort, hperm⟩ := h
  cases choice with
  | random part =>
    simp only [workerStep, Option.map_eq_some_iff] at hs
    obtain ⟨⟨fs₁, ino⟩, hcreate, hs⟩ := hs
    cases hs
    refine ⟨.inl (frame_create hwf hcreate), ⟨hm, hsort, [], ?_, ?_⟩, fun i hi => ?_,
      fun i hi => by simp [Pc.reads] at hi⟩
    · simpa using records_eq hP hperm hsort
    · exact writing_create hwf hin (slash_mem_joinPath _ _) hcreate
    · cases hi; exact .inr (FileSystem.create_spec hcreate).2.1
  | _ => simp [workerStep] at hs

include hP in
theorem stepOk_reduceWrite {intermediate : List KeyValue} {path : GoString}
    {ino i : ℕ} {choice : Choice} {fs' : Disk} {pc' : Pc}
    (h : PcOk J fs₀ fs (.reduceWrite reply intermediate path ino i))
    (hs : workerStep J fs (.reduceWrite reply intermediate path ino i) choice = some (fs', pc')) :
    StepOk J fs₀ fs (.reduceWrite reply intermediate path ino i) fs' pc' := by
  obtain ⟨hm, hsort, done, hdone, hw⟩ := h
  cases choice with
  | go =>
    simp only [workerStep] at hs
    split at hs
    · rename_i j record hround
      cases hs
      have hframe : Frame J fs₀ (some ino) fs _ := frame_append (line record) hwf hw
      refine ⟨.inr ⟨ino, rfl, hframe⟩, ⟨hm, hsort, done ++ [record], ?_, ?_⟩, fun i hi => .inl hi,
        fun i hi => by simp [Pc.reads] at hi⟩
      · rw [← hdone, (reduceRound_some hsort hround).2, List.append_assoc]; rfl
      · simpa [render] using writing_append (line record) hw
    · rename_i hround
      cases hs
      rw [reduceRound_none hround, Grouping.reduced_nil, List.append_nil] at hdone
      rw [hdone] at hw
      obtain ⟨hframe, hself⟩ := frame_rename hP hwf (o := .out reply.workId) hw
      exact ⟨.inr ⟨ino, rfl, hframe⟩, .inr ⟨hm, hself⟩, fun i hi => by simp [Pc.writes] at hi,
        fun i hi => by simp [Pc.reads] at hi⟩
  | _ => simp [workerStep] at hs

include hP hin in
/-- Whatever a worker does next. -/
theorem stepOk_worker {pc : Pc} {choice : Choice} {fs' : Disk} {pc' : Pc} (h : PcOk J fs₀ fs pc)
    (hs : workerStep J fs pc choice = some (fs', pc')) : StepOk J fs₀ fs pc fs' pc' := by
  cases pc with
  | mapStart reply => exact stepOk_mapStart hwf hin h hs
  | mapBucket reply r todo => exact stepOk_mapBucket hwf hin h hs
  | mapEncode reply r path ino kva todo => exact stepOk_mapEncode hP hwf h hs
  | reduceOpen reply intermediate todo => exact stepOk_reduceOpen hwf h hs
  | reduceRead reply intermediate ino buf todo => exact stepOk_reduceRead hwf h hs
  | reduceSorted reply intermediate => exact stepOk_reduceSorted hP hwf hin h hs
  | reduceWrite reply intermediate path ino i => exact stepOk_reduceWrite hP hwf h hs
  | _ => simp [workerStep] at hs

end step

end DistSys.Mr
