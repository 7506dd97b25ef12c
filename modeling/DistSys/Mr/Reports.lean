import DistSys.Mr.Calls
import DistSys.Mr.Intermediate

/-! @go mr/worker.go | name:handleMapTask, handleReduceTask, NotifyComplete | scheme:files |
    fails:report

    What a worker's report is worth when file operations fail. A map task is reported although
    writes or renamings have failed, and a reduce task although a file was not read to its end or
    the renaming has failed. Only what stops the worker keeps it from reporting.

        map     Open, ReadAll, CreateTemp  stop it     Encode, Rename           go unnoticed
        reduce  Open, CreateTemp           stop it     Decode, Fprintf, Rename  go unnoticed -/

namespace DistSys.Mr
open GoString (lit)
open Grouping (KeySorted)

/-- The file is there, and holds exactly these pairs. -/
def HoldsPairs (fs : Disk) (name : GoString) (kvs : List KeyValue) : Prop :=
  ∃ bytes, fs.read name = some bytes ∧ Records bytes kvs

/-! ### Map tasks -/

/-- How the file operations of a map task turn out. -/
structure MapOps where
  opened : Bool
  readAll : Bool
  buckets : ℕ → BucketOps

/-- `handleMapTask` up to the call of `mapf`. -/
def mapInput (J : Job) (reply : CoordinatorReply) (ops : MapOps) (fs : Disk) :
    Except Abort (List KeyValue) :=
  match reply.inputFiles with
  | [fileName] =>
    match if ops.opened then fs.read fileName else none with
    | none => .error (.fatal (.cannotOpen fileName))
    | some content => if ops.readAll then .ok (J.mapf fileName content)
        else .error (.cannotRead fileName)
  | _ => .error (.fatal .inputFiles)

/-- The disk when `NotifyComplete` is sent, or how the task ends without that. -/
def handleMapTask (J : Job) (reply : CoordinatorReply) (ops : MapOps)
    (fs : Disk) : Except Abort Disk :=
  match mapInput J reply ops fs with
  | .error abort => .error abort
  | .ok kva =>
    -- what `writeIntermediate` returns is not looked at
    match writeIntermediate J reply.workId reply.nReduce kva ops.buckets fs with
    | none => .error .panics
    | some fs => .ok fs

/-- The pairs of bucket `r` end up in their file: it is renamed with nothing missing, or it was
    there already. -/
def Saved (fs : Disk) (mapID r : ℕ) (ops : BucketOps) (kva : List KeyValue) : Prop :=
  if ops.renamed then whole ops.fails 0 kva = true ∧ ∀ kv ∈ kva, kv.Valid
  else HoldsPairs fs (intermediateName mapID r) kva

section map
variable {J : Job} {reply : CoordinatorReply} {ops : MapOps} {fs fs' : Disk} {kva : List KeyValue}

theorem handleMapTask_ok (h : mapInput J reply ops fs = .ok kva) :
    handleMapTask J reply ops fs = .ok fs' ↔
    writeIntermediate J reply.workId reply.nReduce kva ops.buckets fs = some fs' := by
  rw [handleMapTask, h]
  dsimp only
  split
  · rename_i hnone
    simp [hnone]
  · rename_i hsome
    simp [hsome]

theorem holdsPairs_iff_saved (hwf : fs.Wf)
    (h : writeIntermediate J reply.workId reply.nReduce kva ops.buckets fs = some fs') {r : ℕ}
    (hr : r < reply.nReduce) :
    HoldsPairs fs' (intermediateName reply.workId r) (bucket reply.nReduce r kva) ↔
      Saved fs reply.workId r (ops.buckets r) (bucket reply.nReduce r kva) := by
  rw [HoldsPairs, read_writeIntermediate hwf h hr, Saved]
  split
  · simp only [Option.some.injEq, exists_eq_left', records_encodeLoop_iff]
  · rfl

/-- CORRECT: a reported map task has its output complete iff a temporary file could not be created,
    so that it is not reported, or every bucket has been saved. -/
theorem reported_complete_iff (J : Job) (reply : CoordinatorReply) (ops : MapOps)
    {fs : Disk} (hwf : fs.Wf) :
    (∀ kva fs', mapInput J reply ops fs = .ok kva → handleMapTask J reply ops fs = .ok fs' →
      ∀ r < reply.nReduce,
        HoldsPairs fs' (intermediateName reply.workId r) (bucket reply.nReduce r kva)) ↔
    ∀ kva, mapInput J reply ops fs = .ok kva →
      (∃ r < reply.nReduce, created J fs reply.workId r (ops.buckets r) = false) ∨
      ∀ r < reply.nReduce,
        Saved fs reply.workId r (ops.buckets r) (bucket reply.nReduce r kva) := by
  have hsome : ∀ {kva : List KeyValue} {r : ℕ}, r < reply.nReduce →
      ((writeIntermediate J reply.workId reply.nReduce kva ops.buckets fs).isSome = true ↔
        ∀ r < reply.nReduce, created J fs reply.workId r (ops.buckets r) = true) := fun hr =>
    writeIntermediate_isSome hwf (Nat.one_le_of_lt hr)
  refine forall_congr' fun kva => ⟨fun h hinput => ?_, fun h fs' hinput htask r hr => ?_⟩
  · rw [or_iff_not_imp_left]
    intro hcreated r hr
    have hall : ∀ r < reply.nReduce, created J fs reply.workId r (ops.buckets r) = true :=
      fun r hr => by
      rw [← Bool.not_eq_false]
      exact fun hfalse => hcreated ⟨r, hr, hfalse⟩
    obtain ⟨fs', hwrite⟩ := Option.isSome_iff_exists.mp ((hsome hr).mpr hall)
    exact (holdsPairs_iff_saved hwf hwrite hr).mp
      (h fs' hinput ((handleMapTask_ok hinput).mpr hwrite) r hr)
  · have hwrite := (handleMapTask_ok hinput).mp htask
    rcases h hinput with ⟨r', hr', hfalse⟩ | hsaved
    · have htrue := (hsome hr).mp (by rw [hwrite]; rfl) r' hr'
      rw [htrue] at hfalse
      cases hfalse
    · exact (holdsPairs_iff_saved hwf hwrite hr).mpr (hsaved r hr)

end map

/-- A map function that emits the text of its file, once. -/
def textJob : Job where
  mapf := fun _ content => [⟨lit "k", content⟩]
  reducef := fun _ vals => vals.flatten
  files := [lit "in"]
  nReduce := 1
  tempDir := lit "/tmp"

/-- A disk with one file. -/
def diskOf (name content : GoString) : Disk :=
  ⟨fun n => if n = name then some 0 else none, fun _ => content, 1⟩

theorem wf_diskOf (name content : GoString) : (diskOf name content).Wf := fun n ino h => by
  simp only [diskOf, Option.ite_none_right_eq_some, Option.some.injEq] at h
  obtain ⟨-, rfl⟩ := h
  exact Nat.zero_lt_one

theorem reported_complete_iff_text :
    let reply : CoordinatorReply := ⟨.mapTask, [lit "in"], 1, 0⟩
    let ops : MapOps := ⟨true, true, fun _ => .good (lit "7")⟩
    ∀ kva fs', mapInput textJob reply ops (diskOf (lit "in") (lit "text")) = .ok kva →
      handleMapTask textJob reply ops (diskOf (lit "in") (lit "text")) = .ok fs' →
      ∀ r < 1, HoldsPairs fs' (intermediateName 0 r) (bucket 1 r kva) := by
  refine (reported_complete_iff textJob _ _ (wf_diskOf _ _)).mpr fun kva hinput =>
    Or.inr fun r hr => ?_
  obtain rfl : [⟨lit "k", lit "text"⟩] = kva := Except.ok.inj hinput
  obtain rfl : r = 0 := Nat.lt_one_iff.mp hr
  exact ⟨by decide +kernel, by decide +kernel⟩

/-- The renaming fails, as it does from one file system to another: the task is reported, and its
    file does not exist. -/
theorem not_reported_complete_rename : ∃ fs',
    handleMapTask textJob ⟨.mapTask, [lit "in"], 1, 0⟩
      ⟨true, true, fun _ => ⟨some (lit "7"), fun _ => none, false⟩⟩
      (diskOf (lit "in") (lit "text")) = .ok fs' ∧
    fs'.read (intermediateName 0 0) = none :=
  ⟨_, rfl, by decide +kernel⟩

/-! ### Reduce tasks -/

/-- `sort.Slice` by key: which of the sorted orders it leaves is up to it. -/
structure SortSlice where
  sort : List KeyValue → List KeyValue
  perm : ∀ kvs, (sort kvs).Perm kvs
  sorted : ∀ kvs, KeySorted (·.key) (sort kvs)

/-- How the file operations of a reduce task turn out. -/
structure ReduceOps where
  reads : ℕ → ReadOps
  random : Option GoString
  fails : ℕ → Option ℕ
  renamed : Bool

/-- The bytes the calls of `Fprintf` leave in the file. Each is a write of its own. -/
def printLoop (fails : ℕ → Option ℕ) : ℕ → List Call → GoString
  | _, [] => []
  | i, c :: calls =>
      (match fails i with
        | none => c.line
        | some k => c.line.dropLast.take k) ++ printLoop fails (i + 1) calls

/-- The disk when `NotifyComplete` is sent, or how the task ends without that. -/
def handleReduceTask (J : Job) (S : SortSlice) (reply : CoordinatorReply)
    (ops : ReduceOps) (fs : Disk) : Except Abort Disk :=
  match loadIntermediate fs ops.reads 0 reply.inputFiles [] with
  | .error abort => .error abort
  | .ok intermediate =>
    let calls := reduceLoop J.reducef (S.sort intermediate) 0
    match ops.random.bind fun random =>
      fs.publish (J.outTemp reply.workId random) (outName reply.workId)
        (printLoop ops.fails 0 calls) ops.renamed with
    | none => .error .failToCreateTemp
    | some fs => .ok fs

/-- `CreateTemp` works for the output: no file has the name it makes. -/
def outCreated (J : Job) (fs : Disk) (workId : ℕ) (ops : ReduceOps) : Bool :=
  ops.random.any fun random => (fs.read (J.outTemp workId random)).isNone

/-- `Open` works for file `m`. -/
def inputOpened (fs : Disk) (ops : ReduceOps) (m : ℕ) (fileName : GoString) : Bool :=
  (ops.reads m).opened && (fs.read fileName).isSome

/-- File `m` is all records, and reading it does not fail before the last of them. -/
def Consumed (fs : Disk) (ops : ReduceOps) (m : ℕ) (fileName : GoString) : Prop :=
  ∃ bytes kvs, fs.read fileName = some bytes ∧ Records bytes kvs ∧
    ∀ n, (ops.reads m).stops = some n → kvs.length ≤ n

section reduce
variable {J : Job} {S : SortSlice} {reply : CoordinatorReply} {ops : ReduceOps} {fs fs' : Disk}

theorem opened_of_load {reads : ℕ → ReadOps} {files : List GoString} {m : ℕ}
    {acc kvs : List KeyValue} (h : loadIntermediate fs reads m files acc = .ok kvs) :
    ∀ i fileName, files[i]? = some fileName → (reads (m + i)).opened = true ∧
      (fs.read fileName).isSome = true := by
  induction files generalizing m acc with
  | nil =>
    intro i fileName hi
    simp at hi
  | cons f files ih =>
    intro i fileName hi
    rw [loadIntermediate] at h
    split at h
    · cases h
    · rename_i bytes hread
      obtain ⟨hopened, hread⟩ := Option.ite_none_right_eq_some.mp hread
      cases i with
      | zero =>
        cases hi
        exact ⟨hopened, by rw [hread]; rfl⟩
      | succ i =>
        have := ih h i fileName hi
        rwa [show m + 1 + i = m + (i + 1) by omega] at this

/-- The task is reported iff every file can be opened and the output can be created. -/
theorem handleReduceTask_ok : (∃ fs', handleReduceTask J S reply ops fs = .ok fs') ↔
    (∀ m fileName, reply.inputFiles[m]? = some fileName → inputOpened fs ops m fileName = true) ∧
      outCreated J fs reply.workId ops = true := by
  have hload : (∃ kvs, loadIntermediate fs ops.reads 0 reply.inputFiles [] = .ok kvs) ↔
      ∀ m fileName, reply.inputFiles[m]? = some fileName →
        inputOpened fs ops m fileName = true := by
    simp only [inputOpened, Bool.and_eq_true]
    constructor
    · rintro ⟨kvs, h⟩ m fileName hm
      have := opened_of_load h m fileName hm
      rwa [Nat.zero_add] at this
    · intro h
      refine ⟨_, loadIntermediate_eq (fun m => ((reply.inputFiles[m]?).bind fs.read).getD [])
        fun m f hm => ?_⟩
      obtain ⟨bytes, hbytes⟩ := Option.isSome_iff_exists.mp (h m f hm).2
      rw [Nat.zero_add, hm, Option.bind_some, hbytes]
      exact ⟨(h m f hm).1, rfl⟩
  rw [← hload, handleReduceTask]
  cases loadIntermediate fs ops.reads 0 reply.inputFiles [] with
  | error abort => simp
  | ok intermediate =>
    simp only [Except.ok.injEq, exists_eq', true_and, outCreated]
    cases ops.random with
    | none => simp
    | some random =>
      rw [Option.any_some, Option.isNone_iff_eq_none, Option.bind_some]
      split
      · rename_i hnone
        have htaken := mt FileSystem.publish_isSome.mpr (Option.not_isSome_iff_eq_none.mpr hnone)
        simp [htaken]
      · rename_i hsome
        have hfree := FileSystem.publish_isSome.mp (Option.isSome_of_eq_some hsome)
        simp [hfree]

theorem outName_ne_outTemp (J : Job) (r i : ℕ) (random : GoString) :
    outName r ≠ J.outTemp i random :=
  name_ne_path (.out r) (slash_mem_joinPath _ _)

/-- What is published, if the renaming works. -/
theorem read_handleReduceTask {intermediate : List KeyValue} (hwf : fs.Wf)
    (hload : loadIntermediate fs ops.reads 0 reply.inputFiles [] = .ok intermediate)
    (h : handleReduceTask J S reply ops fs = .ok fs') : fs'.read (outName reply.workId) =
      if ops.renamed then
        some (printLoop ops.fails 0 (reduceLoop J.reducef (S.sort intermediate) 0))
      else fs.read (outName reply.workId) := by
  rw [handleReduceTask, hload] at h
  dsimp only at h
  split at h
  · cases h
  · rename_i hsome
    cases h
    obtain ⟨random, -, hpublish⟩ := Option.bind_eq_some_iff.mp hsome
    exact (FileSystem.published hwf (outName_ne_outTemp J _ _ _) hpublish).content

theorem readRecords_eq_iff {reads : ReadOps} {bytes : GoString} {kvs : List KeyValue}
    (h : Records bytes kvs) : readRecords reads bytes = kvs ↔ ∀ n, reads.stops = some n →
      kvs.length ≤ n := by
  rw [readRecords, h.decodeFile]
  cases reads.stops with
  | none => simp
  | some n => simp

/-- CORRECT: a reduce task is reported only after all records of all its files have been read and
    its output has been renamed, iff a file cannot be opened or the output not be created, so that
    it is not reported, or all files are records to their ends and the renaming works. -/
theorem reported_whole_iff (J : Job) (S : SortSlice) (reply : CoordinatorReply)
    (ops : ReduceOps) (fs : Disk) : (∀ fs', handleReduceTask J S reply ops fs = .ok fs' →
      (∀ m fileName, reply.inputFiles[m]? = some fileName → ∃ bytes kvs,
        fs.read fileName = some bytes ∧ Records bytes kvs ∧ readRecords (ops.reads m) bytes = kvs) ∧
        ops.renamed = true) ↔
    (∃ m fileName, reply.inputFiles[m]? = some fileName ∧ inputOpened fs ops m fileName = false) ∨
    outCreated J fs reply.workId ops = false ∨
    (∀ m fileName, reply.inputFiles[m]? = some fileName → Consumed fs ops m fileName) ∧
      ops.renamed = true := by
  have hconsumed : ∀ m fileName, (∃ bytes kvs, fs.read fileName = some bytes ∧ Records bytes kvs ∧
      readRecords (ops.reads m) bytes = kvs) ↔ Consumed fs ops m fileName := fun m fileName =>
    exists₂_congr fun bytes kvs => and_congr_right fun _ => and_congr_right fun h =>
      readRecords_eq_iff h
  simp only [hconsumed]
  constructor
  · intro h
    rcases em (∃ fs', handleReduceTask J S reply ops fs = .ok fs') with ⟨fs', hfs'⟩ | hnot
    · exact Or.inr (Or.inr (h fs' hfs'))
    · rw [handleReduceTask_ok, not_and_or] at hnot
      rcases hnot with hnot | hnot
      · push Not at hnot
        obtain ⟨m, fileName, hm, hfalse⟩ := hnot
        exact Or.inl ⟨m, fileName, hm, Bool.eq_false_of_not_eq_true hfalse⟩
      · exact Or.inr (Or.inl (Bool.eq_false_of_not_eq_true hnot))
  · rintro h fs' hfs'
    obtain ⟨hopened, hcreated⟩ := handleReduceTask_ok.mp ⟨fs', hfs'⟩
    rcases h with ⟨m, fileName, hm, hfalse⟩ | hfalse | h
    · rw [hopened m fileName hm] at hfalse
      cases hfalse
    · rw [hcreated] at hfalse
      cases hfalse
    · exact h

end reduce

/-- A sort that leaves equal keys as they are. -/
def stableSort : SortSlice where
  sort := fun kvs => kvs.mergeSort fun x y => x.key ≤ y.key
  perm := fun _ => List.mergeSort_perm _ _
  sorted := fun kvs => Grouping.keySorted_mergeSort _ kvs

/-- A file cut off within its second record. -/
def truncated : GoString := encode ⟨lit "a", lit "1"⟩ ++ lit "\x7b\"Ke"

theorem not_records_truncated (kvs : List KeyValue) : ¬ Records truncated kvs := by
  have hfirst : decode truncated = some (⟨lit "a", lit "1"⟩, lit "\n\x7b\"Ke") := by decide +kernel
  intro h
  cases h with
  | nil h => exact absurd h (by decide +kernel)
  | cons hd hrest =>
    rw [hfirst] at hd
    cases hd
    cases hrest with
    | nil h => exact absurd h (by decide +kernel)
    | cons hd _ =>
      have hnone : decode (lit "\n\x7b\"Ke") = none := by decide +kernel
      rw [hnone] at hd
      cases hd

/-- The reply that assigns the only reduce task of a job with one map task. -/
def onlyReduce : CoordinatorReply := ⟨.reduceTask, [intermediateName 0 0], 1, 0⟩

/-- Every file operation works. -/
def ReduceOps.good (random : GoString) : ReduceOps :=
  ⟨fun _ => .good, some random, fun _ => none, true⟩

/-- The task publishes what it has read of a file that is cut off, and is reported. -/
theorem not_reported_whole_truncated : (∀ kvs, ¬ Records truncated kvs) ∧
    ∃ fs', handleReduceTask textJob stableSort onlyReduce (.good (lit "7"))
      (diskOf (intermediateName 0 0) truncated) = .ok fs' ∧
        fs'.read (outName 0) = some (lit "a 1\n") := by
  have hok : ∃ fs', handleReduceTask textJob stableSort onlyReduce (.good (lit "7"))
      (diskOf (intermediateName 0 0) truncated) = .ok fs' := by
    rw [handleReduceTask_ok]
    refine ⟨fun m fileName hm => ?_, by decide +kernel⟩
    cases m with
    | zero =>
      cases hm
      decide +kernel
    | succ m => simp [onlyReduce] at hm
  have hload : loadIntermediate (diskOf (intermediateName 0 0) truncated) (fun _ => .good) 0
      onlyReduce.inputFiles [] = .ok [⟨lit "a", lit "1"⟩] := by decide +kernel
  have hsort : stableSort.sort [⟨lit "a", lit "1"⟩] = [⟨lit "a", lit "1"⟩] :=
    List.mergeSort_singleton _
  have hcalls :
      reduceLoop textJob.reducef [⟨lit "a", lit "1"⟩] 0 = [⟨lit "a", [lit "1"], lit "a 1\n"⟩] := by
    have hhead := @reduceLoop_cons textJob.reducef [⟨lit "a", lit "1"⟩] 0 (by decide)
    have htail : reduceLoop textJob.reducef [⟨lit "a", lit "1"⟩] 1 = [] :=
      reduceLoop_nil (by decide)
    rw [hhead]
    exact congrArg _ htail
  obtain ⟨fs', hfs'⟩ := hok
  refine ⟨not_records_truncated, fs', hfs', ?_⟩
  have hread := read_handleReduceTask (wf_diskOf _ _) hload hfs'
  rw [hsort, hcalls] at hread
  exact hread

end DistSys.Mr
