import DistSys.Mr.Outputs
import DistSys.Mr.Records

/-! @go mr/worker.go, mr/coordinator.go | name:writeIntermediate, handleReduceTask, MakeCoordinator
    | scheme:files

    The shuffle, with every way its file operations can turn out. A map task writes one file for
    each reduce task: a temporary file is created, the pairs are encoded into it and it is renamed.
    The errors of the writes and of the renaming are dropped; without a temporary file the worker
    panics. A reduce task reads one file of each map task, in the order of the map tasks.

                   reduce 0   reduce 1   …
        map 0      mr-0-0     mr-0-1        ◀── writeIntermediate(0, …) writes a row
        map 1      mr-1-0     mr-1-1
          ⋮           ▲ handleReduceTask reads a column -/

namespace DistSys.Mr
open GoString (lit itoa)
open Machine (run run_history)

/-- How the file operations on one bucket turn out: what `CreateTemp` adds to the name, or `none` if
    it fails, which writes fail and after how many bytes, and whether `Rename` works. -/
structure BucketOps where
  random : Option GoString
  fails : ℕ → Option ℕ
  renamed : Bool

/-- Everything works. -/
def BucketOps.good (random : GoString) : BucketOps := ⟨some random, fun _ => none, true⟩

/-- How reading one file turns out: whether `Open` works on a file that exists, and after how many
    records reading it fails, if it does. -/
structure ReadOps where
  opened : Bool
  stops : Option ℕ

def ReadOps.good : ReadOps := ⟨true, none⟩

/-- How a task ends without a report. -/
inductive Abort where
  | fatal (reason : Fatal)
  | cannotRead (fileName : GoString)
  | failToCreateTemp
  | panics
  deriving DecidableEq

/-- The round of `writeIntermediate` for bucket `r`. -/
def writeBucket (J : Job) (mapID r : ℕ) (ops : BucketOps) (kva : List KeyValue)
    (fs : Disk) : Option Disk :=
  ops.random.bind fun random =>
    fs.publish (J.mapTemp mapID r random) (intermediateName mapID r)
      (encodeLoop ops.fails 0 kva) ops.renamed

/-- `for r, kva := range intermediate`, from `r` on. -/
def writeBuckets (J : Job) (mapID : ℕ) (ops : ℕ → BucketOps) :
    ℕ → List (List KeyValue) → Disk → Option Disk
  | _, [], fs => some fs
  | r, kva :: todo, fs =>
    (writeBucket J mapID r (ops r) kva fs).bind (writeBuckets J mapID ops (r + 1) todo)

/-- The disk when it returns; `none` if it panics, without a temporary file or on a division by
    0. -/
def writeIntermediate (J : Job) (mapID nReduce : ℕ) (kvs : List KeyValue)
    (ops : ℕ → BucketOps) (fs : Disk) : Option Disk :=
  if nReduce = 0 ∧ kvs ≠ [] then none else writeBuckets J mapID ops 0 (buckets nReduce kvs) fs

/-- What the `Decode` loop reads from a file. An error of the file ends it as any other does. -/
def readRecords (ops : ReadOps) (bytes : GoString) : List KeyValue :=
  match ops.stops with
  | none => decodeFile bytes
  | some n => (decodeFile bytes).take n

/-- `for m := 0; m < len(reply.InputFiles); m++`, from `m` on. -/
def loadIntermediate (fs : Disk) (ops : ℕ → ReadOps) :
    ℕ → List GoString → List KeyValue → Except Abort (List KeyValue)
  | _, [], intermediate => .ok intermediate
  | m, fileName :: todo, intermediate =>
      match if (ops m).opened then fs.read fileName else none with
      | none => .error (.fatal (.failToOpen fileName))
      | some bytes =>
        loadIntermediate fs ops (m + 1) todo (intermediate ++ readRecords (ops m) bytes)

/-- `CreateTemp` works for bucket `r`: no file has the name it makes. -/
def created (J : Job) (fs : Disk) (mapID r : ℕ) (ops : BucketOps) : Bool :=
  ops.random.any fun random => (fs.read (J.mapTemp mapID r random)).isNone

/-! ### Temporary names -/

theorem mapTemp_injective {J : Job} {mapID r r' : ℕ} {random random' : GoString}
    (h : J.mapTemp mapID r random = J.mapTemp mapID r' random') : r = r' := by
  have hdash : ∀ a s, itoa a ++ (lit "-x.tmp" ++ s) = itoa a ++ 0x2D :: (lit "x.tmp" ++ s) :=
    fun _ _ => rfl
  have hname : lit "mr-" ++ itoa mapID ++ lit "-" ++ itoa r ++ lit "-x.tmp" ++ random =
      lit "mr-" ++ itoa mapID ++ lit "-" ++ itoa r' ++ lit "-x.tmp" ++ random' := by
    simp only [Job.mapTemp, joinPath] at h
    split at h <;> exact List.append_cancel_left h
  simp only [List.append_assoc, List.append_cancel_left_eq, hdash] at hname
  exact GoString.itoa_injective
    (GoString.digits_append_inj (GoString.itoa_digits r) (GoString.itoa_digits r')
    (by decide) (by decide) hname).1

theorem intermediateName_ne_mapTemp (J : Job) (m r mapID i : ℕ) (random : GoString) :
    intermediateName m r ≠ J.mapTemp mapID i random :=
  name_ne_path (.inter m r) (slash_mem_joinPath _ _)

/-! ### Writing a row -/

section write
variable {J : Job} {mapID : ℕ} {fs fs' : Disk}

theorem writeBucket_isSome {r : ℕ} {ops : BucketOps} (kva : List KeyValue) :
    (writeBucket J mapID r ops kva fs).isSome = true ↔ created J fs mapID r ops = true := by
  rw [writeBucket, created]
  cases ops.random with
  | none => simp
  | some random =>
    rw [Option.bind_some, FileSystem.publish_isSome, Option.any_some, Option.isNone_iff_eq_none]

/-- A bucket is written. -/
theorem writeBucket_published {r : ℕ} {ops : BucketOps} {kva : List KeyValue} (hwf : fs.Wf)
    (h : writeBucket J mapID r ops kva fs = some fs') : ∃ random,
    fs.Published fs' (J.mapTemp mapID r random) (intermediateName mapID r)
      (encodeLoop ops.fails 0 kva) ops.renamed := by
  obtain ⟨random, -, hpublish⟩ := Option.bind_eq_some_iff.mp h
  exact ⟨random, FileSystem.published hwf (intermediateName_ne_mapTemp J _ _ _ _ _) hpublish⟩

/-- What writing the buckets from `r` on changes. -/
structure Wrote (J : Job) (mapID : ℕ) (ops : ℕ → BucketOps) (r : ℕ) (todo : List (List KeyValue))
    (fs fs' : Disk) : Prop where
  wf : fs'.Wf
  bucket : ∀ i kva, todo[i]? = some kva → fs'.read (intermediateName mapID (r + i)) =
    if (ops (r + i)).renamed then some (encodeLoop (ops (r + i)).fails 0 kva)
    else fs.read (intermediateName mapID (r + i))
  others :
    ∀ name, (∀ i ≥ r, name ≠ intermediateName mapID i ∧ ∀ random, name ≠ J.mapTemp mapID i random) →
    fs'.read name = fs.read name

/-- All buckets are written, each to its file. -/
theorem wrote {ops : ℕ → BucketOps} {todo : List (List KeyValue)} {r : ℕ} {fs : Disk} (hwf : fs.Wf)
    (h : writeBuckets J mapID ops r todo fs = some fs') : Wrote J mapID ops r todo fs fs' := by
  induction todo generalizing r fs with
  | nil =>
    cases h
    exact ⟨hwf, fun i kva hi => by simp at hi, fun _ _ => rfl⟩
  | cons kva todo ih =>
    obtain ⟨fs₁, h₁, h⟩ := Option.bind_eq_some_iff.mp h
    obtain ⟨random, hpub⟩ := writeBucket_published hwf h₁
    have hrest := ih hpub.wf h
    refine ⟨hrest.wf, fun i kva' hi => ?_, fun name hname => ?_⟩
    · cases i with
      | zero =>
        cases hi
        -- the buckets after it leave the file alone
        rw [Nat.add_zero, hrest.others _ fun i hi =>
          ⟨fun heq => ?_, fun _ => intermediateName_ne_mapTemp J _ _ _ _ _⟩, hpub.content]
        have := (intermediateName_injective heq).2
        omega
      | succ i =>
        have hbucket := hrest.bucket i kva' hi
        rw [show r + 1 + i = r + (i + 1) by omega] at hbucket
        rw [hbucket, hpub.others _ (intermediateName_ne_mapTemp J _ _ _ _ _) fun heq => ?_]
        have := (intermediateName_injective heq).2
        omega
    · obtain ⟨hinter, htemp⟩ := hname r le_rfl
      rw [hrest.others name fun i hi => hname i (by omega), hpub.others name (htemp random) hinter]

/-- The row can be written iff every temporary file can be created. -/
theorem writeBuckets_isSome {ops : ℕ → BucketOps} {todo : List (List KeyValue)} {r : ℕ} {fs : Disk}
    (hwf : fs.Wf) : (writeBuckets J mapID ops r todo fs).isSome = true ↔
      ∀ i < todo.length, created J fs mapID (r + i) (ops (r + i)) = true := by
  induction todo generalizing r fs with
  | nil => simp [writeBuckets]
  | cons kva todo ih =>
    have hfirst : (∀ i < (kva :: todo).length, created J fs mapID (r + i) (ops (r + i)) = true) ↔
        created J fs mapID r (ops r) = true ∧
          ∀ i < todo.length, created J fs mapID (r + 1 + i) (ops (r + 1 + i)) = true := by
      rw [List.length_cons, Nat.forall_lt_succ_left]
      simp only [Nat.add_zero, Nat.add_assoc, Nat.add_comm 1]
    rw [hfirst, ← writeBucket_isSome kva, writeBuckets]
    cases h₁ : writeBucket J mapID r (ops r) kva fs with
    | none => simp
    | some fs₁ =>
      obtain ⟨random, hpub⟩ := writeBucket_published hwf h₁
      rw [Option.bind_some, ih hpub.wf, Option.isSome_some]
      simp only [true_and]
      refine forall₂_congr fun i _ => ?_
      -- the first bucket leaves the other temporary names alone
      have hsame : ∀ random', fs₁.read (J.mapTemp mapID (r + 1 + i) random') =
          fs.read (J.mapTemp mapID (r + 1 + i) random') := by
        intro random'
        refine hpub.others _ (fun heq => ?_) (intermediateName_ne_mapTemp J _ _ _ _ _).symm
        have := mapTemp_injective heq
        omega
      simp only [created, hsame]

theorem getElem?_buckets {nReduce r : ℕ} (hr : r < nReduce) (kvs : List KeyValue) :
    (buckets nReduce kvs)[r]? = some (bucket nReduce r kvs) := by
  simp [buckets_eq, hr]

variable {nReduce : ℕ} {kvs : List KeyValue} {ops : ℕ → BucketOps}

theorem writeIntermediate_isSome (hwf : fs.Wf) (hn : 1 ≤ nReduce) :
    (writeIntermediate J mapID nReduce kvs ops fs).isSome = true ↔
      ∀ r < nReduce, created J fs mapID r (ops r) = true := by
  rw [writeIntermediate, if_neg (by omega), writeBuckets_isSome hwf]
  simp [buckets_eq]

theorem wrote_of_writeIntermediate (hwf : fs.Wf)
    (h : writeIntermediate J mapID nReduce kvs ops fs = some fs') :
    Wrote J mapID ops 0 (buckets nReduce kvs) fs fs' := by
  rw [writeIntermediate] at h
  split at h
  · cases h
  · exact wrote hwf h

/-- The file of bucket `r` afterwards. -/
theorem read_writeIntermediate (hwf : fs.Wf)
    (h : writeIntermediate J mapID nReduce kvs ops fs = some fs')
    {r : ℕ} (hr : r < nReduce) : fs'.read (intermediateName mapID r) =
      if (ops r).renamed then some (encodeLoop (ops r).fails 0 (bucket nReduce r kvs))
      else fs.read (intermediateName mapID r) := by
  have := (wrote_of_writeIntermediate hwf h).bucket r _ (getElem?_buckets hr kvs)
  rwa [Nat.zero_add] at this

/-- The files of other map tasks are as they were. -/
theorem read_writeIntermediate_other (hwf : fs.Wf)
    (h : writeIntermediate J mapID nReduce kvs ops fs = some fs') {m : ℕ} (hm : m ≠ mapID) (r : ℕ) :
    fs'.read (intermediateName m r) = fs.read (intermediateName m r) :=
  (wrote_of_writeIntermediate hwf h).others _ fun _ _ =>
    ⟨fun heq => hm (intermediateName_injective heq).1,
      fun _ => intermediateName_ne_mapTemp J _ _ _ _ _⟩

end write

/-- CORRECT: for any number of map and reduce tasks, bucket `r` of map task `m` is written where
    reduce task `r` looks for it, under entry `m` of the files that `MakeCoordinator` lists;
    different buckets have different names, and none has the name of an output. -/
theorem file_names_match (files : List GoString) (nReduce : ℕ) :
    (∀ m < files.length, ∀ r < nReduce, ∃ task name,
      (makeCoordinator files nReduce).reduceTasks[r]? = some task ∧ task.input[m]? = some name ∧
      name = intermediateName m r ∧
      ∀ J kvs ops fs fs', fs.Wf → writeIntermediate J m nReduce kvs ops fs = some fs' →
        (ops r).renamed = true →
          fs'.read name = some (encodeLoop (ops r).fails 0 (bucket nReduce r kvs))) ∧
    (∀ m r m' r', intermediateName m r = intermediateName m' r' → m = m' ∧ r = r') ∧
    ∀ m r k, intermediateName m r ≠ outName k := by
  refine ⟨fun m hm r hr => ?_, fun m r m' r' => intermediateName_injective,
    intermediateName_ne_outName⟩
  have htask : (makeCoordinator files nReduce).reduceTasks[r]? =
      some ⟨r, reduceFiles files.length r, .todo, zeroTime⟩ := by
    simp [makeCoordinator, hr]
  have hentry : (reduceFiles files.length r)[m]? = some (intermediateName m r) := by
    simp [reduceFiles, hm]
  refine ⟨_, _, htask, hentry, rfl, fun J kvs ops fs fs' hwf hwrite hrenamed => ?_⟩
  rw [read_writeIntermediate hwf hwrite hr, if_pos hrenamed]

/-! ### Reading a column -/

/-- The pairs of all files, in their order. -/
theorem loadIntermediate_eq {fs : Disk} {ops : ℕ → ReadOps} {files : List GoString}
    (content : ℕ → GoString) {m : ℕ} {intermediate : List KeyValue}
    (h : ∀ i fileName, files[i]? = some fileName →
      (ops (m + i)).opened = true ∧ fs.read fileName = some (content (m + i))) :
    loadIntermediate fs ops m files intermediate =
      .ok (intermediate ++
        (List.range' m files.length).flatMap fun i => readRecords (ops i) (content i)) := by
  induction files generalizing m intermediate with
  | nil => simp [loadIntermediate]
  | cons fileName files ih =>
    obtain ⟨hopened, hread⟩ := h 0 fileName rfl
    rw [Nat.add_zero] at hopened hread
    rw [loadIntermediate, if_pos hopened, hread]
    dsimp only
    rw [ih fun i f hf => ?_]
    · simp [List.range'_succ]
    · have := h (i + 1) f hf
      rwa [show m + (i + 1) = m + 1 + i by omega] at this

/-! ### The shuffle -/

/-- A call of `writeIntermediate` for map task `call.1` with its pairs, all file operations of which
    succeed if the temporary names are free. -/
def writeCall (J : Job) (nReduce : ℕ) (kvs : ℕ → List KeyValue) (fs : Disk)
    (call : ℕ × (ℕ → GoString)) : Option Disk :=
  writeIntermediate J call.1 nReduce (kvs call.1) (fun r => .good (call.2 r)) fs

section shuffle
variable {J : Job} {nReduce : ℕ} {kvs : ℕ → List KeyValue} {fs fs' : Disk}

/-- The row of map task `m` is on the disk. -/
def Row (nReduce : ℕ) (kvs : ℕ → List KeyValue) (fs : Disk) (m : ℕ) : Prop :=
  ∀ r < nReduce, fs.read (intermediateName m r) =
    some (encodeLoop (fun _ => none) 0 (bucket nReduce r (kvs m)))

/-- A call writes its own row and leaves the others. -/
theorem row_writeCall {call : ℕ × (ℕ → GoString)} (hwf : fs.Wf)
    (h : writeCall J nReduce kvs fs call = some fs') :
    fs'.Wf ∧ Row nReduce kvs fs' call.1 ∧ ∀ m, Row nReduce kvs fs m → Row nReduce kvs fs' m := by
  have hself : Row nReduce kvs fs' call.1 := fun r hr => read_writeIntermediate hwf h hr
  refine ⟨(wrote_of_writeIntermediate hwf h).wf, hself, fun m hm => ?_⟩
  rcases eq_or_ne m call.1 with rfl | hne
  · exact hself
  · exact fun r hr => (read_writeIntermediate_other hwf h hne r).trans (hm r hr)

/-- Whatever the order and the repetitions, the rows of all calls are there. -/
theorem row_run {calls : List (ℕ × (ℕ → GoString))} (hwf : fs.Wf)
    (hrun : run (writeCall J nReduce kvs) fs calls = some fs') :
    ∀ m ∈ calls.map Prod.fst, Row nReduce kvs fs' m := by
  refine (run_history (P := fun calls fs => fs.Wf ∧ ∀ m ∈ calls.map Prod.fst, Row nReduce kvs fs m)
    ⟨hwf, fun _ hm => by simp at hm⟩ (fun calls fs call fs' _ ih hstep => ?_) hrun).2
  obtain ⟨hwf', hself, hothers⟩ := row_writeCall ih.1 hstep
  refine ⟨hwf', fun m hm => ?_⟩
  rw [List.map_append, List.mem_append] at hm
  rcases hm with hm | hm
  · exact hothers m (ih.2 m hm)
  · obtain rfl : m = call.1 := by simpa using hm
    exact hself

/-- A column is read as the pairs of its buckets, one map task after the other. -/
theorem loadIntermediate_rows {M r : ℕ} (hr : r < nReduce) (hrows : ∀ m < M, Row nReduce kvs fs m)
    (hvalid : ∀ m < M, ∀ kv ∈ kvs m, kv.Valid) :
    loadIntermediate fs (fun _ => .good) 0 (reduceFiles M r) [] =
      .ok ((List.range M).flatMap fun m => bucket nReduce r (kvs m)) := by
  rw [loadIntermediate_eq (fun m => encodeLoop (fun _ => none) 0 (bucket nReduce r (kvs m)))
    fun i f hf => ?_]
  · have hlen : (reduceFiles M r).length = M := by simp [reduceFiles]
    rw [hlen, List.nil_append, ← List.range_eq_range']
    congr 1
    refine List.flatMap_congr fun m hm => ?_
    rw [List.mem_range] at hm
    have hbucket : ∀ kv ∈ bucket nReduce r (kvs m), kv.Valid := fun kv hkv =>
      hvalid m hm kv (List.mem_of_mem_filter hkv)
    exact (decodeFile_encodeLoop _).trans (map_toValid_eq_iff.mpr hbucket)
  · simp only [reduceFiles, List.getElem?_map, Option.map_eq_some_iff] at hf
    obtain ⟨m, hm, rfl⟩ := hf
    obtain ⟨hlt, rfl⟩ := List.getElem?_eq_some_iff.mp hm
    rw [List.length_range] at hlt
    rw [List.getElem_range, Nat.zero_add]
    exact ⟨rfl, hrows i hlt r hr⟩

/-- What a codec that gives back the strings leaves of a pair. -/
theorem valid_of_decode {kv : KeyValue}
    (h : (decode (encode kv)).map Prod.fst = some kv) : kv.Valid := by
  have hdecode := decode_encode (Or.inl rfl) kv []
  rw [List.nil_append, List.append_nil] at hdecode
  rw [hdecode] at h
  exact toValid_eq_iff.mp (Option.some.inj h)

/-- CORRECT: once every map task has written its row, in whatever order and however often, each
    reduce task reads the pairs that hash to it, in their order, and together they read every pair
    once. -/
theorem shuffle_lossless {files : List GoString} {calls : List (ℕ × (ℕ → GoString))}
    (hn : 1 ≤ nReduce) (hwf : fs.Wf)
    (hcodec : ∀ m < files.length, ∀ kv ∈ kvs m, (decode (encode kv)).map Prod.fst = some kv)
    (hcalls : ∀ m < files.length, m ∈ calls.map Prod.fst)
    (hrun : run (writeCall J nReduce kvs) fs calls = some fs') :
    ∃ read : ℕ → List KeyValue,
      (∀ r < nReduce, ∃ task, (makeCoordinator files nReduce).reduceTasks[r]? = some task ∧
        loadIntermediate fs' (fun _ => .good) 0 task.input [] = .ok (read r)) ∧
      (∀ r, read r = (List.range files.length).flatMap fun m =>
        (kvs m).filter fun kv => ihash kv.key % nReduce = r) ∧
      ((List.range nReduce).flatMap read).Perm ((List.range files.length).flatMap kvs) ∧
      (∀ r r' kv kv', kv ∈ read r → kv' ∈ read r' → kv.key = kv'.key → r = r') ∧
      ∀ key, ihash key % nReduce < nReduce := by
  have hlt : ∀ key, ihash key % nReduce < nReduce := fun key => Nat.mod_lt _ hn
  have hrows : ∀ m < files.length, Row nReduce kvs fs' m :=
    fun m hm => row_run hwf hrun m (hcalls m hm)
  have hvalid : ∀ m < files.length, ∀ kv ∈ kvs m, kv.Valid := fun m hm kv hkv =>
    valid_of_decode (hcodec m hm kv hkv)
  have hfilter : ∀ r, ((List.range files.length).flatMap fun m => bucket nReduce r (kvs m)) =
      ((List.range files.length).flatMap kvs).filter fun kv => ihash kv.key % nReduce = r :=
        fun r =>
    List.filter_flatMap.symm
  have hmem : ∀ r kv, kv ∈ ((List.range files.length).flatMap fun m => bucket nReduce r (kvs m)) →
      ihash kv.key % nReduce = r := fun r kv hkv => by
    rw [hfilter r, List.mem_filter, decide_eq_true_eq] at hkv
    exact hkv.2
  refine ⟨fun r => (List.range files.length).flatMap fun m => bucket nReduce r (kvs m),
    fun r hr => ?_, fun r => rfl, ?_, fun r r' kv kv' hkv hkv' hkey => ?_, hlt⟩
  · exact ⟨⟨r, reduceFiles files.length r, .todo, zeroTime⟩, by simp [makeCoordinator, hr],
      loadIntermediate_rows hr hrows hvalid⟩
  · simp only [hfilter]
    exact Grouping.flatMap_filter_perm List.nodup_range fun kv _ => List.mem_range.mpr (hlt kv.key)
  · rw [← hmem r kv hkv, ← hmem r' kv' hkv', hkey]

end shuffle

/-- Two map tasks that emit the same key. -/
def sharedKey : ℕ → List KeyValue
  | 0 => [⟨lit "a", lit "1"⟩, ⟨lit "b", lit "2"⟩]
  | _ => [⟨lit "a", lit "3"⟩]

/-- An empty disk. -/
def emptyDisk : Disk := ⟨fun _ => none, fun _ => [], 0⟩

theorem shuffle_lossless_repeated :
    let J : Job := ⟨fun _ _ => [], fun _ _ => [], [], 2, lit "/tmp"⟩
    let calls : List (ℕ × (ℕ → GoString)) :=
      [(1, fun _ => lit "7"), (0, fun _ => lit "7"), (1, fun _ => lit "8")]
    ∃ fs' read, run (writeCall J 2 sharedKey) emptyDisk calls = some fs' ∧
      (∀ r < 2, ∃ task, (makeCoordinator [lit "x", lit "y"] 2).reduceTasks[r]? = some task ∧
        loadIntermediate fs' (fun _ => .good) 0 task.input [] = .ok (read r)) ∧
      ((List.range 2).flatMap read).Perm ((List.range 2).flatMap sharedKey) := by
  intro J calls
  have hsome : (run (writeCall J 2 sharedKey) emptyDisk calls).isSome = true := by decide +kernel
  obtain ⟨fs', hrun⟩ := Option.isSome_iff_exists.mp hsome
  have hwf : emptyDisk.Wf := fun name ino h => by simp [emptyDisk] at h
  obtain ⟨read, hload, -, hperm, -⟩ :=
    @shuffle_lossless J 2 sharedKey emptyDisk fs' [lit "x", lit "y"] calls
    (by decide) hwf (by decide +kernel) (by decide) hrun
  exact ⟨fs', read, hrun, hload, hperm⟩

end DistSys.Mr
