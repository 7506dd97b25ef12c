import DistSys.Mr.Reports
import Mathlib.Logic.Relation

/-! @go mr/worker.go | name:handleMapTask, handleReduceTask | scheme:files | refines:step

    A worker left alone. Where every file operation works, the handlers taken as functions on the
    disk do what the worker of a whole job does step by step, from the assignment to the report.

        mapStart ──▶ mapBucket ⇄ mapEncode ──▶ report            handleMapTask
        reduceOpen ⇄ reduceRead ──▶ … ──▶ reduceWrite ──▶ report     handleReduceTask -/

namespace DistSys.Mr

/-- The worker gets from one point to another while no other runs. -/
def Goes (J : Job) : Disk × Pc → Disk × Pc → Prop :=
  Relation.ReflTransGen fun s t => ∃ choice, workerStep J s.1 s.2 choice = some t

variable {J : Job} {reply : CoordinatorReply} {fs fs' : Disk}

theorem Goes.step {pc pc' : Pc} {t : Disk × Pc} (choice : Choice)
    (h : workerStep J fs pc choice = some (fs', pc')) (hrest : Goes J (fs', pc') t) :
    Goes J (fs, pc) t :=
  .head ⟨choice, h⟩ hrest

theorem Goes.trans {s t u : Disk × Pc} (h : Goes J s t) (h' : Goes J t u) : Goes J s u :=
  Relation.ReflTransGen.trans h h'

/-! ### Map tasks -/

theorem goes_encode {r ino : ℕ} {path : GoString} {todo : List (List KeyValue)}
    (kva : List KeyValue) (fs : Disk) : Goes J (fs, .mapEncode reply r path ino kva todo)
      (fs.append ino (kva.flatMap encode), .mapEncode reply r path ino [] todo) := by
  induction kva generalizing fs with
  | nil =>
    rw [List.flatMap_nil, FileSystem.append_nil]
    exact .refl
  | cons kv kva ih =>
    rw [List.flatMap_cons, ← FileSystem.append_append]
    exact .step .go rfl (ih (fs.append ino (encode kv)))

/-- A bucket. -/
theorem goes_bucket {r : ℕ} {random : GoString} {kva : List KeyValue} {todo : List (List KeyValue)}
    (h : writeBucket J reply.workId r (.good random) kva fs = some fs') :
    Goes J (fs, .mapBucket reply r (kva :: todo)) (fs', .mapBucket reply (r + 1) todo) := by
  obtain ⟨⟨fs₁, ino⟩, hcreate, rfl⟩ := Option.map_eq_some_iff.mp h
  have hstep : workerStep J fs (.mapBucket reply r (kva :: todo)) (.random random) =
      some (fs₁, .mapEncode reply r (J.mapTemp reply.workId r random) ino kva todo) := by
    simp only [workerStep, hcreate, Option.map_some]
  refine .step _ hstep ((goes_encode kva fs₁).trans (.step .go rfl ?_))
  rw [← encodeLoop_none 0]
  exact .refl

/-- All buckets. -/
theorem goes_buckets {random : ℕ → GoString} {todo : List (List KeyValue)} {r : ℕ} {fs : Disk}
    (h : writeBuckets J reply.workId (fun r => .good (random r)) r todo fs = some fs') :
    Goes J (fs, .mapBucket reply r todo) (fs', .report reply) := by
  induction todo generalizing r fs with
  | nil =>
    cases h
    exact .step .go rfl .refl
  | cons kva todo ih =>
    obtain ⟨fs₁, h₁, h⟩ := Option.bind_eq_some_iff.mp h
    exact (goes_bucket h₁).trans (ih h)

/-- CORRECT: a map task all of whose file operations work is one of the job. -/
theorem handleMapTask_goes {random : ℕ → GoString}
    (h : handleMapTask J reply ⟨true, true, fun r => .good (random r)⟩ fs = .ok fs') :
    Goes J (fs, .mapStart reply) (fs', .report reply) := by
  cases hinput : mapInput J reply ⟨true, true, fun r => .good (random r)⟩ fs with
  | error abort => simp [handleMapTask, hinput] at h
  | ok kva =>
    have hwrite := (handleMapTask_ok hinput).mp h
    rw [writeIntermediate] at hwrite
    split at hwrite
    · cases hwrite
    · refine .step .go ?_ (goes_buckets hwrite)
      rw [mapInput] at hinput
      split at hinput
      · rename_i fileName hfiles
        split at hinput
        · cases hinput
        · rename_i content hread
          cases hinput
          have hread' : fs.read fileName = some content := hread
          simp only [workerStep, hfiles, hread']
      · cases hinput

/-! ### Reduce tasks -/

theorem goes_read {fileName bytes : GoString} {acc : List KeyValue} {todo : List GoString}
    (h : fs.read fileName = some bytes) :
    Goes J (fs, .reduceOpen reply acc (fileName :: todo))
      (fs, .reduceOpen reply (acc ++ decodeFile bytes) todo) := by
  obtain ⟨ino, hdir, rfl⟩ := Option.map_eq_some_iff.mp h
  have hopen : workerStep J fs (.reduceOpen reply acc (fileName :: todo)) .go =
      some (fs, .reduceRead reply acc ino [] todo) := by simp only [workerStep, hdir]
  refine .step _ hopen ?_
  have hend : Goes J (fs, .reduceRead reply acc ino (fs.data ino) todo)
      (fs, .reduceOpen reply (acc ++ decodeFile (fs.data ino)) todo) :=
    .step (.chunk 0) (by simp [workerStep]) .refl
  -- one read gets all there is; an empty file needs none
  cases hdata : fs.data ino with
  | nil => rwa [hdata] at hend
  | cons b s =>
    rw [hdata] at hend
    exact .step (.chunk s.length) (by simp [workerStep, hdata]) hend

/-- All files. -/
theorem goes_load {files : List GoString} {m : ℕ} {acc intermediate : List KeyValue}
    (h : loadIntermediate fs (fun _ => .good) m files acc = .ok intermediate) :
    Goes J (fs, .reduceOpen reply acc files) (fs, .reduceOpen reply intermediate []) := by
  induction files generalizing m acc with
  | nil =>
    cases h
    exact .refl
  | cons fileName files ih =>
    rw [loadIntermediate] at h
    split at h
    · cases h
    · rename_i bytes hread
      exact (goes_read hread).trans (ih h)

theorem printLoop_none (i : ℕ) (calls : List Call) :
    printLoop (fun _ => none) i calls = calls.flatMap Call.line := by
  induction calls generalizing i with
  | nil => rfl
  | cons c calls ih => rw [printLoop, ih, List.flatMap_cons]

/-- The lines of all calls, then the renaming. -/
theorem goes_write {kva : List KeyValue} {path : GoString} {ino : ℕ} (i : ℕ) (fs : Disk) :
    Goes J (fs, .reduceWrite reply kva path ino i)
      ((fs.append ino ((reduceLoop J.reducef kva i).flatMap Call.line)).rename
        path (outName reply.workId), .report reply) := by
  induction hn : kva.length - i using Nat.strongRecOn generalizing i fs with
  | ind n ih =>
    subst hn
    cases hround : reduceRound J.reducef kva i with
    | none =>
      have hnil : reduceLoop J.reducef kva i = [] :=
        reduceLoop_nil (List.drop_eq_nil_iff.mp (reduceRound_none hround))
      rw [hnil, List.flatMap_nil, FileSystem.append_nil]
      exact .step .go (by simp only [workerStep, hround]) .refl
    | some p =>
      obtain ⟨j, record⟩ := p
      obtain ⟨c, hloop, hline⟩ := reduceRound_call hround
      obtain ⟨hi, hj⟩ := reduceRound_lt hround
      have hstep : workerStep J fs (.reduceWrite reply kva path ino i) .go =
          some (fs.append ino (line record), .reduceWrite reply kva path ino j) := by
        simp only [workerStep, hround]
      rw [hloop, List.flatMap_cons, hline, ← FileSystem.append_append]
      exact .step _ hstep (ih (kva.length - j) (by omega) j (fs.append ino (line record)) rfl)

/-- CORRECT: a reduce task all of whose file operations work is one of the job. -/
theorem handleReduceTask_goes {S : SortSlice} {random : GoString}
    (h : handleReduceTask J S reply (.good random) fs = .ok fs') :
    Goes J (fs, .reduceOpen reply [] reply.inputFiles) (fs', .report reply) := by
  cases hload : loadIntermediate fs (fun _ => .good) 0 reply.inputFiles [] with
  | error abort => simp [handleReduceTask, ReduceOps.good, hload] at h
  | ok intermediate =>
    simp only [handleReduceTask, ReduceOps.good, hload, Option.bind_some] at h
    split at h
    · cases h
    · rename_i fs₁ hpublish
      cases h
      obtain ⟨⟨fs₁, ino⟩, hcreate, rfl⟩ := Option.map_eq_some_iff.mp hpublish
      have hsort : workerStep J fs (.reduceOpen reply intermediate [])
          (.sorted (S.sort intermediate)) =
          some (fs, .reduceSorted reply (S.sort intermediate)) := by
        simp only [workerStep, S.perm, S.sorted, and_self, if_true]
      have hopen : workerStep J fs (.reduceSorted reply (S.sort intermediate)) (.random random) =
          some (fs₁, .reduceWrite reply (S.sort intermediate)
            (J.outTemp reply.workId random) ino 0) := by
        simp only [workerStep, hcreate, Option.map_some]
      refine (goes_load hload).trans (.step _ hsort (.step _ hopen ?_))
      rw [printLoop_none]
      exact goes_write 0 fs₁

end DistSys.Mr
