import DistSys.Mr.Job

/-! @go mr/worker.go | name:writeIntermediate, handleReduceTask | scheme:files | invariant:contents

    What every file of a job is for. Each output has one right content, fixed by the inputs alone:
    the encoded pairs of a bucket, or the lines of a reduce task. A file with its right content
    keeps it whatever workers do, since files are written in private and renamed only when they are
    complete.

        mr-m-r    encoded pairs of bucket r of what map task m emits
        mr-out-r  lines of the records of reduce task r -/

namespace DistSys.Mr
open GoString (lit itoa IsDigit)
open Grouping (reduced KeySorted)

/-- The files a job writes. -/
inductive Output where | inter (m r : ℕ) | out (r : ℕ)

def Output.name : Output → GoString
  | .inter m r => intermediateName m r
  | .out r => outName r

/-! ### Names -/

theorem slash_not_mem_itoa (n : ℕ) : 0x2F ∉ itoa n := fun h => by
  have := (GoString.itoa_digits n _ h).1
  exact absurd this (by decide)

/-- Outputs are in the working directory. -/
theorem slash_not_mem_name (o : Output) : 0x2F ∉ o.name := by
  have h₁ : (0x2F : UInt8) ∉ lit "mr-" := by decide
  have h₂ : (0x2F : UInt8) ∉ lit "-" := by decide
  have h₃ : (0x2F : UInt8) ∉ lit "mr-out-" := by decide
  cases o with
  | inter m r => simp [Output.name, intermediateName, h₁, h₂, slash_not_mem_itoa]
  | out r => simp [Output.name, outName, h₃, slash_not_mem_itoa]

theorem slash_mem_joinPath (dir name : GoString) : 0x2F ∈ joinPath dir name := by
  rw [joinPath]
  split
  · rename_i h
    exact List.mem_append_left _ (List.mem_of_getLast? h)
  · exact List.mem_append_left _ (List.mem_append_right _ (by decide))

theorem intermediateName_ne_outName (m r k : ℕ) : intermediateName m r ≠ outName k := by
  intro h
  have hm : lit "mr-out-" = lit "mr-" ++ lit "out-" := by decide
  simp only [intermediateName, outName, hm, List.append_assoc, List.append_cancel_left_eq] at h
  -- after `mr-` comes a digit on one side and an `o` on the other
  cases hd : itoa m with
  | nil => exact GoString.itoa_ne_nil m hd
  | cons b s =>
    have hb : IsDigit b := GoString.itoa_digits m b (by simp [hd])
    have ho : b = 0x6F := by simpa [hd, lit] using congrArg List.head? h
    rw [ho] at hb
    exact absurd hb.2 (by decide)

theorem intermediateName_injective {m r m' r' : ℕ}
    (h : intermediateName m r = intermediateName m' r') : m = m' ∧ r = r' := by
  have hdash : ∀ a s, itoa a ++ (lit "-" ++ s) = itoa a ++ 0x2D :: s := fun _ _ => rfl
  simp only [intermediateName, List.append_assoc, List.append_cancel_left_eq, hdash] at h
  obtain ⟨hm, hr⟩ := GoString.digits_append_inj (GoString.itoa_digits m) (GoString.itoa_digits m')
    (by decide) (by decide) h
  exact ⟨GoString.itoa_injective hm, GoString.itoa_injective (List.cons_eq_cons.mp hr).2⟩

/-- Different outputs have different names. -/
theorem Output.name_injective : Function.Injective Output.name
  | .inter m r, .inter m' r', h => by
      obtain ⟨rfl, rfl⟩ := intermediateName_injective h
      rfl
  | .inter m r, .out k, h => absurd h (intermediateName_ne_outName m r k)
  | .out k, .inter m r, h => absurd h.symm (intermediateName_ne_outName m r k)
  | .out k, .out k', h => by
      rw [GoString.itoa_injective (List.append_cancel_left h)]

/-! ### Contents -/

section contents
variable (J : Job) (fs₀ : Disk)

/-- What an input file holds when the job starts. -/
def content (fileName : GoString) : GoString := (fs₀.read fileName).getD []

/-- The pairs map task `m` emits. -/
def Job.emitted (m : ℕ) : List KeyValue :=
  match J.files[m]? with
  | some fileName => J.mapf fileName (content fs₀ fileName)
  | none => []

/-- The pairs reduce task `r` reads from the files of the first `k` map tasks. -/
def Job.pairs (r k : ℕ) : List KeyValue :=
  (List.range k).flatMap fun m => (bucket J.nReduce r (J.emitted fs₀ m)).map KeyValue.toValid

/-- The records of reduce task `r`. -/
def Job.records (r : ℕ) : List (GoString × GoString) :=
  reduced (·.key) (·.value) J.reducef
    ((J.pairs fs₀ r J.files.length).mergeSort fun x y => x.key ≤ y.key)

/-- The right content of an output. -/
def Job.want : Output → GoString
  | .inter m r => (bucket J.nReduce r (J.emitted fs₀ m)).flatMap encode
  | .out r => render (J.records fs₀ r)

/-- The output is there with its right content. -/
def Job.Right (fs : Disk) (o : Output) : Prop := fs.Holds o.name (J.want fs₀ o)

/-- The job can start: there is something to do, and its inputs can be read and are no outputs. -/
structure Job.Placed : Prop where
  files : J.files ≠ []
  nReduce : 1 ≤ J.nReduce
  wf : fs₀.Wf
  readable : ∀ f ∈ J.files, (fs₀.read f).isSome
  named : ∀ f ∈ J.files, ∀ o : Output, f ≠ o.name

/-- What is assumed of a job and of the disk it starts on. -/
structure Job.Proper : Prop extends J.Placed fs₀ where
  reducef : Grouping.Insensitive J.reducef

end contents

/-- A file being written in private, under a temporary name. -/
structure Writing (J : Job) (fs : Disk) (path : GoString) (ino : ℕ) (bytes : GoString) : Prop where
  mine : fs.Private path ino
  temp : 0x2F ∈ path
  new : path ∉ J.files
  data : fs.data ino = bytes

/-- A file being read. -/
structure Reading (fs : Disk) (ino : ℕ) (bytes : GoString) : Prop where
  used : ino < fs.next
  data : fs.data ino = bytes

/-- What a step on the file `touched`, if any, leaves of everything else. -/
structure Frame (J : Job) (fs₀ : Disk) (touched : Option ℕ) (fs fs' : Disk) : Prop where
  wf : fs'.Wf
  right : ∀ o, J.Right fs₀ fs o → J.Right fs₀ fs' o
  inputs : ∀ f ∈ J.files, fs.Holds f (content fs₀ f) → fs'.Holds f (content fs₀ f)
  writing : ∀ path ino bytes, touched ≠ some ino → Writing J fs path ino bytes →
    Writing J fs' path ino bytes
  reading : ∀ ino bytes, touched ≠ some ino → Reading fs ino bytes → Reading fs' ino bytes

section frame
variable {J : Job} {fs₀ fs fs' : Disk} {path : GoString} {ino : ℕ} {bytes : GoString}

theorem name_ne_path (o : Output) (hpath : 0x2F ∈ path) : o.name ≠ path := by
  rintro rfl; exact slash_not_mem_name o hpath

theorem frame_refl (hwf : fs.Wf) : Frame J fs₀ none fs fs :=
  ⟨hwf, fun _ => id, fun _ _ => id, fun _ _ _ _ => id, fun _ _ _ => id⟩

/-- Creating a temporary file. -/
theorem frame_create (hwf : fs.Wf) (h : fs.create path = some (fs', ino)) :
    Frame J fs₀ none fs fs' := by
  constructor
  case wf => exact FileSystem.wf_create h hwf
  case right =>
    intro o
    exact FileSystem.holds_create h hwf
  case inputs =>
    intro f _
    exact FileSystem.holds_create h hwf
  case writing =>
    intro p i b _ hw
    exact ⟨FileSystem.private_create h hwf hw.mine, hw.temp, hw.new,
      (FileSystem.data_create h (hwf p i hw.mine.1)).trans hw.data⟩
  case reading =>
    intro i b _ hr
    have hnext := (FileSystem.create_spec h).2.2.2.2
    exact ⟨by rw [hnext]; exact Nat.lt_succ_of_lt hr.used,
      (FileSystem.data_create h hr.used).trans hr.data⟩

/-- The file just created is empty and private: no input and no other file has its name. -/
theorem writing_create (hwf : fs.Wf) (hin : ∀ f ∈ J.files, fs.Holds f (content fs₀ f))
    (ht : 0x2F ∈ path) (h : fs.create path = some (fs', ino)) : Writing J fs' path ino [] := by
  obtain ⟨hmine, hdata⟩ := FileSystem.private_create_self h hwf
  refine ⟨hmine, ht, fun hmem => ?_, hdata⟩
  obtain ⟨i, hi, _⟩ := hin path hmem
  simp [(FileSystem.create_spec h).1] at hi

/-- One write to a temporary file. -/
theorem frame_append (more : GoString) (hwf : fs.Wf) (hw : Writing J fs path ino bytes) :
    Frame J fs₀ (some ino) fs (fs.append ino more) := by
  constructor
  case wf => exact hwf
  case right =>
    intro o
    exact FileSystem.holds_append hw.mine (name_ne_path o hw.temp)
  case inputs =>
    intro f hf
    exact FileSystem.holds_append hw.mine (by rintro rfl; exact hw.new hf)
  case writing =>
    intro p i b hi hw'
    exact ⟨hw'.mine, hw'.temp, hw'.new,
      (FileSystem.data_append fun h => hi (by rw [h])).trans hw'.data⟩
  case reading =>
    intro i b hi hr
    exact ⟨hr.used, (FileSystem.data_append fun h => hi (by rw [h])).trans hr.data⟩

theorem writing_append (more : GoString) (hw : Writing J fs path ino bytes) :
    Writing J (fs.append ino more) path ino (bytes ++ more) :=
  ⟨hw.mine, hw.temp, hw.new, by rw [FileSystem.data_append_self, hw.data]⟩

/-- Renaming a complete file to the output it is for. -/
theorem frame_rename (hP : J.Proper fs₀) (hwf : fs.Wf) {o : Output}
    (hw : Writing J fs path ino (J.want fs₀ o)) :
    Frame J fs₀ (some ino) fs (fs.rename path o.name) ∧ J.Right fs₀ (fs.rename path o.name) o := by
  have hself : J.Right fs₀ (fs.rename path o.name) o := by
    have := FileSystem.holds_rename_self o.name hw.mine
    rwa [hw.data] at this
  have hkeep := FileSystem.data_rename o.name hw.mine
  refine ⟨?_, hself⟩
  constructor
  case wf => exact FileSystem.wf_rename o.name hw.mine hwf
  case right =>
    intro o' ho'
    by_cases heq : o' = o
    · rw [heq]
      exact hself
    · exact FileSystem.holds_rename _ hw.mine (fun h => heq (Output.name_injective h))
        (name_ne_path o' hw.temp) ho'
  case inputs =>
    intro f hf hh
    exact FileSystem.holds_rename _ hw.mine (hP.named f hf o) (by rintro rfl; exact hw.new hf) hh
  case writing =>
    intro p i b hi hw'
    have hmine := FileSystem.private_rename _ hw.mine (fun h => hi (by rw [h]))
      (name_ne_path o hw'.temp).symm hw'.mine
    exact ⟨hmine, hw'.temp, hw'.new, by rw [hkeep.1]; exact hw'.data⟩
  case reading =>
    intro i b hi hr
    exact ⟨by rw [hkeep.2]; exact hr.used, by rw [hkeep.1]; exact hr.data⟩

end frame

end DistSys.Mr
