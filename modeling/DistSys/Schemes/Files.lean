import Mathlib.Data.Nat.Notation
import Mathlib.Logic.Function.Basic

/-! @scheme files | family:file-system | atomic:rename

    A file system with names and inodes. A file opened by a process is an inode: it can be read and
    appended to whatever happens to its name. Renaming moves a name to another inode in one step, so
    a reader of the target sees the old content or the new, never a part.

        create p  ──▶  p ↦ i (private)  ──append──▶  p ↦ i  ──rename p n──▶  n ↦ i -/

namespace DistSys

/-- Names point at inodes, inodes hold bytes; the inodes from `next` on are free. -/
structure FileSystem (N B : Type) where
  dir : N → Option ℕ
  data : ℕ → List B
  next : ℕ

namespace FileSystem

variable {N B : Type} [DecidableEq N]

/-- The content of the file of a name. -/
def read (fs : FileSystem N B) (name : N) : Option (List B) := (fs.dir name).map fs.data

/-- A new empty file; there must be none of that name. -/
def create (fs : FileSystem N B) (path : N) : Option (FileSystem N B × ℕ) :=
  match fs.dir path with
  | some _ => none
  | none => some (⟨Function.update fs.dir path (some fs.next), Function.update fs.data fs.next [],
      fs.next + 1⟩, fs.next)

/-- One write to an open file. -/
def append (fs : FileSystem N B) (ino : ℕ) (bytes : List B) : FileSystem N B :=
  { fs with data := Function.update fs.data ino (fs.data ino ++ bytes) }

/-- The file of the first name gets the second one, whose own file loses it. -/
def rename (fs : FileSystem N B) (old new : N) : FileSystem N B :=
  match fs.dir old with
  | none => fs
  | some ino => { fs with dir := Function.update (Function.update fs.dir old none) new (some ino) }

/-- A file written under a temporary name and then renamed, if the renaming works. There is no file
    if the temporary name is taken. -/
def publish (fs : FileSystem N B) (temp target : N) (bytes : List B) (renamed : Bool) :
    Option (FileSystem N B) :=
  (fs.create temp).map fun p =>
    let written := p.1.append p.2 bytes
    if renamed then written.rename temp target else written

/-- Only inodes in use have names. -/
def Wf (fs : FileSystem N B) : Prop := ∀ name ino, fs.dir name = some ino → ino < fs.next

/-- The file of a name has this content. -/
def Holds (fs : FileSystem N B) (name : N) (bytes : List B) : Prop :=
  ∃ ino, fs.dir name = some ino ∧ fs.data ino = bytes

/-- An inode with one name. -/
def Private (fs : FileSystem N B) (path : N) (ino : ℕ) : Prop :=
  fs.dir path = some ino ∧ ∀ name, fs.dir name = some ino → name = path

variable {fs fs' : FileSystem N B} {name path old : N} {ino i : ℕ} {bytes : List B}

omit [DecidableEq N] in
theorem Holds.read (h : fs.Holds name bytes) : fs.read name = some bytes := by
  obtain ⟨ino, hd, rfl⟩ := h
  simp [FileSystem.read, hd]

/-! ### Creating -/

section create
variable (h : fs.create path = some (fs', ino))
include h

theorem create_spec : fs.dir path = none ∧ ino = fs.next ∧
    fs'.dir = Function.update fs.dir path (some ino) ∧
    fs'.data = Function.update fs.data ino [] ∧ fs'.next = fs.next + 1 := by
  rw [create] at h
  split at h
  · simp at h
  · rename_i hnone
    cases h
    exact ⟨hnone, rfl, rfl, rfl, rfl⟩

theorem wf_create (hwf : fs.Wf) : fs'.Wf := by
  obtain ⟨_, rfl, hdir, _, hnext⟩ := create_spec h
  intro name i hi
  rw [hdir, Function.update_apply] at hi
  rw [hnext]
  split at hi
  · cases hi; omega
  · exact Nat.lt_succ_of_lt (hwf name i hi)

theorem data_create (hi : i < fs.next) : fs'.data i = fs.data i := by
  obtain ⟨_, rfl, _, hdata, _⟩ := create_spec h
  rw [hdata, Function.update_of_ne (Nat.ne_of_lt hi)]

theorem holds_create (hwf : fs.Wf) (hh : fs.Holds name bytes) : fs'.Holds name bytes := by
  obtain ⟨hnone, _, hdir, _, _⟩ := create_spec h
  obtain ⟨i, hi, rfl⟩ := hh
  refine ⟨i, ?_, data_create h (hwf name i hi)⟩
  rw [hdir, Function.update_of_ne (by rintro rfl; simp [hnone] at hi)]
  exact hi

/-- The new file is private and empty. -/
theorem private_create_self (hwf : fs.Wf) : fs'.Private path ino ∧ fs'.data ino = [] := by
  obtain ⟨_, rfl, hdir, hdata, _⟩ := create_spec h
  refine ⟨⟨by simp [hdir], fun name hn => ?_⟩, by simp [hdata]⟩
  rw [hdir, Function.update_apply] at hn
  split at hn
  · assumption
  · exact absurd (hwf name _ hn) (Nat.lt_irrefl _)

theorem private_create (hwf : fs.Wf) (hp : fs.Private name i) : fs'.Private name i := by
  obtain ⟨hnone, rfl, hdir, _, _⟩ := create_spec h
  have hlt := hwf name i hp.1
  refine ⟨?_, fun n hn => ?_⟩
  · rw [hdir, Function.update_of_ne (by rintro rfl; simp [hp.1] at hnone)]
    exact hp.1
  · rw [hdir, Function.update_apply] at hn
    split at hn
    · cases hn; exact absurd hlt (Nat.lt_irrefl _)
    · exact hp.2 n hn

end create

/-! ### Writing -/

omit [DecidableEq N] in
theorem data_append_self : (fs.append ino bytes).data ino = fs.data ino ++ bytes := by simp [append]

omit [DecidableEq N] in
theorem data_append (hi : i ≠ ino) : (fs.append ino bytes).data i = fs.data i := by
  simp [append, Function.update_of_ne hi]

omit [DecidableEq N] in
@[simp] theorem append_nil : fs.append ino [] = fs := by simp [append]

omit [DecidableEq N] in
/-- Two writes are one. -/
theorem append_append (a b : List B) : (fs.append ino a).append ino b = fs.append ino (a ++ b) := by
  simp [append]

omit [DecidableEq N] in
/-- A write to a private file is seen under no other name. -/
theorem holds_append {more : List B} (hp : fs.Private path ino) (hne : name ≠ path)
    (hh : fs.Holds name bytes) : (fs.append ino more).Holds name bytes := by
  obtain ⟨i, hi, rfl⟩ := hh
  exact ⟨i, hi, data_append (by rintro rfl; exact hne (hp.2 name hi))⟩

/-! ### Renaming -/

section rename
variable (new : N) (hp : fs.Private old ino)
include hp

theorem dir_rename :
    (fs.rename old new).dir = Function.update (Function.update fs.dir old none) new (some ino) := by
  rw [rename, hp.1]

theorem data_rename : (fs.rename old new).data = fs.data ∧ (fs.rename old new).next = fs.next := by
  rw [rename, hp.1]; exact ⟨rfl, rfl⟩

theorem wf_rename (hwf : fs.Wf) : (fs.rename old new).Wf := by
  intro name i hi
  rw [(data_rename new hp).2]
  rw [dir_rename new hp, Function.update_apply, Function.update_apply] at hi
  split at hi
  · cases hi; exact hwf old ino hp.1
  · split at hi
    · simp at hi
    · exact hwf name i hi

/-- The target holds what was written. -/
theorem holds_rename_self : (fs.rename old new).Holds new (fs.data ino) :=
  ⟨ino, by rw [dir_rename new hp, Function.update_self], by rw [(data_rename new hp).1]⟩

theorem holds_rename (hnew : name ≠ new) (hold : name ≠ old) (hh : fs.Holds name bytes) :
    (fs.rename old new).Holds name bytes := by
  obtain ⟨i, hi, rfl⟩ := hh
  refine ⟨i, ?_, by rw [(data_rename new hp).1]⟩
  rw [dir_rename new hp, Function.update_of_ne hnew, Function.update_of_ne hold]
  exact hi

theorem private_rename (hi : i ≠ ino) (hnew : path ≠ new) (hp' : fs.Private path i) :
    (fs.rename old new).Private path i := by
  have hold : path ≠ old := by
    rintro rfl
    exact hi (Option.some.inj (hp'.1.symm.trans hp.1))
  refine ⟨?_, fun n hn => ?_⟩
  · rw [dir_rename new hp, Function.update_of_ne hnew, Function.update_of_ne hold]
    exact hp'.1
  · rw [dir_rename new hp, Function.update_apply, Function.update_apply] at hn
    split at hn
    · cases hn; exact absurd rfl hi
    · split at hn
      · simp at hn
      · exact hp'.2 n hn

end rename

/-! ### Publishing -/

omit [DecidableEq N] in
theorem holds_iff_read : fs.Holds name bytes ↔ fs.read name = some bytes := by
  rw [read, Option.map_eq_some_iff]
  rfl

theorem publish_isSome {temp target : N} {renamed : Bool} :
    (fs.publish temp target bytes renamed).isSome = true ↔ fs.read temp = none := by
  rw [publish, Option.isSome_map, read, Option.map_eq_none_iff, create]
  cases fs.dir temp <;> simp

/-- What publishing a file changes: the target, if the renaming works, and the temporary name. -/
structure Published (fs fs' : FileSystem N B) (temp target : N) (bytes : List B)
    (renamed : Bool) : Prop where
  wf : fs'.Wf
  content : fs'.read target = if renamed then some bytes else fs.read target
  others : ∀ name, name ≠ temp → name ≠ target → fs'.read name = fs.read name

theorem published {temp target : N} {renamed : Bool} (hwf : fs.Wf) (hne : target ≠ temp)
    (h : fs.publish temp target bytes renamed = some fs') :
    Published fs fs' temp target bytes renamed := by
  obtain ⟨⟨fs₁, ino⟩, hcreate, hfs'⟩ := Option.map_eq_some_iff.mp h
  obtain ⟨-, rfl, hdir, -, -⟩ := create_spec hcreate
  obtain ⟨hp, hempty⟩ := private_create_self hcreate hwf
  have hp₂ : (fs₁.append fs.next bytes).Private temp fs.next := hp
  have hwf₁ : fs₁.Wf := wf_create hcreate hwf
  have hwf₂ : (fs₁.append fs.next bytes).Wf := hwf₁
  have hread : ∀ name, name ≠ temp → (fs₁.append fs.next bytes).read name = fs.read name :=
    fun name hname => by
    have hname' : (fs₁.append fs.next bytes).dir name = fs.dir name := by
      rw [append, hdir, Function.update_of_ne hname]
    rw [read, read, hname']
    refine Option.map_congr fun i hi => ?_
    have hi' := hwf name i hi
    rw [data_append (Nat.ne_of_lt hi'), data_create hcreate hi']
  cases renamed with
  | false =>
    cases hfs'
    exact ⟨hwf₂, hread target hne, fun name hname _ => hread name hname⟩
  | true =>
    obtain rfl : (fs₁.append fs.next bytes).rename temp target = fs' := hfs'
    refine ⟨wf_rename target hp₂ hwf₂, ?_, fun name hname htarget => ?_⟩
    · rw [holds_iff_read.mp (holds_rename_self target hp₂), data_append_self, hempty]
      rfl
    · rw [← hread name hname, read, read, (data_rename target hp₂).1, dir_rename target hp₂,
        Function.update_of_ne htarget, Function.update_of_ne hname]

end FileSystem

end DistSys
