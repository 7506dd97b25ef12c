import DistSys.Schemes.GoMap
import DistSys.Schemes.GoString

/-! @go tester1/annotation.go | name:Annotation, finalize, annotateContinuousColor | scheme:gomap,
    fold

    The annotations of a test, for its visualization: points, intervals, and continuous annotations,
    one at a time for each tag. A continuous annotation is open in a map until the next one on its
    tag replaces it, its end is called, or the annotations are finalized.

        continuous a    continuous a    end a             end a
             ├───────────────┼────────────┤                 │
             one interval       another        0 ───────────┤  a third one, from time 0

    An end without an open annotation is noticed by the code and recorded all the same, with the
    zero values that a missing key of a map reads as. Each call holds the mutex and reads the clock
    once. -/

namespace DistSys.Tester
open GoString (lit)

/-- `porcupine.Annotation`, with the fields that are set; a point has end 0. -/
structure PorcupineAnnotation where
  tag : GoString
  start : ℤ
  end_ : ℤ
  description : GoString
  details : GoString
  backgroundColor : GoString
  deriving DecidableEq

structure Continuous where
  start : ℤ
  desp : GoString
  details : GoString
  bgcolor : GoString
  deriving DecidableEq

/-- The annotation that a continuous one becomes when it ends. -/
def Continuous.ending (cont : Continuous) (tag : GoString) (t : ℤ) : PorcupineAnnotation :=
  ⟨tag, cont.start, t, cont.desp, cont.details, cont.bgcolor⟩

structure Annotation where
  annotations : List PorcupineAnnotation
  continuous : GoMap GoString Continuous
  finalized : Bool

namespace Annotation

def clear (_ : Annotation) : Annotation := ⟨[], ∅, false⟩

/-- `finalize` at time `t`, with the order in which it ranges over the map. -/
def finalize (an : Annotation) (o : RangeOrder GoString) (t : ℤ) :
    List PorcupineAnnotation × Annotation :=
  (an.annotations ++ (o.entries an.continuous).map fun e => e.2.ending e.1 t,
    { an with finalized := true })

def annotatePointColor (an : Annotation) (now : ℤ)
    (tag desp details bgcolor : GoString) : Annotation :=
  { an with annotations := an.annotations ++ [⟨tag, now, 0, desp, details, bgcolor⟩] }

def annotateIntervalColor (an : Annotation) (now : ℤ) (tag : GoString) (start : ℤ)
    (desp details bgcolor : GoString) : Annotation :=
  { an with annotations := an.annotations ++ [⟨tag, start, now, desp, details, bgcolor⟩] }

def annotateContinuousColor (an : Annotation) (now : ℤ)
    (tag desp details bgcolor : GoString) : Annotation :=
  match an.continuous.lookup tag with
  | none => { an with continuous := an.continuous.insert tag ⟨now, desp, details, bgcolor⟩ }
  | some cont =>
    { an with
      annotations := an.annotations ++ [cont.ending tag now]
      continuous := an.continuous.insert tag ⟨now, desp, details, bgcolor⟩ }

def annotateContinuousEnd (an : Annotation) (now : ℤ) (tag : GoString) : Annotation :=
  -- the branch for a missing key is empty, and its zero value is used
  let cont := (an.continuous.lookup tag).getD ⟨0, [], [], []⟩
  { an with
    annotations := an.annotations ++ [cont.ending tag now]
    continuous := an.continuous.erase tag }

end Annotation

inductive AnnotateOp where
  | point (tag desp details bgcolor : GoString)
  | interval (tag : GoString) (start : ℤ) (desp details bgcolor : GoString)
  | continuous (tag desp details bgcolor : GoString)
  | continuousEnd (tag : GoString)
  deriving DecidableEq

/-- A call, with the time it reads. -/
structure AnnotateCall where
  now : ℤ
  op : AnnotateOp
  deriving DecidableEq

def Annotation.call (an : Annotation) (c : AnnotateCall) : Annotation :=
  match c.op with
  | .point tag desp details bgcolor => an.annotatePointColor c.now tag desp details bgcolor
  | .interval tag start desp details bgcolor =>
    an.annotateIntervalColor c.now tag start desp details bgcolor
  | .continuous tag desp details bgcolor =>
    an.annotateContinuousColor c.now tag desp details bgcolor
  | .continuousEnd tag => an.annotateContinuousEnd c.now tag

/-! ### What the annotations should be -/

/-- The tag of a continuous annotation that a call begins. -/
def AnnotateCall.opens (c : AnnotateCall) (tag : GoString) : Bool :=
  match c.op with
  | .continuous tag' _ _ _ => tag' = tag
  | _ => false

/-- The call begins or ends a continuous annotation on the tag. -/
def AnnotateCall.touches (c : AnnotateCall) (tag : GoString) : Bool :=
  match c.op with
  | .continuous tag' _ _ _ => tag' = tag
  | .continuousEnd tag' => tag' = tag
  | _ => false

/-- When a continuous annotation on the tag ends, if `rest` are the calls after its own and the
    annotations are finalized at time `t`. -/
def endTime (tag : GoString) (t : ℤ) (rest : List AnnotateCall) : ℤ :=
  ((rest.find? fun c => c.touches tag).map AnnotateCall.now).getD t

/-- One annotation for each call but the ends. -/
def timeline (t : ℤ) : List AnnotateCall → List PorcupineAnnotation
  | [] => []
  | c :: rest =>
    match c.op with
    | .point tag desp details bgcolor => ⟨tag, c.now, 0, desp, details, bgcolor⟩ :: timeline t rest
    | .interval tag start desp details bgcolor =>
      ⟨tag, start, c.now, desp, details, bgcolor⟩ :: timeline t rest
    | .continuous tag desp details bgcolor =>
      ⟨tag, c.now, endTime tag t rest, desp, details, bgcolor⟩ :: timeline t rest
    | .continuousEnd _ => timeline t rest

/-- A continuous annotation on the tag is going on after the calls. -/
def Ongoing (calls : List AnnotateCall) (tag : GoString) : Prop :=
  ∃ xs c ys, calls = xs ++ c :: ys ∧ c.opens tag = true ∧ ∀ y ∈ ys, y.touches tag = false

/-! ### One call -/

section step
variable (an : Annotation) (o : RangeOrder GoString) (t : ℤ)

/-- The annotations of a store, with the open ones as they end if `rest` are the calls to come. -/
def Annotation.outlook (rest : List AnnotateCall) : List PorcupineAnnotation :=
  an.annotations ++ (o.entries an.continuous).map fun e => e.2.ending e.1 (endTime e.1 t rest)

/-- What a call records that it should not. -/
def Annotation.stray (c : AnnotateCall) : List PorcupineAnnotation :=
  match c.op with
  | .continuousEnd tag => if tag ∈ an.continuous then [] else [⟨tag, 0, c.now, [], [], []⟩]
  | _ => []

variable {an o t} {c : AnnotateCall} {rest : List AnnotateCall} {tag : GoString}

theorem endTime_touched (h : c.touches tag = true) : endTime tag t (c :: rest) = c.now := by
  simp only [endTime, List.find?_cons, h, Option.map_some, Option.getD_some]

theorem endTime_untouched (h : c.touches tag = false) :
    endTime tag t (c :: rest) = endTime tag t rest := by
  simp only [endTime, List.find?_cons, h]

/-- A call on one tag does not move the ends on the others. -/
theorem ending_others (m : GoMap GoString Continuous)
    (h : ∀ tag', tag' ≠ tag → c.touches tag' = false) :
    (o.entries (m.erase tag)).map (fun e => e.2.ending e.1 (endTime e.1 t (c :: rest))) =
      (o.entries (m.erase tag)).map fun e => e.2.ending e.1 (endTime e.1 t rest) := by
  refine List.map_congr_left fun e he => ?_
  obtain ⟨tag', cont⟩ := e
  have hne : tag' ≠ tag := by
    rintro rfl
    rw [o.mem_entries, Finmap.lookup_erase] at he
    cases he
  rw [endTime_untouched (h tag' hne)]

/-- The outlook, with the annotation on one tag apart. -/
theorem outlook_perm (an : Annotation) (o : RangeOrder GoString) (t : ℤ) (rest : List AnnotateCall)
    (tag : GoString) : (an.outlook o t rest).Perm (an.annotations ++
      ((an.continuous.lookup tag).toList.map (fun cont => cont.ending tag (endTime tag t rest)) ++
        (o.entries (an.continuous.erase tag)).map fun e =>
          e.2.ending e.1 (endTime e.1 t rest))) := by
  have hperm := (o.entries_perm an.continuous tag).map fun e => e.2.ending e.1 (endTime e.1 t rest)
  rw [List.map_append, List.map_map] at hperm
  exact hperm.append_left _

/-- `annotateContinuousColor`, whether an annotation is open or not. -/
theorem annotateContinuousColor_eq (an : Annotation) (now : ℤ)
    (tag desp details bgcolor : GoString) :
    an.annotateContinuousColor now tag desp details bgcolor = { an with
      annotations := an.annotations ++
        (an.continuous.lookup tag).toList.map fun cont => cont.ending tag now
      continuous := an.continuous.insert tag ⟨now, desp, details, bgcolor⟩ } := by
  unfold Annotation.annotateContinuousColor
  cases an.continuous.lookup tag with
  | none => simp
  | some cont => simp

/-- A point or an interval is recorded beside everything else. -/
theorem outlook_record (h : ∀ tag, c.touches tag = false) (a : PorcupineAnnotation)
    (l : List PorcupineAnnotation) :
    (({ an with annotations := an.annotations ++ [a] } : Annotation).outlook o t rest ++ l).Perm
      (an.outlook o t (c :: rest) ++ a :: l) := by
  have hends : an.outlook o t (c :: rest) = an.outlook o t rest := by
    simp only [endTime_untouched (h _), Annotation.outlook]
  rw [hends, List.perm_iff_count]
  intro b
  simp only [List.count_append, List.count_cons, List.count_nil, Annotation.outlook]
  omega

/-- A continuous annotation ends the one before it on its tag, if there is one. -/
theorem outlook_continuous (an : Annotation) (o : RangeOrder GoString) (t now : ℤ)
    (rest : List AnnotateCall) (tag desp details bgcolor : GoString)
    (l : List PorcupineAnnotation) :
    ((an.annotateContinuousColor now tag desp details bgcolor).outlook o t rest ++ l).Perm
      (an.outlook o t (⟨now, .continuous tag desp details bgcolor⟩ :: rest) ++
        ⟨tag, now, endTime tag t rest, desp, details, bgcolor⟩ :: l) := by
  have hothers :=
    @ending_others o t ⟨now, .continuous tag desp details bgcolor⟩ rest tag an.continuous
    fun tag' hne => by simp [AnnotateCall.touches, hne.symm]
  have hbefore := outlook_perm an o t (⟨now, .continuous tag desp details bgcolor⟩ :: rest) tag
  have hafter := outlook_perm (an.annotateContinuousColor now tag desp details bgcolor) o t rest tag
  rw [hothers, endTime_touched (by simp [AnnotateCall.touches])] at hbefore
  have hnew : (⟨tag, now, endTime tag t rest, desp, details, bgcolor⟩ : PorcupineAnnotation) =
      Continuous.ending ⟨now, desp, details, bgcolor⟩ tag (endTime tag t rest) := rfl
  rw [annotateContinuousColor_eq] at hafter ⊢
  simp only [Finmap.lookup_insert, erase_insert_self, Option.toList_some, List.map_cons,
    List.map_nil] at hafter
  rw [hnew, List.perm_iff_count]
  intro b
  have hcb := hbefore.count_eq b
  have hca := hafter.count_eq b
  simp only [List.count_append, List.count_cons, List.count_nil] at hcb hca ⊢
  omega

/-- An end ends the annotation on its tag, or records one that never was. -/
theorem outlook_continuousEnd (an : Annotation) (o : RangeOrder GoString) (t now : ℤ)
    (rest : List AnnotateCall) (tag : GoString) (l : List PorcupineAnnotation) :
    ((an.annotateContinuousEnd now tag).outlook o t rest ++ l).Perm
      (an.outlook o t (⟨now, .continuousEnd tag⟩ :: rest) ++ l ++
        an.stray ⟨now, .continuousEnd tag⟩) := by
  have hothers := @ending_others o t ⟨now, .continuousEnd tag⟩ rest tag an.continuous
    fun tag' hne => by simp [AnnotateCall.touches, hne.symm]
  have hbefore := outlook_perm an o t (⟨now, .continuousEnd tag⟩ :: rest) tag
  have hafter := outlook_perm (an.annotateContinuousEnd now tag) o t rest tag
  rw [hothers, endTime_touched (by simp [AnnotateCall.touches])] at hbefore
  simp only [Finmap.lookup_erase, Annotation.annotateContinuousEnd, erase_erase_self,
    Option.toList_none, List.map_nil, List.nil_append] at hafter ⊢
  have hrecorded : [((an.continuous.lookup tag).getD ⟨0, [], [], []⟩).ending tag now] =
      ((an.continuous.lookup tag).toList.map fun cont => cont.ending tag now) ++
        an.stray ⟨now, .continuousEnd tag⟩ := by
    cases hlook : an.continuous.lookup tag with
    | none => simp [Finmap.lookup_eq_none.mp hlook, Annotation.stray, Continuous.ending]
    | some cont => simp [Finmap.mem_of_lookup_eq_some hlook, Annotation.stray]
  rw [hrecorded] at hafter ⊢
  rw [List.perm_iff_count]
  intro b
  have hcb := hbefore.count_eq b
  have hca := hafter.count_eq b
  simp only [List.count_append] at hcb hca ⊢
  omega

/-- A call moves the outlook on by its own annotation, and by what it should not record. -/
theorem outlook_call (an : Annotation) (c : AnnotateCall) (o : RangeOrder GoString) (t : ℤ)
    (rest : List AnnotateCall) : ((an.call c).outlook o t rest ++ timeline t rest).Perm
      (an.outlook o t (c :: rest) ++ timeline t (c :: rest) ++ an.stray c) := by
  obtain ⟨now, op⟩ := c
  cases op with
  | point tag desp details bgcolor =>
    rw [timeline, Annotation.stray, List.append_nil]
    exact outlook_record (fun _ => rfl) _ _
  | interval tag start desp details bgcolor =>
    rw [timeline, Annotation.stray, List.append_nil]
    exact outlook_record (fun _ => rfl) _ _
  | continuous tag desp details bgcolor =>
    rw [timeline, Annotation.stray, List.append_nil]
    exact outlook_continuous an o t now rest tag desp details bgcolor _
  | continuousEnd tag =>
    rw [timeline]
    exact outlook_continuousEnd an o t now rest tag _

end step

/-! ### Whole histories -/

section runs

/-- What a sequence of calls records that it should not. -/
def Annotation.strays (an : Annotation) : List AnnotateCall → List PorcupineAnnotation
  | [] => []
  | c :: rest => an.stray c ++ (an.call c).strays rest

/-- The annotations at the end are those of the timeline and the stray ones. -/
theorem finalize_perm (an : Annotation) (o : RangeOrder GoString) (t : ℤ)
    (calls : List AnnotateCall) : ((calls.foldl Annotation.call an).finalize o t).1.Perm
      (an.outlook o t calls ++ timeline t calls ++ an.strays calls) := by
  induction calls generalizing an with
  | nil =>
    rw [timeline, Annotation.strays, List.append_nil, List.append_nil]
    exact List.Perm.refl _
  | cons c rest ih =>
    unfold Annotation.strays
    rw [← List.append_assoc]
    exact (ih (an.call c)).trans ((outlook_call an c o t rest).append_right _)

/-- Nothing is stray just if every end finds an open annotation. -/
theorem strays_eq_nil_iff (an : Annotation) (calls : List AnnotateCall) : an.strays calls = [] ↔
    ∀ xs now tag ys, calls = xs ++ ⟨now, .continuousEnd tag⟩ :: ys →
      tag ∈ (xs.foldl Annotation.call an).continuous := by
  induction calls generalizing an with
  | nil => exact iff_of_true rfl (by simp)
  | cons c rest ih =>
    unfold Annotation.strays
    rw [List.append_eq_nil_iff, ih]
    constructor
    · rintro ⟨hnow, hlater⟩ xs now tag ys hcalls
      cases xs with
      | nil =>
        obtain ⟨rfl, -⟩ := List.cons.inj hcalls
        by_contra hnone
        simp [show tag ∉ an.continuous from hnone, Annotation.stray] at hnow
      | cons x xs =>
        obtain ⟨rfl, hrest⟩ := List.cons.inj hcalls
        exact hlater xs now tag ys hrest
    · intro hall
      refine ⟨?_,
        fun xs now tag ys hrest => hall (c :: xs) now tag ys (by rw [hrest, List.cons_append])⟩
      obtain ⟨now, op⟩ := c
      cases op with
      | continuousEnd tag => exact if_pos (hall [] now tag rest rfl)
      | point | interval | continuous => rfl

/-- The open annotations after one more call. -/
theorem mem_continuous_call (an : Annotation) (c : AnnotateCall) (tag : GoString) :
    tag ∈ (an.call c).continuous ↔ c.opens tag = true ∨ c.touches tag = false ∧
      tag ∈ an.continuous := by
  obtain ⟨now, op⟩ := c
  cases op with
  | point tag' desp details bgcolor | interval tag' start desp details bgcolor =>
    simp [AnnotateCall.opens, AnnotateCall.touches, Annotation.call, Annotation.annotatePointColor,
      Annotation.annotateIntervalColor]
  | continuous tag' desp details bgcolor =>
    simp only [annotateContinuousColor_eq, Annotation.call, Finmap.mem_insert, AnnotateCall.opens,
      AnnotateCall.touches, decide_eq_true_eq, decide_eq_false_iff_not]
    rcases eq_or_ne tag' tag with rfl | hne
    · simp
    · simp [hne, hne.symm]
  | continuousEnd tag' =>
    simp only [Finmap.mem_erase, Annotation.call, Annotation.annotateContinuousEnd,
      AnnotateCall.opens, AnnotateCall.touches, decide_eq_false_iff_not,
        Bool.false_eq_true, false_or]
    rw [ne_comm]

theorem ongoing_concat (calls : List AnnotateCall) (c : AnnotateCall) (tag : GoString) :
    Ongoing (calls ++ [c]) tag ↔ c.opens tag = true ∨ c.touches tag = false ∧
      Ongoing calls tag := by
  constructor
  · rintro ⟨xs, c', ys, hcalls, hopens, hrest⟩
    rcases ys.eq_nil_or_concat with rfl | ⟨ys, y, rfl⟩
    · obtain ⟨-, heq⟩ := List.append_inj' hcalls rfl
      obtain rfl := List.singleton_inj.mp heq
      exact Or.inl hopens
    · rw [List.concat_eq_append] at hcalls hrest
      rw [← List.cons_append, ← List.append_assoc] at hcalls
      obtain ⟨rfl, heq⟩ := List.append_inj' hcalls rfl
      obtain rfl := List.singleton_inj.mp heq
      obtain ⟨hys, hlast⟩ := List.forall_mem_append.mp hrest
      exact Or.inr ⟨hlast c List.mem_cons_self, xs, c', ys, rfl, hopens, hys⟩
  · rintro (hopens | ⟨htouches, xs, c', ys, rfl, hopens, hrest⟩)
    · exact ⟨calls, c, [], rfl, hopens, fun _ hy => absurd hy List.not_mem_nil⟩
    · have hlast : ∀ y ∈ [c], y.touches tag = false := List.forall_mem_singleton.mpr htouches
      exact ⟨xs, c', ys ++ [c], by simp, hopens, List.forall_mem_append.mpr ⟨hrest, hlast⟩⟩

/-- What is open in the map is what is going on. -/
theorem mem_continuous_iff (an : Annotation) (calls : List AnnotateCall) (tag : GoString) :
    tag ∈ (calls.foldl Annotation.call an.clear).continuous ↔ Ongoing calls tag := by
  induction calls using List.reverseRecOn with
  | nil => exact iff_of_false Finmap.notMem_empty (by simp [Ongoing])
  | append_singleton calls c ih =>
    rw [List.foldl_append, List.foldl_cons, List.foldl_nil, mem_continuous_call, ih, ongoing_concat]

/-- CORRECT: after `clear`, and for every map order and every time of `finalize`, the annotations
    returned are one for each call but the ends, each continuous one from its own time to that of
    the next call on its tag, exactly if every end comes while an annotation on its tag is going
    on. -/
theorem timeline_iff (an : Annotation) (calls : List AnnotateCall)
    (o : RangeOrder GoString) (t : ℤ) :
    ((calls.foldl Annotation.call an.clear).finalize o t).1.Perm (timeline t calls) ↔
      ∀ xs now tag ys, calls = xs ++ ⟨now, .continuousEnd tag⟩ :: ys → Ongoing xs tag := by
  have hperm := finalize_perm an.clear o t calls
  have hnothing : an.clear.outlook o t calls = [] := by
    have hempty : o.entries (∅ : GoMap GoString Continuous) = [] := by
      rw [List.eq_nil_iff_forall_not_mem]
      rintro ⟨tag, cont⟩ he
      rw [o.mem_entries, Finmap.lookup_empty] at he
      cases he
    simp [hempty, Annotation.outlook, Annotation.clear]
  rw [hnothing, List.nil_append] at hperm
  simp only [← mem_continuous_iff an]
  rw [← strays_eq_nil_iff an.clear calls]
  constructor
  · intro htimeline
    have hlen := hperm.length_eq.symm.trans htimeline.length_eq
    rw [List.length_append] at hlen
    exact List.eq_nil_of_length_eq_zero (by omega)
  · intro hstrays
    rwa [hstrays, List.append_nil] at hperm

/-- A failure is cleared that never was: the annotations have an interval from time 0. -/
theorem timeline_stray_end :
    ((([⟨5, .continuousEnd (lit "$ Failure")⟩] : List AnnotateCall).foldl Annotation.call
      (⟨[], ∅, false⟩ : Annotation).clear).finalize (.ascending GoString) 9).1 =
        [⟨lit "$ Failure", 0, 5, [], [], []⟩] ∧
    timeline 9 [⟨5, .continuousEnd (lit "$ Failure")⟩] = [] := by
  decide +kernel

end runs

end DistSys.Tester
