import DistSys.Tester.Annotation

/-! @go tester1/annotation.go | name:AnnotateTest, AnnotateCheckerBegin, AnnotateCheckerEnd |
    scheme:fold

    A check of a test is annotated when it ends: as an interval if its begin was announced, and as a
    point if not. The begin is kept in a record of the framework, with time 0 for none.

        begin ──────── end     interval from the begin
                       end     point
        begin ── begin ─ end   interval from the later begin

    The end copies the record and resets the copy, so the begin stays: from the first one on, every
    end is taken for the end of the last begin, however many ends there were since. -/

namespace DistSys.Tester
open GoString (lit itoa)

def colorInfo : GoString := lit "#FAFAFA"
def colorNeutral : GoString := lit "#FFECB3"
def colorSuccess : GoString := lit "#C8E6C9"
def colorFailure : GoString := lit "#FFCDD2"

def tagChecker : GoString := lit "$ Checker"
def tagInfo : GoString := lit "$ Test Info"

structure CheckerBegin where
  ts : ℤ
  details : GoString
  deriving DecidableEq

structure FrameworkInfo where
  nservers : ℕ
  connected : List Bool
  crashed : List Bool
  ckbegin : CheckerBegin
  deriving DecidableEq

def mkFrameworkInfo (nservers : ℕ) : FrameworkInfo :=
  ⟨nservers, .replicate nservers true, .replicate nservers false, ⟨0, []⟩⟩

/-- The global variables `annotation` and `finfo`, once a test has begun. -/
structure Globals where
  an : Annotation
  finfo : FrameworkInfo

/-- `AnnotateTest`, whatever was annotated before. -/
def annotateTest (an : Annotation) (now : ℤ) (desp : GoString) (nservers : ℕ) : Globals :=
  let details := desp ++ lit " (" ++ itoa nservers ++ lit " servers)"
  ⟨an.clear.annotatePointColor now tagInfo details details colorInfo, mkFrameworkInfo nservers⟩

def annotateCheckerBegin (g : Globals) (now : ℤ) (details : GoString) : Globals :=
  { g with finfo := { g.finfo with ckbegin := ⟨now, details⟩ } }

def annotateCheckerEnd (g : Globals) (now : ℤ) (desp details color : GoString) : Globals :=
  let ckbegin := g.finfo.ckbegin
  if ckbegin.ts = 0 then { g with an := g.an.annotatePointColor now tagChecker desp details color }
  else
    -- `ckbegin.ts = 0` then resets the copy, which nobody reads again
    { g with
      an := g.an.annotateIntervalColor now tagChecker ckbegin.ts desp
        (ckbegin.details ++ lit ": " ++ details) color }

def annotateCheckerSuccess (g : Globals) (now : ℤ) (desp details : GoString) : Globals :=
  annotateCheckerEnd g now desp details colorSuccess

def annotateCheckerFailure (g : Globals) (now : ℤ) (desp details : GoString) : Globals :=
  annotateCheckerEnd g now desp details colorFailure

def annotateCheckerNeutral (g : Globals) (now : ℤ) (desp details : GoString) : Globals :=
  annotateCheckerEnd g now desp details colorNeutral

inductive CheckOp where
  | checkerBegin (details : GoString)
  | checkerEnd (desp details color : GoString)
  | success (desp details : GoString)
  | failure (desp details : GoString)
  | neutral (desp details : GoString)
  /-- some other annotation in between -/
  | annotate (op : AnnotateOp)
  deriving DecidableEq

/-- A call, with the time it reads. -/
structure CheckCall where
  now : ℤ
  op : CheckOp
  deriving DecidableEq

def Globals.call (g : Globals) (c : CheckCall) : Globals :=
  match c.op with
  | .checkerBegin details => annotateCheckerBegin g c.now details
  | .checkerEnd desp details color => annotateCheckerEnd g c.now desp details color
  | .success desp details => annotateCheckerSuccess g c.now desp details
  | .failure desp details => annotateCheckerFailure g c.now desp details
  | .neutral desp details => annotateCheckerNeutral g c.now desp details
  | .annotate op => { g with an := g.an.call ⟨c.now, op⟩ }

/-! ### What an end should record -/

/-- The begin that a call announces. -/
def CheckCall.begins (c : CheckCall) : Option CheckerBegin :=
  match c.op with
  | .checkerBegin details => some ⟨c.now, details⟩
  | _ => none

/-- The description, details and color of an end of a check. -/
def CheckCall.ends (c : CheckCall) : Option (GoString × GoString × GoString) :=
  match c.op with
  | .checkerEnd desp details color => some (desp, details, color)
  | .success desp details => some (desp, details, colorSuccess)
  | .failure desp details => some (desp, details, colorFailure)
  | .neutral desp details => some (desp, details, colorNeutral)
  | _ => none

/-- `b` is the latest begin of the calls, and no end has come since. -/
def Pending (calls : List CheckCall) (b : CheckerBegin) : Prop :=
  ∃ xs c ys, calls = xs ++ c :: ys ∧ c.begins = some b ∧ ∀ y ∈ ys, y.begins = none ∧ y.ends = none

/-- The annotation that an end at `now` should record after the calls: an interval from the pending
    begin with its details, or else a point. -/
def Pairs (calls : List CheckCall) (now : ℤ) (desp details color : GoString)
    (a : PorcupineAnnotation) : Prop :=
  (∀ b, Pending calls b →
    a = ⟨tagChecker, b.ts, now, desp, b.details ++ lit ": " ++ details, color⟩) ∧
  ((∀ b, ¬ Pending calls b) → a = ⟨tagChecker, now, 0, desp, details, color⟩)

/-! ### What an end records -/

section ends
variable {g : Globals} {c : CheckCall}

/-- The annotation that an end records. -/
def CheckerBegin.ending (b : CheckerBegin) (now : ℤ) (desp details color : GoString) :
    PorcupineAnnotation :=
  if b.ts = 0 then ⟨tagChecker, now, 0, desp, details, color⟩
  else ⟨tagChecker, b.ts, now, desp, b.details ++ lit ": " ++ details, color⟩

theorem annotations_checkerEnd (g : Globals) (now : ℤ) (desp details color : GoString) :
    (annotateCheckerEnd g now desp details color).an.annotations =
      g.an.annotations ++ [g.finfo.ckbegin.ending now desp details color] := by
  rw [annotateCheckerEnd, CheckerBegin.ending]
  split <;> rfl

/-- Whichever end it is. -/
theorem annotations_ends {desp details color : GoString}
    (h : c.ends = some (desp, details, color)) : (g.call c).an.annotations = g.an.annotations ++
      [g.finfo.ckbegin.ending c.now desp details color] := by
  obtain ⟨now, op⟩ := c
  cases op with
  | checkerBegin | annotate => cases h
  | checkerEnd | success | failure | neutral =>
    cases h
    exact annotations_checkerEnd g now _ _ _

/-- No end resets the begin. -/
theorem ckbegin_call (g : Globals) (c : CheckCall) :
    (g.call c).finfo.ckbegin = c.begins.getD g.finfo.ckbegin := by
  obtain ⟨now, op⟩ := c
  have hend : ∀ desp details color,
      (annotateCheckerEnd g now desp details color).finfo.ckbegin = g.finfo.ckbegin := by
    intro desp details color
    rw [annotateCheckerEnd]
    split <;> rfl
  cases op with
  | checkerBegin | annotate => rfl
  | checkerEnd | success | failure | neutral => exact hend _ _ _

/-- So it stays until the next begin. -/
theorem ckbegin_foldl (g : Globals) (calls : List CheckCall) (h : ∀ c ∈ calls, c.begins = none) :
    (calls.foldl Globals.call g).finfo.ckbegin = g.finfo.ckbegin := by
  induction calls generalizing g with
  | nil => rfl
  | cons c calls ih =>
    rw [List.foldl_cons, ih _ fun c' hc' => h c' (List.mem_cons_of_mem _ hc'), ckbegin_call,
      h c List.mem_cons_self, Option.getD_none]

theorem ckbegin_of_begins {xs ys : List CheckCall} {b : CheckerBegin} (hc : c.begins = some b)
    (hys : ∀ y ∈ ys, y.begins = none) :
    ((xs ++ c :: ys).foldl Globals.call g).finfo.ckbegin = b := by
  rw [List.foldl_append, List.foldl_cons, ckbegin_foldl _ ys hys,
    ckbegin_call, hc, Option.getD_some]

/-- The last begin of the calls, if there is one. -/
theorem exists_last_begin (calls : List CheckCall) : (∀ c ∈ calls, c.begins = none) ∨
    ∃ xs c b ys, calls = xs ++ c :: ys ∧ c.begins = some b ∧ ∀ y ∈ ys, y.begins = none := by
  induction calls using List.reverseRecOn with
  | nil => exact Or.inl fun _ h => absurd h List.not_mem_nil
  | append_singleton calls c ih =>
    cases hc : c.begins with
    | some b => exact Or.inr ⟨calls, c, b, [], rfl, hc, fun _ h => absurd h List.not_mem_nil⟩
    | none =>
      have hlast : ∀ y ∈ [c], y.begins = none := List.forall_mem_singleton.mpr hc
      rcases ih with hnone | ⟨xs, c', b, ys, rfl, hc', hys⟩
      · exact Or.inl (List.forall_mem_append.mpr ⟨hnone, hlast⟩)
      · exact Or.inr ⟨xs, c', b, ys ++ [c], by simp, hc', List.forall_mem_append.mpr ⟨hys, hlast⟩⟩

end ends

/-! ### Whole tests -/

theorem ts_of_begins {c : CheckCall} {b : CheckerBegin} (h : c.begins = some b) : b.ts = c.now := by
  obtain ⟨now, op⟩ := c
  cases op with
  | checkerBegin =>
    cases h
    rfl
  | checkerEnd | success | failure | neutral | annotate => cases h

/-- What is pending is in the record. -/
theorem Pending.ckbegin {calls : List CheckCall} {b : CheckerBegin}
    (h : Pending calls b) (g : Globals) : (calls.foldl Globals.call g).finfo.ckbegin = b := by
  obtain ⟨xs, c, ys, rfl, hc, hys⟩ := h
  exact ckbegin_of_begins hc fun y hy => (hys y hy).1

/-- An end is paired right just if a begin is pending, or there has been none at all. -/
theorem pairs_iff {g : Globals} {calls : List CheckCall} {now : ℤ} (desp details color : GoString)
    (hstart : g.finfo.ckbegin.ts = 0) (hts : ∀ c ∈ calls, 0 < c.now) (hnow : 0 < now) :
    Pairs calls now desp details color
        ((calls.foldl Globals.call g).finfo.ckbegin.ending now desp details color) ↔
      ((∃ c ∈ calls, c.begins.isSome) → ∃ b, Pending calls b) := by
  rcases exists_last_begin calls with hnone | ⟨xs, c, b, ys, rfl, hc, hys⟩
  · -- without a begin the record is as the test began
    have hno : ∀ b, ¬ Pending calls b := by
      rintro b ⟨xs, c, ys, rfl, hc, -⟩
      rw [hnone c (by simp)] at hc
      cases hc
    refine iff_of_true ⟨fun b hb => absurd hb (hno b), fun _ => ?_⟩ ?_
    · rw [ckbegin_foldl g calls hnone, CheckerBegin.ending, if_pos hstart]
    · rintro ⟨c, hmem, hsome⟩
      rw [hnone c hmem] at hsome
      cases hsome
  · -- otherwise it holds the last begin, pending or not
    have hck : ((xs ++ c :: ys).foldl Globals.call g).finfo.ckbegin = b := ckbegin_of_begins hc hys
    have hpos : b.ts ≠ 0 := by
      rw [ts_of_begins hc]
      exact (hts c (by simp)).ne'
    rw [hck, CheckerBegin.ending, if_neg hpos]
    constructor
    · intro hpairs _
      by_contra hno
      have hpoint := hpairs.2 fun b' hb' => hno ⟨b', hb'⟩
      exact hnow.ne' (congrArg PorcupineAnnotation.end_ hpoint)
    · intro hpending
      obtain ⟨b', hb'⟩ := hpending ⟨c, by simp, by simp [hc]⟩
      refine ⟨fun b'' hb'' => ?_, fun hno => absurd hb' (hno b')⟩
      rw [← hb''.ckbegin g, hck]

/-- CORRECT: after `AnnotateTest`, with positive times, every end of a check records an interval
    from the begin that is pending, or else a point, exactly if no end comes after a begin that an
    earlier end has used up. -/
theorem checker_pairing_iff (an : Annotation) (now₀ : ℤ) (desp₀ : GoString) (nservers : ℕ)
    (calls : List CheckCall) (hts : ∀ c ∈ calls, 0 < c.now) :
    (∀ xs c ys desp details color, calls = xs ++ c :: ys → c.ends = some (desp, details, color) →
      ∃ a, ((xs ++ [c]).foldl Globals.call (annotateTest an now₀ desp₀ nservers)).an.annotations =
          (xs.foldl Globals.call (annotateTest an now₀ desp₀ nservers)).an.annotations ++ [a] ∧
        Pairs xs c.now desp details color a) ↔
    ∀ xs c ys, calls = xs ++ c :: ys → c.ends.isSome → (∃ x ∈ xs, x.begins.isSome) →
      ∃ b, Pending xs b := by
  have hone : ∀ {xs c ys} (desp details color), calls = xs ++ c :: ys →
      (Pairs xs c.now desp details color ((xs.foldl Globals.call
          (annotateTest an now₀ desp₀ nservers)).finfo.ckbegin.ending c.now desp details color) ↔
        ((∃ x ∈ xs, x.begins.isSome) → ∃ b, Pending xs b)) := by
    intro xs c ys desp details color hcalls
    refine pairs_iff desp details color rfl (fun x hx => hts x ?_) (hts c ?_)
    · rw [hcalls]
      exact List.mem_append_left _ hx
    · rw [hcalls]
      simp
  constructor
  · intro hall xs c ys hcalls hends
    obtain ⟨⟨desp, details, color⟩, hends⟩ := Option.isSome_iff_exists.mp hends
    obtain ⟨a, hrecorded, hpairs⟩ := hall xs c ys desp details color hcalls hends
    rw [List.foldl_append, List.foldl_cons, List.foldl_nil, annotations_ends hends] at hrecorded
    obtain rfl := List.singleton_inj.mp (List.append_cancel_left hrecorded)
    exact (hone desp details color hcalls).mp hpairs
  · intro hall xs c ys desp details color hcalls hends
    refine ⟨_, ?_, (hone desp details color hcalls).mpr (hall xs c ys hcalls (by rw [hends]; rfl))⟩
    rw [List.foldl_append, List.foldl_cons, List.foldl_nil, annotations_ends hends]

/-- A check that is announced and ends. -/
def oneCheck : List CheckCall :=
  [⟨1, .checkerBegin (lit "check")⟩, ⟨2, .success (lit "ok") (lit "fine")⟩]

theorem checker_pairing_one :
    (oneCheck.foldl Globals.call (annotateTest ⟨[], ∅, false⟩ 1 (lit "test") 3)).an.annotations =
      (annotateTest ⟨[], ∅, false⟩ 1 (lit "test") 3).an.annotations ++
        [⟨tagChecker, 1, 2, lit "ok", lit "check: fine", colorSuccess⟩] := by
  have hpending : Pending [⟨1, .checkerBegin (lit "check")⟩] ⟨1, lit "check"⟩ :=
    ⟨[], _, [], rfl, rfl, fun _ h => absurd h List.not_mem_nil⟩
  have hcond : ∀ xs c ys, oneCheck = xs ++ c :: ys → c.ends.isSome → (∃ x ∈ xs, x.begins.isSome) →
      ∃ b, Pending xs b := by
    intro xs c ys hcalls hends hbegun
    rcases xs with _ | ⟨x, _ | ⟨x', xs⟩⟩
    · simp at hbegun
    · obtain ⟨rfl, -⟩ := List.cons.inj hcalls
      exact ⟨_, hpending⟩
    · simp [oneCheck] at hcalls
  have hpaired :=
    (checker_pairing_iff ⟨[], ∅, false⟩ 1 (lit "test") 3 oneCheck (by decide)).mpr hcond
  obtain ⟨a, hrecorded, hpairs⟩ := hpaired [⟨1, .checkerBegin (lit "check")⟩] _ [] _ _ _ rfl rfl
  rw [hpairs.1 _ hpending] at hrecorded
  exact hrecorded

/-- The end of a check that was not announced. -/
def staleEnd : CheckCall := ⟨3, .failure (lit "bad") (lit "other")⟩

/-- After `oneCheck` the stale end is annotated as an interval too, from the begin and with the text
    of the check before, where a point should be. -/
theorem checker_stale_begin :
    ((oneCheck ++ [staleEnd]).foldl Globals.call
        (annotateTest ⟨[], ∅, false⟩ 1 (lit "test") 3)).an.annotations =
      (oneCheck.foldl Globals.call (annotateTest ⟨[], ∅, false⟩ 1 (lit "test") 3)).an.annotations ++
        [⟨tagChecker, 1, 3, lit "bad", lit "check: other", colorFailure⟩] ∧
    (∀ b, ¬ Pending oneCheck b) ∧
    ¬ ∃ a, ((oneCheck ++ [staleEnd]).foldl Globals.call
        (annotateTest ⟨[], ∅, false⟩ 1 (lit "test") 3)).an.annotations =
      (oneCheck.foldl Globals.call (annotateTest ⟨[], ∅, false⟩ 1 (lit "test") 3)).an.annotations ++
        [a] ∧
      Pairs oneCheck 3 (lit "bad") (lit "other") colorFailure a := by
  have hrecorded : ((oneCheck ++ [staleEnd]).foldl Globals.call
        (annotateTest ⟨[], ∅, false⟩ 1 (lit "test") 3)).an.annotations =
      (oneCheck.foldl Globals.call (annotateTest ⟨[], ∅, false⟩ 1 (lit "test") 3)).an.annotations ++
        [⟨tagChecker, 1, 3, lit "bad", lit "check: other", colorFailure⟩] := by decide +kernel
  have hnone : ∀ b, ¬ Pending oneCheck b := by
    rintro b ⟨xs, c, ys, hcalls, hbegins, hys⟩
    rcases xs with _ | ⟨x, _ | ⟨x', xs⟩⟩
    · obtain ⟨-, rfl⟩ := List.cons.inj hcalls
      cases (hys _ List.mem_cons_self).2
    · obtain ⟨-, hcalls⟩ := List.cons.inj hcalls
      obtain ⟨rfl, -⟩ := List.cons.inj hcalls
      cases hbegins
    · simp [oneCheck] at hcalls
  refine ⟨hrecorded, hnone, ?_⟩
  rintro ⟨a, ha, hpairs⟩
  rw [hrecorded, List.append_cancel_left_eq, List.singleton_inj, hpairs.2 hnone] at ha
  cases ha

end DistSys.Tester
