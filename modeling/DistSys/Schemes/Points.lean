import DistSys.Schemes.Linear

/-! @scheme points | family:linearizability | result:atomic objects

    Operations that take effect at one moment of their call, in the making. A point is appended when
    an operation takes effect, and filled in when the operation has returned and is recorded. The
    order of the points is a linearization of what was recorded, once none is left open.

        call ├────────●─────────┤ ret            points   ● ● ● ○ ●        ○ open
                    point                        in the order in which they were appended  -/

namespace DistSys.Linear
open Machine (run run_cons)

variable {ι T β α : Type*}

/-- Who called, when it took effect, what it did, and the operation as recorded. -/
structure Point (ι T β α : Type*) where
  owner : ι
  time : T
  effect : β
  op : Option α

/-- What was recorded, in the order of the points. -/
def finished (l : List (Point ι T β α)) : List α := l.filterMap Point.op

theorem finished_append (l l' : List (Point ι T β α)) :
    finished (l ++ l') = finished l ++ finished l' :=
  List.filterMap_append

section making
variable [DecidableEq ι] (i : ι) (a : α) (l : List (Point ι T β α))

/-- The points of operations of `i` that are not recorded yet. -/
def opened : List (Point ι T β α) := l.filter fun p => p.owner = i ∧ p.op.isNone

/-- One point, filled in if it is an open one of `i`. -/
def Point.finish (p : Point ι T β α) : Point ι T β α :=
  if p.owner = i ∧ p.op.isNone then { p with op := some a } else p

/-- The operation of `i` is recorded. -/
def finish : List (Point ι T β α) := l.map (Point.finish i a)

theorem opened_append (l' : List (Point ι T β α)) :
    opened i (l ++ l') = opened i l ++ opened i l' :=
  List.filter_append _ _

theorem opened_singleton (p : Point ι T β α) (hp : p.op = none) :
    opened i [p] = if p.owner = i then [p] else [] := by
  simp [opened, List.filter_cons, hp]

variable {i a l}

theorem mem_opened {p : Point ι T β α} : p ∈ opened i l ↔ p ∈ l ∧ p.owner = i ∧ p.op = none := by
  simp [opened]

theorem opened_finish_self : opened i (finish i a l) = [] := by
  refine List.filter_eq_nil_iff.mpr (List.forall_mem_map.mpr ?_)
  intro p _
  by_cases h : p.owner = i ∧ p.op.isNone
  · simp [Point.finish, h]
  · simp only [Point.finish, if_neg h, decide_eq_true_eq]
    exact h

theorem opened_finish_of_ne {j : ι} (hne : j ≠ i) : opened j (finish i a l) = opened j l := by
  induction l with
  | nil => rfl
  | cons p l ih =>
    rw [finish, List.map_cons, ← finish, opened, opened, List.filter_cons,
      List.filter_cons, ← opened, ← opened, ih]
    by_cases h : p.owner = i ∧ p.op.isNone
    · simp [Point.finish, h, hne.symm]
    · rw [Point.finish, if_neg h]

theorem finish_of_opened (h : opened i l = []) : finish i a l = l := by
  refine (List.map_congr_left ?_).trans (List.map_id l)
  intro p hp
  exact if_neg (by simpa using List.filter_eq_nil_iff.mp h p hp)

/-- What was open is recorded, and nothing else. -/
theorem finished_finish {p : Point ι T β α} (h : opened i l = [p]) :
    (finished (finish i a l)).Perm (a :: finished l) := by
  induction l with
  | nil => cases h
  | cons q l ih =>
    rw [opened, List.filter_cons] at h
    by_cases hq : q.owner = i ∧ q.op.isNone
    · rw [if_pos (decide_eq_true hq)] at h
      have hnone : q.op = none := Option.isNone_iff_eq_none.mp hq.2
      have hrest : finish i a l = l := finish_of_opened (List.cons.inj h).2
      simp only [finish, List.map_cons, Point.finish, if_pos hq] at hrest ⊢
      rw [hrest, finished, finished, List.filterMap_cons_none hnone]
      exact List.Perm.refl _
    · rw [if_neg (by simpa using hq)] at h
      rw [finish, List.map_cons, Point.finish, if_neg hq, ← finish]
      cases hop : q.op with
      | none =>
        rw [finished, finished, List.filterMap_cons_none hop, List.filterMap_cons_none hop]
        exact ih h
      | some b =>
        rw [finished, finished, List.filterMap_cons_some hop, List.filterMap_cons_some hop]
        exact ((ih h).cons b).trans (List.Perm.swap a b _)

/-- A point that is filled in was an open one of `i`, or was there before. -/
theorem mem_finish {q : Point ι T β α} (hq : q ∈ finish i a l) :
    q ∈ l ∨ ∃ p ∈ opened i l, q = { p with op := some a } := by
  obtain ⟨p, hp, rfl⟩ := List.mem_map.mp hq
  by_cases h : p.owner = i ∧ p.op.isNone
  · exact Or.inr ⟨p, List.mem_filter.mpr ⟨hp, decide_eq_true h⟩, if_pos h⟩
  · exact Or.inl (by rwa [Point.finish, if_neg h])

/-- Neither the times nor the effects change when a point is filled in. -/
theorem map_finish {γ : Type*} {f : Point ι T β α → γ}
    (hf : ∀ p : Point ι T β α, f { p with op := some a } = f p) :
    (finish i a l).map f = l.map f := by
  rw [finish, List.map_map]
  refine List.map_congr_left ?_
  intro p _
  by_cases h : p.owner = i ∧ p.op.isNone
  · rw [Function.comp_apply, Point.finish, if_pos h, hf]
  · rw [Function.comp_apply, Point.finish, if_neg h]

end making

/-! ### The order of the points -/

variable {l : List (Point ι T β α)} {σ τ : Type*} {attend : σ → β → Option σ}
  {step : τ → α → Option τ} {f : σ → τ}

/-- What the object does at the points is a run of recorded operations, if each operation records
    what was done at its point. -/
theorem run_finished {s t : σ} (hrun : run attend s (l.map Point.effect) = some t)
    (hop : ∀ p ∈ l, ∃ a, p.op = some a ∧
      ∀ s t, attend s p.effect = some t → step (f s) a = some (f t)) :
    run step (f s) (finished l) = some (f t) := by
  induction l generalizing s with
  | nil => cases hrun; rfl
  | cons p l ih =>
    obtain ⟨s', hs', hrun⟩ := run_cons.mp hrun
    obtain ⟨a, ha, hstep⟩ := hop p List.mem_cons_self
    rw [finished, List.filterMap_cons_some ha, run_cons]
    exact ⟨f s', hstep s s' hs', ih hrun fun q hq => hop q (List.mem_cons_of_mem _ hq)⟩

variable [LinearOrder T] {call ret : α → T}

/-- Points between call and return, in their order. -/
theorem inTime_finished (hsorted : l.Pairwise fun p q => p.time ≤ q.time)
    (hbetween : ∀ p ∈ l, ∀ a, p.op = some a → call a ≤ p.time ∧ p.time ≤ ret a) :
    InTime call ret (finished l) := by
  refine List.pairwise_filterMap.mpr (hsorted.imp_of_mem ?_)
  intro p q hp hq hle a ha b hb
  exact not_lt.mpr (((hbetween p hp a ha).1.trans hle).trans (hbetween q hq b hb).2)

/-- CORRECT: when every point is filled in, what was recorded is linearizable. -/
theorem linearizable_of_points {history : List α} (hperm : history.Perm (finished l))
    (hsorted : l.Pairwise fun p q => p.time ≤ q.time)
    (hbetween : ∀ p ∈ l, ∀ a, p.op = some a → call a ≤ p.time ∧ p.time ≤ ret a)
    {s t : σ} (hrun : run attend s (l.map Point.effect) = some t)
    (hop : ∀ p ∈ l, ∃ a, p.op = some a ∧
      ∀ s t, attend s p.effect = some t → step (f s) a = some (f t)) :
    Linearizable call ret (fun l => (run step (f s) l).isSome) history :=
  ⟨finished l, hperm.symm, inTime_finished hsorted hbetween, by simp [run_finished hrun hop]⟩

end DistSys.Linear
