import Mathlib.Data.List.Induction
import Mathlib.Logic.Function.Basic

/-! @scheme machine | family:transition-system | invariant:step, run

    A machine with a partial step function: `none` means that the action is not enabled, or that the
    process ends there. A run folds the step over a list of actions. What one step preserves, every
    run preserves; what one step relates, every run relates. -/

namespace DistSys
namespace Machine

variable {σ α : Type*}

/-- Folding a partial step over a list of actions. -/
def run (step : σ → α → Option σ) : σ → List α → Option σ
  | s, [] => some s
  | s, x :: xs => (step s x).bind fun s' => run step s' xs

variable {step : σ → α → Option σ}

@[simp] theorem run_nil (s : σ) : run step s [] = some s := rfl

theorem run_cons {s t : σ} {x : α} {xs : List α} :
    run step s (x :: xs) = some t ↔ ∃ s', step s x = some s' ∧ run step s' xs = some t := by
  simp only [run, Option.bind_eq_some_iff]

theorem run_append {s t : σ} {xs ys : List α} :
    run step s (xs ++ ys) = some t ↔ ∃ s', run step s xs = some s' ∧ run step s' ys = some t := by
  induction xs generalizing s with
  | nil => simp
  | cons x xs ih =>
    rw [List.cons_append, run_cons]
    constructor
    · rintro ⟨s₁, hs, hrun⟩
      obtain ⟨s', hxs, hys⟩ := ih.mp hrun
      exact ⟨s', run_cons.mpr ⟨s₁, hs, hxs⟩, hys⟩
    · rintro ⟨s', hxs, hys⟩
      obtain ⟨s₁, hs, hxs⟩ := run_cons.mp hxs
      exact ⟨s₁, hs, ih.mpr ⟨s', hxs, hys⟩⟩

/-- An invariant of the step is an invariant of the run. -/
theorem run_invariant {Inv : σ → Prop} (hstep : ∀ s x s', Inv s → step s x = some s' → Inv s')
    {s t : σ} {xs : List α} (hs : Inv s) (hrun : run step s xs = some t) : Inv t := by
  induction xs generalizing s with
  | nil => simp only [run_nil, Option.some.injEq] at hrun; exact hrun ▸ hs
  | cons x xs ih =>
    obtain ⟨s', hx, hxs⟩ := run_cons.mp hrun
    exact ih (hstep s x s' hs hx) hxs

/-- A preorder that every step from an invariant state climbs relates both ends of a run. -/
theorem run_relation {Inv : σ → Prop} {R : σ → σ → Prop}
    (hstep : ∀ s x s', Inv s → step s x = some s' → Inv s' ∧ R s s')
    (hrefl : ∀ s, R s s) (htrans : ∀ s t u, R s t → R t u → R s u)
    {s t : σ} {xs : List α} (hs : Inv s) (hrun : run step s xs = some t) : R s t := by
  induction xs generalizing s with
  | nil => simp only [run_nil, Option.some.injEq] at hrun; exact hrun ▸ hrefl s
  | cons x xs ih =>
    obtain ⟨s', hx, hxs⟩ := run_cons.mp hrun
    obtain ⟨hs', hR⟩ := hstep s x s' hs hx
    exact htrans s s' t hR (ih hs' hxs)

/-- Where every enabled action can be taken from an invariant state, the run goes through. -/
theorem run_total {Inv : σ → Prop} {P : α → Prop}
    (hstep : ∀ s x, Inv s → P x → ∃ s', step s x = some s' ∧ Inv s')
    {s : σ} {xs : List α} (hs : Inv s) (hxs : ∀ x ∈ xs, P x) :
    ∃ t, run step s xs = some t ∧ Inv t := by
  induction xs generalizing s with
  | nil => exact ⟨s, rfl, hs⟩
  | cons x xs ih =>
    obtain ⟨s', hx, hs'⟩ := hstep s x hs (hxs x List.mem_cons_self)
    obtain ⟨t, hrun, ht⟩ := ih hs' (fun y hy => hxs y (List.mem_cons_of_mem _ hy))
    exact ⟨t, run_cons.mpr ⟨s', hx, hrun⟩, ht⟩

/-- Each action, where it can be reached, is one that `P` allows in its state. -/
def Along (step : σ → α → Option σ) (P : σ → α → Prop) : σ → List α → Prop
  | _, [] => True
  | s, x :: xs => P s x ∧ ∀ s', step s x = some s' → Along step P s' xs

instance decidableAlong {P : σ → α → Prop} [∀ s x, Decidable (P s x)] :
    ∀ (s : σ) (xs : List α), Decidable (Along step P s xs)
  | _, [] => isTrue trivial
  | s, x :: xs =>
    match h : step s x with
    | none => decidable_of_iff (P s x) (by simp [Along, h])
    | some s' =>
      have : Decidable (Along step P s' xs) := decidableAlong s' xs
      decidable_of_iff (P s x ∧ Along step P s' xs) (by simp [Along, h])

/-- An invariant of the steps that are allowed, where all steps of the run are. -/
theorem run_invariant_along {Inv : σ → Prop} {P : σ → α → Prop}
    (hstep : ∀ s x s', Inv s → P s x → step s x = some s' → Inv s')
    {s t : σ} {xs : List α} (hs : Inv s) (hxs : Along step P s xs)
    (hrun : run step s xs = some t) : Inv t := by
  induction xs generalizing s with
  | nil => simp only [run_nil, Option.some.injEq] at hrun; exact hrun ▸ hs
  | cons x xs ih =>
    obtain ⟨s', hx, hrun⟩ := run_cons.mp hrun
    exact ih (hstep s x s' hs hxs.1 hx) (hxs.2 s' hx) hrun

/-- A machine that can do more has the same runs, and perhaps others. -/
theorem run_mono {step' : σ → α → Option σ}
    (hstep : ∀ s x t, step s x = some t → step' s x = some t)
    {s t : σ} {xs : List α} (hrun : run step s xs = some t) : run step' s xs = some t := by
  induction xs generalizing s with
  | nil => exact hrun
  | cons x xs ih =>
    obtain ⟨s', hx, hxs⟩ := run_cons.mp hrun
    exact run_cons.mpr ⟨s', hstep s x s' hx, ih hxs⟩

/-- A machine that computes with `f s` what another computes with `s`. -/
theorem run_map {τ β : Type*} {step' : τ → β → Option τ} {f : σ → τ} {g : β → α} (xs : List β)
    (hstep : ∀ s, ∀ x ∈ xs, step' (f s) x = (step s (g x)).map f) (s : σ) :
    run step' (f s) xs = (run step s (xs.map g)).map f := by
  induction xs generalizing s with
  | nil => rfl
  | cons x xs ih =>
    rw [List.map_cons, run, run, hstep s x List.mem_cons_self]
    cases step s (g x) with
    | none => rfl
    | some s' => exact ih (fun s y hy => hstep s y (List.mem_cons_of_mem _ hy)) s'

/-- Where every action can be taken and part `f` of the state follows `g`, it follows a fold. -/
theorem run_foldl {τ : Type*} {Inv : σ → Prop} {f : σ → τ} {g : τ → α → τ} {s : σ}
    (hs : Inv s) (xs : List α)
    (hstep : ∀ s, ∀ x ∈ xs, Inv s → ∃ s', step s x = some s' ∧ Inv s' ∧ f s' = g (f s) x) :
    ∃ t, run step s xs = some t ∧ Inv t ∧ f t = xs.foldl g (f s) := by
  induction xs generalizing s with
  | nil => exact ⟨s, rfl, hs, rfl⟩
  | cons x xs ih =>
    obtain ⟨s', hx, hs', hf⟩ := hstep s x List.mem_cons_self hs
    obtain ⟨t, hrun, ht, hfold⟩ := ih hs' fun s y hy => hstep s y (List.mem_cons_of_mem _ hy)
    exact ⟨t, run_cons.mpr ⟨s', hx, hrun⟩, ht, by rw [hfold, hf, List.foldl_cons]⟩

/-! ### Moments of a run -/

/-- A property of the actions so far and of the state they lead to. -/
theorem run_history {P : List α → σ → Prop} {s₀ : σ} (hnil : P [] s₀)
    (hstep : ∀ xs s x s', run step s₀ xs = some s → P xs s → step s x = some s' → P (xs ++ [x]) s')
    {xs : List α} {s : σ} (hrun : run step s₀ xs = some s) : P xs s := by
  induction xs using List.reverseRecOn generalizing s with
  | nil => cases hrun; exact hnil
  | append_singleton xs x ih =>
    obtain ⟨u, hxs, hx⟩ := run_append.mp hrun
    obtain ⟨t, hx, ht⟩ := run_cons.mp hx
    cases ht
    exact hstep xs u x _ hxs (ih hxs) hx

/-- `P` holds throughout a run exactly if each of its steps does what keeps `P`. -/
theorem run_always_iff {Inv P : σ → Prop} {Q : σ → α → Prop} {s₀ : σ} (hs : Inv s₀) (hP : P s₀)
    (hinv : ∀ s x s', Inv s → step s x = some s' → Inv s')
    (hstep : ∀ s x s', Inv s → P s → step s x = some s' → (P s' ↔ Q s x)) (acts : List α) :
    (∀ xs ys s, acts = xs ++ ys → run step s₀ xs = some s → P s) ↔
      ∀ xs x ys s s', acts = xs ++ x :: ys → run step s₀ xs = some s →
        step s x = some s' → Q s x := by
  constructor
  · intro hall xs x ys s s' hacts hrun hx
    have hrun' : run step s₀ (xs ++ [x]) = some s' :=
      run_append.mpr ⟨s, hrun, run_cons.mpr ⟨s', hx, rfl⟩⟩
    have hPs' : P s' := hall _ ys s' (by rw [hacts, List.append_assoc, List.singleton_append]) hrun'
    exact (hstep s x s' (run_invariant hinv hs hrun) (hall xs _ s hacts hrun) hx).mp hPs'
  · intro hQ xs ys s hacts hrun
    -- by induction on the prefix, whatever follows it
    refine run_history (P := fun xs s => ∀ ys, acts = xs ++ ys → P s)
      (fun _ _ => hP) ?_ hrun ys hacts
    intro xs s x s' hrun hxs hx ys hacts
    rw [List.append_assoc, List.singleton_append] at hacts
    exact (hstep s x s' (run_invariant hinv hs hrun) (hxs _ hacts) hx).mpr
      (hQ xs x ys s s' hacts hrun hx)

/-- `P` held in some state of the run. -/
def Past (step : σ → α → Option σ) (s₀ : σ) (xs : List α) (P : σ → Prop) : Prop :=
  ∃ ys zs s, xs = ys ++ zs ∧ run step s₀ ys = some s ∧ P s

/-- The run took `x` in a state in which `P` held. -/
def Took (step : σ → α → Option σ) (s₀ : σ) (xs : List α) (x : α) (P : σ → Prop) : Prop :=
  ∃ ys zs s, xs = ys ++ x :: zs ∧ run step s₀ ys = some s ∧ P s

variable {s₀ s : σ} {xs : List α} {x : α} {P : σ → Prop}

theorem Past.concat (h : Past step s₀ xs P) (y : α) : Past step s₀ (xs ++ [y]) P := by
  obtain ⟨ys, zs, t, rfl, hrun, hP⟩ := h
  exact ⟨ys, zs ++ [y], t, by simp, hrun, hP⟩

theorem past_now (hrun : run step s₀ xs = some s) (h : P s) (y : α) : Past step s₀ (xs ++ [y]) P :=
  ⟨xs, [y], s, rfl, hrun, h⟩

theorem Took.concat (h : Took step s₀ xs x P) (y : α) : Took step s₀ (xs ++ [y]) x P := by
  obtain ⟨ys, zs, t, rfl, hrun, hP⟩ := h
  exact ⟨ys, zs ++ [y], t, by simp, hrun, hP⟩

theorem Took.imp {Q : σ → Prop} (h : Took step s₀ xs x P) (hPQ : ∀ s, P s → Q s) :
    Took step s₀ xs x Q := by
  obtain ⟨ys, zs, t, hxs, hrun, hP⟩ := h
  exact ⟨ys, zs, t, hxs, hrun, hPQ t hP⟩

theorem took_now (hrun : run step s₀ xs = some s) (h : P s) : Took step s₀ (xs ++ [x]) x P :=
  ⟨xs, [], s, rfl, hrun, h⟩

/-- What an execution without end does first. -/
theorem run_range {σ' : ℕ → σ} {act : ℕ → α}
    (hstep : ∀ n, step (σ' n) (act n) = some (σ' (n + 1))) (n : ℕ) :
    run step (σ' 0) ((List.range n).map act) = some (σ' n) := by
  induction n with
  | zero => rfl
  | succ n ih =>
    rw [List.range_succ, List.map_append]
    exact run_append.mpr ⟨σ' n, ih, run_cons.mpr ⟨_, hstep n, rfl⟩⟩

/-! ### Runs of a part -/

section projection
variable {τ β : Type*} {step' : τ → β → Option τ} {f : σ → τ} {g : α → Option β}

/-- Part `f` of the machine takes the steps of `step'` for the actions that `g` keeps, and rests
    during the others. -/
def Projects (step : σ → α → Option σ) (step' : τ → β → Option τ) (f : σ → τ)
    (g : α → Option β) : Prop :=
  ∀ s x s', step s x = some s' →
    (g x = none ∧ f s' = f s) ∨ ∃ y, g x = some y ∧ step' (f s) y = some (f s')

/-- A run of the machine is one of its part. -/
theorem Projects.run (h : Projects step step' f g) {s t : σ} {xs : List α}
    (hrun : Machine.run step s xs = some t) :
    Machine.run step' (f s) (xs.filterMap g) = some (f t) := by
  induction xs generalizing s with
  | nil => cases hrun; rfl
  | cons x xs ih =>
    obtain ⟨s', hx, hxs⟩ := run_cons.mp hrun
    obtain ⟨hg, hf⟩ | ⟨y, hg, hy⟩ := h s x s' hx
    · rw [List.filterMap_cons_none hg, ← hf]
      exact ih hxs
    · rw [List.filterMap_cons_some hg]
      exact run_cons.mpr ⟨f s', hy, ih hxs⟩

/-- A moment of the part is one of the machine, from which the run goes on. -/
theorem Projects.past (h : Projects step step' f g) {s₀ t : σ} {xs : List α} {P : τ → Prop}
    (hrun : Machine.run step s₀ xs = some t) (hpast : Past step' (f s₀) (xs.filterMap g) P) :
    ∃ ys zs s, xs = ys ++ zs ∧ Machine.run step s₀ ys = some s ∧
      Machine.run step s zs = some t ∧ P (f s) := by
  obtain ⟨ys', zs', u, hxs, hu, hP⟩ := hpast
  obtain ⟨ys, zs, rfl, rfl, rfl⟩ := List.filterMap_eq_append_iff.mp hxs
  obtain ⟨s, hys, hzs⟩ := run_append.mp hrun
  obtain rfl := Option.some.inj ((h.run hys).symm.trans hu)
  exact ⟨ys, zs, s, rfl, hys, hzs, hP⟩

end projection

end Machine

/-! ### Maps in a state -/

theorem update_some {ι α : Type*} [DecidableEq ι] {f : ι → Option α} {i j : ι} {a b : α}
    (h : Function.update f i (some a) j = some b) : (j = i ∧ b = a) ∨ (j ≠ i ∧ f j = some b) := by
  rcases eq_or_ne j i with rfl | heq
  · simp only [Function.update_self, Option.some.injEq] at h
    exact Or.inl ⟨rfl, h.symm⟩
  · rw [Function.update_of_ne heq] at h
    exact Or.inr ⟨heq, h⟩

/-- The sum of `f` over the entries below `n`. -/
def total {α : Type*} (f : α → ℕ) (m : ℕ → Option α) : ℕ → ℕ
  | 0 => 0
  | n + 1 => total f m n + (m n).elim 0 f

section total
variable {α : Type*} {f : α → ℕ} {m : ℕ → Option α} {n i : ℕ} {a b : α}

theorem total_update_of_le (h : n ≤ i) :
    total f (Function.update m i (some b)) n = total f m n := by
  induction n with
  | zero => rfl
  | succ n ih => rw [total, total, ih (by omega), Function.update_of_ne (by omega)]

/-- An entry is added. -/
theorem total_concat : total f (Function.update m n (some b)) (n + 1) = total f m n + f b := by
  rw [total, total_update_of_le (Nat.le_refl n), Function.update_self]
  rfl

/-- An entry is replaced. -/
theorem total_replace (hi : i < n) (ha : m i = some a) :
    total f (Function.update m i (some b)) n + f a = total f m n + f b := by
  induction n with
  | zero => omega
  | succ n ih =>
    rcases Nat.lt_succ_iff_lt_or_eq.mp hi with hlt | rfl
    · rw [total, total, Function.update_of_ne (by omega)]
      have := ih hlt
      omega
    · rw [total, total, total_update_of_le (Nat.le_refl _), Function.update_self, ha]
      simp only [Option.elim_some]
      omega

theorem total_eq_zero (h : ∀ j a, m j = some a → f a = 0) : total f m n = 0 := by
  induction n with
  | zero => rfl
  | succ n ih =>
    rw [total, ih]
    cases hn : m n with
    | none => rfl
    | some a => exact (Nat.zero_add _).trans (h n a hn)

theorem total_le (hf : ∀ a, f a ≤ 1) : total f m n ≤ n := by
  induction n with
  | zero => exact Nat.le_refl 0
  | succ n ih =>
    rw [total]
    cases m n with
    | none => exact Nat.le_succ_of_le ih
    | some a => exact Nat.add_le_add ih (hf a)

theorem total_eq (h : ∀ j, j < n → ∃ a, m j = some a ∧ f a = 1) : total f m n = n := by
  induction n with
  | zero => rfl
  | succ n ih =>
    obtain ⟨a, ha, hf⟩ := h n (Nat.lt_succ_self n)
    rw [total, ih fun j hj => h j (Nat.lt_succ_of_lt hj), ha, Option.elim_some, hf]

end total

end DistSys
