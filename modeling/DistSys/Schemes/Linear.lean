import DistSys.Schemes.Grouping
import DistSys.Schemes.Machine
import Mathlib.Order.Lattice

/-! @scheme linear | family:linearizability | result:locality

    Operations with a call and a return time, each on one key. A linearization puts all of them in
    an order that a sequential object accepts and that never puts an operation after one called only
    after it had returned. The object that keeps one state per key has a linearization just if, for
    every key, the operations on that key have one.

    To merge the orders of the keys, every operation gets a point: the latest call up to it, in the
    order of its key. It lies between call and return, and the merged order is that of the points.

        key x     ├──a──┤    ├─────b──────┤             points   a₁ ≤ c₁ ≤ b₁ ≤ d₁
        key y        ├────c────┤      ├────d────┤                               -/

namespace DistSys.Linear
open Grouping (flatMap_single perm_of_filter)
open Machine (run run_cons)

variable {α κ T σ : Type*}

/-! ### Objects with a state per key -/

section store
variable [DecidableEq κ] (step : σ → α → Option σ) (key : α → κ)

/-- The step of the object, taken by the state of the operation's key. -/
def storeStep (s : κ → σ) (a : α) : Option (κ → σ) :=
  (step (s (key a)) a).map fun t => Function.update s (key a) t

/-- The store accepts an order just if each key accepts its part of it. -/
theorem run_storeStep (l : List α) (s : κ → σ) : (run (storeStep step key) s l).isSome = true ↔
    ∀ k, (run step (s k) (l.filter (key · = k))).isSome = true := by
  induction l generalizing s with
  | nil => simp
  | cons a l ih =>
    have hother : ∀ k ≠ key a, (a :: l).filter (key · = k) = l.filter (key · = k) := by
      intro k hk
      exact List.filter_cons_of_neg (by simp [hk.symm])
    have hsame : (a :: l).filter (key · = key a) = a :: l.filter (key · = key a) :=
      List.filter_cons_of_pos (by simp)
    cases hstep : step (s (key a)) a with
    | none =>
      have hrun : run (storeStep step key) s (a :: l) = none := by simp [run, storeStep, hstep]
      refine iff_of_false (by simp [hrun]) ?_
      intro hall
      have hkey := hall (key a)
      simp [hsame, run, hstep] at hkey
    | some t =>
      have hrun : run (storeStep step key) s (a :: l) =
          run (storeStep step key) (Function.update s (key a) t) l := by
            simp [run, storeStep, hstep]
      rw [hrun, ih]
      refine forall_congr' ?_
      intro k
      rcases eq_or_ne k (key a) with rfl | hk
      · rw [hsame, Function.update_self, run, hstep, Option.bind_some]
      · rw [hother k hk, Function.update_of_ne hk]

end store

/-! ### Orders that respect time -/

variable [LinearOrder T] (call ret : α → T)

/-- Nothing comes after an operation that was called only after it had returned. -/
def InTime (l : List α) : Prop := l.Pairwise fun a b => ¬ ret b < call a

/-- All operations, in an order that respects time and that the object accepts. -/
def Linearizable (accepts : List α → Bool) (history : List α) : Prop :=
  ∃ l, l.Perm history ∧ InTime call ret l ∧ accepts l = true

/-- The operations with their points: the latest call so far. -/
def points : T → List α → List (T × α)
  | _, [] => []
  | m, a :: l => (max m (call a), a) :: points (max m (call a)) l

variable {call ret}

theorem map_points (m : T) (l : List α) : (points call m l).map Prod.snd = l := by
  induction l generalizing m with
  | nil => rfl
  | cons a l ih => rw [points, List.map_cons, ih]

theorem le_points {m : T} {l : List α} {x : T × α} (hx : x ∈ points call m l) :
    m ≤ x.1 ∧ call x.2 ≤ x.1 := by
  induction l generalizing m with
  | nil => cases hx
  | cons a l ih =>
    rcases List.mem_cons.mp hx with rfl | hx
    · exact ⟨le_max_left _ _, le_max_right _ _⟩
    · obtain ⟨hm, hcall⟩ := ih hx
      exact ⟨(le_max_left _ _).trans hm, hcall⟩

/-- Points are not descending. -/
theorem points_pairwise (m : T) (l : List α) : (points call m l).Pairwise fun x y => x.1 ≤ y.1 := by
  induction l generalizing m with
  | nil => exact List.Pairwise.nil
  | cons a l ih => exact List.pairwise_cons.mpr ⟨fun _ hy => (le_points hy).1, ih _⟩

/-- In an order that respects time a point is not after the return. -/
theorem points_le {m : T} {l : List α} (htime : InTime call ret l)
    (hl : ∀ a ∈ l, call a ≤ ret a ∧ m ≤ ret a) : ∀ x ∈ points call m l, x.1 ≤ ret x.2 := by
  induction l generalizing m with
  | nil =>
    intro x hx
    cases hx
  | cons a l ih =>
    intro x hx
    obtain ⟨hlater, htime⟩ := List.pairwise_cons.mp htime
    have ha := hl a List.mem_cons_self
    rcases List.mem_cons.mp hx with rfl | hx
    · exact max_le ha.2 ha.1
    · refine ih htime (fun b hb => ?_) x hx
      have hb' := hl b (List.mem_cons_of_mem _ hb)
      exact ⟨hb'.1, max_le hb'.2 (not_lt.mp (hlater b hb))⟩

/-- The points of an order, from its first call on. -/
def stamped (call : α → T) : List α → List (T × α)
  | [] => []
  | a :: l => points call (call a) (a :: l)

theorem map_stamped (call : α → T) (l : List α) : (stamped call l).map Prod.snd = l := by
  cases l with
  | nil => rfl
  | cons a l => exact map_points (call a) (a :: l)

theorem stamped_pairwise (l : List α) : (stamped call l).Pairwise fun x y => x.1 ≤ y.1 := by
  cases l with
  | nil => exact List.Pairwise.nil
  | cons a l => exact points_pairwise (call a) (a :: l)

/-- A point lies between call and return. -/
theorem stamped_between {l : List α} (htime : InTime call ret l) (hl : ∀ a ∈ l, call a ≤ ret a) :
    ∀ x ∈ stamped call l, call x.2 ≤ x.1 ∧ x.1 ≤ ret x.2 := by
  intro x hx
  cases l with
  | nil => cases hx
  | cons a l =>
    refine ⟨(le_points hx).2, points_le htime (fun b hb => ⟨hl b hb, ?_⟩) x hx⟩
    rcases List.mem_cons.mp hb with rfl | hb
    · exact hl b List.mem_cons_self
    · exact not_lt.mp ((List.pairwise_cons.mp htime).1 b hb)

/-! ### Merging the orders of the keys -/

section merge
variable {key : α → κ} {keys : List κ} {order : κ → List α}

/-- The order of the points. -/
def notAfter (x y : T × α) : Bool := x.1 ≤ y.1

theorem notAfter_trans (x y z : T × α) (hxy : notAfter x y = true) (hyz : notAfter y z = true) :
    notAfter x z = true := by
  simp only [notAfter, decide_eq_true_eq] at hxy hyz ⊢
  exact hxy.trans hyz

theorem notAfter_total (x y : T × α) : (notAfter x y || notAfter y x) = true := by
  simpa [notAfter] using le_total x.1 y.1

/-- The orders of all keys, merged by their points. -/
def merged (call : α → T) (keys : List κ) (order : κ → List α) : List (T × α) :=
  (keys.flatMap fun k => stamped call (order k)).mergeSort notAfter

/-- Merging respects time across keys. -/
theorem merged_inTime (htime : ∀ k, InTime call ret (order k))
    (hcall : ∀ k, ∀ a ∈ order k, call a ≤ ret a) :
    InTime call ret ((merged call keys order).map Prod.snd) := by
  have hbetween : ∀ x ∈ merged call keys order, call x.2 ≤ x.1 ∧ x.1 ≤ ret x.2 := fun x hx => by
    obtain ⟨k, -, hx⟩ := List.mem_flatMap.mp (List.mem_mergeSort.mp hx)
    exact stamped_between (htime k) (hcall k) x hx
  rw [InTime, List.pairwise_map]
  refine (List.pairwise_mergeSort notAfter_trans notAfter_total _).imp_of_mem
    fun {x y} hx hy hle => ?_
  have hle : x.1 ≤ y.1 := of_decide_eq_true hle
  exact not_lt.mpr (((hbetween x hx).1.trans hle).trans (hbetween y hy).2)

variable [DecidableEq κ]

/-- And it leaves the order of each key as it is: sorting by points is stable, and the points of a
    key are in order already. -/
theorem merged_filter (hkeys : keys.Nodup) (horder : ∀ k, ∀ a ∈ order k, key a = k)
    (hout : ∀ k, k ∉ keys → order k = []) (k : κ) :
    ((merged call keys order).map Prod.snd).filter (key · = k) = order k := by
  have hkey : ∀ k', ∀ x ∈ stamped call (order k'), key x.2 = k' := fun k' x hx =>
    horder k' _ (by rw [← map_stamped call (order k')]; exact List.mem_map_of_mem hx)
  have hself : (stamped call (order k)).filter (fun x => key x.2 = k) = stamped call (order k) :=
    List.filter_eq_self.mpr fun x hx => decide_eq_true (hkey k x hx)
  have hconcat : (keys.flatMap fun k => stamped call (order k)).filter (fun x => key x.2 = k) =
      stamped call (order k) := by
    rw [List.filter_flatMap, flatMap_single (k := k) hkeys, hself]
    · exact fun k' hne => List.filter_eq_nil_iff.mpr fun x hx => by simpa [hkey k' x hx] using hne
    · intro hk
      rw [hout k hk]; rfl
  have hsublist : (stamped call (order k)).Sublist (merged call keys order) := by
    refine List.sublist_mergeSort notAfter_trans notAfter_total ?_ ?_
    · exact (stamped_pairwise (order k)).imp fun hle => decide_eq_true hle
    · rw [← hconcat]; exact List.filter_sublist
  have hfilter :
      (merged call keys order).filter (fun x => key x.2 = k) = stamped call (order k) := by
    refine (List.Sublist.eq_of_length ?_ ?_).symm
    · rw [← hself]; exact hsublist.filter _
    · rw [← hconcat]; exact (((List.mergeSort_perm _ _).filter _).length_eq).symm
  rw [List.filter_map, ← map_stamped call (order k), ← hfilter]
  rfl

end merge

/-! ### Locality -/

/-- CORRECT: a history is linearizable for a store just if for every key its part is. -/
theorem locality [DecidableEq κ] {key : α → κ} {step : σ → α → Option σ}
    {init : σ} {history : List α} (hcall : ∀ a ∈ history, call a ≤ ret a) :
    Linearizable call ret (fun l => (run (storeStep step key) (fun _ => init) l).isSome) history ↔
      ∀ k, Linearizable call ret (fun l => (run step init l).isSome)
        (history.filter (key · = k)) := by
  constructor
  · rintro ⟨l, hperm, htime, haccepts⟩ k
    exact ⟨l.filter (key · = k), hperm.filter _, htime.filter _,
      (run_storeStep step key l _).mp haccepts k⟩
  · intro h
    choose order hperm htime haccepts using h
    have hmem : ∀ k, ∀ a ∈ order k, a ∈ history ∧ key a = k := fun k a ha => by
      simpa using (hperm k).mem_iff.mp ha
    have hfilter : ∀ k, ((merged call (history.map key).dedup order).map Prod.snd).filter
        (key · = k) = order k :=
      merged_filter (List.nodup_dedup _) (fun k a ha => (hmem k a ha).2) fun k hk => by
        refine List.eq_nil_iff_forall_not_mem.mpr fun a ha => hk ?_
        obtain ⟨hin, rfl⟩ := hmem k a ha
        exact List.mem_dedup.mpr (List.mem_map_of_mem hin)
    refine ⟨(merged call (history.map key).dedup order).map Prod.snd, ?_, ?_, ?_⟩
    · exact perm_of_filter key fun k => by rw [hfilter k]; exact hperm k
    · exact merged_inTime htime fun k a ha => hcall a (hmem k a ha).1
    · exact (run_storeStep step key _ _).mpr fun k => by rw [hfilter k]; exact haccepts k

end DistSys.Linear
