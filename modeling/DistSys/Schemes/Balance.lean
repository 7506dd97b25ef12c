import Mathlib.Algebra.BigOperators.Group.Finset.Basic
import Mathlib.Algebra.BigOperators.Ring.Finset
import Mathlib.Algebra.Group.Action.Defs
import Mathlib.Algebra.Order.BigOperators.Group.Finset
import Mathlib.Tactic.Linarith
import Mathlib.Tactic.Ring

/-! @scheme balance | family:greedy | invariant:loads | potential:squares, excess

    Items `ι` are assigned to bins `γ`, and only the bins of a finite set `G` are open. A *fill*
    puts an item of a closed bin into a least loaded open one; a *move* takes one item from a most
    loaded open bin to a least loaded one that is at least two items behind.

        closed bin ──fill──▶ least loaded          most loaded ──move──▶ least loaded
                             (load + 1)            (load - 1)            (load + 1)

    Two potentials govern the pair. The sum of squared loads drops on every move, so moving stops.
    The `excess` over the quota drops by one on every move, never rises on a fill, and is a lower
    bound on the items any balanced assignment must displace, so the greedy moves are optimal. -/

namespace DistSys.Balance
open Finset

variable {ι γ : Type*} [Fintype ι] [DecidableEq γ]

/-- Number of items assigned to bin `g`. -/
def load (a : ι → γ) (g : γ) : ℕ := (univ.filter (fun i => a i = g)).card

/-- Any two open bins differ by at most one item. -/
def Balanced (G : Finset γ) (a : ι → γ) : Prop := ∀ g ∈ G, ∀ h ∈ G, load a g ≤ load a h + 1

instance (G : Finset γ) (a : ι → γ) : Decidable (Balanced G a) :=
  inferInstanceAs (Decidable (∀ g ∈ G, ∀ h ∈ G, load a g ≤ load a h + 1))

/-- `l` is an open bin with the fewest items. -/
def Least (G : Finset γ) (a : ι → γ) (l : γ) : Prop := l ∈ G ∧ ∀ g ∈ G, load a l ≤ load a g

/-- `m` is an open bin with the most items. -/
def Most (G : Finset γ) (a : ι → γ) (m : γ) : Prop := m ∈ G ∧ ∀ g ∈ G, load a g ≤ load a m

/-- Sum of squared loads: the termination potential. -/
def squares (G : Finset γ) (a : ι → γ) : ℕ := ∑ g ∈ G, load a g * load a g

/-- Items that must leave an open bin: everything above `quota + 1`, and everything above `quota`
    but for the `card ι % card G` bins that may keep one more. -/
def excess (G : Finset γ) (a : ι → γ) : ℕ :=
  max (∑ g ∈ G, (load a g - (Fintype.card ι / G.card + 1)))
    (∑ g ∈ G, (load a g - Fintype.card ι / G.card) - Fintype.card ι % G.card)

/-- Items of open bins that `b` places elsewhere than `a` does. -/
def moved (G : Finset γ) (a b : ι → γ) : ℕ := (univ.filter (fun i => a i ∈ G ∧ b i ≠ a i)).card

/-! ### Loads after one reassignment -/

section update
variable [DecidableEq ι] {G : Finset γ} {a : ι → γ} {s : ι} {l : γ}

theorem load_update_dst (h : a s ≠ l) : load (Function.update a s l) l = load a l + 1 := by
  have hset : univ.filter (fun i => Function.update a s l i = l)
      = insert s (univ.filter (fun i => a i = l)) := by
    ext i
    by_cases hi : i = s
    · subst hi; simp
    · simp [hi]
  rw [load, load, hset, card_insert_of_notMem (by simpa using h)]

theorem load_update_src (h : a s ≠ l) : load (Function.update a s l) (a s) + 1 = load a (a s) := by
  have hset : univ.filter (fun i => a i = a s)
      = insert s (univ.filter (fun i => Function.update a s l i = a s)) := by
    ext i
    by_cases hi : i = s
    · subst hi; simp
    · simp [hi]
  rw [load, load, hset, card_insert_of_notMem (by simpa using Ne.symm h)]

theorem load_update_other {g : γ} (hs : g ≠ a s) (hl : g ≠ l) :
    load (Function.update a s l) g = load a g := by
  have hset :
      univ.filter (fun i => Function.update a s l i = g) = univ.filter (fun i => a i = g) := by
    ext i
    by_cases hi : i = s
    · subst hi; simp [Ne.symm hs, Ne.symm hl]
    · simp [Function.update_of_ne hi]
  rw [load, load, hset]

/-- Filling an item of a closed bin into `l` changes one summand. -/
theorem sum_fill (f : ℕ → ℕ) (hs : a s ∉ G) (hl : l ∈ G) :
    ∑ g ∈ G, f (load (Function.update a s l) g) + f (load a l)
      = ∑ g ∈ G, f (load a g) + f (load a l + 1) := by
  have hne : a s ≠ l := fun h => hs (h ▸ hl)
  have hrest : ∑ g ∈ G.erase l, f (load (Function.update a s l) g) = ∑ g ∈ G.erase l,
      f (load a g) := by
    refine sum_congr rfl fun g hg => ?_
    obtain ⟨hgl, hgG⟩ := mem_erase.mp hg
    rw [load_update_other (ne_of_mem_of_not_mem hgG hs) hgl]
  rw [← add_sum_erase G _ hl, ← add_sum_erase G (fun g => f (load a g)) hl,
    hrest, load_update_dst hne]
  ring

/-- Moving an item between two open bins changes two summands. -/
theorem sum_move (f : ℕ → ℕ) (hs : a s ∈ G) (hl : l ∈ G) (hne : a s ≠ l) :
    ∑ g ∈ G, f (load (Function.update a s l) g) + (f (load a (a s)) + f (load a l))
      = ∑ g ∈ G, f (load a g) + (f (load a (a s) - 1) + f (load a l + 1)) := by
  have hl' : l ∈ G.erase (a s) := mem_erase.mpr ⟨hne.symm, hl⟩
  have hrest : ∑ g ∈ (G.erase (a s)).erase l, f (load (Function.update a s l) g)
      = ∑ g ∈ (G.erase (a s)).erase l, f (load a g) := by
    refine sum_congr rfl fun g hg => ?_
    obtain ⟨hgl, hgs⟩ := mem_erase.mp hg
    rw [load_update_other (ne_of_mem_erase hgs) hgl]
  have hsrc : load (Function.update a s l) (a s) = load a (a s) - 1 := by
    have := load_update_src hne; omega
  rw [← add_sum_erase G _ hs, ← add_sum_erase _ _ hl', ← add_sum_erase G (fun g => f (load a g)) hs,
    ← add_sum_erase _ (fun g => f (load a g)) hl', hrest, load_update_dst hne, hsrc]
  ring

end update

/-! ### Totals and quota -/

theorem sum_load (G : Finset γ) (a : ι → γ) :
    ∑ g ∈ G, load a g = (univ.filter (fun i => a i ∈ G)).card := by
  rw [card_eq_sum_card_fiberwise (f := a) (t := G) (fun i hi => by simpa using hi)]
  refine sum_congr rfl fun g hg => ?_
  rw [load, filter_filter]
  congr 1
  ext i
  constructor
  · intro hi; simp only [mem_filter, mem_univ, true_and] at hi ⊢; exact ⟨hi ▸ hg, hi⟩
  · intro hi; simp only [mem_filter, mem_univ, true_and] at hi ⊢; exact hi.2

theorem sum_load_le (G : Finset γ) (a : ι → γ) : ∑ g ∈ G, load a g ≤ Fintype.card ι := by
  rw [sum_load]; exact card_le_univ _

theorem sum_load_of_mem {G : Finset γ} {a : ι → γ} (h : ∀ i, a i ∈ G) :
    ∑ g ∈ G, load a g = Fintype.card ι := by
  rw [sum_load, filter_true_of_mem (fun i _ => h i), card_univ]

theorem sum_load_lt {G : Finset γ} {a : ι → γ} {s : ι} (hs : a s ∉ G) :
    ∑ g ∈ G, load a g < Fintype.card ι := by
  rw [sum_load, ← card_univ]
  refine card_lt_card ⟨filter_subset _ _, fun h => ?_⟩
  simpa [hs] using h (mem_univ s)

theorem card_mul_least_le {G : Finset γ} {a : ι → γ} {l : γ} (hl : Least G a l) :
    G.card * load a l ≤ ∑ g ∈ G, load a g := by
  rw [← smul_eq_mul]; exact card_nsmul_le_sum G _ _ hl.2

/-- The least loaded bin holds at most the quota. -/
theorem least_le_quota {G : Finset γ} {a : ι → γ} {l : γ} (hl : Least G a l) :
    load a l ≤ Fintype.card ι / G.card := by
  rw [Nat.le_div_iff_mul_le (card_pos.mpr ⟨l, hl.1⟩), mul_comm]
  exact (card_mul_least_le hl).trans (sum_load_le G a)

/-- With every bin at the level `q` or above, the items above the level are what the total
    leaves. -/
theorem sum_above {G : Finset γ} {a : ι → γ} {q : ℕ} (h : ∀ g ∈ G, q ≤ load a g) :
    ∑ g ∈ G, (load a g - q) + G.card * q = ∑ g ∈ G, load a g := by
  rw [← smul_eq_mul, ← sum_const, ← sum_add_distrib]
  exact sum_congr rfl fun g hg => Nat.sub_add_cancel (h g hg)

/-- With one bin below the level `q`, the items above the level exceed what the total leaves. -/
theorem sum_above_lt {G : Finset γ} {a : ι → γ} {q : ℕ} {l : γ} (hl : l ∈ G) (hlt : load a l < q) :
    ∑ g ∈ G, load a g < ∑ g ∈ G, (load a g - q) + G.card * q := by
  rw [← smul_eq_mul, ← sum_const, ← sum_add_distrib]
  exact sum_lt_sum (fun g _ => by omega) ⟨l, hl, by omega⟩

theorem sum_above_eq_zero {G : Finset γ} {a : ι → γ} {q : ℕ} (h : ∀ g ∈ G, load a g ≤ q) :
    ∑ g ∈ G, (load a g - q) = 0 := sum_eq_zero fun g hg => Nat.sub_eq_zero_of_le (h g hg)

/-! ### One move -/

section move
variable {G : Finset γ} {a : ι → γ} {s : ι} {l : γ}

theorem ne_of_gap (hgap : load a l + 2 ≤ load a (a s)) : a s ≠ l := by
  intro h; rw [h] at hgap; omega

/-- A move lowers the sum of squares. -/
theorem squares_move_lt [DecidableEq ι] (hs : a s ∈ G) (hl : l ∈ G)
    (hgap : load a l + 2 ≤ load a (a s)) : squares G (Function.update a s l) < squares G a := by
  have hsum := sum_move (fun x => x * x) hs hl (ne_of_gap hgap)
  have hm : 1 ≤ load a (a s) := by omega
  have hdrop : (load a (a s) - 1) * (load a (a s) - 1) + (load a l + 1) * (load a l + 1)
      < load a (a s) * load a (a s) + load a l * load a l := by
    obtain ⟨x, hx⟩ := Nat.exists_eq_add_of_le hgap
    have hx' : load a (a s) - 1 = load a l + 1 + x := by omega
    rw [hx', hx]
    calc (load a l + 1 + x) * (load a l + 1 + x) + (load a l + 1) * (load a l + 1)
        < (load a l + 1 + x) * (load a l + 1 + x) + (load a l + 1) * (load a l + 1) +
          (2 * x + 2) := by omega
      _ = (load a l + 2 + x) * (load a l + 2 + x) + load a l * load a l := by ring
  simp only [squares]
  omega

/-- A move's source is above the quota: otherwise the total would fall short. -/
theorem quota_lt_most (hin : ∀ i, a i ∈ G) (hm : Most G a (a s)) (hl : l ∈ G)
    (hgap : load a l + 2 ≤ load a (a s)) : Fintype.card ι / G.card < load a (a s) := by
  by_contra hle
  have hlt := sum_above_lt (a := a) (q := Fintype.card ι / G.card) hl (by omega)
  rw [sum_above_eq_zero (fun g hg => (hm.2 g hg).trans (by omega)), sum_load_of_mem hin] at hlt
  have := Nat.div_mul_le_self (Fintype.card ι) G.card
  rw [mul_comm] at this
  omega

/-- A move from a most to a least loaded bin lowers the excess by (at least) one. -/
theorem excess_move [DecidableEq ι] (hin : ∀ i, a i ∈ G) (hm : Most G a (a s)) (hl : Least G a l)
    (hgap : load a l + 2 ≤ load a (a s)) : excess G (Function.update a s l) + 1 ≤ excess G a := by
  have hne := ne_of_gap hgap
  have hq := quota_lt_most hin hm hl.1 hgap
  have hlq := least_le_quota hl
  have htot := sum_load_of_mem hin
  have hdm := Nat.div_add_mod (Fintype.card ι) G.card
  simp only [excess]
  generalize Fintype.card ι / G.card = q at *
  generalize Fintype.card ι % G.card = r at *
  have h1 := sum_move (fun x => x - (q + 1)) hm.1 hl.1 hne
  have h2 := sum_move (fun x => x - q) hm.1 hl.1 hne
  -- the source is either above `q + 1`, where the first sum drops, or at `q + 1`, where the second
  -- does
  rcases Nat.lt_or_ge (load a l) q with hlow | hhigh
  · have habove := sum_above_lt (q := q) hl.1 hlow
    rw [htot] at habove
    rcases Nat.lt_or_ge (q + 1) (load a (a s)) with hm1 | hm1
    · omega
    · have hzero := sum_above_eq_zero fun g hg => (hm.2 g hg).trans hm1
      omega
  · have habove := sum_above (q := q) fun g hg => hhigh.trans (hl.2 g hg)
    rw [htot] at habove
    omega

end move

/-! ### One fill -/

section fill
variable [DecidableEq ι] {G : Finset γ} {a : ι → γ} {s : ι} {l : γ}

/-- Filling a least loaded bin never raises the excess. -/
theorem excess_fill (hs : a s ∉ G) (hl : Least G a l) :
    excess G (Function.update a s l) ≤ excess G a := by
  have hlq := least_le_quota hl
  have htot := sum_load_lt hs
  have hdm := Nat.div_add_mod (Fintype.card ι) G.card
  simp only [excess]
  generalize Fintype.card ι / G.card = q at *
  generalize Fintype.card ι % G.card = r at *
  have h1 := sum_fill (fun x => x - (q + 1)) hs hl.1
  have h2 := sum_fill (fun x => x - q) hs hl.1
  rcases Nat.lt_or_ge (load a l) q with hlow | hhigh
  · omega
  · have habove := sum_above (q := q) fun g hg => hhigh.trans (hl.2 g hg)
    omega

/-- Filling a least loaded bin keeps open bins within one of each other. -/
theorem balanced_fill (hs : a s ∉ G) (hl : Least G a l) (hb : Balanced G a) :
    Balanced G (Function.update a s l) := by
  have hne : a s ≠ l := fun h => hs (h ▸ hl.1)
  have hload : ∀ g ∈ G, load (Function.update a s l) g = load a g + if g = l then 1 else 0 := by
    intro g hg
    by_cases hgl : g = l
    · rw [if_pos hgl, hgl, load_update_dst hne]
    · rw [if_neg hgl, load_update_other (ne_of_mem_of_not_mem hg hs) hgl]; rfl
  intro g hg h hh
  have hgh := hb g hg h hh
  have hlh := hl.2 h hh
  rw [hload g hg, hload h hh]
  by_cases hgl : g = l
  · rw [if_pos hgl, hgl]; split <;> omega
  · rw [if_neg hgl]; omega

end fill

/-! ### Opening new bins -/

section staged
variable {G J : Finset γ} {a : ι → γ} {s : ι} {l : γ}

/-- Loads while bins `J` are being filled up from the others: the old bins are level among
    themselves, and no new bin is more than one ahead of any bin. -/
def Staged (G J : Finset γ) (a : ι → γ) : Prop :=
  (∀ g ∈ G, ∀ h ∈ G, g ∉ J → h ∉ J → load a g ≤ load a h + 1) ∧
    ∀ g ∈ J, ∀ h ∈ G, load a g ≤ load a h + 1

/-- While staged, a move only goes into a new bin. -/
theorem staged_dst (hst : Staged G J a) (hm : a s ∈ G) (hl : l ∈ G)
    (hgap : load a l + 2 ≤ load a (a s)) : l ∈ J ∧ a s ∉ J := by
  have hsrc : a s ∉ J := by
    intro hJ; have := hst.2 _ hJ l hl; omega
  refine ⟨?_, hsrc⟩
  by_contra hlJ
  have := hst.1 _ hm l hl hsrc hlJ
  omega

/-- A move keeps the loads staged. -/
theorem staged_move [DecidableEq ι] (hJ : J ⊆ G) (hst : Staged G J a)
    (hm : Most G a (a s)) (hl : Least G a l) (hgap : load a l + 2 ≤ load a (a s)) :
    Staged G J (Function.update a s l) := by
  obtain ⟨hlJ, hsJ⟩ := staged_dst hst hm.1 hl.1 hgap
  have hne := ne_of_gap hgap
  have hsrc := load_update_src hne
  have hdst := load_update_dst hne
  refine ⟨?_, ?_⟩
  · intro g hg h hh hgJ hhJ
    have hgl : g ≠ l := fun e => hgJ (e ▸ hlJ)
    have hhl : h ≠ l := fun e => hhJ (e ▸ hlJ)
    have hgh := hst.1 g hg h hh hgJ hhJ
    have hgm := hm.2 g hg
    have hsh := hst.1 (a s) hm.1 h hh hsJ hhJ
    rcases eq_or_ne g (a s) with rfl | hgs <;> rcases eq_or_ne h (a s) with rfl | hhs
    · omega
    · rw [load_update_other hhs hhl]; omega
    · rw [load_update_other hgs hgl]; omega
    · rw [load_update_other hgs hgl, load_update_other hhs hhl]; exact hgh
  · intro g hgJ h hh
    have hgs : g ≠ a s := fun e => hsJ (e ▸ hgJ)
    have hgh := hst.2 g hgJ h hh
    have hgm := hm.2 g (hJ hgJ)
    have hlh := hl.2 h hh
    rcases eq_or_ne g l with rfl | hgl
    · rcases eq_or_ne h g with rfl | hhg
      · omega
      · rcases eq_or_ne h (a s) with rfl | hhs
        · omega
        · rw [load_update_other hhs hhg]; omega
    · rw [load_update_other hgs hgl]
      rcases eq_or_ne h l with rfl | hhl
      · omega
      · rcases eq_or_ne h (a s) with rfl | hhs
        · omega
        · rw [load_update_other hhs hhl]; exact hgh

end staged

/-! ### The lower bound -/

section lower
variable {G : Finset γ} {a b : ι → γ}

/-- Each open bin loses at least what it holds above its final load. -/
theorem sum_sub_le_moved (G : Finset γ) (a b : ι → γ) :
    ∑ g ∈ G, (load a g - load b g) ≤ moved G a b := by
  have hfib : moved G a b
      = ∑ g ∈ G, (univ.filter (fun i => a i = g ∧ b i ≠ g)).card := by
    rw [moved, card_eq_sum_card_fiberwise (f := a) (t := G) (fun i hi => by
      simp only [coe_filter, mem_univ, true_and, Set.mem_ofPred_eq] at hi; exact hi.1)]
    refine sum_congr rfl fun g hg => ?_
    rw [filter_filter]
    congr 1
    ext i
    simp only [mem_filter, mem_univ, true_and]
    constructor
    · rintro ⟨⟨_, hb⟩, rfl⟩; exact ⟨rfl, hb⟩
    · rintro ⟨rfl, hb⟩; exact ⟨⟨hg, hb⟩, rfl⟩
  rw [hfib]
  refine sum_le_sum fun g _ => ?_
  -- an item of `g` either stays, and is counted in `b`'s load, or leaves
  have hsplit : load a g ≤ load b g + (univ.filter (fun i => a i = g ∧ b i ≠ g)).card := by
    have hstay : (univ.filter (fun i => a i = g ∧ b i = g)).card ≤ load b g :=
      card_le_card fun i hi => by simp only [mem_filter, mem_univ, true_and] at hi ⊢; exact hi.2
    have hpart :=
      card_filter_add_card_filter_not (s := univ.filter (fun i => a i = g)) (fun i => b i = g)
    rw [filter_filter, filter_filter] at hpart
    rw [load, ← hpart]
    exact Nat.add_le_add_right hstay _
  omega

/-- A balanced assignment loads every bin with the quota or one more. -/
theorem balanced_bounds (hin : ∀ i, b i ∈ G) (hb : Balanced G b) {g : γ} (hg : g ∈ G) :
    Fintype.card ι / G.card ≤ load b g ∧ load b g ≤ Fintype.card ι / G.card + 1 := by
  have htot := sum_load_of_mem hin
  have hpos : 0 < G.card := card_pos.mpr ⟨g, hg⟩
  have hdm := Nat.div_add_mod (Fintype.card ι) G.card
  have hmod := Nat.mod_lt (Fintype.card ι) hpos
  have hup : ∑ h ∈ G, load b h ≤ G.card * (load b g + 1) := by
    rw [← smul_eq_mul]; exact sum_le_card_nsmul G _ _ fun h hh => hb h hh g hg
  have hlow : G.card * (load b g - 1) ≤ ∑ h ∈ G, load b h := by
    rw [← smul_eq_mul]; exact card_nsmul_le_sum G _ _ fun h hh => by have := hb g hg h hh; omega
  constructor
  · by_contra hlt
    have hmul : G.card * (load b g + 1) ≤ G.card * (Fintype.card ι / G.card) :=
      Nat.mul_le_mul_left _ (by omega)
    -- all bins at `load b g + 1` would already use up the total, yet `g` itself is one below
    have hstrict : ∑ h ∈ G, load b h < ∑ _h ∈ G, (load b g + 1) :=
      sum_lt_sum (fun h hh => hb h hh g hg) ⟨g, hg, by omega⟩
    rw [sum_const, smul_eq_mul] at hstrict
    omega
  · by_contra hgt
    have hmul : G.card * (Fintype.card ι / G.card + 1) ≤ G.card * (load b g - 1) :=
      Nat.mul_le_mul_left _ (by omega)
    rw [Nat.mul_add, Nat.mul_one] at hmul
    omega

/-- CORRECT: whatever balanced assignment is chosen, at least `excess` items are displaced. -/
theorem excess_le_moved (hin : ∀ i, b i ∈ G) (hb : Balanced G b) : excess G a ≤ moved G a b := by
  have hmv := sum_sub_le_moved G a b
  refine max_le ?_ ?_
  · refine le_trans (sum_le_sum fun g hg => ?_) hmv
    have := (balanced_bounds hin hb hg).2
    omega
  · have habove := sum_above (fun g hg => (balanced_bounds hin hb hg).1)
    rw [sum_load_of_mem hin] at habove
    have hdm := Nat.div_add_mod (Fintype.card ι) G.card
    have hle : ∑ g ∈ G, (load a g - Fintype.card ι / G.card)
        ≤ ∑ g ∈ G, (load a g - load b g) + ∑ g ∈ G, (load b g - Fintype.card ι / G.card) := by
      rw [← sum_add_distrib]
      exact sum_le_sum fun g _ => by omega
    omega

/-- A single reassignment displaces at most one more item. -/
theorem moved_update_le [DecidableEq ι] (G : Finset γ) (a b : ι → γ) (s : ι) (l : γ) :
    moved G a (Function.update b s l) ≤ moved G a b + 1 := by
  refine (card_le_card (t := insert s (univ.filter fun i => a i ∈ G ∧ b i ≠ a i))
    fun i hi => ?_).trans (card_insert_le _ _)
  by_cases his : i = s
  · exact his ▸ mem_insert_self _ _
  · refine mem_insert_of_mem ?_
    simpa [Function.update_of_ne his] using hi

end lower

/-! ### Scanning for a best bin -/

section scan
variable {β : Type*}

/-- One turn of a scan that keeps the first bin with the smallest key. -/
def argminStep (f : β → ℤ) (b : β × ℤ) (g : β) : β × ℤ := if f g < b.2 then (g, f g) else b

/-- The kept key is a lower bound, and it is the initial one or that of a scanned bin. -/
theorem argmin_fold (f : β → ℤ) (gs : List β) (b : β × ℤ) :
    (∀ g ∈ gs, (gs.foldl (argminStep f) b).2 ≤ f g) ∧ (gs.foldl (argminStep f) b).2 ≤ b.2 ∧
    (gs.foldl (argminStep f) b = b ∨ ((gs.foldl (argminStep f) b).1 ∈ gs ∧
      (gs.foldl (argminStep f) b).2 = f (gs.foldl (argminStep f) b).1)) := by
  induction gs generalizing b with
  | nil => simp
  | cons g gs ih =>
    obtain ⟨hall, hle, hfrom⟩ := ih (argminStep f b g)
    have hstep : (argminStep f b g).2 ≤ f g ∧ (argminStep f b g).2 ≤ b.2 ∧
        (argminStep f b g = b ∨ argminStep f b g = (g, f g)) := by
      rw [argminStep]
      split
      · rename_i hlt
        exact ⟨le_refl _, hlt.le, Or.inr rfl⟩
      · rename_i hnot
        exact ⟨not_lt.mp hnot, le_refl _, Or.inl rfl⟩
    obtain ⟨hg, hb, hkept⟩ := hstep
    rw [List.foldl_cons]
    refine ⟨List.forall_mem_cons.mpr ⟨hle.trans hg, hall⟩, hle.trans hb, ?_⟩
    rcases hfrom with heq | ⟨hmem, hkey⟩
    · rw [heq]
      rcases hkept with hkept | hkept
      · exact Or.inl hkept
      · rw [hkept]
        exact Or.inr ⟨List.mem_cons_self, rfl⟩
    · exact Or.inr ⟨List.mem_cons_of_mem _ hmem, hkey⟩

/-- A scan whose initial key is beaten by some bin ends on a bin with the smallest key. -/
theorem argmin_of_beaten {f : β → ℤ} {gs : List β} {b : β × ℤ} {k : β}
    (hk : k ∈ gs) (hlt : f k < b.2) : (gs.foldl (argminStep f) b).1 ∈ gs ∧
    (gs.foldl (argminStep f) b).2 = f (gs.foldl (argminStep f) b).1 ∧
    ∀ g ∈ gs, f (gs.foldl (argminStep f) b).1 ≤ f g := by
  obtain ⟨hall, _, hfrom⟩ := argmin_fold f gs b
  rcases hfrom with heq | ⟨hmem, hkey⟩
  · have := hall k hk
    rw [heq] at this
    omega
  · exact ⟨hmem, hkey, fun g hg => hkey ▸ hall g hg⟩

end scan

end DistSys.Balance
