import DistSys.Schemes.Machine
import Mathlib.Data.Finset.Card
import Mathlib.Data.Fintype.Card
import Mathlib.Logic.Relation

/-! @scheme search | family:depth-first | invariant:entered, explored

    Depth-first search with a set of nodes seen, kept from one start to the next. A node is marked
    when it is entered, before its children; a node seen already is left at once, although it may
    still be under way further up. Why nothing is missed: what a call adds to the set is closed
    under children when the call returns, but for the nodes that were seen before it, which somebody
    else answers for.

        enter a ──▶ child 0 ──▶ child 1 ──▶ … ──▶ last child          every edge of a once, in order
                       │
                       └─ explored: all it added has its children in the set

    The fuel is the depth of the stack; more than the nodes not seen yet is always enough. -/

namespace DistSys.Search
open Machine (run run_cons run_append run_mono)

variable {α : Type} [DecidableEq α] (next : α → List α)

/-- `b` can be reached from `a`. -/
def Reaches : α → α → Prop := Relation.ReflTransGen fun a b => b ∈ next a

/-- The nodes seen, and the edges followed, as a node and the position of a child. -/
structure Walk (α : Type) where
  seen : Finset α
  edges : List (α × ℕ)

def Walk.enter (w : Walk α) (a : α) : Walk α := { w with seen := insert a w.seen }

def Walk.follow (w : Walk α) (a : α) (i : ℕ) : Walk α := { w with edges := w.edges ++ [(a, i)] }

/-- Visit a node with a stack of bounded depth. -/
def visit : ℕ → α → Walk α → Option (Walk α)
  | 0, _, _ => none
  | fuel + 1, a, w =>
    if a ∈ w.seen then some w
    else run (fun w (c : α × ℕ) => visit fuel c.1 (w.follow a c.2)) (w.enter a) (next a).zipIdx

/-! ### What one visit does -/

/-- From `w` to `u`, everything newly seen was explored, starting from `a`. -/
structure Explored (a : α) (w u : Walk α) : Prop where
  mono : w.seen ⊆ u.seen
  root : a ∈ u.seen
  reach : ∀ b ∈ u.seen, b ∉ w.seen → Reaches next a b
  closed : ∀ b ∈ u.seen, b ∉ w.seen → ∀ c ∈ next b, c ∈ u.seen
  edges : ∃ es, u.edges = w.edges ++ es ∧ es.Nodup ∧
    ∀ b i, (b, i) ∈ es ↔ (b ∈ u.seen ∧ b ∉ w.seen) ∧ i < (next b).length

/-- From `w` to `u`, node `a` was entered and `k` of its children were visited. -/
structure Entered (a : α) (k : ℕ) (w u : Walk α) : Prop where
  mono : insert a w.seen ⊆ u.seen
  reach : ∀ b ∈ u.seen, b ∉ w.seen → Reaches next a b
  closed : ∀ b ∈ u.seen, b ∉ w.seen → b ≠ a → ∀ c ∈ next b, c ∈ u.seen
  children : ∀ c ∈ (next a).take k, c ∈ u.seen
  edges : ∃ es, u.edges = w.edges ++ es ∧ es.Nodup ∧
    ∀ b i, (b, i) ∈ es ↔ (b = a ∧ i < k) ∨ (b ≠ a ∧ b ∈ u.seen ∧ b ∉ w.seen) ∧ i < (next b).length

variable {next} {a c : α} {k fuel : ℕ} {w u u' : Walk α}

omit [DecidableEq α] in
theorem explored_seen (ha : a ∈ w.seen) : Explored next a w w := by
  refine ⟨Finset.Subset.refl _, ha, fun b hb hn => absurd hb hn,
    fun b hb hn => absurd hb hn, [], ?_, ?_, ?_⟩
  · rw [List.append_nil]
  · exact List.nodup_nil
  · intro b i
    simp

theorem entered_enter : Entered next a 0 w (w.enter a) := by
  have hnew : ∀ {b}, b ∈ insert a w.seen → b ∉ w.seen → b = a := fun hb hn =>
    (Finset.mem_insert.mp hb).resolve_right hn
  constructor
  case mono => exact Finset.Subset.refl _
  case reach =>
    intro b hb hn
    rw [hnew hb hn]
    exact Relation.ReflTransGen.refl
  case closed =>
    intro b hb hn hne
    exact absurd (hnew hb hn) hne
  case children => simp
  case edges =>
    refine ⟨[], (List.append_nil _).symm, List.nodup_nil, ?_⟩
    intro b i
    simp only [List.not_mem_nil, Nat.not_lt_zero, and_false, false_or, false_iff]
    rintro ⟨⟨hne, hb, hn⟩, -⟩
    exact hne (hnew hb hn)

/-- The edges followed: those of the nodes in `u`, the edge to the child, and those of the nodes new
    in `u'`. -/
theorem Entered.edges_child (h : Entered next a k w u) (he : Explored next c (u.follow a k) u') :
    ∃ es, u'.edges = w.edges ++ es ∧ es.Nodup ∧ ∀ b i, (b, i) ∈ es ↔
      (b = a ∧ i < k + 1) ∨ (b ≠ a ∧ b ∈ u'.seen ∧ b ∉ w.seen) ∧ i < (next b).length := by
  have hau : a ∈ u.seen := h.mono (Finset.mem_insert_self a _)
  have hwu : ∀ {b}, b ∈ w.seen → b ∈ u.seen := fun hb => h.mono (Finset.mem_insert_of_mem hb)
  have hmono : u.seen ⊆ u'.seen := he.mono
  obtain ⟨es, hes, hnd, hiff⟩ := h.edges
  obtain ⟨es', hes', hnd', hiff'⟩ := he.edges
  refine ⟨es ++ (a, k) :: es', ?_, ?_, fun b i => ?_⟩
  · rw [hes', Walk.follow, hes]
    simp
  · have hk : (a, k) ∉ es := fun hin => by
      rcases (hiff a k).mp hin with ⟨-, hlt⟩ | ⟨⟨hne, -⟩, -⟩
      · exact Nat.lt_irrefl k hlt
      · exact hne rfl
    have hnew : ∀ e ∈ es', e.1 ∉ u.seen := fun e hin => ((hiff' e.1 e.2).mp hin).1.2
    have hold : ∀ e ∈ es, e.1 ∈ u.seen := fun e hin => by
      rcases (hiff e.1 e.2).mp hin with ⟨heq, -⟩ | ⟨⟨-, hin, -⟩, -⟩
      · exact heq ▸ hau
      · exact hin
    rw [List.nodup_append, List.nodup_cons]
    refine ⟨hnd, ⟨fun hin => hnew _ hin hau, hnd'⟩, ?_⟩
    rintro e he₁ e' he₂ rfl
    rcases List.mem_cons.mp he₂ with rfl | he₂
    · exact hk he₁
    · exact hnew e he₂ (hold e he₁)
  · have hfollow : (u.follow a k).seen = u.seen := rfl
    rw [List.mem_append, List.mem_cons, hiff, hiff', hfollow, Prod.mk.injEq]
    constructor
    · rintro ((⟨rfl, hlt⟩ | ⟨⟨hne, hb, hn⟩, hlt⟩) | ⟨rfl, rfl⟩ | ⟨⟨hb, hn⟩, hlt⟩)
      · exact Or.inl ⟨rfl, Nat.lt_succ_of_lt hlt⟩
      · exact Or.inr ⟨⟨hne, hmono hb, hn⟩, hlt⟩
      · exact Or.inl ⟨rfl, Nat.lt_succ_self _⟩
      · exact Or.inr ⟨⟨fun heq => hn (heq ▸ hau), hb, fun hw => hn (hwu hw)⟩, hlt⟩
    · rintro (⟨rfl, hlt⟩ | ⟨⟨hne, hb, hn⟩, hlt⟩)
      · rcases Nat.lt_succ_iff_lt_or_eq.mp hlt with hlt | rfl
        · exact Or.inl (Or.inl ⟨rfl, hlt⟩)
        · exact Or.inr (Or.inl ⟨rfl, rfl⟩)
      · by_cases hbu : b ∈ u.seen
        · exact Or.inl (Or.inr ⟨⟨hne, hbu, hn⟩, hlt⟩)
        · exact Or.inr (Or.inr ⟨⟨hb, hbu⟩, hlt⟩)

/-- One more child has been visited. -/
theorem Entered.child (h : Entered next a k w u) (hc : (next a)[k]? = some c)
    (he : Explored next c (u.follow a k) u') : Entered next a (k + 1) w u' := by
  have hmem : c ∈ next a := List.mem_of_getElem? hc
  have hmono : u.seen ⊆ u'.seen := he.mono
  constructor
  case mono => exact h.mono.trans hmono
  case reach =>
    intro b hb hn
    by_cases hbu : b ∈ u.seen
    · exact h.reach b hbu hn
    · exact Relation.ReflTransGen.head hmem (he.reach b hb hbu)
  case closed =>
    intro b hb hn hne d hd
    by_cases hbu : b ∈ u.seen
    · exact hmono (h.closed b hbu hn hne d hd)
    · exact he.closed b hb hbu d hd
  case edges => exact h.edges_child he
  case children =>
    intro d hd
    rw [List.take_add_one, hc] at hd
    rcases List.mem_append.mp hd with hd | hd
    · exact hmono (h.children d hd)
    · simp only [Option.toList_some, List.mem_singleton] at hd
      exact hd ▸ he.root

/-- A node whose children have all been visited is explored. -/
theorem Entered.explored (h : Entered next a (next a).length w u) (ha : a ∉ w.seen) :
    Explored next a w u := by
  have hau : a ∈ u.seen := h.mono (Finset.mem_insert_self a _)
  constructor
  case mono => exact (Finset.subset_insert a _).trans h.mono
  case root => exact hau
  case reach => exact h.reach
  case closed =>
    intro b hb hn c hc
    rcases eq_or_ne b a with rfl | hne
    · exact h.children c (by rwa [List.take_length])
    · exact h.closed b hb hn hne c hc
  case edges =>
    obtain ⟨es, hes, hnd, hiff⟩ := h.edges
    refine ⟨es, hes, hnd, fun b i => (hiff b i).trans ?_⟩
    rcases eq_or_ne b a with rfl | hne
    · simp [hau, ha]
    · simp [hne]

/-! ### Every visit returns -/

/-- The children of a node are visited one after the other, if each visit returns. -/
theorem Entered.run_children
    (hvisit : ∀ (c : α) (v : Walk α), insert a w.seen ⊆ v.seen →
      ∃ v', visit next fuel c v = some v' ∧ Explored next c v v')
    (cs : List α) (h : Entered next a k w u) (hk : k ≤ (next a).length)
    (hcs : (next a).drop k = cs) :
    ∃ u', run (fun w (c : α × ℕ) => visit next fuel c.1 (w.follow a c.2)) u (cs.zipIdx k) =
      some u' ∧ Entered next a (next a).length w u' := by
  induction cs generalizing k u with
  | nil =>
    obtain rfl : k = (next a).length := le_antisymm hk (List.drop_eq_nil_iff.mp hcs)
    exact ⟨u, rfl, h⟩
  | cons c cs ih =>
    have hc : (next a)[k]? = some c := by rw [← Nat.add_zero k, ← List.getElem?_drop, hcs]; rfl
    have hlt : k < (next a).length := (List.getElem?_eq_some_iff.mp hc).1
    obtain ⟨v, hv, hexp⟩ := hvisit c (u.follow a k) h.mono
    obtain ⟨u', hrun, hu'⟩ :=
      ih (h.child hc hexp) hlt (by rw [← List.tail_drop, hcs, List.tail_cons])
    exact ⟨u', by rw [List.zipIdx_cons]; exact run_cons.mpr ⟨v, hv, hrun⟩, hu'⟩

/-- CORRECT: a stack deeper than the number of nodes not seen yet is enough, and the visit
    explores. -/
theorem visit_explores [Fintype α] (fuel : ℕ) (a : α) (w : Walk α)
    (hfuel : (Finset.univ \ w.seen).card < fuel) :
    ∃ u, visit next fuel a w = some u ∧ Explored next a w u := by
  induction fuel generalizing a w with
  | zero => exact absurd hfuel (Nat.not_lt_zero _)
  | succ fuel ih =>
    rw [visit]
    by_cases ha : a ∈ w.seen
    · exact ⟨w, if_pos ha, explored_seen ha⟩
    · rw [if_neg ha]
      -- once `a` is marked, one node less is left for the children
      have hless : ∀ v : Walk α, insert a w.seen ⊆ v.seen → (Finset.univ \ v.seen).card < fuel := by
        intro v hv
        have hlt : (Finset.univ \ v.seen).card < (Finset.univ \ w.seen).card := by
          refine Finset.card_lt_card (Finset.ssubset_iff_of_subset ?_ |>.mpr ⟨a, ?_, ?_⟩)
          · exact Finset.sdiff_subset_sdiff (Finset.Subset.refl _)
              ((Finset.subset_insert a _).trans hv)
          · exact Finset.mem_sdiff.mpr ⟨Finset.mem_univ a, ha⟩
          · exact fun hin => (Finset.mem_sdiff.mp hin).2 (hv (Finset.mem_insert_self a _))
        omega
      obtain ⟨u, hrun, hu⟩ :=
        entered_enter.run_children (fun c v hv => ih c v (hless v hv)) (next a) (Nat.zero_le _) rfl
      exact ⟨u, hrun, hu.explored ha⟩

/-- A deeper stack does not change the outcome. -/
theorem visit_succ (fuel : ℕ) (a : α) (w u : Walk α) (h : visit next fuel a w = some u) :
    visit next (fuel + 1) a w = some u := by
  induction fuel generalizing a w u with
  | zero => cases h
  | succ fuel ih =>
    rw [visit] at h ⊢
    split at h
    · rename_i ha
      rw [if_pos ha, h]
    · rename_i ha
      rw [if_neg ha]
      exact run_mono (fun w c u hc => ih c.1 _ u hc) h

theorem visit_mono {fuel fuel' : ℕ} (hle : fuel ≤ fuel') (h : visit next fuel a w = some u) :
    visit next fuel' a w = some u := by
  induction hle with
  | refl => exact h
  | step _ ih => exact visit_succ _ a w u ih

/-! ### Visits one after the other -/

/-- Exactly what can be reached from the starts has been seen, and each of its edges followed
    once. -/
structure Searched (next : α → List α) (roots : List α) (w : Walk α) : Prop where
  seen : ∀ b, b ∈ w.seen ↔ ∃ r ∈ roots, Reaches next r b
  nodup : w.edges.Nodup
  edges : ∀ b i, (b, i) ∈ w.edges ↔ b ∈ w.seen ∧ i < (next b).length

omit [DecidableEq α] in
theorem searched_nil : Searched next [] ⟨∅, []⟩ := ⟨by simp, List.nodup_nil, by simp⟩

omit [DecidableEq α] in
/-- One more start. -/
theorem Searched.explored {roots : List α} (h : Searched next roots w) (he : Explored next a w u) :
    Searched next (roots ++ [a]) u := by
  have hclosed : ∀ b ∈ u.seen, ∀ c ∈ next b, c ∈ u.seen := by
    intro b hb c hc
    by_cases hbw : b ∈ w.seen
    · obtain ⟨r, hr, hrb⟩ := (h.seen b).mp hbw
      exact he.mono ((h.seen c).mpr ⟨r, hr, hrb.tail hc⟩)
    · exact he.closed b hb hbw c hc
  have hreach : ∀ b, Reaches next a b → b ∈ u.seen := by
    intro b hab
    induction hab with
    | refl => exact he.root
    | tail _ hbc ih => exact hclosed _ ih _ hbc
  obtain ⟨es, hes, hnd, hiff⟩ := he.edges
  refine ⟨fun b => ?_, ?_, fun b i => ?_⟩
  · simp only [List.mem_append, List.mem_singleton]
    constructor
    · intro hb
      by_cases hbw : b ∈ w.seen
      · obtain ⟨r, hr, hrb⟩ := (h.seen b).mp hbw
        exact ⟨r, Or.inl hr, hrb⟩
      · exact ⟨a, Or.inr rfl, he.reach b hb hbw⟩
    · rintro ⟨r, hr | rfl, hrb⟩
      · exact he.mono ((h.seen b).mpr ⟨r, hr, hrb⟩)
      · exact hreach b hrb
  · rw [hes, List.nodup_append]
    refine ⟨h.nodup, hnd, ?_⟩
    rintro ⟨b, i⟩ hold e hnew rfl
    exact ((hiff b i).mp hnew).1.2 ((h.edges b i).mp hold).1
  · rw [hes, List.mem_append, h.edges, hiff]
    constructor
    · rintro (⟨hb, hi⟩ | ⟨⟨hb, -⟩, hi⟩)
      · exact ⟨he.mono hb, hi⟩
      · exact ⟨hb, hi⟩
    · rintro ⟨hb, hi⟩
      by_cases hbw : b ∈ w.seen
      · exact Or.inl ⟨hbw, hi⟩
      · exact Or.inr ⟨⟨hb, hbw⟩, hi⟩

/-- Any starts, one after the other, with a stack that holds all nodes. -/
theorem searched_run [Fintype α] (next : α → List α) (roots : List α) :
    ∃ w, (∀ fuel, Fintype.card α < fuel →
      run (fun w a => visit next fuel a w) ⟨∅, []⟩ roots = some w) ∧ Searched next roots w := by
  induction roots using List.reverseRecOn with
  | nil => exact ⟨_, fun _ _ => rfl, searched_nil⟩
  | append_singleton roots a ih =>
    obtain ⟨w, hrun, hw⟩ := ih
    have hcard : (Finset.univ \ w.seen).card < Fintype.card α + 1 :=
      Nat.lt_succ_of_le (Finset.card_le_univ _)
    obtain ⟨u, hu, hexp⟩ := @visit_explores α _ next _ (Fintype.card α + 1) a w hcard
    refine ⟨u, fun fuel hfuel => ?_, hw.explored hexp⟩
    exact run_append.mpr ⟨w, hrun fuel hfuel, run_cons.mpr ⟨u, visit_mono hfuel hu, rfl⟩⟩

end DistSys.Search
