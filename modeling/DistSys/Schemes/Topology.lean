import Mathlib.Data.Bool.Basic
import Mathlib.Data.List.Nodup
import Mathlib.Logic.Function.Basic

/-! @scheme topology | family:flags and links | invariant:step

    Members with a flag each, and a directed link between any two of them that is up or down. The
    flags are exact when a link is up just if both its members are flagged. A member is connected to
    some others by raising its flag and then the links from and to those that are flagged; it is
    disconnected by lowering its flag and then the links from and to the others named.

               0   1   2                connect 2        0   1   2
          0    ■   □   □                to 0, 1, 2   0   ■   □   ■
          1    □   □   □    flags 0                  1   □   □   □    flags 0, 2
          2    □   □   □                             2   ■   □   ■            -/

namespace DistSys

structure Topology (ι : Type*) where
  connected : ι → Bool
  link : ι → ι → Bool

namespace Topology
variable {ι : Type*} [DecidableEq ι] {t : Topology ι} {i : ι} {all : List ι}

def connect (t : Topology ι) (i : ι) (others : List ι) : Topology ι where
  connected := Function.update t.connected i true
  link a b := t.link a b ||
    (a = i && b ∈ others && Function.update t.connected i true b) ||
    (b = i && a ∈ others && Function.update t.connected i true a)

def disconnect (t : Topology ι) (i : ι) (others : List ι) : Topology ι where
  connected := Function.update t.connected i false
  link a b := t.link a b && !(a = i && b ∈ others) && !(b = i && a ∈ others)

/-- The links from a member are replaced by new ones, which are down. -/
def replace (t : Topology ι) (i : ι) : Topology ι where
  connected := t.connected
  link a b := if a = i then false else t.link a b

/-- A link is up just if both its members are flagged. -/
def Exact (t : Topology ι) : Prop := ∀ a b, t.link a b = (t.connected a && t.connected b)

/-- Connecting a member to all keeps the flags exact. -/
theorem Exact.connect (h : t.Exact) (hall : ∀ a, a ∈ all) : (t.connect i all).Exact := by
  intro a b
  simp only [Topology.connect, h a b, hall, decide_true, Bool.and_true]
  rcases eq_or_ne a i with rfl | ha
  · rcases eq_or_ne b a with rfl | hb
    · simp
    · simp [hb]
  · rcases eq_or_ne b i with rfl | hb
    · cases hca : t.connected a <;> simp [ha, hca]
    · simp [ha, hb]

/-- And so does disconnecting it from all. -/
theorem Exact.disconnect (h : t.Exact) (hall : ∀ a, a ∈ all) : (t.disconnect i all).Exact := by
  intro a b
  simp only [Topology.disconnect, h a b, hall, decide_true, Bool.and_true]
  rcases eq_or_ne a i with rfl | ha
  · simp
  · rcases eq_or_ne b i with rfl | hb
    · simp
    · simp [ha, hb]

/-- The links of a member without a flag can be replaced. -/
theorem Exact.replace (h : t.Exact) (hi : t.connected i = false) : (t.replace i).Exact := by
  intro a b
  rcases eq_or_ne a i with rfl | ha
  · simp [Topology.replace, hi]
  · simp [Topology.replace, h a b, ha]

/-- One member after the other. -/
theorem Exact.foldl_disconnect (h : t.Exact) (hall : ∀ a, a ∈ all) (l : List ι) :
    (l.foldl (fun t i => t.disconnect i all) t).Exact := by
  induction l generalizing t with
  | nil => exact h
  | cons i l ih => exact ih (h.disconnect hall)

/-! ### Connecting everybody -/

def connectAll (t : Topology ι) (all : List ι) : Topology ι :=
  all.foldl (fun t i => t.connect i all) t

/-- The members named are flagged and linked to each other. -/
def Clique (t : Topology ι) (members : List ι) : Prop :=
  ∀ a ∈ members, t.connected a = true ∧ ∀ b ∈ members, t.link a b = true

/-- A member joins those that are linked already. -/
theorem Clique.connect {members : List ι} (h : t.Clique members) (hall : ∀ a, a ∈ all) :
    (t.connect i all).Clique (i :: members) := by
  have hflag : ∀ a ∈ i :: members, (t.connect i all).connected a = true := fun a ha => by
    rcases eq_or_ne a i with rfl | hne
    · simp [Topology.connect]
    · have hmem := (List.mem_cons.mp ha).resolve_left hne
      simp [Topology.connect, Function.update_of_ne hne, (h a hmem).1]
  refine fun a ha => ⟨hflag a ha, fun b hb => ?_⟩
  have hca := hflag a ha
  have hcb := hflag b hb
  simp only [Topology.connect] at hca hcb
  simp only [Topology.connect, hca, hcb, hall, decide_true, Bool.and_true,
    Bool.or_eq_true, decide_eq_true_eq]
  rcases List.mem_cons.mp ha with rfl | ha
  · exact Or.inl (Or.inr rfl)
  · rcases List.mem_cons.mp hb with rfl | hb
    · exact Or.inr rfl
    · exact Or.inl (Or.inl ((h a ha).2 b hb))

/-- Whatever was up before, in the end everybody is linked. -/
theorem clique_foldl {members : List ι} (h : t.Clique members) (hall : ∀ a, a ∈ all) (l : List ι) :
    (l.foldl (fun t i => t.connect i all) t).Clique (l.reverse ++ members) := by
  induction l generalizing t members with
  | nil => exact h
  | cons i l ih =>
    rw [List.reverse_cons, List.append_assoc, List.singleton_append]
    exact ih (h.connect hall)

theorem exact_connectAll (hall : ∀ a, a ∈ all) (t : Topology ι) : (t.connectAll all).Exact := by
  have hnobody : t.Clique [] := fun a ha => absurd ha List.not_mem_nil
  have hclique := clique_foldl hnobody hall all
  intro a b
  have ha := hclique a (by simp [hall a])
  have hb := hclique b (by simp [hall b])
  simp only [connectAll, ha.1, hb.1, ha.2 b (by simp [hall b]), Bool.and_self]

/-! ### Two sides -/

/-- One after the other, the members of `p` are disconnected from `q` and connected to `p`. -/
def side (t : Topology ι) (p q : List ι) : Topology ι :=
  p.foldl (fun t i => (t.disconnect i q).connect i p) t

def partition (t : Topology ι) (p q : List ι) : Topology ι := (t.side p q).side q p

/-- The members of `done` are flagged, linked to each other and cut off from `q`; nothing else has
    changed but flags and links of members of `p`. -/
structure Sided (t₀ t : Topology ι) (p q done : List ι) : Prop where
  flag : ∀ a, t.connected a = true ↔ t₀.connected a = true ∨ a ∈ done
  inside : ∀ a ∈ done, ∀ b ∈ done, t.link a b = true
  across : ∀ a ∈ done, ∀ b ∈ q, t.link a b = false ∧ t.link b a = false
  outside : ∀ a ∉ p, ∀ b ∉ p, t.link a b = t₀.link a b

theorem connected_turn {p q : List ι} {a : ι} :
    ((t.disconnect i q).connect i p).connected a = true ↔ a = i ∨ t.connected a = true := by
  rcases eq_or_ne a i with rfl | ha
  · simp [Topology.connect]
  · simp [Topology.connect, Topology.disconnect, ha]

/-- What one turn does to a link: cut off from `q` first, then raised towards `p`. -/
theorem link_turn {p q : List ι} {a b : ι} : ((t.disconnect i q).connect i p).link a b = true ↔
    (t.link a b = true ∧ ¬ (a = i ∧ b ∈ q) ∧ ¬ (b = i ∧ a ∈ q)) ∨
      (a = i ∧ b ∈ p ∧ (b = i ∨ t.connected b = true)) ∨
        (b = i ∧ a ∈ p ∧ (a = i ∨ t.connected a = true)) := by
  have hflag := fun c => connected_turn (t := t) (i := i) (p := p) (q := q) (a := c)
  simp only [Topology.connect] at hflag
  simp only [Topology.connect, Bool.or_eq_true, Bool.and_eq_true, hflag]
  simp [Topology.disconnect, and_assoc, or_assoc, imp_iff_not_or]

/-- One more member takes its side. -/
theorem Sided.turn {t₀ : Topology ι} {p q done : List ι}
    (h : Sided t₀ t p q done) (hd : p.Disjoint q) (hdone : ∀ a ∈ done, a ∈ p) (hi : i ∈ p) :
    Sided t₀ ((t.disconnect i q).connect i p) p q (i :: done) := by
  have hq : ∀ {a}, a ∈ p → a ∉ q := fun ha hq => hd ha hq
  constructor
  case flag =>
    intro a
    rw [connected_turn, h.flag, List.mem_cons]
    tauto
  case inside =>
    intro a ha b hb
    have hflag : ∀ c ∈ i :: done, c = i ∨ t.connected c = true := fun c hc =>
      (List.mem_cons.mp hc).imp_right fun hc => (h.flag c).mpr (Or.inr hc)
    have hmem : ∀ c ∈ i :: done, c ∈ p := List.forall_mem_cons.mpr ⟨hi, hdone⟩
    rw [link_turn]
    rcases List.mem_cons.mp ha with rfl | had
    · exact Or.inr (Or.inl ⟨rfl, hmem b hb, hflag b hb⟩)
    rcases List.mem_cons.mp hb with rfl | hbd
    · exact Or.inr (Or.inr ⟨rfl, hmem a ha, hflag a ha⟩)
    · exact Or.inl
        ⟨h.inside a had b hbd, fun hc => hq (hdone b hbd) hc.2, fun hc => hq (hdone a had) hc.2⟩
  case across =>
    intro a ha b hb
    have hap : a ∈ p := (List.mem_cons.mp ha).elim (fun he => he ▸ hi) (hdone a)
    have hbp : b ∉ p := fun hbp => hq hbp hb
    have hbi : b ≠ i := fun he => hbp (he ▸ hi)
    simp only [← Bool.not_eq_true, link_turn]
    rcases List.mem_cons.mp ha with rfl | had
    · simp [hb, hbp, hbi]
    · obtain ⟨hab, hba⟩ := h.across a had b hb
      simp [hab, hba, hbp, hbi]
  case outside =>
    intro a ha b hb
    have hai : a ≠ i := fun he => ha (he ▸ hi)
    have hbi : b ≠ i := fun he => hb (he ▸ hi)
    rw [← h.outside a ha b hb, Bool.eq_iff_iff, link_turn]
    simp [hai, hbi]

/-- All members take their side. -/
theorem sided_foldl {t₀ : Topology ι} {p q : List ι} (hd : p.Disjoint q)
    (l done : List ι) {t : Topology ι} (hl : ∀ a ∈ l, a ∈ p) (hdone : ∀ a ∈ done, a ∈ p)
    (h : Sided t₀ t p q done) :
    Sided t₀ (l.foldl (fun t i => (t.disconnect i q).connect i p) t) p q (l.reverse ++ done) := by
  induction l generalizing t done with
  | nil => exact h
  | cons i l ih =>
    obtain ⟨hi, hl⟩ := List.forall_mem_cons.mp hl
    have hrest := ih (i :: done) hl (List.forall_mem_cons.mpr ⟨hi, hdone⟩) (h.turn hd hdone hi)
    simpa using hrest

theorem sided_side (t : Topology ι) {p q : List ι} (hd : p.Disjoint q) :
    Sided t (t.side p q) p q p.reverse := by
  have hstart : Sided t t p q [] := ⟨by simp, by simp, by simp, fun _ _ _ _ => rfl⟩
  simpa [side] using sided_foldl hd p [] (fun _ ha => ha) (by simp) hstart

theorem connected_partition {p q : List ι} (hd : p.Disjoint q) (a : ι) :
    (t.partition p q).connected a = true ↔ t.connected a = true ∨ a ∈ p ∨ a ∈ q := by
  have hsymm : q.Disjoint p := fun _ hq hp => hd hp hq
  rw [partition, (sided_side _ hsymm).flag, (sided_side t hd).flag,
    List.mem_reverse, List.mem_reverse, or_assoc]

/-- Whatever was up before, in the end exactly the links within a side are. -/
theorem link_partition {p q : List ι} (hd : p.Disjoint q) {a b : ι} (ha : a ∈ p ∨ a ∈ q)
    (hb : b ∈ p ∨ b ∈ q) : (t.partition p q).link a b = true ↔ a ∈ p ∧ b ∈ p ∨ a ∈ q ∧ b ∈ q := by
  have hfirst := sided_side t hd
  have hsecond := sided_side (t.side p q) (p := q) (q := p) fun _ hq hp => hd hp hq
  have hpq : ∀ {c}, c ∈ p → c ∉ q := fun hp hq => hd hp hq
  have hqp : ∀ {c}, c ∈ q → c ∉ p := fun hq hp => hd hp hq
  rw [partition]
  rcases ha with ha | ha <;> rcases hb with hb | hb
  · -- the second pass leaves the links of the first side alone
    rw [hsecond.outside a (hpq ha) b (hpq hb)]
    simp [hfirst.inside a (by simpa using ha) b (by simpa using hb), ha, hb]
  · rw [(hsecond.across b (by simpa using hb) a ha).2]
    simp [hpq ha, hqp hb]
  · rw [(hsecond.across a (by simpa using ha) b hb).1]
    simp [hpq hb, hqp ha]
  · simp [hsecond.inside a (by simpa using ha) b (by simpa using hb), ha, hb]

end Topology

end DistSys
