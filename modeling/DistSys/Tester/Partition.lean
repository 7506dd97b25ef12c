import DistSys.Tester.Group

/-! @go tester1/group.go | name:Partition, MakePartition | scheme:topology

    A group is split in two. `Partition` takes the servers of one list after the other: each is cut
    off from the other list and connected to its own. `MakePartition` proposes the two lists, with
    the leader in the second: one pass writes the other servers into two arrays of zeros, and the
    leader goes into the last slot.

        n = 5, l = 1     p1 = 0 2 3    p2 = 4 1
        n = 4, l = 1     p1 = 0 2 3    p2 = _ 1      one slot more than servers: _ stays 0 -/

namespace DistSys.Tester
open Machine (run run_foldl)

/-! ### Partition -/

section partition
variable {E : Type} {n : ℕ}

/-- One of the two loops of `Partition`. -/
def ServerGrp.side [DecidableEq E] (sg : ServerGrp E n) (p q : List (Fin n)) :
    Option (ServerGrp E n) :=
  run (fun sg i => (sg.disconnect i q).bind fun sg => sg.connect i p) sg p

def ServerGrp.partition [DecidableEq E] (sg : ServerGrp E n) (p1 p2 : List (Fin n)) :
    Option (ServerGrp E n) :=
  (sg.side p1 p2).bind fun sg => sg.side p2 p1

variable {sg sg₁ sg₂ : ServerGrp E n} {l l' : List (Fin n)}

theorem Switched.refl (l : List (Fin n)) (sg : ServerGrp E n) : Switched l sg sg :=
  ⟨rfl, rfl, rfl, fun _ _ => rfl⟩

theorem Switched.mono (h : Switched l sg sg₁) (hl : ∀ a ∈ l, a ∈ l') : Switched l' sg sg₁ :=
  ⟨h.srvs, h.drawn, h.ends, fun e he => h.enabled e fun a ha b hb => he a (hl a ha) b (hl b hb)⟩

theorem Switched.trans (h : Switched l sg sg₁) (h' : Switched l sg₁ sg₂) : Switched l sg sg₂ := by
  refine ⟨h'.srvs.trans h.srvs, h'.drawn.trans h.drawn, h'.ends.trans h.ends, fun e he => ?_⟩
  rw [h'.enabled e (by rw [h.srvs]; exact he), h.enabled e he]

theorem ServerGrp.Apart.switched (h : sg.Apart) (hsw : Switched l sg sg₁) : sg₁.Apart := by
  refine ⟨?_, ?_⟩ <;> rw [hsw.srvs]
  · exact h.present
  · exact h.distinct

variable [DecidableEq E]

/-- One of the loops, over the servers of one list. -/
theorem ServerGrp.Apart.side (h : sg.Apart) (p q : List (Fin n)) :
    ∃ sg', sg.side p q = some sg' ∧ Switched (p ++ q) sg sg' ∧
      sg'.topology = sg.topology.side p q := by
  refine @run_foldl _ _ _ _ (fun sg' => Switched (p ++ q) sg sg') ServerGrp.topology
    _ sg (.refl _ sg) p ?_
  intro sg₁ i hi hsw
  obtain ⟨sg₂, hdis, hsw₂, htop₂⟩ := (h.switched hsw).disconnect i q
  obtain ⟨sg₃, hcon, hsw₃, htop₃⟩ := ((h.switched hsw).switched hsw₂).connect i p
  refine ⟨sg₃, ?_, ?_, ?_⟩
  · rw [hdis, Option.bind_some, hcon]
  · refine hsw.trans ((hsw₂.mono fun a ha => ?_).trans (hsw₃.mono fun a ha => ?_))
    · rcases List.mem_cons.mp ha with rfl | ha
      · exact List.mem_append_left _ hi
      · exact List.mem_append_right _ ha
    · rcases List.mem_cons.mp ha with rfl | ha
      · exact List.mem_append_left _ hi
      · exact List.mem_append_left _ ha
  · rw [htop₃, htop₂]

theorem ServerGrp.Apart.partition (h : sg.Apart) (p1 p2 : List (Fin n)) :
    ∃ sg', sg.partition p1 p2 = some sg' ∧ Switched (p1 ++ p2) sg sg' ∧
      sg'.topology = sg.topology.partition p1 p2 := by
  obtain ⟨sg₁, hone, hsw₁, htop₁⟩ := h.side p1 p2
  obtain ⟨sg₂, htwo, hsw₂, htop₂⟩ := (h.switched hsw₁).side p2 p1
  refine ⟨sg₂, ?_, hsw₁.trans (hsw₂.mono fun a ha => ?_), ?_⟩
  · rw [ServerGrp.partition, hone, Option.bind_some, htwo]
  · rw [List.mem_append] at ha ⊢
    exact ha.symm
  · rw [htop₂, htop₁, Topology.partition]

/-- CORRECT: from any flags and any enabled ends, `Partition` of two disjoint lists enables exactly
    the ends within a list, flags the servers named, and leaves every other end and flag alone. -/
theorem partition_installs (h : sg.Apart) {p1 p2 : List (Fin n)} (hd : p1.Disjoint p2) :
    ∃ sg', sg.partition p1 p2 = some sg' ∧ sg'.srvs = sg.srvs ∧
      (∀ i j srv, sg'.srvs i = some srv → (i ∈ p1 ∨ i ∈ p2) → (j ∈ p1 ∨ j ∈ p2) →
        (sg'.net.enabled (srv.endNames j) = true ↔ i ∈ p1 ∧ j ∈ p1 ∨ i ∈ p2 ∧ j ∈ p2)) ∧
      (∀ i, i ∈ p1 ∨ i ∈ p2 → sg'.connected i = true) ∧
      (∀ i j srv, sg'.srvs i = some srv → ¬ ((i ∈ p1 ∨ i ∈ p2) ∧ (j ∈ p1 ∨ j ∈ p2)) →
        sg'.net.enabled (srv.endNames j) = sg.net.enabled (srv.endNames j)) ∧
      (∀ e, (∀ i j srv, sg'.srvs i = some srv → (i ∈ p1 ∨ i ∈ p2) → (j ∈ p1 ∨ j ∈ p2) →
        srv.endNames j ≠ e) → sg'.net.enabled e = sg.net.enabled e) ∧
      ∀ i, i ∉ p1 → i ∉ p2 → sg'.connected i = sg.connected i := by
  obtain ⟨sg', hpart, hsw, htop⟩ := h.partition p1 p2
  have hconn : ∀ i, sg'.connected i = true ↔ sg.connected i = true ∨ i ∈ p1 ∨ i ∈ p2 := by
    intro i
    have hflag := Topology.connected_partition (t := sg.topology) hd i
    rwa [← htop] at hflag
  have hother : ∀ e, (∀ i j srv, sg'.srvs i = some srv → (i ∈ p1 ∨ i ∈ p2) → (j ∈ p1 ∨ j ∈ p2) →
      srv.endNames j ≠ e) → sg'.net.enabled e = sg.net.enabled e := by
    intro e he
    refine hsw.enabled e fun a ha b hb srv hsrv => ?_
    exact he a b srv (hsw.srvs ▸ hsrv) (List.mem_append.mp ha) (List.mem_append.mp hb)
  refine ⟨sg', hpart, hsw.srvs, fun i j srv hsrv hi hj => ?_, fun i hi => (hconn i).mpr (Or.inr hi),
    fun i j srv hsrv hout => hother _ fun a b srv' hsrv' ha hb heq => ?_, hother,
    fun i hi1 hi2 => ?_⟩
  · have hlink := Topology.link_partition (t := sg.topology) hd hi hj
    rw [← htop] at hlink
    simpa [ServerGrp.topology, hsrv] using hlink
  · obtain ⟨rfl, rfl⟩ := (h.switched hsw).distinct a i srv' srv b j hsrv' hsrv heq
    exact hout ⟨ha, hb⟩
  · rw [Bool.eq_iff_iff, hconn i]
    simp [hi1, hi2]

/-- Five servers are started and split, and split anew, with server 4 on neither side: the end from
    0 to 2 is enabled again, the one from 0 to 1 is not any more, and that from 2 to 4 is left as it
    was. -/
theorem partition_installs_five : ∃ sg sg₁ sg₂ sg₃ : ServerGrp ℕ 5,
    makeSrvGrp id LabRpc.makeNetwork 0 5 = some sg ∧ sg.startServers id = some sg₁ ∧
    sg₁.partition [0, 1] [2, 3, 4] = some sg₂ ∧ sg₂.partition [0, 2] [1, 3] = some sg₃ ∧
    ∃ s₀ s₂, sg₃.srvs 0 = some s₀ ∧ sg₃.srvs 2 = some s₂ ∧
      sg₂.net.enabled (s₀.endNames 1) = true ∧ ¬ sg₂.net.enabled (s₀.endNames 2) = true ∧
      sg₃.net.enabled (s₀.endNames 2) = true ∧ ¬ sg₃.net.enabled (s₀.endNames 1) = true ∧
      sg₃.net.enabled (s₂.endNames 4) = true := by
  obtain ⟨sg, hmake, hcomplete, hexact⟩ := makeSrvGrp_exact Function.injective_id
    (fun _ => rfl : ∀ k, LabRpc.makeNetwork.ends (id k) = false) 0 5
  obtain ⟨t, ⟨sg₁, hstart, hcomplete₁, -⟩, -⟩ :=
    exact_apply Function.injective_id hcomplete hexact .startServers rfl
  have hfirst : List.Disjoint [(0 : Fin 5), 1] [2, 3, 4] := by simp
  obtain ⟨sg₂, hpart₂, hsrvs₂, hends₂, -⟩ := partition_installs hcomplete₁.apart hfirst
  have hapart₂ : sg₂.Apart := by
    refine ⟨?_, ?_⟩ <;> rw [hsrvs₂]
    · exact hcomplete₁.present
    · exact hcomplete₁.distinct
  have hsecond : List.Disjoint [(0 : Fin 5), 2] [1, 3] := by simp
  obtain ⟨sg₃, hpart₃, hsrvs₃, hends₃, -, hrest, -⟩ := partition_installs hapart₂ hsecond
  obtain ⟨s₀, hs₀⟩ := hapart₂.present 0
  obtain ⟨s₂, hs₂⟩ := hapart₂.present 2
  have hs₀' : sg₃.srvs 0 = some s₀ := hsrvs₃ ▸ hs₀
  have hs₂' : sg₃.srvs 2 = some s₂ := hsrvs₃ ▸ hs₂
  refine ⟨sg, sg₁, sg₂, sg₃, hmake, hstart, hpart₂, hpart₃, s₀, s₂, hs₀', hs₂', ?_, ?_, ?_, ?_, ?_⟩
  · exact (hends₂ 0 1 s₀ hs₀ (by decide) (by decide)).mpr (by decide)
  · rw [hends₂ 0 2 s₀ hs₀ (by decide) (by decide)]
    decide
  · exact (hends₃ 0 2 s₀ hs₀' (by decide) (by decide)).mpr (by decide)
  · rw [hends₃ 0 1 s₀ hs₀' (by decide) (by decide)]
    decide
  · rw [hrest 2 4 s₂ hs₂' (by decide)]
    exact (hends₂ 2 4 s₂ hs₂ (by decide) (by decide)).mpr (by decide)

end partition

/-! ### MakePartition -/

/-- `p[i] = v`, which panics out of range. -/
def assign (p : List ℕ) (i v : ℕ) : Option (List ℕ) :=
  if i < p.length then some (p.set i v) else none

/-- The two arrays of `MakePartition`, and how many servers are in. -/
structure Slots where
  j : ℕ
  p1 : List ℕ
  p2 : List ℕ

def Slots.step (l : ℕ) (s : Slots) (i : ℕ) : Option Slots :=
  if i ≠ l then
    if s.j < s.p1.length then (assign s.p1 s.j i).map fun p1 => { s with p1 := p1, j := s.j + 1 }
    else (assign s.p2 (s.j - s.p1.length) i).map fun p2 => { s with p2 := p2, j := s.j + 1 }
  else some s

def makePartition (n l : ℕ) : Option (List ℕ × List ℕ) :=
  (run (Slots.step l) ⟨0, .replicate (n / 2 + 1) 0, .replicate (n / 2) 0⟩ (List.range n)).bind
    fun s =>
    (assign s.p2 (s.p2.length - 1) l).map fun p2 => (s.p1, p2)

/-- Read one behind the other, the two arrays are one, filled from the left. -/
theorem Slots.step_fills {l i : ℕ} {s : Slots} {done : List ℕ} {k : ℕ} (hi : i ≠ l)
    (hj : s.j = done.length) (hs : s.p1 ++ s.p2 = done ++ List.replicate (k + 1) 0) :
    ∃ s', s.step l i = some s' ∧ s'.j = s.j + 1 ∧ s'.p1.length = s.p1.length ∧
      s'.p2.length = s.p2.length ∧ s'.p1 ++ s'.p2 = done ++ [i] ++ List.replicate k 0 := by
  have hset : (s.p1 ++ s.p2).set s.j i = done ++ [i] ++ List.replicate k 0 := by
    rw [hs, hj, List.set_append_right _ _ le_rfl, Nat.sub_self,
      List.replicate_succ, List.set_cons_zero, List.append_assoc, List.singleton_append]
  have hlen := congrArg List.length hs
  simp only [List.length_append, List.length_replicate] at hlen
  by_cases hlt : s.j < s.p1.length
  · refine ⟨{ s with p1 := s.p1.set s.j i, j := s.j + 1 }, ?_, rfl, List.length_set, rfl, ?_⟩
    · simp [Slots.step, hi, hlt, assign]
    · rw [← hset, List.set_append_left _ _ hlt]
  · have hin : s.j - s.p1.length < s.p2.length := by omega
    refine ⟨{ s with p2 := s.p2.set (s.j - s.p1.length) i, j := s.j + 1 }, ?_, rfl,
      rfl, List.length_set, ?_⟩
    · simp [Slots.step, hi, hlt, assign, hin]
    · rw [← hset, List.set_append_right _ _ (not_lt.mp hlt)]

/-- The loop writes the servers but `l`, one after the other, if there is room. -/
theorem Slots.run_fills {l : ℕ} (is : List ℕ) {s : Slots} {done : List ℕ} {k : ℕ}
    (hj : s.j = done.length) (hs : s.p1 ++ s.p2 = done ++ List.replicate k 0)
    (hroom : (is.filter (· ≠ l)).length ≤ k) : ∃ s', run (Slots.step l) s is = some s' ∧
      s'.p1.length = s.p1.length ∧ s'.p2.length = s.p2.length ∧
      s'.p1 ++ s'.p2 = done ++ is.filter (· ≠ l) ++
        List.replicate (k - (is.filter (· ≠ l)).length) 0 := by
  induction is generalizing s done k with
  | nil => exact ⟨s, rfl, rfl, rfl, by simpa using hs⟩
  | cons i is ih =>
    rcases eq_or_ne i l with rfl | hi
    · rw [List.filter_cons_of_neg (by simp)] at hroom ⊢
      obtain ⟨s', hrun, hs'⟩ := ih hj hs hroom
      exact ⟨s', Machine.run_cons.mpr ⟨s, by simp [Slots.step], hrun⟩, hs'⟩
    · rw [List.filter_cons_of_pos (by simpa using hi)] at hroom ⊢
      rw [List.length_cons] at hroom ⊢
      obtain ⟨k, rfl⟩ : ∃ m, k = m + 1 := ⟨k - 1, by omega⟩
      obtain ⟨s₁, hstep, hj₁, h1, h2, hfill⟩ := Slots.step_fills hi hj hs
      obtain ⟨s', hrun, h1', h2', hfill'⟩ := ih (by simp [hj₁, hj]) hfill (by omega)
      refine ⟨s', Machine.run_cons.mpr ⟨s₁, hstep, hrun⟩, h1'.trans h1, h2'.trans h2, ?_⟩
      rw [hfill', Nat.add_sub_add_right, List.append_assoc done [i], List.singleton_append]

/-- What `MakePartition` returns: the servers but `l`, a zero more if `n` is even, and `l`. -/
theorem makePartition_spec {n l : ℕ} (hn : 2 ≤ n) (hl : l < n) :
    ∃ p1 p2, makePartition n l = some (p1, p2) ∧ p1.length = n / 2 + 1 ∧
      p2.length = n / 2 ∧ l ∈ p2 ∧
      p1 ++ p2 = (List.range n).erase l ++ List.replicate (1 - n % 2) 0 ++ [l] := by
  have herase : (List.range n).filter (· ≠ l) = (List.range n).erase l := by
    rw [List.nodup_range.erase_eq_filter]
    simp [bne, BEq.beq]
  have hlen : ((List.range n).erase l).length = n - 1 := by
    rw [List.length_erase_of_mem (List.mem_range.mpr hl), List.length_range]
  have hzeros : List.replicate (n / 2 + 1) 0 ++ List.replicate (n / 2) 0 =
      [] ++ List.replicate (n / 2 + 1 + n / 2) 0 := by
    rw [List.nil_append, List.replicate_append_replicate]
  obtain ⟨⟨j, p1, p2⟩, hrun, h1, h2, hfill⟩ := @Slots.run_fills l (List.range n)
    ⟨0, .replicate (n / 2 + 1) 0, .replicate (n / 2) 0⟩ [] _ rfl hzeros
      (by rw [herase, hlen]; omega)
  simp only [List.length_replicate, List.nil_append, herase, hlen] at h1 h2 hfill
  have hlast : p2.length - 1 < p2.length := by omega
  refine ⟨p1, p2.set (p2.length - 1) l, ?_, h1, ?_, ?_, ?_⟩
  · rw [makePartition, hrun, Option.bind_some, assign, if_pos hlast, Option.map_some]
  · rw [List.length_set, h2]
  · exact List.mem_set hlast l
  · -- the last slot of `p2` is the last slot of the two
    have hroom : n / 2 + 1 + n / 2 - (n - 1) = 1 - n % 2 + 1 := by omega
    have hpos : p1.length + (p2.length - 1) = n - 1 + (1 - n % 2) := by omega
    have happ :
        p1 ++ p2.set (p2.length - 1) l = (p1 ++ p2).set (p1.length + (p2.length - 1)) l := by
      rw [List.set_append_right _ _ (Nat.le_add_right _ _), Nat.add_sub_cancel_left]
    rw [happ, hfill, hroom, List.replicate_succ', ← List.append_assoc, hpos,
      List.set_append_right _ _ (by simp [hlen]), List.length_append, hlen,
        List.length_replicate, Nat.sub_self,
      List.set_cons_zero]

/-- CORRECT: for three servers or more, `MakePartition` splits them in two with the leader in the
    shorter list exactly if their number is odd. -/
theorem makePartition_splits_iff {n l : ℕ} (hn : 3 ≤ n) (hl : l < n) :
    (∃ p1 p2, makePartition n l = some (p1, p2) ∧ (p1 ++ p2).Perm (List.range n) ∧ l ∈ p2 ∧
      p2.length < p1.length) ↔ n % 2 = 1 := by
  obtain ⟨p1, p2, hmake, h1, h2, hmem, happ⟩ := makePartition_spec (by omega : 2 ≤ n) hl
  constructor
  · rintro ⟨q1, q2, hmake', hperm, -, -⟩
    rw [hmake, Option.some.injEq, Prod.mk.injEq] at hmake'
    obtain ⟨rfl, rfl⟩ := hmake'
    have hlen := hperm.length_eq
    rw [List.length_append, h1, h2, List.length_range] at hlen
    omega
  · intro hodd
    refine ⟨p1, p2, hmake, ?_, hmem, by omega⟩
    rw [happ, hodd, Nat.sub_self, List.replicate_zero, List.append_nil]
    exact (List.perm_append_singleton l _).trans (List.perm_cons_erase (List.mem_range.mpr hl)).symm

/-- Five servers are split as they should be. -/
theorem makePartition_splits_five : ∃ p1 p2, makePartition 5 1 = some (p1, p2) ∧
    (p1 ++ p2).Perm (List.range 5) ∧ 1 ∈ p2 ∧ p2.length < p1.length :=
  (makePartition_splits_iff (n := 5) (l := 1) (by decide) (by decide)).mpr (by decide)

/-- Of four servers with leader 1, server 0 is in both lists. -/
theorem makePartition_four : makePartition 4 1 = some ([0, 2, 3], [0, 1]) ∧
    ¬ ∃ p1 p2, makePartition 4 1 = some (p1, p2) ∧ (p1 ++ p2).Perm (List.range 4) ∧ 1 ∈ p2 ∧
      p2.length < p1.length := by
  refine ⟨rfl, ?_⟩
  rintro ⟨p1, p2, hmake, hperm, -, -⟩
  obtain ⟨rfl, rfl⟩ := Prod.mk.inj (Option.some.inj hmake)
  exact absurd hperm.length_eq (by decide)

end DistSys.Tester
