import DistSys.Schemes.GoString
import Mathlib.Data.List.Basic

/-! @go tester1/persister.go | name:Persister, Save, Copy | scheme:log

    What a server writes down, and which of it counts. The instances of a server are numbered. Each
    has a persister of its own, whose content is copied when the instance is shut down; a save
    counts if a handler made it before that copy. The content to be handed on is the newest save
    that counts.

        saves    0:a  0:b  │  0:z  1:c  0:y  1:d  │  2:e          n:x  instance n saved x
                 ────────copy 0───────────────copy 1─
        counts    a    b           c         d          e -/

namespace DistSys.Tester

/-- Both parts of a `Persister`; a new one is empty. -/
structure Persister where
  raftstate : GoString
  snapshot : GoString
  deriving DecidableEq

def makePersister : Persister := ⟨[], []⟩

/-- Who calls `Save`: the handler of a request, or a `Kill` method. -/
inductive Author where
  | handler (ch : ℕ)
  | kill
  deriving DecidableEq

/-- A call of `Save` by an instance. -/
structure Save where
  author : Author
  inst : ℕ
  content : Persister

variable {saves saves' : List Save} {copied copied' : ℕ → Option ℕ} {m n k : ℕ}
  {save new : Save} {c : Persister}

/-- The save at position `m` was made by a handler before its instance was copied; `copied` has the
    number of saves there were then. -/
def Counts (saves : List Save) (copied : ℕ → Option ℕ) (m : ℕ) (save : Save) : Prop :=
  saves[m]? = some save ∧ (∃ ch, save.author = .handler ch) ∧ ∀ n, copied save.inst = some n → m < n

/-- `c` is the newest save that counts of the instances below `k`, or nothing was saved by them. -/
def Newest (saves : List Save) (copied : ℕ → Option ℕ) (k : ℕ) (c : Persister) : Prop :=
  (∃ m save, Counts saves copied m save ∧ save.inst < k ∧ save.content = c ∧
    ∀ m' save', Counts saves copied m' save' → save'.inst < k → m' ≤ m) ∨
  (c = makePersister ∧ ∀ m save, Counts saves copied m save → k ≤ save.inst)

/-- Saves that count are in the order of their instances. -/
def Ordered (saves : List Save) (copied : ℕ → Option ℕ) : Prop :=
  ∀ m m' save save', Counts saves copied m save → Counts saves copied m' save' → m ≤ m' →
    save.inst ≤ save'.inst

theorem Counts.lt (h : Counts saves copied m save) : m < saves.length :=
  (List.getElem?_eq_some_iff.mp h.1).1

theorem newest_zero (saves : List Save) (copied : ℕ → Option ℕ) :
    Newest saves copied 0 makePersister :=
  Or.inr ⟨rfl, fun _ _ _ => Nat.zero_le _⟩

theorem newest_congr (h : ∀ m save, Counts saves copied m save ↔ Counts saves' copied' m save) :
    Newest saves copied k c ↔ Newest saves' copied' k c := by
  simp only [Newest, h]

/-- A new instance has saved nothing yet. -/
theorem Newest.succ (h : Newest saves copied k c)
    (hnone : ∀ m save, Counts saves copied m save → save.inst ≠ k) :
    Newest saves copied (k + 1) c := by
  obtain ⟨m, save, hm, hlt, hc, hmax⟩ | ⟨rfl, hall⟩ := h
  · refine Or.inl
      ⟨m, save, hm, Nat.lt_succ_of_lt hlt, hc, fun m' save' hm' hlt' => hmax m' save' hm' ?_⟩
    exact Nat.lt_of_le_of_ne (Nat.le_of_lt_succ hlt') (hnone m' save' hm')
  · exact Or.inr ⟨rfl, fun m save hm => Nat.lt_of_le_of_ne (hall m save hm) (hnone m save hm).symm⟩

/-! ### A save is added -/

theorem counts_append : Counts (saves ++ [new]) copied m save ↔ Counts saves copied m save ∨
    (m = saves.length ∧ save = new ∧ (∃ ch, new.author = .handler ch) ∧
      ∀ n, copied new.inst = some n → saves.length < n) := by
  unfold Counts
  rcases Nat.lt_trichotomy m saves.length with h | h | h
  · rw [List.getElem?_append_left h]
    simp [Nat.ne_of_lt h]
  · subst h
    simp only [List.getElem?_concat_length, Option.some.injEq,
      List.getElem?_eq_none (Nat.le_refl _), reduceCtorEq, false_and, false_or, true_and]
    constructor
    · rintro ⟨rfl, hrest⟩; exact ⟨rfl, hrest⟩
    · rintro ⟨rfl, hrest⟩; exact ⟨rfl, hrest⟩
  · rw [List.getElem?_eq_none (by simp; omega), List.getElem?_eq_none (Nat.le_of_lt h)]
    simp [Nat.ne_of_gt h]

/-- A save after the copy, or of a `Kill` method, does not count. -/
theorem counts_append_late (h : (∀ ch, new.author ≠ .handler ch) ∨
    ∃ n, copied new.inst = some n ∧ n ≤ saves.length) :
    Counts (saves ++ [new]) copied m save ↔ Counts saves copied m save := by
  rw [counts_append, or_iff_left]
  rintro ⟨-, -, ⟨ch, hch⟩, hlt⟩
  obtain hk | ⟨n, hn, hle⟩ := h
  · exact hk ch hch
  · exact absurd (hlt n hn) (Nat.not_lt.mpr hle)

/-- A save that counts becomes the newest one. -/
theorem newest_append_now (hch : ∃ ch, new.author = .handler ch) (hnew : copied new.inst = none)
    (hk : new.inst < k) : Newest (saves ++ [new]) copied k new.content := by
  have hnow : Counts (saves ++ [new]) copied saves.length new :=
    counts_append.mpr (Or.inr ⟨rfl, rfl, hch, fun n hn => by simp [hnew] at hn⟩)
  refine Or.inl ⟨saves.length, new, hnow, hk, rfl, fun m' save' hm' _ => ?_⟩
  have := hm'.lt
  rw [List.length_append, List.length_singleton] at this
  omega

/-- For the instances up to its own it does not. -/
theorem Newest.append_later (h : Newest saves copied k c) (hk : k ≤ new.inst) :
    Newest (saves ++ [new]) copied k c := by
  obtain ⟨m, save, hm, hlt, hc, hmax⟩ | ⟨rfl, hall⟩ := h
  · refine Or.inl ⟨m, save, counts_append.mpr (Or.inl hm), hlt, hc, fun m' save' hm' hlt' => ?_⟩
    obtain hm' | ⟨-, rfl, -⟩ := counts_append.mp hm'
    · exact hmax m' save' hm' hlt'
    · omega
  · refine Or.inr ⟨rfl, fun m save hm => ?_⟩
    obtain hm | ⟨-, rfl, -⟩ := counts_append.mp hm
    · exact hall m save hm
    · exact hk

theorem Ordered.append (h : Ordered saves copied)
    (hmax : ∀ m save, Counts saves copied m save → save.inst ≤ new.inst) :
    Ordered (saves ++ [new]) copied := by
  intro m m' save save' hm hm' hle
  obtain hold | ⟨rfl, rfl, -⟩ := counts_append.mp hm <;>
    obtain hold' | ⟨rfl, rfl, -⟩ := counts_append.mp hm'
  · exact h m m' save save' hold hold' hle
  · exact hmax m save hold
  · exact absurd hold'.lt (Nat.not_lt.mpr hle)
  · exact Nat.le_refl _

/-- Copying an instance leaves all that counts. -/
theorem counts_copy (hnone : copied k = none) :
    Counts saves (Function.update copied k (some saves.length)) m save ↔
    Counts saves copied m save := by
  unfold Counts
  refine and_congr_right fun hm => and_congr_right fun _ => ?_
  rcases eq_or_ne save.inst k with rfl | hne
  · rw [Function.update_self, hnone]
    simpa using (List.getElem?_eq_some_iff.mp hm).1
  · rw [Function.update_of_ne hne]

end DistSys.Tester
