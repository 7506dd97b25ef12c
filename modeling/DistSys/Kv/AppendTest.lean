import DistSys.Kv.Appends

/-! @go kvtest1/kvtest.go | name:OneClientAppend, GetJson, PutJson | scheme:machine | invariant:run

    Clients append to one list: each reads it, adds its own entry, and puts the result for the
    version it has read. After `OK` and `ErrMaybe` it goes on to its next number, after anything
    else it reads again. The key holds the empty list at version 1 at first, as the final check
    assumes.

        idle ──▶ getting ── GetJson ──▶ putting ── OK, ErrMaybe ──▶ idle (next number)
          │         ▲                      │ apply, observe
          └▶ done   └──── ErrVersion ──────┘

    In any interleaving the list has the entries of each client in ascending order, every
    acknowledged one among them, and the final check passes. A client's index, its number and the
    length of the list are `int`s: what happens after one of them would leave that range is left
    out. -/

namespace DistSys.Kv.AppendTest
open Machine (run run_invariant)
open PutTest (PutErr ClntRes permitted)
open scoped PutTest
open Appends
open Strconv (Fits)

/-- Where a client is. Of a call of `Put` it is recorded what was put and for which version, whether
    it took effect, and whether the key had another version, or did not exist, at some moment. -/
inductive Pc where
  | idle
  | getting
  | putting (value : GoString) (ver : ℕ) (applied differed absent : Bool)
  | done
  | failed
  deriving DecidableEq

/-- A client: its `i`, and `nok` and `nmay`. -/
structure Client where
  i : ℕ
  res : ClntRes
  pc : Pc

/-- The key's value and version, and the clients. -/
structure State (n : ℕ) where
  store : Option (GoString × ℕ)
  clients : Fin n → Client

inductive Action (n : ℕ) where
  | begins (j : Fin n)
  | get (j : Fin n)
  | apply (j : Fin n)
  | observe (j : Fin n)
  | returns (j : Fin n) (err : PutErr)
  | finish (j : Fin n)
  deriving DecidableEq

/-- After `GetJson`; none if a number would leave the range of its type. -/
def Client.afterGet (c : Client) (me : ℕ) : Option (ℕ × List EntryN) → Option Client
  | none => some { c with pc := .failed }
  | some (ver, es) =>
      if me < 2 ^ 63 ∧ c.i + 1 < 2 ^ 63 ∧ ver + 1 < 2 ^ 63 then
        some { c with pc := .putting (marshal (es ++ [⟨me, c.i⟩])) ver false false false }
      else none

/-- After `PutJson`. -/
def Client.afterPut (c : Client) : PutErr → Client
  | .ok => { i := c.i + 1, res := { c.res with nok := c.res.nok + 1 }, pc := .idle }
  | .maybe => { i := c.i + 1, res := { c.res with nmaybe := c.res.nmaybe + 1 }, pc := .idle }
  | _ => { c with pc := .getting }

variable {n : ℕ}

def State.set (s : State n) (j : Fin n) (c : Client) : State n :=
  { s with clients := Function.update s.clients j c }

def step (s : State n) : Action n → Option (State n)
  | .begins j =>
      if (s.clients j).pc = .idle then some (s.set j { s.clients j with pc := .getting }) else none
  | .get j =>
      if (s.clients j).pc = .getting then
        ((s.clients j).afterGet j (getJson unmarshal s.store)).map (s.set j)
      else none
  | .apply j =>
      match (s.clients j).pc with
      | .putting value ver false differed absent => (install s.store value ver).map fun p =>
          { s.set j { s.clients j with pc := .putting value ver true differed absent } with
            store := some p }
      | _ => none
  | .observe j =>
      match (s.clients j).pc, s.store with
      | .putting value ver applied _ absent, some (_, v) =>
        if v ≠ ver then
          some (s.set j { s.clients j with pc := .putting value ver applied true absent })
        else none
      | .putting value ver applied differed _, none =>
        if ver ≠ 0 then
          some (s.set j { s.clients j with pc := .putting value ver applied differed true })
        else none
      | _, _ => none
  | .returns j err =>
      match (s.clients j).pc with
      | .putting _ _ applied differed absent =>
        if permitted applied differed absent err then some (s.set j ((s.clients j).afterPut err))
        else none
      | _ => none
  | .finish j =>
      if (s.clients j).pc = .idle then some (s.set j { s.clients j with pc := .done }) else none

/-- The list is empty, at version 1, and the clients have not begun. -/
def start (n : ℕ) : State n where
  store := some (marshal [], 1)
  clients := fun _ => ⟨0, ⟨0, 0⟩, .idle⟩

/-! ### What a step does -/

/-- The effects of the steps. -/
inductive Effect (s : State n) : Action n → State n → Prop where
  | begins {j : Fin n} (hpc : (s.clients j).pc = .idle) :
      Effect s (.begins j) (s.set j { s.clients j with pc := .getting })
  | get {j : Fin n} {c : Client} (hpc : (s.clients j).pc = .getting)
      (hafter : (s.clients j).afterGet j (getJson unmarshal s.store) = some c) :
      Effect s (.get j) (s.set j c)
  | apply {j : Fin n} {value : GoString} {ver : ℕ} {differed absent : Bool} {p : GoString × ℕ}
      (hpc : (s.clients j).pc = .putting value ver false differed absent)
      (hput : install s.store value ver = some p) : Effect s (.apply j)
        { s.set j { s.clients j with pc := .putting value ver true differed absent } with
          store := some p }
  | observe {j : Fin n} {value : GoString} {ver : ℕ}
      {applied differed absent differed' absent' : Bool}
      (hpc : (s.clients j).pc = .putting value ver applied differed absent) :
      Effect s (.observe j)
        (s.set j { s.clients j with pc := .putting value ver applied differed' absent' })
  | returns {j : Fin n} {value : GoString} {ver : ℕ} {applied differed absent : Bool} {err : PutErr}
      (hpc : (s.clients j).pc = .putting value ver applied differed absent)
      (hpermitted : permitted applied differed absent err = true) :
      Effect s (.returns j err) (s.set j ((s.clients j).afterPut err))
  | finish {j : Fin n} (hpc : (s.clients j).pc = .idle) :
      Effect s (.finish j) (s.set j { s.clients j with pc := .done })

theorem step_effect {s s' : State n} {a : Action n} (hstep : step s a = some s') :
    Effect s a s' := by
  cases a with
  | begins j =>
    simp only [step, Option.ite_none_right_eq_some, Option.some.injEq] at hstep
    obtain ⟨hpc, rfl⟩ := hstep
    exact .begins hpc
  | get j =>
    simp only [step, Option.ite_none_right_eq_some] at hstep
    obtain ⟨c, hafter, rfl⟩ := Option.map_eq_some_iff.mp hstep.2
    exact .get hstep.1 hafter
  | apply j =>
    simp only [step] at hstep
    split at hstep
    · rename_i hpc
      obtain ⟨p, hput, rfl⟩ := Option.map_eq_some_iff.mp hstep
      exact .apply hpc hput
    · cases hstep
  | observe j =>
    simp only [step] at hstep
    split at hstep
    · rename_i hpc _
      simp only [Option.ite_none_right_eq_some, Option.some.injEq] at hstep
      obtain ⟨-, rfl⟩ := hstep
      exact .observe hpc
    · rename_i hpc _
      simp only [Option.ite_none_right_eq_some, Option.some.injEq] at hstep
      obtain ⟨-, rfl⟩ := hstep
      exact .observe hpc
    · cases hstep
  | returns j err =>
    simp only [step] at hstep
    split at hstep
    · rename_i hpc
      simp only [Option.ite_none_right_eq_some, Option.some.injEq] at hstep
      obtain ⟨hpermitted, rfl⟩ := hstep
      exact .returns hpc hpermitted
    · cases hstep
  | finish j =>
    simp only [step, Option.ite_none_right_eq_some, Option.some.injEq] at hstep
    obtain ⟨hpc, rfl⟩ := hstep
    exact .finish hpc

/-! ### The invariant -/

/-- The put of the current number has taken effect. -/
def Pc.applied : Pc → Bool
  | .putting _ _ applied _ _ => applied
  | _ => false

/-- A client, with the list as it is: its numbers ascend and stay below the next one, all the
    acknowledged ones are there, and a put that can still take effect adds its number to the list.
    What is put, and what comes after it, is in range. -/
structure ClientOk (es : List EntryN) (me : ℕ) (c : Client) : Prop where
  iteration : c.i = c.res.nok + c.res.nmaybe
  number : c.i < 2 ^ 63
  fits : ∀ value ver applied differed absent, c.pc = .putting value ver applied differed absent →
    me < 2 ^ 63 ∧ c.i + 1 < 2 ^ 63 ∧ ver + 1 < 2 ^ 63
  ascends : Ascends 0 (numbers me es)
  below : ∀ k ∈ numbers me es, k < c.i + c.pc.applied.toNat
  counted : c.res.nok + c.pc.applied.toNat ≤ (numbers me es).length
  fresh : ∀ value ver differed absent, c.pc = .putting value ver false differed absent →
    ver ≤ es.length + 1 ∧ (ver = es.length + 1 → value = marshal (es ++ [⟨me, c.i⟩]))
  running : c.pc ≠ .failed

/-- The list, and what the clients know of it. -/
structure Inv (s : State n) (es : List EntryN) : Prop where
  store : s.store = some (marshal es, es.length + 1)
  known : ∀ e ∈ es, 0 ≤ e.id ∧ e.id < n
  entries : ∀ e ∈ es, Fits e.id ∧ Fits e.n ∧ e.n < 2 ^ 63 - 1
  length : es.length + 1 < 2 ^ 63
  client : ∀ j : Fin n, ClientOk es j (s.clients j)

theorem inv_start (n : ℕ) : Inv (start n) [] where
  store := rfl
  known := by simp
  entries := by simp
  length := by simp
  client := fun _ => ⟨rfl, by simp [start], by simp [start], ⟨List.Pairwise.nil, by simp [numbers]⟩,
    by simp [numbers], Nat.le_refl _, by simp [start], by simp [start]⟩

/-- The list is read. -/
theorem Inv.getJson {s : State n} {es : List EntryN} (h : Inv s es) :
    Kv.getJson unmarshal s.store = some (es.length + 1, es) := by
  have hread := unmarshal_entries fun e he => ⟨(h.entries e he).1, (h.entries e he).2.1⟩
  simp [Kv.getJson, h.store, hread]

/-- One client moves, and the list does not change. -/
theorem Inv.set {s : State n} {es : List EntryN} (h : Inv s es) {j : Fin n} {c : Client}
    (hc : ClientOk es j c) : Inv (s.set j c) es := by
  refine ⟨h.store, h.known, h.entries, h.length, ?_⟩
  intro k
  rcases eq_or_ne k j with rfl | hne
  · simpa [State.set] using hc
  · simpa [State.set, Function.update_of_ne hne] using h.client k

/-- A client that goes on without a put. -/
theorem ClientOk.moves {es : List EntryN} {me : ℕ} {c : Client} (h : ClientOk es me c) {pc : Pc}
    (happlied : c.pc.applied = false) (hpc : pc = .getting ∨ pc = .done) :
    ClientOk es me { c with pc := pc } := by
  have hbelow := h.below
  have hcounted := h.counted
  rw [happlied] at hbelow hcounted
  rcases hpc with rfl | rfl
  all_goals exact ⟨h.iteration, h.number, by simp, h.ascends, hbelow, hcounted, by simp, by simp⟩

/-- The numbers of a client after an append of its own, and of the others. -/
theorem numbers_append_self (es : List EntryN) (me i : ℕ) :
    numbers me (es ++ [⟨me, i⟩]) = numbers me es ++ [(i : ℤ)] := by
  simp [numbers]

theorem numbers_append_of_ne (es : List EntryN) {me k : ℕ} (hne : k ≠ me) (i : ℕ) :
    numbers k (es ++ [⟨me, i⟩]) = numbers k es := by
  have : ¬ (me : ℤ) = k := fun heq => hne (Int.ofNat.inj heq).symm
  simp [numbers, this]

/-- A put takes effect, and appends. -/
theorem ClientOk.appended {es : List EntryN} {me : ℕ} {c : Client} (h : ClientOk es me c)
    {value : GoString} {ver : ℕ}
    {differed absent : Bool} (hpc : c.pc = .putting value ver false differed absent) :
    ClientOk (es ++ [⟨me, c.i⟩]) me { c with pc := .putting value ver true differed absent } := by
  have hbelow := h.below
  have hcounted := h.counted
  rw [hpc] at hbelow hcounted
  simp only [Pc.applied, Bool.toNat_false, Nat.cast_zero, Int.add_zero] at hbelow hcounted
  have hreach : reach 0 (numbers me es) ≤ c.i := reach_le (Int.natCast_nonneg _) hbelow
  constructor
  case iteration => exact h.iteration
  case number => exact h.number
  case fits =>
    intro value' ver' applied differed' absent' heq
    cases heq
    exact h.fits value ver false differed absent hpc
  case ascends =>
    rw [numbers_append_self, ascends_append]
    exact ⟨h.ascends, List.pairwise_singleton _ _, by simpa using hreach⟩
  case below =>
    rw [numbers_append_self]
    intro k hk
    simp only [Pc.applied, Bool.toNat_true, Nat.cast_one]
    rcases List.mem_append.mp hk with hk | hk
    · have := hbelow k hk
      omega
    · rw [List.mem_singleton.mp hk]
      omega
  case counted =>
    rw [numbers_append_self, List.length_append]
    simpa [Pc.applied] using hcounted
  case fresh =>
    intro value' ver' differed' absent' heq
    cases heq
  case running => simp

/-- A put of another client takes effect. -/
theorem ClientOk.other {es : List EntryN} {me k i : ℕ} {c : Client}
    (h : ClientOk es k c) (hne : k ≠ me) : ClientOk (es ++ [⟨me, i⟩]) k c := by
  refine ⟨h.iteration, h.number, h.fits, ?_, ?_, ?_, ?_, h.running⟩
  · rw [numbers_append_of_ne es hne]
    exact h.ascends
  · rw [numbers_append_of_ne es hne]
    exact h.below
  · rw [numbers_append_of_ne es hne]
    exact h.counted
  · intro value ver differed absent heq
    have hle := (h.fresh value ver differed absent heq).1
    rw [List.length_append, List.length_singleton]
    exact ⟨by omega, by omega⟩

/-- The call of `Put` returns, as permitted. -/
theorem ClientOk.afterPut {es : List EntryN} {me : ℕ} {c : Client} (h : ClientOk es me c)
    {value : GoString} {ver : ℕ}
    {applied differed absent : Bool} (hpc : c.pc = .putting value ver applied differed absent)
    {err : PutErr}
    (hpermitted : permitted applied differed absent err = true) :
    ClientOk es me (c.afterPut err) := by
  have hbelow := h.below
  have hcounted := h.counted
  have hiteration := h.iteration
  obtain ⟨-, hnumber, -⟩ := h.fits value ver applied differed absent hpc
  rw [hpc] at hbelow hcounted
  simp only [Pc.applied] at hbelow hcounted
  have htoNat := Bool.toNat_le applied
  have hnext : ∀ k ∈ numbers me es, k < ((c.i + 1 : ℕ) : ℤ) := by
    intro k hk
    have := hbelow k hk
    push_cast
    omega
  cases err with
  | ok =>
    obtain rfl : applied = true := hpermitted
    simp only [Client.afterPut]
    refine ⟨by dsimp only; omega, hnumber, by simp, h.ascends, by simpa [Pc.applied] using hnext,
      by simpa [Pc.applied] using hcounted, by simp, by simp⟩
  | maybe =>
    simp only [Client.afterPut]
    refine ⟨by dsimp only; omega, hnumber, by simp, h.ascends,
      by simpa [Pc.applied] using hnext, ?_, by simp, by simp⟩
    simp only [Pc.applied, Bool.toNat_false]
    omega
  | version | noKey =>
    obtain rfl : applied = false := by
      cases applied with
      | false => rfl
      | true => simp [permitted] at hpermitted
    exact h.moves (by rw [hpc]; rfl) (Or.inl rfl)

/-- A client that has read the list puts the list with its entry. -/
theorem ClientOk.afterGet {es : List EntryN} {me : ℕ} {c c' : Client} (h : ClientOk es me c)
    (hpc : c.pc = .getting) (hafter : c.afterGet me (some (es.length + 1, es)) = some c') :
    ClientOk es me c' := by
  simp only [Client.afterGet, Option.ite_none_right_eq_some, Option.some.injEq] at hafter
  obtain ⟨hfits, rfl⟩ := hafter
  have hbelow := h.below
  have hcounted := h.counted
  rw [hpc] at hbelow hcounted
  refine ⟨h.iteration, h.number, ?_, h.ascends, hbelow, hcounted, ?_, by simp⟩
  · intro value ver applied differed absent heq
    cases heq
    exact hfits
  · intro value ver differed absent heq
    cases heq
    exact ⟨Nat.le_refl _, fun _ => rfl⟩

/-- A put takes effect at the version it was made for: the list grows by its entry. -/
theorem Inv.install {s : State n} {es : List EntryN} (h : Inv s es) {j : Fin n} {value : GoString}
    {ver : ℕ} {differed absent : Bool} {p : GoString × ℕ}
    (hpc : (s.clients j).pc = .putting value ver false differed absent)
    (hput : Kv.install s.store value ver = some p) :
    Inv { s.set j { s.clients j with pc := .putting value ver true differed absent } with
      store := some p } (es ++ [⟨j, (s.clients j).i⟩]) := by
  obtain ⟨hver, rfl, -⟩ := install_eq hput
  obtain ⟨-, hvalue⟩ := (h.client j).fresh value ver differed absent hpc
  obtain ⟨hme, hnumber, hfits⟩ := (h.client j).fits value ver false differed absent hpc
  rw [h.store] at hver
  replace hver : ver = es.length + 1 := hver
  constructor
  case store => simp [hvalue hver, hver]
  case known =>
    intro e he
    rcases List.mem_append.mp he with he | he
    · exact h.known e he
    · rw [List.mem_singleton.mp he]
      have := j.isLt
      dsimp only
      omega
  case entries =>
    intro e he
    rcases List.mem_append.mp he with he | he
    · exact h.entries e he
    · rw [List.mem_singleton.mp he]
      exact ⟨Strconv.fits_natCast hme, Strconv.fits_natCast (by omega), by dsimp only; omega⟩
  case length =>
    rw [List.length_append, List.length_singleton]
    omega
  case client =>
    intro k
    rcases eq_or_ne k j with rfl | hne
    · simpa [State.set] using (h.client k).appended hpc
    · simpa [State.set, Function.update_of_ne hne] using (h.client k).other (Fin.val_ne_of_ne hne)

/-- Whoever moves. -/
theorem inv_step (s : State n) (a : Action n) (s' : State n) (h : ∃ es, Inv s es)
    (hstep : step s a = some s') : ∃ es, Inv s' es := by
  obtain ⟨es, h⟩ := h
  cases step_effect hstep with
  | @begins j hpc => exact ⟨es, h.set ((h.client j).moves (by rw [hpc]; rfl) (Or.inl rfl))⟩
  | @get j c hpc hafter =>
    rw [h.getJson] at hafter
    exact ⟨es, h.set ((h.client j).afterGet hpc hafter)⟩
  | apply hpc hput => exact ⟨_, h.install hpc hput⟩
  | @observe j value ver applied differed absent differed' absent' hpc =>
    have hj := h.client j
    refine ⟨es, h.set ⟨hj.iteration, hj.number, ?_, hj.ascends, ?_, ?_, ?_, by simp⟩⟩
    · intro value' ver' applied' differed'' absent'' heq
      cases heq
      exact hj.fits value ver applied differed absent hpc
    · simpa [hpc, Pc.applied] using hj.below
    · simpa [hpc, Pc.applied] using hj.counted
    · intro value' ver' differed'' absent'' heq
      cases heq
      exact hj.fresh value ver differed absent hpc
  | @returns j value ver applied differed absent err hpc hpermitted =>
    exact ⟨es, h.set ((h.client j).afterPut hpc hpermitted)⟩
  | @finish j hpc => exact ⟨es, h.set ((h.client j).moves (by rw [hpc]; rfl) (Or.inr rfl))⟩

/-- In any interleaving. -/
theorem inv_run {acts : List (Action n)} {s : State n} (hrun : run step (start n) acts = some s) :
    ∃ es, Inv s es :=
  run_invariant inv_step ⟨[], inv_start n⟩ hrun

/-- What a client that has finished counted agrees with its numbers. -/
theorem ClientOk.agrees {es : List EntryN} {me : ℕ} {c : Client} (h : ClientOk es me c)
    (hdone : c.pc = .done) : Agrees c.res (numbers me es) := by
  have hbelow := h.below
  have hcounted := h.counted
  have hiteration := h.iteration
  rw [hdone] at hbelow hcounted
  simp only [Pc.applied, Bool.toNat_false, Nat.cast_zero, Int.add_zero,
    Nat.add_zero] at hbelow hcounted
  have hreach : reach 0 (numbers me es) ≤ c.i := reach_le (Int.natCast_nonneg _) hbelow
  exact ⟨h.ascends, by rw [gaps]; omega, by omega⟩

/-- CORRECT: in any interleaving of any number of clients no client fails. When all have finished,
    the list is read back, every client finds as many of its appends as were acknowledged, at least,
    and the final check passes. -/
theorem append_test_sound {acts : List (Action n)} {s : State n}
    (hrun : run step (start n) acts = some s) : (∀ j, (s.clients j).pc ≠ .failed) ∧
    ((∀ j, (s.clients j).pc = .done) → ∃ ver es, getJson unmarshal s.store = some (ver, es) ∧
      (∀ j : Fin n, (s.clients j).res.nok ≤ (numbers j es).length) ∧
      ∀ o, checkAppends o es n (List.ofFn fun j => (s.clients j).res) ver = .passed) := by
  obtain ⟨es, h⟩ := inv_run hrun
  refine ⟨fun j => (h.client j).running, fun hdone => ⟨es.length + 1, es, h.getJson, ?_, ?_⟩⟩
  · intro j
    have := (h.client j).counted
    rw [hdone j] at this
    simpa [Pc.applied] using this
  · intro o
    have hsized : Sized es (List.ofFn fun j => (s.clients j).res) (es.length + 1) := by
      refine ⟨fun e he => (h.entries e he).2.2, ?_, h.length, h.length.trans (by decide)⟩
      intro r hr
      obtain ⟨j, rfl⟩ := List.mem_ofFn.mp hr
      exact (h.client j).iteration ▸ (h.client j).number
    refine Accepted.passed hsized ⟨rfl, by simp, by simpa using h.known, ?_⟩
    intro c r hr
    obtain ⟨hc, rfl⟩ := List.getElem?_eq_some_iff.mp hr
    rw [List.length_ofFn] at hc
    rw [List.getElem_ofFn]
    exact (h.client ⟨c, hc⟩).agrees (hdone ⟨c, hc⟩)

/-- Both clients read the empty list. The first append takes effect; the second one does not, and
    its client is left in doubt, so it goes on to its next number. -/
def raceRun : List (Action 2) :=
  [.begins 0, .begins 1, .get 0, .get 1, .apply 0, .observe 1, .returns 1 .maybe,
    .returns 0 .ok, .begins 1, .get 1,
   .apply 1, .returns 1 .ok, .finish 0, .finish 1]

theorem raceRun_run : (run step (start 2) raceRun).map
    (fun s => (s.store, List.ofFn fun j => ((s.clients j).pc, (s.clients j).res))) =
    some (some (marshal [⟨0, 0⟩, ⟨1, 1⟩], 3), [(.done, ⟨1, 0⟩), (.done, ⟨1, 1⟩)]) := by
  decide +kernel

theorem append_test_sound_race : ∃ s : State 2, run step (start 2) raceRun = some s ∧
    (∀ j, (s.clients j).pc = .done) ∧ s.store = some (marshal [⟨0, 0⟩, ⟨1, 1⟩], 3) ∧
    ∃ ver es, getJson unmarshal s.store = some (ver, es) ∧
      checkAppends (RangeOrder.ascending ℤ) es 2 (List.ofFn fun j => (s.clients j).res) ver =
        .passed := by
  obtain ⟨s, hrun, hs⟩ := Option.map_eq_some_iff.mp raceRun_run
  simp only [List.ofFn_succ, List.ofFn_zero, Prod.mk.injEq, List.cons.injEq, and_true] at hs
  obtain ⟨hstore, ⟨hpc0, -⟩, hpc1, -⟩ := hs
  have hdone : ∀ j, (s.clients j).pc = .done := Fin.forall_fin_two.mpr ⟨hpc0, hpc1⟩
  obtain ⟨ver, es, hget, -, hcheck⟩ := (append_test_sound hrun).2 hdone
  exact ⟨s, hrun, hdone, hstore, ver, es, hget, hcheck _⟩

end DistSys.Kv.AppendTest
