import DistSys.Kv.Entry
import DistSys.Schemes.Machine
import Mathlib.Algebra.BigOperators.Fin
import Mathlib.Algebra.Order.BigOperators.Group.Finset

/-! @go kvtest1/kvtest.go | name:OnePut, OneClientPut, GetJson, CheckPutConcurrent | scheme:machine
    | invariant:run

    Clients race to put to one key, and the test compares the final version with what they counted.
    The store is atomic; a put may take effect at any moment of its call, or not at all, and the
    clerk says which as far as it knows.

        idle ── OnePut ──▶ putting ── returns ──▶ got err ── GetJson ──▶ idle      OK, ErrMaybe
          │                   ▲                                 └──────▶ putting   ErrVersion
          └──▶ done           └───── apply, observe ─────           Fatalf ──▶ failed

    Each put that takes effect raises the version by one, up to the last version there is. A client
    knows of all its puts but those behind an `ErrMaybe`, so the version lies between the sums of
    `Nok` and of `Nok + Nmaybe`. -/

namespace DistSys.Kv.PutTest
open Machine (run run_history run_invariant)
open Strconv (wrap fits_wrap)

/-- What a clerk's `Put` returns. -/
inductive PutErr where
  | ok
  | version
  | maybe
  | noKey
  deriving DecidableEq

/-- Where a client is. Of a call of `Put` it is recorded whether it took effect, and whether at some
    moment the key existed with another version, or did not exist although one was asked for. -/
inductive Pc where
  | idle
  | putting (applied differed absent : Bool)
  | got (err : PutErr)
  | done
  | failed
  deriving DecidableEq

structure ClntRes where
  nok : ℕ
  nmaybe : ℕ
  deriving DecidableEq

/-- A client: `verm[k]`, `res`, and the number of its puts that took effect. -/
structure Client where
  ver : ℕ
  res : ClntRes
  pc : Pc
  puts : ℕ

/-- The key's value and version, and the clients. -/
structure State (n : ℕ) where
  store : Option (GoString × ℕ)
  clients : Fin n → Client

inductive Action (n : ℕ) where
  | onePut (i : Fin n)
  | apply (i : Fin n)
  | observe (i : Fin n)
  | returns (i : Fin n) (err : PutErr)
  | get (i : Fin n)
  | finish (i : Fin n)
  deriving DecidableEq

/-- What a clerk may return for a call. -/
def permitted (applied differed absent : Bool) : PutErr → Bool
  | .ok => applied
  | .version => !applied && differed
  | .maybe => differed
  | .noKey => !applied && absent

/-- After the call of `Put` in `OnePut`, and after `OnePut` in `OneClientPut`. -/
def Client.afterGet (c : Client) (me : ℤ) (err : PutErr) : Option (ℕ × EntryV) → Client
  | none => { c with pc := .failed }
  | some (ver0, e) =>
      if err = .ok ∧ ver0 = c.ver + 1 ∧ e.id ≠ me ∧ e.v ≠ c.ver then { c with pc := .failed }
      else match err with
        | .ok => { c with ver := ver0, pc := .idle, res := { c.res with nok := c.res.nok + 1 } }
        | .maybe =>
            { c with ver := ver0, pc := .idle, res := { c.res with nmaybe := c.res.nmaybe + 1 } }
        | _ => { c with ver := ver0, pc := .putting false false false }

variable {n : ℕ}

/-- `EntryV{me, ver}`, as it is put; `me` is an `int`. -/
def entry (i : Fin n) (ver : ℕ) : GoString := EntryV.marshal ⟨wrap i, ver⟩

def State.set (s : State n) (i : Fin n) (c : Client) : State n :=
  { s with clients := Function.update s.clients i c }

def step (s : State n) : Action n → Option (State n)
  | .onePut i =>
      if (s.clients i).pc = .idle then
        some (s.set i { s.clients i with pc := .putting false false false })
      else none
  | .apply i =>
      match (s.clients i).pc with
      | .putting false differed absent =>
        (install s.store (entry i (s.clients i).ver) (s.clients i).ver).map fun p =>
          { s.set i { s.clients i with
              pc := .putting true differed absent, puts := (s.clients i).puts + 1 } with
            store := some p }
      | _ => none
  | .observe i =>
      match (s.clients i).pc, s.store with
      | .putting applied _ absent, some (_, v) =>
        if v ≠ (s.clients i).ver then
          some (s.set i { s.clients i with pc := .putting applied true absent })
        else none
      | .putting applied differed _, none =>
        if (s.clients i).ver ≠ 0 then
          some (s.set i { s.clients i with pc := .putting applied differed true })
        else none
      | _, _ => none
  | .returns i err =>
      match (s.clients i).pc with
      | .putting applied differed absent =>
        if permitted applied differed absent err then
          some (s.set i { s.clients i with pc := if err = .noKey then .failed else .got err })
        else none
      | _ => none
  | .get i =>
      match (s.clients i).pc with
      | .got err =>
        some (s.set i
          ((s.clients i).afterGet (wrap i) err (getJson (EntryV.unmarshal ⟨0, 0⟩) s.store)))
      | _ => none
  | .finish i =>
      if (s.clients i).pc = .idle then some (s.set i { s.clients i with pc := .done }) else none

/-- The key is absent, and the clients have not begun. -/
def start (n : ℕ) : State n where
  store := none
  clients := fun _ => ⟨0, ⟨0, 0⟩, .idle, 0⟩

/-- `CheckPutConcurrent`; false if it ends in `Fatalf`. -/
def checkPutConcurrent (store : Option (GoString × ℕ)) (rs : List ClntRes) (res : ClntRes)
    (reliable : Bool) : Bool :=
  match getJson (EntryV.unmarshal ⟨0, 0⟩) store with
  | none => false
  | some (ver0, _) =>
    let res := rs.foldl (fun res r => ⟨res.nok + r.nok, res.nmaybe + r.nmaybe⟩) res
    if reliable then ver0 = res.nok else ver0 ≤ res.nok + res.nmaybe

/-! ### What a step does -/

/-- The effects of the steps. -/
inductive Effect (s : State n) : Action n → State n → Prop where
  | onePut {i : Fin n} (hpc : (s.clients i).pc = .idle) :
      Effect s (.onePut i) (s.set i { s.clients i with pc := .putting false false false })
  | apply {i : Fin n} {differed absent : Bool} {p : GoString × ℕ}
      (hpc : (s.clients i).pc = .putting false differed absent)
      (hput : install s.store (entry i (s.clients i).ver) (s.clients i).ver = some p) :
      Effect s (.apply i)
        { s.set i { s.clients i with
            pc := .putting true differed absent, puts := (s.clients i).puts + 1 } with
          store := some p }
  | observeOther {i : Fin n} {applied differed absent : Bool}
      (hpc : (s.clients i).pc = .putting applied differed absent) (hstore : s.store.isSome = true) :
      Effect s (.observe i) (s.set i { s.clients i with pc := .putting applied true absent })
  | observeAbsent {i : Fin n} {applied differed absent : Bool}
      (hpc : (s.clients i).pc = .putting applied differed absent) (hstore : s.store = none)
      (hver : (s.clients i).ver ≠ 0) :
      Effect s (.observe i) (s.set i { s.clients i with pc := .putting applied differed true })
  | returns {i : Fin n} {applied differed absent : Bool} {err : PutErr}
      (hpc : (s.clients i).pc = .putting applied differed absent)
      (hpermitted : permitted applied differed absent err = true) : Effect s (.returns i err)
        (s.set i { s.clients i with pc := if err = .noKey then .failed else .got err })
  | get {i : Fin n} {err : PutErr} (hpc : (s.clients i).pc = .got err) :
      Effect s (.get i) (s.set i
        ((s.clients i).afterGet (wrap i) err (getJson (EntryV.unmarshal ⟨0, 0⟩) s.store)))
  | finish {i : Fin n} (hpc : (s.clients i).pc = .idle) :
      Effect s (.finish i) (s.set i { s.clients i with pc := .done })

theorem step_effect {s s' : State n} {a : Action n} (hstep : step s a = some s') :
    Effect s a s' := by
  cases a with
  | onePut i =>
    simp only [step, Option.ite_none_right_eq_some, Option.some.injEq] at hstep
    obtain ⟨hpc, rfl⟩ := hstep
    exact .onePut hpc
  | apply i =>
    simp only [step] at hstep
    split at hstep
    · rename_i hpc
      obtain ⟨p, hput, rfl⟩ := Option.map_eq_some_iff.mp hstep
      exact .apply hpc hput
    · cases hstep
  | observe i =>
    simp only [step] at hstep
    split at hstep
    · rename_i hpc hstore
      simp only [Option.ite_none_right_eq_some, Option.some.injEq] at hstep
      obtain ⟨-, rfl⟩ := hstep
      exact .observeOther hpc (by rw [hstore]; rfl)
    · rename_i hpc hstore
      simp only [Option.ite_none_right_eq_some, Option.some.injEq] at hstep
      obtain ⟨hver, rfl⟩ := hstep
      exact .observeAbsent hpc hstore hver
    · cases hstep
  | returns i err =>
    simp only [step] at hstep
    split at hstep
    · rename_i hpc
      simp only [Option.ite_none_right_eq_some, Option.some.injEq] at hstep
      obtain ⟨hpermitted, rfl⟩ := hstep
      exact .returns hpc hpermitted
    · cases hstep
  | get i =>
    simp only [step] at hstep
    split at hstep
    · rename_i hpc
      cases hstep
      exact .get hpc
    · cases hstep
  | finish i =>
    simp only [step, Option.ite_none_right_eq_some, Option.some.injEq] at hstep
    obtain ⟨hpc, rfl⟩ := hstep
    exact .finish hpc

/-! ### The invariant -/

/-- What is stored is the entry of some client, made for the version before. -/
def StoreOk (store : Option (GoString × ℕ)) : Prop :=
  ∀ value v, store = some (value, v) →
    ∃ (id : ℤ) (w : ℕ), v = w + 1 ∧ v < 2 ^ 64 ∧ value = EntryV.marshal ⟨wrap id, w⟩

/-- How many puts of a client can have taken effect, where it is. -/
def Counted (res : ClntRes) (puts : ℕ) : Pc → Prop
  | .idle | .done | .got .version => res.nok ≤ puts ∧ puts ≤ res.nok + res.nmaybe
  | .putting applied _ _ => res.nok + applied.toNat ≤ puts ∧
      puts ≤ res.nok + res.nmaybe + applied.toNat
  | .got .ok => res.nok + 1 ≤ puts ∧ puts ≤ res.nok + res.nmaybe + 1
  | .got .maybe => res.nok ≤ puts ∧ puts ≤ res.nok + res.nmaybe + 1
  | .got .noKey | .failed => False

/-- The client has seen that the key exists. -/
def Seen (c : Client) : Prop :=
  c.ver ≠ 0 ∨ 0 < c.res.nok + c.res.nmaybe ∨
  match c.pc with
  | .putting applied differed _ => applied = true ∨ differed = true
  | .got _ => True
  | _ => False

structure ClientOk (store : Option (GoString × ℕ)) (c : Client) : Prop where
  counted : Counted c.res c.puts c.pc
  seen : Seen c → store.isSome = true
  present : ∀ applied differed absent, c.pc = .putting applied differed absent → absent = false

structure Inv (s : State n) : Prop where
  store : StoreOk s.store
  client : ∀ i, ClientOk s.store (s.clients i)
  total : versionOf s.store = ∑ i, (s.clients i).puts

theorem inv_start (n : ℕ) : Inv (start n) where
  store := fun _ _ h => by cases h
  client := fun _ =>
    ⟨⟨Nat.le_refl _, Nat.le_refl _⟩, fun h => by simp [Seen, start] at h, fun _ _ _ h => by cases h⟩
  total := by simp [versionOf, start]

/-- One client moves, and the store does not change. -/
theorem Inv.set {s : State n} (h : Inv s) {i : Fin n} {c : Client} (hc : ClientOk s.store c)
    (hputs : c.puts = (s.clients i).puts) : Inv (s.set i c) := by
  refine ⟨h.store, fun j => ?_, h.total.trans ?_⟩
  · rcases eq_or_ne j i with rfl | hne
    · simpa [State.set] using hc
    · simpa [State.set, Function.update_of_ne hne] using h.client j
  · refine Finset.sum_congr rfl fun j _ => ?_
    rcases eq_or_ne j i with rfl | hne
    · simp [State.set, hputs]
    · simp [State.set, Function.update_of_ne hne]

/-- A put takes effect. -/
theorem Inv.install {s : State n} (h : Inv s) {i : Fin n}
    {differed absent : Bool} {p : GoString × ℕ}
    (hpc : (s.clients i).pc = .putting false differed absent)
    (hput : Kv.install s.store (entry i (s.clients i).ver) (s.clients i).ver = some p) :
    Inv { s.set i { s.clients i with
        pc := .putting true differed absent, puts := (s.clients i).puts + 1 } with
      store := some p } := by
  obtain ⟨hver, rfl, hfits⟩ := install_eq hput
  refine ⟨fun value v hv => ?_, fun j => ?_, ?_⟩
  · cases hv
    exact ⟨i, _, rfl, hfits, rfl⟩
  · rcases eq_or_ne j i with rfl | hne
    · have hj := h.client j
      have hcounted := hj.counted
      rw [hpc] at hcounted
      simp only [Counted, Bool.toNat_false, Nat.add_zero] at hcounted
      simp only [State.set, Function.update_self]
      refine ⟨?_, fun _ => rfl, fun applied differed' absent' heq => ?_⟩
      · simp only [Counted, Bool.toNat_true]
        omega
      · cases heq
        exact hj.present false differed absent hpc
    · have hj := h.client j
      simp only [State.set, Function.update_of_ne hne]
      exact ⟨hj.counted, fun _ => rfl, hj.present⟩
  · have hsum : ∀ j, ((s.set i { s.clients i with
        pc := .putting true differed absent, puts := (s.clients i).puts + 1 }).clients j).puts =
        (s.clients j).puts + if j = i then 1 else 0 := fun j => by
      rcases eq_or_ne j i with rfl | hne
      · simp [State.set]
      · simp [State.set, hne]
    simp only [hsum, Finset.sum_add_distrib, ← h.total]
    simp [versionOf, hver]

/-- What is read is the entry for the version before. -/
theorem getJson_eq {store : Option (GoString × ℕ)} (h : StoreOk store) (hsome : store.isSome = true)
    (e : EntryV) : ∃ (id : ℤ) (w : ℕ), getJson (EntryV.unmarshal e) store = some (w + 1, ⟨id, w⟩) ∧
      store.map Prod.snd = some (w + 1) := by
  obtain ⟨⟨value, v⟩, rfl⟩ := Option.isSome_iff_exists.mp hsome
  obtain ⟨id, w, rfl, hfits, rfl⟩ := h value v rfl
  refine ⟨wrap id, w, ?_, rfl⟩
  simp [getJson, unmarshal_marshal e (fits_wrap id) (Nat.lt_of_succ_lt hfits)]

/-- A client reads the key after its put, and counts. -/
theorem ClientOk.afterGet {store : Option (GoString × ℕ)} {c : Client} (h : ClientOk store c)
    (hstore : StoreOk store) {err : PutErr} (hpc : c.pc = .got err) (me : ℤ) :
    ClientOk store (c.afterGet me err (getJson (EntryV.unmarshal ⟨0, 0⟩) store)) ∧
      (c.afterGet me err (getJson (EntryV.unmarshal ⟨0, 0⟩) store)).puts = c.puts := by
  have hsome : store.isSome = true := h.seen (Or.inr (Or.inr (by rw [hpc]; trivial)))
  have hcounted := h.counted
  rw [hpc] at hcounted
  obtain ⟨id, w, hget, -⟩ := getJson_eq hstore hsome ⟨0, 0⟩
  -- the entry at the version after mine was made for mine
  have hvalue : ¬ (err = .ok ∧ w + 1 = c.ver + 1 ∧ id ≠ me ∧ w ≠ c.ver) :=
    fun ⟨_, hver, _, hne⟩ => hne (Nat.succ.inj hver)
  rw [hget]
  cases err with
  | noKey => exact hcounted.elim
  | ok =>
    have hafter : c.afterGet me .ok (some (w + 1, ⟨id, w⟩)) =
      { c with ver := w + 1, pc := .idle, res := { c.res with nok := c.res.nok + 1 } } :=
        if_neg hvalue
    rw [hafter]
    refine ⟨⟨?_, fun _ => hsome, fun _ _ _ heq => by cases heq⟩, rfl⟩
    simp only [Counted] at hcounted ⊢
    omega
  | maybe =>
    have hafter : c.afterGet me .maybe (some (w + 1, ⟨id, w⟩)) =
      { c with ver := w + 1, pc := .idle, res := { c.res with nmaybe := c.res.nmaybe + 1 } } := by
        simp [Client.afterGet]
    rw [hafter]
    refine ⟨⟨?_, fun _ => hsome, fun _ _ _ heq => by cases heq⟩, rfl⟩
    simp only [Counted] at hcounted ⊢
    omega
  | version =>
    have hafter : c.afterGet me .version (some (w + 1, ⟨id, w⟩)) =
      { c with ver := w + 1, pc := .putting false false false } := by simp [Client.afterGet]
    rw [hafter]
    exact ⟨⟨hcounted, fun _ => hsome, fun _ _ _ heq => by cases heq; rfl⟩, rfl⟩

/-- A call of `Put` returns, as permitted. -/
theorem ClientOk.returns {store : Option (GoString × ℕ)} {c : Client} (h : ClientOk store c)
    {applied differed absent : Bool} (hpc : c.pc = .putting applied differed absent) {err : PutErr}
    (hpermitted : permitted applied differed absent err = true) :
    ClientOk store { c with pc := if err = .noKey then .failed else .got err } := by
  have hcounted := h.counted
  rw [hpc] at hcounted
  simp only [Counted] at hcounted
  have hsome : applied = true ∨ differed = true → store.isSome = true := fun hor =>
    h.seen (Or.inr (Or.inr (by rw [hpc]; exact hor)))
  cases err with
  | noKey => simp [permitted, h.present _ _ _ hpc] at hpermitted
  | ok =>
    obtain rfl : applied = true := hpermitted
    exact ⟨hcounted, fun _ => hsome (Or.inl rfl), fun _ _ _ heq => by cases heq⟩
  | maybe =>
    obtain rfl : differed = true := hpermitted
    refine ⟨?_, fun _ => hsome (Or.inr rfl), fun _ _ _ heq => by cases heq⟩
    have := Bool.toNat_le applied
    simp only [Counted, reduceCtorEq, if_false]
    omega
  | version =>
    obtain ⟨rfl, rfl⟩ : applied = false ∧ differed = true := by simpa [permitted] using hpermitted
    exact ⟨hcounted, fun _ => hsome (Or.inr rfl), fun _ _ _ heq => by cases heq⟩

/-- A client with no call of `Put` goes on, and has seen what it had seen. -/
theorem ClientOk.moves {store : Option (GoString × ℕ)} {c : Client} (h : ClientOk store c) {pc : Pc}
    (hcounted : Counted c.res c.puts pc) (hpc : pc = .putting false false false ∨ pc = .done) :
    ClientOk store { c with pc := pc } := by
  refine ⟨hcounted, fun hseen => h.seen ?_, fun applied differed absent heq => ?_⟩
  · obtain hver | hres | hnone := hseen
    · exact Or.inl hver
    · exact Or.inr (Or.inl hres)
    · obtain rfl | rfl := hpc <;> simp at hnone
  · obtain rfl | rfl := hpc <;> cases heq
    rfl

/-- Whoever moves. -/
theorem inv_step {s s' : State n} {a : Action n} (h : Inv s)
    (hstep : step s a = some s') : Inv s' := by
  cases step_effect hstep with
  | @onePut i hpc =>
    have hcounted := (h.client i).counted
    rw [hpc] at hcounted
    exact h.set ((h.client i).moves hcounted (Or.inl rfl)) rfl
  | apply hpc hput => exact h.install hpc hput
  | @observeOther i applied differed absent hpc hstore =>
    have hcounted := (h.client i).counted
    rw [hpc] at hcounted
    refine h.set ⟨hcounted, fun _ => hstore, fun _ _ _ heq => ?_⟩ rfl
    cases heq
    exact (h.client i).present _ _ _ hpc
  | @observeAbsent i applied differed absent hpc hstore hver =>
    have hsome := (h.client i).seen (Or.inl hver)
    simp [hstore] at hsome
  | @returns i applied differed absent err hpc hpermitted =>
    exact h.set ((h.client i).returns hpc hpermitted) rfl
  | @get i err hpc =>
    obtain ⟨hok, hputs⟩ := (h.client i).afterGet h.store hpc (wrap i)
    exact h.set hok hputs
  | @finish i hpc =>
    have hcounted := (h.client i).counted
    rw [hpc] at hcounted
    exact h.set ((h.client i).moves hcounted (Or.inr rfl)) rfl

/-- In any interleaving. -/
theorem inv_run {acts : List (Action n)} {s : State n}
    (hrun : run step (start n) acts = some s) : Inv s :=
  run_invariant (fun _ _ _ => inv_step) (inv_start n) hrun

/-! ### Clients that are never in doubt -/

/-- No `ErrMaybe` counted, and none to be counted. -/
def Certain (c : Client) : Prop := c.res.nmaybe = 0 ∧ c.pc ≠ .got .maybe

theorem certain_set {s : State n} (h : ∀ j, Certain (s.clients j)) {i : Fin n}
    {c : Client} (hc : Certain c) : ∀ j, Certain ((s.set i c).clients j) := fun j => by
  rcases eq_or_ne j i with rfl | hne
  · simpa [State.set] using hc
  · simpa [State.set, Function.update_of_ne hne] using h j

theorem Certain.afterGet {c : Client} (h : Certain c) {err : PutErr}
    (hpc : c.pc = .got err) (me : ℤ) : ∀ r, Certain (c.afterGet me err r)
  | none => ⟨h.1, by simp [Client.afterGet]⟩
  | some (ver0, e) => by
    unfold Client.afterGet
    dsimp only
    split
    · exact ⟨h.1, by simp⟩
    · cases err with
      | maybe => exact absurd hpc h.2
      | ok | version | noKey => exact ⟨h.1, by simp⟩

/-- Nobody is told `ErrMaybe`. -/
theorem certain_step {s s' : State n} {a : Action n} (ha : ∀ i, a ≠ .returns i .maybe)
    (h : ∀ j, Certain (s.clients j)) (hstep : step s a = some s') :
    ∀ j, Certain (s'.clients j) := by
  cases step_effect hstep with
  | @onePut i | @finish i => exact certain_set h ⟨(h i).1, by simp⟩
  | @apply i | @observeOther i | @observeAbsent i => exact certain_set h ⟨(h i).1, by simp⟩
  | @returns i applied differed absent err hpc hpermitted =>
    refine certain_set h ⟨(h i).1, ?_⟩
    cases err with
    | maybe => exact absurd rfl (ha i)
    | ok | version | noKey => simp
  | @get i err hpc => exact certain_set h ((h i).afterGet hpc _ _)

/-- Without an `ErrMaybe` nobody counts one. -/
theorem certain_run {acts : List (Action n)} {s : State n} (hrun : run step (start n) acts = some s)
    (hacts : ∀ i, .returns i .maybe ∉ acts) : ∀ j, Certain (s.clients j) := by
  refine run_history
    (P := fun acts s => (∀ i, .returns i .maybe ∉ acts) → ∀ j, Certain (s.clients j))
    (fun _ _ => ⟨rfl, by simp [start]⟩) (fun acts s a s' _ ih hstep hacts => ?_) hrun hacts
  simp only [List.mem_append, List.mem_singleton, not_or] at hacts
  exact certain_step (fun i => Ne.symm (hacts i).2) (ih fun i => (hacts i).1) hstep

/-! ### The check -/

theorem foldl_res (rs : List ClntRes) (res : ClntRes) :
    rs.foldl (fun res r => ⟨res.nok + r.nok, res.nmaybe + r.nmaybe⟩) res =
      ⟨res.nok + (rs.map ClntRes.nok).sum, res.nmaybe + (rs.map ClntRes.nmaybe).sum⟩ := by
  induction rs generalizing res with
  | nil => rfl
  | cons r rs ih =>
    rw [List.foldl_cons, ih]
    simp [Nat.add_assoc]

/-- The version lies between what the clients are sure of and what is possible. -/
theorem Inv.bounds {s : State n} (h : Inv s) (hdone : ∀ i, (s.clients i).pc = .done) :
    ∑ i, (s.clients i).res.nok ≤ versionOf s.store ∧
    versionOf s.store ≤ ∑ i, (s.clients i).res.nok + ∑ i, (s.clients i).res.nmaybe := by
  have hcounted : ∀ i, (s.clients i).res.nok ≤ (s.clients i).puts ∧
      (s.clients i).puts ≤ (s.clients i).res.nok + (s.clients i).res.nmaybe := fun i => by
    have := (h.client i).counted
    rwa [hdone i] at this
  rw [h.total, ← Finset.sum_add_distrib]
  exact ⟨Finset.sum_le_sum fun i _ => (hcounted i).1, Finset.sum_le_sum fun i _ => (hcounted i).2⟩

/-- CORRECT: in any interleaving of any number of clients no client fails. When all have finished,
    and somebody has completed a put, the version lies between the sums of `Nok` and of `Nok +
    Nmaybe`, it is the sum of `Nok` if nobody was told `ErrMaybe`, and the final check passes. -/
theorem put_test_sound {acts : List (Action n)} {s : State n}
    (hrun : run step (start n) acts = some s) : (∀ i, (s.clients i).pc ≠ .failed) ∧
    ((∀ i, (s.clients i).pc = .done) →
      (∃ i, 0 < (s.clients i).res.nok + (s.clients i).res.nmaybe) →
      (∃ value ver, s.store = some (value, ver) ∧ ∑ i, (s.clients i).res.nok ≤ ver ∧
        ver ≤ ∑ i, (s.clients i).res.nok + ∑ i, (s.clients i).res.nmaybe ∧
        ((∀ i, .returns i .maybe ∉ acts) → ver = ∑ i, (s.clients i).res.nok)) ∧
      ∀ reliable, (reliable = true → ∀ i, .returns i .maybe ∉ acts) →
        checkPutConcurrent s.store (List.ofFn fun i => (s.clients i).res) ⟨0, 0⟩ reliable =
          true) := by
  have h := inv_run hrun
  refine ⟨fun i hfailed => ?_, fun hdone ⟨i, hi⟩ => ?_⟩
  · have hcounted := (h.client i).counted
    rw [hfailed] at hcounted
    exact hcounted
  · have hsome := (h.client i).seen (Or.inr (Or.inl hi))
    obtain ⟨id, w, hget, hver⟩ := getJson_eq h.store hsome ⟨0, 0⟩
    have hversion : versionOf s.store = w + 1 := by rw [versionOf, hver]; rfl
    obtain ⟨hlow, hhigh⟩ := h.bounds hdone
    rw [hversion] at hlow hhigh
    have hexact : (∀ i, .returns i .maybe ∉ acts) → w + 1 = ∑ i, (s.clients i).res.nok :=
      fun hacts => by
      have hzero : ∑ i, (s.clients i).res.nmaybe = 0 :=
        Finset.sum_eq_zero fun i _ => (certain_run hrun hacts i).1
      omega
    refine ⟨?_, fun reliable hreliable => ?_⟩
    · obtain ⟨⟨value, v⟩, hstore⟩ := Option.isSome_iff_exists.mp hsome
      obtain rfl : v = w + 1 := by simpa [hstore] using hver
      exact ⟨value, w + 1, hstore, hlow, hhigh, hexact⟩
    · simp only [checkPutConcurrent, hget, foldl_res, List.map_ofFn, List.sum_ofFn, Nat.zero_add,
        Function.comp_apply]
      cases reliable with
      | true => simpa using hexact (hreliable rfl)
      | false => simpa using hhigh

scoped instance twoClients : NeZero 2 := ⟨two_ne_zero⟩

/-- Both clients ask for version 0. The first put takes effect, and the second client is left in
    doubt about its own. -/
def raceRun : List (Action 2) :=
  [.onePut 0, .onePut 1, .apply 0, .observe 1, .returns 1 .maybe, .get 1, .returns 0 .ok, .get 0,
   .finish 1, .finish 0]

theorem raceRun_run : (run step (start 2) raceRun).map
    (fun s => (s.store.map Prod.snd, List.ofFn fun i => ((s.clients i).pc, (s.clients i).res))) =
    some (some 1, [(.done, ⟨1, 0⟩), (.done, ⟨0, 1⟩)]) := by decide +kernel

theorem put_test_sound_race : ∃ s : State 2, run step (start 2) raceRun = some s ∧
    (∀ i, (s.clients i).pc = .done) ∧ (s.clients 0).res = ⟨1, 0⟩ ∧ (s.clients 1).res = ⟨0, 1⟩ ∧
    checkPutConcurrent s.store (List.ofFn fun i => (s.clients i).res) ⟨0, 0⟩ false = true := by
  obtain ⟨s, hrun, hs⟩ := Option.map_eq_some_iff.mp raceRun_run
  simp only [List.ofFn_succ, List.ofFn_zero, Prod.mk.injEq, List.cons.injEq, and_true] at hs
  obtain ⟨-, ⟨hpc0, hres0⟩, hpc1, hres1⟩ := hs
  have hdone : ∀ i, (s.clients i).pc = .done := Fin.forall_fin_two.mpr ⟨hpc0, hpc1⟩
  exact ⟨s, hrun, hdone, hres0, hres1,
    ((put_test_sound hrun).2 hdone ⟨0, by simp [hres0]⟩).2 false (fun h => by cases h)⟩

end DistSys.Kv.PutTest
