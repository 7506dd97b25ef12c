import DistSys.Kv.Model

/-! @go kvsrv1/server.go, models1/kv.go, kvtest1/porcupine.go | name:KVServer.Get, KVServer.Put,
    KvModel.Step | scheme:machine | compares:server, model

    The server as its comments document it, for one key, beside the model its histories are checked
    against. The model has one state for a key that is absent and for one at version 0 without a
    value, and of a get it looks at the value only. So it knows neither `ErrNoKey` nor versions that
    are read.

        server   absent ── put v 0 ──▶ (v, 1) ── put w 1 ──▶ (w, 2)      put v 1 ↦ ErrNoKey
        model    ("", 0) ─ put v 0 ──▶ (v, 1) ── put w 1 ──▶ (w, 2)      put v 1 ↦ ErrVersion  -/

namespace DistSys.Kv
open GoString (lit)
open Machine (run run_cons)

inductive Request where
  | get
  | put (value : GoString) (version : UInt64)
  deriving DecidableEq

/-- The input that is recorded for a request. -/
def Request.input (key : GoString) : Request → KvInput
  | .get => ⟨0, key, [], 0⟩
  | .put value version => ⟨1, key, value, version⟩

/-- `Get` and `Put` as documented, on a key that may be absent, with the output that is recorded. -/
def serve : Option KvState → Request → Option KvState × KvOutput
  | some st, .get => (some st, ⟨st.value, st.version, lit "OK"⟩)
  | none, .get => (none, ⟨[], 0, lit "ErrNoKey"⟩)
  | some st, .put value version =>
      if version = st.version then (some ⟨value, st.version + 1⟩, ⟨[], 0, lit "OK"⟩)
      else (some st, ⟨[], 0, lit "ErrVersion"⟩)
  | none, .put value version =>
      if version = 0 then (some ⟨value, 1⟩, ⟨[], 0, lit "OK"⟩) else (none, ⟨[], 0, lit "ErrNoKey"⟩)

/-- Requests one at a time, with their documented outputs. -/
def answers : Option KvState → List Request → List (Request × KvOutput)
  | _, [] => []
  | s, r :: rs => (r, (serve s r).2) :: answers (serve s r).1 rs

/-- The documented output, or `ErrMaybe` for a put. -/
def Admissible (x : Request × KvOutput) (out : KvOutput) : Prop :=
  out = x.2 ∨ (x.1 ≠ .get ∧ out = { x.2 with err := lit "ErrMaybe" })

/-- Something else in the output of a get, or in the error of a put. -/
def Wrong (x : Request × KvOutput) (out : KvOutput) : Prop :=
  match x.1 with
  | .get => out ≠ x.2
  | .put _ _ => out.err ≠ x.2.err ∧ out.err ≠ lit "ErrMaybe"

/-- The fold of `KvModel.Step` from `Init`. -/
def accepts (key : GoString) (calls : List (Request × KvOutput)) : Bool :=
  (run accept init (calls.map fun c => (c.1.input key, c.2))).isSome

/-- The model accepts these requests with the documented outputs, and no others. -/
structure Exact (key : GoString) (reqs : List Request) : Prop where
  accepted : ∀ outs, List.Forall₂ Admissible (answers none reqs) outs →
    accepts key (reqs.zip outs) = true
  rejected : ∀ before x after outs out outs', answers none reqs = before ++ x :: after →
    List.Forall₂ Admissible before outs → Wrong x out → List.Forall₂ Admissible after outs' →
    accepts key (reqs.zip (outs ++ out :: outs')) = false

/-! ### Puts -/

/-- What the model accepts for a put. -/
def Right (x : Request × KvOutput) (out : KvOutput) : Prop :=
  out.err = x.2.err ∨ out.err = lit "ErrMaybe"

variable {key : GoString} {st : KvState} {s : Option KvState}

/-- The model and the server treat a put alike, unless it is for a version of an absent key. -/
theorem accept_put (key value : GoString) {version : UInt64}
    (hs : s = some st ∨ (s = none ∧ st = init ∧ version = 0)) (out : KvOutput) :
    ∃ st', (serve s (.put value version)).1 = some st' ∧
      (Right (.put value version, (serve s (.put value version)).2) out →
        accept st ((Request.put value version).input key, out) = some st') ∧
      (¬ Right (.put value version, (serve s (.put value version)).2) out →
        accept st ((Request.put value version).input key, out) = none) := by
  obtain rfl | ⟨rfl, rfl, rfl⟩ := hs
  · rcases eq_or_ne version st.version with rfl | hne
    · have hserve : serve (some st) (.put value st.version) =
        (some ⟨value, st.version + 1⟩, ⟨[], 0, lit "OK"⟩) := by simp [serve]
      have haccept : accept st ((Request.put value st.version).input key, out) =
        if out.err = lit "OK" ∨ out.err = lit "ErrMaybe" then some ⟨value, st.version + 1⟩
          else none := by
          simp [accept, modelStep, Request.input]
      rw [hserve]
      exact ⟨_, rfl, fun h => haccept.trans (if_pos h), fun h => haccept.trans (if_neg h)⟩
    · have hserve :
          serve (some st) (.put value version) = (some st, ⟨[], 0, lit "ErrVersion"⟩) := by
        simp [serve, hne]
      have haccept : accept st ((Request.put value version).input key, out) =
        if out.err = lit "ErrVersion" ∨ out.err = lit "ErrMaybe" then some st else none := by
          simp [accept, modelStep, Request.input, hne.symm]
      rw [hserve]
      exact ⟨_, rfl, fun h => haccept.trans (if_pos h), fun h => haccept.trans (if_neg h)⟩
  · have haccept : accept init ((Request.put value 0).input key, out) =
      if out.err = lit "OK" ∨ out.err = lit "ErrMaybe" then some ⟨value, 1⟩ else none := by
        simp [accept, modelStep, Request.input, init]
    exact ⟨_, rfl, fun h => haccept.trans (if_pos h), fun h => haccept.trans (if_neg h)⟩

/-- Of puts alone, the first for version 0 if the key is absent, the model accepts just the right
    ones. -/
theorem run_puts {reqs : List Request} {s : Option KvState} {st : KvState}
    (hputs : ∀ r ∈ reqs, r ≠ .get) (hs : s = some st ∨
      (s = none ∧ st = init ∧ ∀ value version,
        reqs.head? = some (.put value version) → version = 0))
    {outs : List KvOutput} (hlen : reqs.length = outs.length) :
    ((run accept st ((reqs.zip outs).map fun c => (c.1.input key, c.2))).isSome = true ↔
      List.Forall₂ Right (answers s reqs) outs) := by
  induction reqs generalizing s st outs with
  | nil =>
    obtain rfl : outs = [] := List.eq_nil_of_length_eq_zero hlen.symm
    simp [answers]
  | cons r reqs ih =>
    obtain ⟨out, outs, rfl⟩ := List.exists_cons_of_length_eq_add_one hlen.symm
    cases r with
    | get => exact absurd rfl (hputs .get List.mem_cons_self)
    | put value version =>
      have hs' : s = some st ∨ (s = none ∧ st = init ∧ version = 0) :=
        hs.imp_right fun h => ⟨h.1, h.2.1, h.2.2 value version rfl⟩
      obtain ⟨st', hst', hright, hwrong⟩ := accept_put key value hs' out
      rw [answers, List.forall₂_cons, List.zip_cons_cons, List.map_cons, run]
      by_cases h : Right (.put value version, (serve s (.put value version)).2) out
      · rw [hright h, Option.bind_some, and_iff_right h]
        exact ih (fun r hr => hputs r (List.mem_cons_of_mem _ hr)) (Or.inl hst') (Nat.succ.inj hlen)
      · rw [hwrong h, Option.bind_none]
        exact iff_of_false (by simp) fun hall => h hall.1

theorem length_answers (s : Option KvState) (reqs : List Request) :
    (answers s reqs).length = reqs.length := by
  induction reqs generalizing s with
  | nil => rfl
  | cons r reqs ih => rw [answers, List.length_cons, ih, List.length_cons]

theorem fst_answers (s : Option KvState) (reqs : List Request) :
    (answers s reqs).map Prod.fst = reqs := by
  induction reqs generalizing s with
  | nil => rfl
  | cons r reqs ih => rw [answers, List.map_cons, ih]

theorem Admissible.right {x : Request × KvOutput} {out : KvOutput}
    (h : Admissible x out) : Right x out := by
  obtain rfl | ⟨-, rfl⟩ := h
  · exact Or.inl rfl
  · exact Or.inr rfl

theorem Wrong.not_right {x : Request × KvOutput} {out : KvOutput}
    (h : Wrong x out) (hx : x.1 ≠ .get) : ¬ Right x out := by
  obtain ⟨_ | ⟨value, version⟩, doc⟩ := x
  · exact absurd rfl hx
  · exact fun hright => hright.elim h.1 h.2

/-- Puts, the first of them for version 0: the model is exact. -/
theorem exact_of_puts {reqs : List Request} (hputs : ∀ r ∈ reqs, r ≠ .get)
    (hhead : ∀ value version, reqs.head? = some (.put value version) → version = 0) :
    Exact key reqs := by
  have hiff : ∀ {outs : List KvOutput}, reqs.length = outs.length →
      (accepts key (reqs.zip outs) = true ↔ List.Forall₂ Right (answers none reqs) outs) :=
    run_puts hputs (Or.inr ⟨rfl, rfl, hhead⟩)
  refine ⟨fun outs h => ?_, fun before x after outs out outs' heq hbefore hwrong hafter => ?_⟩
  · exact (hiff ((length_answers none reqs).symm.trans h.length_eq)).mpr
      (h.imp fun _ _ => Admissible.right)
  · have hlen : reqs.length = (outs ++ out :: outs').length := by
      rw [← length_answers none reqs, heq]
      simp [hbefore.length_eq, hafter.length_eq]
    rw [← Bool.not_eq_true, hiff hlen, heq]
    intro hall
    have hx : x.1 ≠ .get := hputs _ (by rw [← fst_answers none reqs, heq]; simp)
    have hpair : (x, out) ∈ (before ++ x :: after).zip (outs ++ out :: outs') := by
      rw [List.zip_append hbefore.length_eq]
      simp
    exact hwrong.not_right hx ((List.forall₂_iff_zip.mp hall).2 hpair)

/-! ### Gets, and puts for an absent key -/

/-- The documented outputs themselves. -/
def documented (s : Option KvState) (reqs : List Request) : List KvOutput :=
  (answers s reqs).map Prod.snd

theorem admissible_documented (s : Option KvState) (reqs : List Request) :
    List.Forall₂ Admissible (answers s reqs) (documented s reqs) :=
  List.forall₂_map_right_iff.mpr (List.forall₂_same.mpr fun _ _ => Or.inl rfl)

theorem answers_append (s : Option KvState) (reqs reqs' : List Request) : ∃ s',
    answers s (reqs ++ reqs') = answers s reqs ++ answers s' reqs' := by
  induction reqs generalizing s with
  | nil => exact ⟨s, rfl⟩
  | cons r reqs ih =>
    obtain ⟨s', h⟩ := ih (serve s r).1
    exact ⟨s', by rw [List.cons_append, answers, h]; rfl⟩

/-- An entry that the steps cannot tell from another one. -/
theorem run_same {σ α : Type} {step : σ → α → Option σ} {x y : α} (h : ∀ s, step s x = step s y)
    (rest l : List α) (s : σ) : run step s (l ++ x :: rest) = run step s (l ++ y :: rest) := by
  induction l generalizing s with
  | nil => simp only [List.nil_append, run, h]
  | cons z l ih => simp only [List.cons_append, run, ih]

/-- The version that a get returns is not looked at. -/
theorem accepts_get_version (before after : List (Request × KvOutput))
    (out : KvOutput) (version : UInt64) :
    accepts key (before ++ (.get, { out with version := version }) :: after) =
      accepts key (before ++ (.get, out) :: after) := by
  simp only [accepts, List.map_append, List.map_cons]
  rw [run_same (x := (Request.get.input key, { out with version := version }))
    (y := (Request.get.input key, out)) (fun _ => rfl)]

/-- So a wrong one passes. -/
theorem Exact.no_get {reqs : List Request} (h : Exact key reqs) : ∀ r ∈ reqs, r ≠ .get := by
  rintro _ hr rfl
  obtain ⟨before, after, rfl⟩ := List.append_of_mem hr
  obtain ⟨s, hanswers⟩ := answers_append none before (.get :: after)
  have hlen : before.length = (documented none before).length := by
    rw [documented, List.length_map, length_answers]
  have haccepted := h.accepted _ (admissible_documented none _)
  rw [documented, hanswers, answers, List.map_append, List.map_cons, ← documented, ← documented,
    List.zip_append hlen, List.zip_cons_cons] at haccepted
  have hrejected :=
    h.rejected (answers none before) (.get, (serve s .get).2) (answers (serve s .get).1 after)
    (documented none before) { (serve s .get).2 with version := (serve s .get).2.version + 1 }
    (documented (serve s .get).1 after) (by rw [hanswers, answers]) (admissible_documented _ _)
    (fun heq => by simpa using congrArg KvOutput.version heq) (admissible_documented _ _)
  rw [List.zip_append hlen, List.zip_cons_cons, accepts_get_version, haccepted] at hrejected
  cases hrejected

/-- A put for a version of an absent key is answered `ErrNoKey`, which the model does not accept. -/
theorem Exact.head_version {reqs : List Request} (h : Exact key reqs)
    {value : GoString} {version : UInt64} (hhead : reqs.head? = some (.put value version)) :
    version = 0 := by
  obtain ⟨rest, rfl⟩ := List.head?_eq_some_iff.mp hhead
  by_contra hne
  have haccepted := h.accepted _ (admissible_documented none _)
  have hreject :
      accept init ((Request.put value version).input key, ⟨[], 0, lit "ErrNoKey"⟩) = none := by
    simp [accept, modelStep, Request.input, init, Ne.symm hne]
    decide
  simp [documented, answers, serve, hne, accepts, run, hreject] at haccepted

/-- CORRECT: the model is exact for just those sequences of requests that have no get, and whose
    first put, if any, is for version 0. -/
theorem exact_iff (key : GoString) (reqs : List Request) : Exact key reqs ↔
    (∀ r ∈ reqs, r ≠ .get) ∧ ∀ value version,
      reqs.head? = some (.put value version) → version = 0 :=
  ⟨fun h => ⟨h.no_get, fun _ _ => h.head_version⟩, fun ⟨hputs, hhead⟩ => exact_of_puts hputs hhead⟩

/-- A put for version 1 of an absent key, answered as documented, is rejected; a get that returns
    version 7 for a key at version 1 is accepted. -/
theorem not_exact_put_absent :
    answers none [.put (lit "6.5840") 1] = [(.put (lit "6.5840") 1, ⟨[], 0, lit "ErrNoKey"⟩)] ∧
    accepts (lit "y") [(.put (lit "6.5840") 1, ⟨[], 0, lit "ErrNoKey"⟩)] = false ∧
    ¬ Exact (lit "y") [.put (lit "6.5840") 1] ∧
    answers none [.put (lit "6.5840") 0, .get] = [(.put (lit "6.5840") 0, ⟨[], 0, lit "OK"⟩),
      (.get, ⟨lit "6.5840", 1, lit "OK"⟩)] ∧
    accepts (lit "y")
      [(.put (lit "6.5840") 0, ⟨[], 0, lit "OK"⟩), (.get, ⟨lit "6.5840", 7, lit "OK"⟩)] = true := by
  refine ⟨by decide, by decide, fun h => ?_, by decide, by decide⟩
  have haccepted := h.accepted [⟨[], 0, lit "ErrNoKey"⟩] (admissible_documented none _)
  revert haccepted
  decide

end DistSys.Kv
