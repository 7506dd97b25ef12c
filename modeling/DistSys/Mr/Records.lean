import DistSys.Mr.Worker
import DistSys.Schemes.JsonStream

/-! @go mr/worker.go | name:writeIntermediate, handleReduceTask | scheme:json | round-trip:valid

    The intermediate file format. A file is a sequence of records when it can be read to its end,
    white space aside; the `Decode` loop stops at the first error and does not say whether that was
    the end. A write that fails cuts the file off, and the encoder then refuses everything else.

        {"Key":…}⏎{"Key":…}⏎{"Key":…}⏎       records, all read
        {"Key":…}⏎{"Ke                       one is read, the rest is not noticed -/

namespace DistSys.Mr
open Json (skipSpace)

/-- All strings of the pair are UTF-8. -/
def KeyValue.Valid (kv : KeyValue) : Prop := Utf8.Valid kv.key ∧ Utf8.Valid kv.value

instance (kv : KeyValue) : Decidable kv.Valid := inferInstanceAs (Decidable (_ ∧ _))

/-- The bytes the `Encode` loop leaves in a file, from round `i` on. Where `fails i` is `some k` the
    write of round `i` fails: at most `k` bytes get there and at least one does not. -/
def encodeLoop (fails : ℕ → Option ℕ) : ℕ → List KeyValue → GoString
  | _, [] => []
  | i, kv :: kva =>
      match fails i with
      | none => encode kv ++ encodeLoop fails (i + 1) kva
      -- the encoder keeps the error and returns it from then on
      | some k => (encode kv).dropLast.take k

/-- Nothing is missing from the file, except perhaps the last newline. -/
def whole (fails : ℕ → Option ℕ) : ℕ → List KeyValue → Bool
  | _, [] => true
  | i, kv :: kva =>
      match fails i with
      | none => whole fails (i + 1) kva
      | some k => kva.isEmpty && decide ((encode kv).length ≤ k + 1)

/-- The bytes are these records and nothing else. -/
inductive Records : GoString → List KeyValue → Prop
  | nil {s : GoString} (h : skipSpace s = []) : Records s []
  | cons {s rest : GoString} {kv : KeyValue} {kvs : List KeyValue} (h : decode s = some (kv, rest))
      (hrest : Records rest kvs) : Records s (kv :: kvs)

/-! ### Reading records -/

theorem toValid_eq_iff {kv : KeyValue} : kv.toValid = kv ↔ kv.Valid := by
  obtain ⟨key, value⟩ := kv
  rw [KeyValue.toValid, KeyValue.mk.injEq, Utf8.toValid_eq_iff, Utf8.toValid_eq_iff]
  rfl

theorem map_toValid_eq_iff {kvs : List KeyValue} : kvs.map KeyValue.toValid = kvs ↔
    ∀ kv ∈ kvs, kv.Valid := by
  nth_rewrite 2 [← List.map_id kvs]
  simp only [List.map_inj_left, id, toValid_eq_iff]

/-- A record takes at least one byte, and is the same when more follows. -/
theorem decode_append {s rest : GoString} {kv : KeyValue} (h : decode s = some (kv, rest)) :
    rest.length < s.length ∧ ∀ t, decode (s ++ t) = some (kv, rest ++ t) := by
  obtain ⟨⟨v, r⟩, hnext, h⟩ := Option.bind_eq_some_iff.mp h
  obtain ⟨hlen, happ⟩ := Json.next_append hnext
  cases v with
  | null =>
    cases h
    exact ⟨hlen, fun t => by simp [decode, happ (by simp) t]⟩
  | object ms =>
    obtain ⟨kv', hms, heq⟩ := Option.map_eq_some_iff.mp h
    cases heq
    exact ⟨hlen, fun t => by simp [decode, happ (by simp) t, hms]⟩
  | bool b => cases h
  | number text => cases h
  | string str => cases h
  | array xs => cases h

theorem decode_blank {s : GoString} (h : skipSpace s = []) : decode s = none := by
  rw [decode, Json.next_none h]
  rfl

theorem Records.unique {s : GoString} {kvs kvs' : List KeyValue} (h : Records s kvs)
    (h' : Records s kvs') : kvs = kvs' := by
  induction h generalizing kvs' with
  | nil hs =>
    cases h' with
    | nil => rfl
    | cons hd _ => simp [decode_blank hs] at hd
  | cons hd _ ih =>
    cases h' with
    | nil hs => simp [decode_blank hs] at hd
    | cons hd' hrest' =>
      cases hd.symm.trans hd'
      rw [ih hrest']

theorem Records.decodeLoop {s : GoString} {kvs : List KeyValue} (h : Records s kvs) :
    ∀ {n : ℕ}, s.length < n → Mr.decodeLoop n s = kvs := by
  induction h with
  | nil hs =>
    rintro (_ | n) hn
    · exact absurd hn (Nat.not_lt_zero _)
    · rw [Mr.decodeLoop, decode_blank hs]
  | cons hd _ ih =>
    rintro (_ | n) hn
    · exact absurd hn (Nat.not_lt_zero _)
    · have hlen := (decode_append hd).1
      rw [Mr.decodeLoop, hd]
      exact congrArg _ (ih (by omega))

/-- The loop reads all the records of a file of records. -/
theorem Records.decodeFile {s : GoString} {kvs : List KeyValue} (h : Records s kvs) :
    Mr.decodeFile s = kvs :=
  h.decodeLoop (Nat.lt_succ_self _)

/-! ### Writing records -/

theorem length_encode (kv : KeyValue) : (encode kv).length = (encode kv).dropLast.length + 1 := by
  nth_rewrite 1 [encode_eq]
  rw [List.length_append]
  rfl

/-- A record cut off before its closing brace is none. -/
theorem decode_cut {ws : GoString} (hws : ws = [] ∨ ws = [0x0A]) {kv kv' : KeyValue}
    {k : ℕ} {rest : GoString} (h : decode (ws ++ (encode kv).dropLast.take k) = some (kv', rest)) :
    (encode kv).length ≤ k + 1 ∧ rest = [] := by
  have hfull := (decode_append h).2 ((encode kv).dropLast.drop k)
  have hobject := decode_object hws kv []
  rw [List.append_assoc, List.take_append_drop] at hfull
  rw [List.append_nil, hfull] at hobject
  obtain ⟨hrest, hdrop⟩ := List.append_eq_nil_iff.mp (Prod.mk.inj (Option.some.inj hobject)).2
  refine ⟨?_, hrest⟩
  rw [length_encode]
  exact Nat.succ_le_succ (List.drop_eq_nil_iff.mp hdrop)

section loop
variable {fails : ℕ → Option ℕ}

/-- A file with nothing missing is the sequence of its records, made valid. -/
theorem records_encodeLoop {kva : List KeyValue} {i : ℕ} {ws : GoString}
    (hws : ws = [] ∨ ws = [0x0A]) (h : whole fails i kva = true) :
    Records (ws ++ encodeLoop fails i kva) (kva.map KeyValue.toValid) := by
  induction kva generalizing i ws with
  | nil => rcases hws with rfl | rfl <;> exact .nil rfl
  | cons kv kva ih =>
    rw [whole] at h
    rw [encodeLoop]
    cases hf : fails i with
    | none =>
      simp only [hf] at h
      exact .cons (decode_encode hws kv _) (ih (Or.inr rfl) h)
    | some k =>
      simp only [hf, Bool.and_eq_true, List.isEmpty_iff, decide_eq_true_eq, length_encode] at h
      obtain ⟨rfl, hk⟩ := h
      have hobject := decode_object hws kv []
      rw [List.append_nil, ← List.take_of_length_le (Nat.le_of_succ_le_succ hk)] at hobject
      exact .cons hobject (.nil rfl)

/-- A file of as many records as there are pairs has nothing missing. -/
theorem whole_of_records {kva kvs : List KeyValue} {i : ℕ} {ws : GoString}
    (hws : ws = [] ∨ ws = [0x0A]) (h : Records (ws ++ encodeLoop fails i kva) kvs)
    (hlen : kvs.length = kva.length) : whole fails i kva = true := by
  induction kva generalizing kvs i ws with
  | nil => rfl
  | cons kv kva ih =>
    rw [encodeLoop] at h
    rw [whole]
    cases h with
    | nil => cases hlen
    | cons hd hrest =>
      cases hf : fails i with
      | none =>
        simp only [hf, decode_encode hws, Option.some.injEq, Prod.mk.injEq] at hd
        obtain ⟨-, rfl⟩ := hd
        exact ih (Or.inr rfl) hrest (Nat.succ.inj hlen)
      | some k =>
        simp only [hf] at hd
        obtain ⟨hk, rfl⟩ := decode_cut hws hd
        cases hrest with
        | nil =>
          have hkva : kva = [] := List.eq_nil_of_length_eq_zero (Nat.succ.inj hlen).symm
          simp [hkva, hk]
        | cons hd' _ =>
          rw [decode_blank rfl] at hd'
          cases hd'

/-- The file holds exactly the pairs iff nothing is missing and they are UTF-8. -/
theorem records_encodeLoop_iff {kva : List KeyValue} :
    Records (encodeLoop fails 0 kva) kva ↔ whole fails 0 kva = true ∧ ∀ kv ∈ kva, kv.Valid := by
  rw [← map_toValid_eq_iff]
  constructor
  · intro h
    have hwhole : whole fails 0 kva = true := whole_of_records (Or.inl rfl) h rfl
    exact ⟨hwhole, (@records_encodeLoop _ kva 0 [] (Or.inl rfl) hwhole).unique h⟩
  · rintro ⟨hwhole, hvalid⟩
    have := records_encodeLoop (Or.inl rfl) hwhole
    rwa [hvalid] at this

end loop

theorem encodeLoop_none (i : ℕ) (kva : List KeyValue) :
    encodeLoop (fun _ => none) i kva = kva.flatMap encode := by
  induction kva generalizing i with
  | nil => rfl
  | cons kv kva ih => rw [encodeLoop, ih, List.flatMap_cons]

theorem decodeFile_encodeLoop (kvs : List KeyValue) :
    decodeFile (encodeLoop (fun _ => none) 0 kvs) = kvs.map KeyValue.toValid := by
  rw [encodeLoop_none, decodeFile_encode]

/-- CORRECT: what the `Encode` loop writes, the `Decode` loop reads back, iff all strings are
    UTF-8. -/
theorem round_trip_iff (kvs : List KeyValue) :
    decodeFile (encodeLoop (fun _ => none) 0 kvs) = kvs ↔ ∀ kv ∈ kvs, kv.Valid := by
  rw [decodeFile_encodeLoop, map_toValid_eq_iff]

/-- Two keys of one invalid byte each come back as one key. -/
theorem not_round_trip_merge :
    let kvs : List KeyValue := [⟨[0xFE], [0x31]⟩, ⟨[0xFF], [0x32]⟩]
    let read := decodeFile (encodeLoop (fun _ => none) 0 kvs)
    read ≠ kvs ∧ read.map KeyValue.key = [Utf8.replacement, Utf8.replacement] := by
  decide +kernel

end DistSys.Mr
