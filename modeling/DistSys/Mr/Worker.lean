import DistSys.Mr.Coordinator
import DistSys.Schemes.Grouping
import DistSys.Schemes.Json

/-! @go mr/worker.go | name:writeIntermediate, handleReduceTask | scheme:grouping, json

    What a worker computes. A map task puts each pair into one of `nReduce` buckets by a hash of its
    key, and writes the pairs of a bucket as JSON values one after the other. A reduce task reads
    its buckets back until the first error, sorts the pairs by key and calls `reducef` once for each
    block of equal keys.

        kvs ──ihash % nReduce──▶ bucket r ──Encode──▶ bytes
        bytes ──Decode──▶ pairs ──sort──▶ blocks ──reducef──▶ lines -/

namespace DistSys.Mr
open GoString (lit itoa)
open Grouping (reduced KeySorted)

structure KeyValue where
  key : GoString
  value : GoString
  deriving DecidableEq

/-! ### Buckets -/

/-- FNV-1a, 32 bits. -/
def fnv32a (s : GoString) : UInt32 := s.foldl (fun h b => (h ^^^ b.toUInt32) * 16777619) 2166136261

def ihash (key : GoString) : ℕ := (fnv32a key &&& 0x7fffffff).toNat

/-- `intermediate`: the pairs of each of the `nReduce` buckets. -/
def buckets (nReduce : ℕ) (kvs : List KeyValue) : List (List KeyValue) :=
  kvs.foldl (fun bs kv => bs.modify (ihash kv.key % nReduce) (· ++ [kv]))
    (List.replicate nReduce [])

/-- The pairs of `kvs` that belong to bucket `r`. -/
def bucket (nReduce r : ℕ) (kvs : List KeyValue) : List KeyValue :=
  kvs.filter fun kv => ihash kv.key % nReduce = r

/-! ### The intermediate format -/

/-- `enc.Encode(&kv)`. -/
def encode (kv : KeyValue) : GoString :=
  lit "\x7b\"Key\":" ++ Json.quote kv.key ++ lit ",\"Value\":" ++
    Json.quote kv.value ++ lit "\x7d\n"

/-- One member of the object into the struct: a string is stored, `null` and unknown members are
    passed over, anything else is a type error. -/
def setField (kv : KeyValue) : GoString × Json.Value → Option KeyValue
  | (name, v) =>
      if Json.foldName name = lit "KEY" then
        match v with
        | .string s => some { kv with key := s }
        | .null => some kv
        | _ => none
      else if Json.foldName name = lit "VALUE" then
        match v with
        | .string s => some { kv with value := s }
        | .null => some kv
        | _ => none
      else some kv

/-- `dec.Decode(&kv)`: the next pair and the rest of the stream, `none` on any error. -/
def decode (s : GoString) : Option (KeyValue × GoString) := do
  let (v, rest) ← Json.next s
  match v with
  | .null => some (⟨[], []⟩, rest)
  | .object ms => (ms.foldlM setField ⟨[], []⟩).map fun kv => (kv, rest)
  | _ => none

/-- At most `n` rounds of the `Decode` loop, which ends at the first error. -/
def decodeLoop : ℕ → GoString → List KeyValue
  | 0, _ => []
  | n + 1, s =>
      match decode s with
      | some (kv, rest) => kv :: decodeLoop n rest
      | none => []

/-- The pairs read from a file. Each round consumes a byte, so there are enough of them. -/
def decodeFile (s : GoString) : List KeyValue := decodeLoop (s.length + 1) s

/-- A pair as it comes back: U+FFFD for each byte that is not UTF-8. -/
def KeyValue.toValid (kv : KeyValue) : KeyValue := ⟨Utf8.toValid kv.key, Utf8.toValid kv.value⟩

/-! ### The reduce loop -/

/-- `for j < len(intermediate) && intermediate[j].Key == key`, over the pairs from index `j` on. -/
def collect (key : GoString) : List KeyValue → ℕ → List GoString → ℕ × List GoString
  | [], j, vals => (j, vals)
  | kv :: kvs, j, vals => if kv.key = key then collect key kvs (j + 1) (vals ++ [kv.value])
      else (j, vals)

/-- The round at index `i`: the next index, and the key with its output. -/
def reduceRound (reducef : GoString → List GoString → GoString) (kva : List KeyValue) (i : ℕ) :
    Option (ℕ × GoString × GoString) :=
  (kva[i]?).map fun kv =>
    let (j, vals) := collect kv.key (kva.drop (i + 1)) (i + 1) [kv.value]
    (j, kv.key, reducef kv.key vals)

/-- `fmt.Fprintf(file, "%v %v\n", key, output)`. -/
def line (record : GoString × GoString) : GoString := record.1 ++ lit " " ++ record.2 ++ lit "\n"

/-- The bytes of a list of records. -/
def render (records : List (GoString × GoString)) : GoString := records.flatMap line

/-- `fmt.Sprintf("mr-out-%d", r)`. -/
def outName (r : ℕ) : GoString := lit "mr-out-" ++ itoa r

/-! ### Buckets are filters -/

theorem getElem?_foldl_modify (nReduce r : ℕ) (kvs : List KeyValue) (bs : List (List KeyValue)) :
    (kvs.foldl (fun bs kv => bs.modify (ihash kv.key % nReduce) (· ++ [kv])) bs)[r]? =
      bs[r]?.map (· ++ bucket nReduce r kvs) := by
  induction kvs generalizing bs with
  | nil => simp [bucket]
  | cons kv kvs ih =>
    rw [List.foldl_cons, ih]
    rcases eq_or_ne (ihash kv.key % nReduce) r with h | h
    · rw [h, List.getElem?_modify_eq]
      cases bs[r]? <;> simp [bucket, h]
    · rw [List.getElem?_modify_ne _ _ h]
      cases bs[r]? <;> simp [bucket, h]

/-- Bucket `r` holds the pairs whose key hashes there, in their order. -/
theorem buckets_eq (nReduce : ℕ) (kvs : List KeyValue) :
    buckets nReduce kvs = (List.range nReduce).map fun r => bucket nReduce r kvs := by
  refine List.ext_getElem? fun r => ?_
  rw [buckets, getElem?_foldl_modify, List.getElem?_map]
  by_cases h : r < nReduce
  · simp [h]
  · simp [h]

/-! ### The format is read back -/

/-- A pair is written as an object and a newline. -/
theorem encode_eq (kv : KeyValue) : encode kv = (encode kv).dropLast ++ [0x0A] := by
  have h : lit "\x7d\n" = lit "\x7d" ++ [0x0A] := by decide
  rw [encode, h, ← List.append_assoc, List.dropLast_concat]

theorem dropLast_encode_append (kv : KeyValue) (t : GoString) : (encode kv).dropLast ++ t =
    0x7B :: (Json.quote (lit "Key") ++ 0x3A :: (Json.quote kv.key ++ 0x2C ::
      (Json.quote (lit "Value") ++ 0x3A :: (Json.quote kv.value ++ 0x7D :: t)))) := by
  have h₁ : lit "\x7b\"Key\":" = 0x7B :: (Json.quote (lit "Key") ++ [0x3A]) := by decide
  have h₂ : lit ",\"Value\":" = 0x2C :: (Json.quote (lit "Value") ++ [0x3A]) := by decide
  have h₃ : lit "\x7d\n" = [0x7D] ++ [0x0A] := by decide
  rw [encode, h₁, h₂, h₃, ← List.append_assoc, List.dropLast_concat]
  simp

/-- The object of a pair is decoded, made valid, also after the newline of the one before it. -/
theorem decode_object {ws : GoString} (hws : ws = [] ∨ ws = [0x0A]) (kv : KeyValue) (t : GoString) :
    decode (ws ++ ((encode kv).dropLast ++ t)) = some (kv.toValid, t) := by
  have hlen : 4 ≤ (ws ++ ((encode kv).dropLast ++ t)).length + 1 := by
    rw [dropLast_encode_append]; simp only [List.length_cons, List.length_append]; omega
  obtain ⟨n, hn⟩ := Nat.exists_eq_add_of_le hlen
  have hk : Utf8.toValid (lit "Key") = lit "Key" := by decide
  have hv : Utf8.toValid (lit "Value") = lit "Value" := by decide
  have hnext : Json.next (ws ++ ((encode kv).dropLast ++ t)) =
      some (.object [(lit "Key", .string (Utf8.toValid kv.key)),
        (lit "Value", .string (Utf8.toValid kv.value))], t) := by
    have hskip : ∀ s, Json.value Json.maxNestingDepth (n + 3 + 1) (ws ++ s) =
        Json.value Json.maxNestingDepth (n + 3 + 1) s := by
      intro s
      rcases hws with rfl | rfl
      · rfl
      · exact Json.value_newline _ _ s
    rw [Json.next, hn, show 4 + n = n + 3 + 1 by omega, hskip, dropLast_encode_append,
      Json.value_object _ _ _ _ (by decide), Json.members_more _ (n + 1),
        Json.members_last _ n, hk, hv]
    rfl
  rw [decode, hnext]
  rfl

/-- An encoded pair, after the newline of the one before it, is decoded, made valid. -/
theorem decode_encode {ws : GoString} (hws : ws = [] ∨ ws = [0x0A]) (kv : KeyValue) (t : GoString) :
    decode (ws ++ (encode kv ++ t)) = some (kv.toValid, [0x0A] ++ t) := by
  rw [encode_eq, List.append_assoc, decode_object hws]

theorem decodeLoop_encode {kvs : List KeyValue} {n : ℕ} {ws : GoString}
    (hws : ws = [] ∨ ws = [0x0A]) (hn : kvs.length < n) :
    decodeLoop n (ws ++ kvs.flatMap encode) = kvs.map KeyValue.toValid := by
  induction kvs generalizing n ws with
  | nil =>
    obtain ⟨n, rfl⟩ := Nat.exists_eq_add_of_lt hn
    rcases hws with rfl | rfl <;> rfl
  | cons kv kvs ih =>
    obtain ⟨n, rfl⟩ := Nat.exists_eq_add_one_of_ne_zero (Nat.ne_zero_of_lt hn)
    have hrest : decodeLoop n ([0x0A] ++ kvs.flatMap encode) = kvs.map KeyValue.toValid :=
      ih (Or.inr rfl) (by simpa using hn)
    simp only [decodeLoop, List.flatMap_cons, decode_encode hws, hrest, List.map_cons]

theorem length_le_encode (kvs : List KeyValue) : kvs.length ≤ (kvs.flatMap encode).length := by
  induction kvs with
  | nil => exact le_refl _
  | cons kv kvs ih =>
    rw [List.flatMap_cons, encode_eq]
    simp only [List.length_append, List.length_cons]
    omega

/-- The pairs of a file written by the `Encode` loop are read back, made valid. -/
theorem decodeFile_encode (kvs : List KeyValue) :
    decodeFile (kvs.flatMap encode) = kvs.map KeyValue.toValid :=
  decodeLoop_encode (Or.inl rfl) (Nat.lt_succ_of_le (length_le_encode kvs))

/-! ### The loop reduces blocks -/

theorem collect_eq (key : GoString) (kvs : List KeyValue) (j : ℕ) (vals : List GoString) :
    collect key kvs j vals = (j + (kvs.takeWhile (·.key = key)).length,
      vals ++ (kvs.takeWhile (·.key = key)).map (·.value)) := by
  induction kvs generalizing j vals with
  | nil => simp [collect]
  | cons kv kvs ih =>
    rw [collect]
    rcases eq_or_ne kv.key key with h | h
    · rw [if_pos h, ih]
      simp [h]
      omega
    · simp [h]

/-- The pairs from an index on are the block of the first one's key and the pairs after it. -/
theorem drop_block {kva : List KeyValue} {i : ℕ} {kv : KeyValue} (h : kva[i]? = some kv) :
    kva.drop i = kv :: (kva.drop (i + 1)).takeWhile (·.key = kv.key) ++
        kva.drop (i + 1 + ((kva.drop (i + 1)).takeWhile (·.key = kv.key)).length) ∧
      ∀ y ∈ (kva.drop (i + 1 + ((kva.drop (i + 1)).takeWhile (·.key = kv.key)).length)).head?,
        y.key ≠ kv.key := by
  obtain ⟨hi, rfl⟩ := List.getElem?_eq_some_iff.mp h
  have hsplit := List.takeWhile_append_dropWhile (p := fun x : KeyValue => x.key = kva[i].key)
    (l := kva.drop (i + 1))
  have hrest : kva.drop (i + 1 + ((kva.drop (i + 1)).takeWhile (·.key = kva[i].key)).length) =
      (kva.drop (i + 1)).dropWhile (·.key = kva[i].key) := by
    rw [← List.drop_drop]
    nth_rewrite 2 [← hsplit]
    exact List.drop_left
  rw [hrest]
  refine ⟨?_, fun y hy => ?_⟩
  · rw [List.drop_eq_getElem_cons hi, List.cons_append, hsplit]
  · have :=
      List.head?_dropWhile_not (fun x : KeyValue => decide (x.key = kva[i].key)) (kva.drop (i + 1))
    rw [Option.mem_def.mp hy] at this
    simpa using this

/-- In sorted pairs the first block from an index on is all there is of its key from there on. -/
theorem reduced_drop {O : Type} {f : GoString → List GoString → O} {kva : List KeyValue} {i : ℕ}
    {kv : KeyValue} (hs : KeySorted (·.key) kva) (h : kva[i]? = some kv) :
    reduced (·.key) (·.value) f (kva.drop i) =
      (kv.key,
        f kv.key (kv.value :: ((kva.drop (i + 1)).takeWhile (·.key = kv.key)).map (·.value))) ::
        reduced (·.key) (·.value) f
          (kva.drop (i + 1 + ((kva.drop (i + 1)).takeWhile (·.key = kv.key)).length)) := by
  obtain ⟨hdrop, hhead⟩ := drop_block h
  have hsorted : KeySorted (·.key) (kva.drop i) :=
    List.Pairwise.sublist (List.drop_sublist i kva) hs
  rw [hdrop] at hsorted ⊢
  rw [Grouping.reduced_block (k := kv.key) (by simp) ?_ (hsorted.first_block hhead)]
  · simp
  · intro x hx
    rcases List.mem_cons.mp hx with rfl | hx
    · rfl
    · simpa using List.all_eq_true.mp List.all_takeWhile x hx

theorem reduceRound_lt {reducef : GoString → List GoString → GoString}
    {kva : List KeyValue} {i j : ℕ} {record : GoString × GoString}
    (h : reduceRound reducef kva i = some (j, record)) : i < kva.length ∧ i < j := by
  simp only [reduceRound, collect_eq, Option.map_eq_some_iff, Prod.mk.injEq] at h
  obtain ⟨kv, hkv, rfl, -⟩ := h
  exact ⟨(List.getElem?_eq_some_iff.mp hkv).1, by omega⟩

/-- A round of the loop over sorted pairs emits the record of the first key that is left. -/
theorem reduceRound_some {reducef : GoString → List GoString → GoString}
    {kva : List KeyValue} {i j : ℕ} {record : GoString × GoString} (hs : KeySorted (·.key) kva)
    (h : reduceRound reducef kva i = some (j, record)) :
    i < j ∧ reduced (·.key) (·.value) reducef (kva.drop i) =
      record :: reduced (·.key) (·.value) reducef (kva.drop j) := by
  refine ⟨(reduceRound_lt h).2, ?_⟩
  simp only [reduceRound, collect_eq, Option.map_eq_some_iff, Prod.mk.injEq] at h
  obtain ⟨kv, hkv, rfl, rfl⟩ := h
  exact reduced_drop hs hkv

theorem reduceRound_none {reducef : GoString → List GoString → GoString}
    {kva : List KeyValue} {i : ℕ} (h : reduceRound reducef kva i = none) : kva.drop i = [] := by
  simp only [reduceRound, Option.map_eq_none_iff, List.getElem?_eq_none_iff] at h
  exact List.drop_eq_nil_of_le h

end DistSys.Mr
