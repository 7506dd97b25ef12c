import DistSys.Schemes.JsonText

/-! @go kvtest1/kvtest.go | name:EntryV, PutJson, GetJson | scheme:json | round-trip:entry

    The values that clients of the tests put: who wrote it, and the version it was written over, as
    a JSON object. What was marshalled is unmarshalled, since both numbers fit their types.

        ⟨3, 17⟩ ──Marshal──▶ {"Id":3,"V":17} ──Unmarshal──▶ ⟨3, 17⟩

    The store is seen through one key, with its value and version. Versions are `uint64`s: a put
    that would take the version of a key beyond them is left out. -/

namespace DistSys.Kv
open GoString (lit itoa)
open Json (Value Readable foldName decodeInt decodeUint)
open Strconv (Fits formatInt)

/-- `Id` is an `int`, `V` is a `uint64`. -/
structure EntryV where
  id : ℤ
  v : ℕ
  deriving DecidableEq

def EntryV.value (e : EntryV) : Value :=
  .object [(lit "Id", .number (formatInt e.id)), (lit "V", .number (itoa e.v))]

/-- `json.Marshal` of an entry. -/
def EntryV.marshal (e : EntryV) : GoString := e.value.text

/-- One member of the object into the struct: `null` and unknown members are passed over, anything
    but a number of the field's type is an error. -/
def EntryV.setField (e : EntryV) : GoString × Value → Option EntryV
  | (name, v) =>
      if foldName name = lit "ID" then (decodeInt e.id v).map fun id => { e with id := id }
      else if foldName name = lit "V" then (decodeUint e.v v).map fun v => { e with v := v }
      else some e

/-- `json.Unmarshal` into an entry. -/
def EntryV.unmarshal (e : EntryV) (s : GoString) : Option EntryV :=
  Json.unmarshal (Json.decodeStruct EntryV.setField e) s

/-- The entry of a client is read back, into whatever was there before. -/
theorem unmarshal_marshal (e : EntryV) {id : ℤ} {v : ℕ} (hid : Fits id) (hv : v < 2 ^ 64) :
    e.unmarshal (EntryV.marshal ⟨id, v⟩) = some ⟨id, v⟩ := by
  have hreadable : Readable Json.maxNestingDepth (EntryV.value ⟨id, v⟩) := by
    refine .object (d := 9999) ?_
    intro m hm
    rcases List.mem_cons.mp hm with rfl | hm
    · exact .number _ (Json.isNumber_formatInt id)
    · rw [List.mem_singleton.mp hm]
      exact .number _ (Json.isNumber_itoa v)
  have hvalid : (EntryV.value ⟨id, v⟩).toValid = EntryV.value ⟨id, v⟩ := by
    have hname : Utf8.toValid (lit "Id") = lit "Id" ∧ Utf8.toValid (lit "V") = lit "V" := by decide
    simp [EntryV.value, Value.toValid, Json.membersValid, hname]
  have hnames : foldName (lit "Id") = lit "ID" ∧ foldName (lit "V") = lit "V" ∧
      lit "V" ≠ lit "ID" := by
    decide
  rw [EntryV.unmarshal, EntryV.marshal,
    Json.unmarshal_text _ hreadable (fun _ h => by cases h), hvalid]
  simp [EntryV.value, Json.decodeStruct, EntryV.setField, hnames, Json.decodeInt_formatInt hid,
    Json.decodeUint_itoa hv]

/-! ### One key of a store -/

/-- The version of a key, 0 if it is absent. -/
def versionOf (store : Option (GoString × ℕ)) : ℕ := (store.map Prod.snd).getD 0

/-- `GetJson`, with `json.Unmarshal` into its variable; none if it ends in `Fatalf`. -/
def getJson {α : Type} (unmarshal : GoString → Option α) (store : Option (GoString × ℕ)) :
    Option (ℕ × α) :=
  store.bind fun p => (unmarshal p.1).map fun e => (p.2, e)

/-- The documented `Put`, where it takes effect. -/
def install (store : Option (GoString × ℕ)) (value : GoString) (ver : ℕ) : Option (GoString × ℕ) :=
  match store with
  | some (_, v) => if ver = v ∧ v + 1 < 2 ^ 64 then some (value, v + 1) else none
  | none => if ver = 0 then some (value, 1) else none

/-- A put takes effect at the version it asks for, and raises it by one. -/
theorem install_eq {store : Option (GoString × ℕ)} {value : GoString}
    {ver : ℕ} {entry : GoString × ℕ} (h : install store value ver = some entry) :
    ver = versionOf store ∧ entry = (value, ver + 1) ∧ ver + 1 < 2 ^ 64 := by
  cases store with
  | none =>
    simp only [install, Option.ite_none_right_eq_some, Option.some.injEq] at h
    obtain ⟨rfl, rfl⟩ := h
    exact ⟨rfl, rfl, by decide⟩
  | some p =>
    simp only [install, Option.ite_none_right_eq_some, Option.some.injEq] at h
    obtain ⟨⟨rfl, hfits⟩, rfl⟩ := h
    exact ⟨rfl, rfl, hfits⟩

end DistSys.Kv
