import DistSys.Schemes.Machine
import DistSys.Tester.Checks

/-! @go tester1/annotation.go | name:AnnotateConnection, annotateFault, AnnotateTwoPartitions,
    AnnotateShutdown, AnnotateRestart, AnnotateClearFailure | scheme:machine, fold |
    format:unambiguous

    The failures of a test, as one continuous annotation. The framework keeps two flags for each
    server, and shows them as text when a call changes them; a partition in two is shown as it is
    called and kept nowhere. So it stays on show until some flag changes:

        TwoPartitions [0 1] [2]    "partition = [0 1] [2]"
        Shutdown [2]               "partition = [0 1] / crash = [2]"
        Restart [2]                nothing
        ClearFailure               ends what is not there

    The servers of a text that stand alone in their brackets are followed by a blank, which is all
    that tells a server without connections from the one that is left of the others. -/

namespace DistSys.Tester
open GoString (lit itoa IsDigit)
open Machine (run run_cons run_append)

def colorFault : GoString := lit "#B3E5FC"

def tagPartition : GoString := lit "$ Failure"

/-- `%v` of a slice of numbers. -/
def formatInts (l : List ℕ) : GoString :=
  lit "[" ++ List.intercalate (lit " ") (l.map itoa) ++ lit "]"

/-- The variables of the loop in `annotateFault`. -/
structure FaultLoop where
  conn : List ℕ
  crashes : List ℕ
  builder : GoString

def faultLoop (crashed : List Bool) (s : FaultLoop) (e : Bool × ℕ) : Option FaultLoop :=
  crashed[e.2]?.map fun dead =>
    if dead then { s with crashes := s.crashes ++ [e.2] }
    else if e.1 then { s with conn := s.conn ++ [e.2] }
    else { s with builder := s.builder ++ (lit "[" ++ itoa e.2 ++ lit "] ") }

/-- The text of `annotateFault`. -/
def faultText (connected crashed : List Bool) : Option GoString :=
  (run (faultLoop crashed) ⟨[], [], lit "partition = "⟩ connected.zipIdx).map fun s =>
    s.builder ++ (if s.conn.length > 0 then formatInts s.conn else []) ++
      (if s.crashes.length > 0 then lit " / crash = " ++ formatInts s.crashes else [])

def annotateFault (g : Globals) (now : ℤ) : Option Globals :=
  if List.replicate g.finfo.nservers true = g.finfo.connected ∧
      List.replicate g.finfo.nservers false = g.finfo.crashed then
    some { g with an := g.an.annotateContinuousEnd now tagPartition }
  else
    (faultText g.finfo.connected g.finfo.crashed).map fun text =>
      { g with an := g.an.annotateContinuousColor now tagPartition text text colorFault }

/-- `copy`, which stops at the end of the shorter slice. -/
def copySlice (dst src : List Bool) : List Bool := src.take dst.length ++ dst.drop src.length

def annotateConnection (g : Globals) (now : ℤ) (connection : List Bool) : Option Globals :=
  if g.finfo.connected = connection then some g
  else annotateFault
    { g with finfo := { g.finfo with connected := copySlice g.finfo.connected connection } } now

def twoPartitionsText (p1 p2 : List ℕ) : GoString :=
  lit "partition = " ++ formatInts p1 ++ lit " " ++ formatInts p2

def annotateTwoPartitions (g : Globals) (now : ℤ) (p1 p2 : List ℕ) : Globals :=
  { g with
    an := g.an.annotateContinuousColor now tagPartition (twoPartitionsText p1 p2)
      (twoPartitionsText p1 p2) colorFault }

def annotateClearFailure (g : Globals) (now : ℤ) : Globals :=
  { an := g.an.annotateContinuousEnd now tagPartition
    finfo := { g.finfo with
      crashed := g.finfo.crashed.map fun _ => false
      connected := g.finfo.connected.map fun _ => true } }

/-- The loop of `AnnotateShutdown` and `AnnotateRestart`, over `crashed` and `changed`. -/
def markLoop (value : Bool) (s : List Bool × Bool) (id : ℕ) : Option (List Bool × Bool) :=
  s.1[id]?.map fun dead => (s.1.set id value, s.2 || dead != value)

/-- The servers are crashed, or not any more. -/
def annotateMark (value : Bool) (g : Globals) (now : ℤ) (servers : List ℕ) : Option Globals :=
  (run (markLoop value) (g.finfo.crashed, false) servers).bind fun s =>
    let g := { g with finfo := { g.finfo with crashed := s.1 } }
    if s.2 then annotateFault g now else some g

def annotateShutdown : Globals → ℤ → List ℕ → Option Globals := annotateMark true

def annotateRestart : Globals → ℤ → List ℕ → Option Globals := annotateMark false

def annotateShutdownAll (g : Globals) (now : ℤ) : Option Globals :=
  annotateShutdown g now (List.range g.finfo.nservers)

def annotateRestartAll (g : Globals) (now : ℤ) : Option Globals :=
  annotateRestart g now (List.range g.finfo.nservers)

/-! ### The text -/

section format

/-- The servers that `f` selects. -/
def selected (n : ℕ) (f : ℕ → Bool) : List ℕ := (List.range n).filter f

def alone (ids : List ℕ) : GoString := ids.flatMap fun id => lit "[" ++ itoa id ++ lit "] "

def together (conn crashes : List ℕ) : GoString :=
  (if conn.length > 0 then formatInts conn else []) ++
    (if crashes.length > 0 then lit " / crash = " ++ formatInts crashes else [])

/-- The loop sorts the servers into three lists. -/
theorem faultLoop_run (linked dead : ℕ → Bool) (n : ℕ) {m : ℕ} (hm : m ≤ n) :
    run (faultLoop ((List.range n).map dead)) ⟨[], [], lit "partition = "⟩
      ((List.range m).map fun id => (linked id, id)) =
    some ⟨selected m fun id => !dead id && linked id, selected m dead,
      lit "partition = " ++ alone (selected m fun id => !dead id && !linked id)⟩ := by
  induction m with
  | zero => rfl
  | succ m ih =>
    rw [List.range_succ, List.map_append, run_append]
    refine ⟨_, ih (by omega), run_cons.mpr ⟨_, ?_, rfl⟩⟩
    have hget : ((List.range n).map dead)[m]? = some (dead m) := by
      rw [List.getElem?_map, List.getElem?_range (by omega), Option.map_some]
    rw [faultLoop, hget, Option.map_some]
    rcases hdead : dead m with _ | _
    · rcases hlinked : linked m with _ | _
      · simp [selected, List.range_succ, hdead, hlinked, alone]
      · simp [selected, List.range_succ, hdead, hlinked]
    · simp [selected, List.range_succ, hdead]

def describe (n : ℕ) (linked dead : ℕ → Bool) : GoString :=
  lit "partition = " ++ (alone (selected n fun id => !dead id && !linked id) ++
    together (selected n fun id => !dead id && linked id) (selected n dead))

theorem faultText_eq (n : ℕ) (linked dead : ℕ → Bool) :
    faultText ((List.range n).map linked) ((List.range n).map dead) =
      some (describe n linked dead) := by
  have hzip : ((List.range n).map linked).zipIdx = (List.range n).map fun id =>
      (linked id, id) := by
    refine List.ext_getElem (by simp) fun i hi _ => ?_
    simp
  rw [faultText, hzip, faultLoop_run linked dead n le_rfl, Option.map_some, describe, together]
  simp only [List.append_assoc]

/-- What follows the first number of a list, and `s` after it. -/
def following (s : GoString) : List ℕ → GoString
  | [] => 0x5D :: s
  | y :: ys => 0x20 :: (itoa y ++ following s ys)

theorem formatInts_cons (x : ℕ) (xs : List ℕ) (s : GoString) :
    formatInts (x :: xs) ++ s = 0x5B :: (itoa x ++ following s xs) := by
  induction xs generalizing x with
  | nil => simp [formatInts, following, lit]
  | cons y ys ih =>
    have hrest := ih y
    simp only [formatInts, lit, List.map_cons, List.intercalate_cons_cons] at hrest ⊢
    simp only [following, List.append_assoc] at hrest ⊢
    simpa using hrest

theorem following_cons (s : GoString) (xs : List ℕ) :
    ∃ b t, following s xs = b :: t ∧ ¬ IsDigit b := by
  cases xs with
  | nil => exact ⟨_, _, rfl, by decide⟩
  | cons y ys => exact ⟨_, _, rfl, by decide⟩

theorem itoa_following_inj {x y : ℕ} {xs ys : List ℕ} {s t : GoString}
    (h : itoa x ++ following s xs = itoa y ++ following t ys) :
    x = y ∧ following s xs = following t ys := by
  obtain ⟨b, u, hb, hdigit⟩ := following_cons s xs
  obtain ⟨b', u', hb', hdigit'⟩ := following_cons t ys
  rw [hb, hb'] at h ⊢
  obtain ⟨hxy, hrest⟩ :=
    GoString.digits_append_inj (GoString.itoa_digits x) (GoString.itoa_digits y) hdigit hdigit' h
  exact ⟨GoString.itoa_injective hxy, hrest⟩

theorem following_inj {s t : GoString} {xs ys : List ℕ} (h : following s xs = following t ys) :
    xs = ys ∧ s = t := by
  induction xs generalizing ys with
  | nil =>
    cases ys with
    | nil => exact ⟨rfl, (List.cons.inj h).2⟩
    | cons y ys => exact absurd (List.cons.inj h).1 (by decide)
  | cons x xs ih =>
    cases ys with
    | nil => exact absurd (List.cons.inj h).1 (by decide)
    | cons y ys =>
      obtain ⟨rfl, hrest⟩ := itoa_following_inj (List.cons.inj h).2
      obtain ⟨rfl, rfl⟩ := ih hrest
      exact ⟨rfl, rfl⟩

theorem formatInts_inj {xs ys : List ℕ} {s t : GoString} (hx : xs ≠ []) (hy : ys ≠ [])
    (h : formatInts xs ++ s = formatInts ys ++ t) : xs = ys ∧ s = t := by
  obtain ⟨x, xs, rfl⟩ := List.exists_cons_of_ne_nil hx
  obtain ⟨y, ys, rfl⟩ := List.exists_cons_of_ne_nil hy
  rw [formatInts_cons, formatInts_cons] at h
  obtain ⟨rfl, hrest⟩ := itoa_following_inj (List.cons.inj h).2
  obtain ⟨rfl, rfl⟩ := following_inj hrest
  exact ⟨rfl, rfl⟩

def crashText (crashes : List ℕ) : GoString :=
  if crashes.length > 0 then lit " / crash = " ++ formatInts crashes else []

theorem together_nil (crashes : List ℕ) : together [] crashes = crashText crashes := rfl

theorem together_cons (x : ℕ) (xs crashes : List ℕ) :
    together (x :: xs) crashes = 0x5B :: (itoa x ++ following (crashText crashes) xs) := by
  rw [← formatInts_cons]
  simp [together, crashText]

/-- A text of crashes is empty, or goes on with a blank and a slash. -/
theorem crashText_cases (crashes : List ℕ) :
    crashText crashes = [] ∨ ∃ s, crashText crashes = 0x20 :: 0x2F :: s := by
  cases crashes with
  | nil => exact Or.inl rfl
  | cons k ks => exact Or.inr ⟨_, rfl⟩

theorem crashText_ne {b : UInt8} (hb : b ≠ 0x20) (crashes : List ℕ) (s : GoString) :
    crashText crashes ≠ b :: s := by
  intro h
  rcases crashText_cases crashes with hk | ⟨t, hk⟩
  · rw [hk] at h
    cases h
  · rw [hk] at h
    exact hb (List.cons.inj h).1.symm

theorem crashText_inj {ks ks' : List ℕ} (h : crashText ks = crashText ks') : ks = ks' := by
  rcases ks with _ | ⟨k, ks⟩ <;> rcases ks' with _ | ⟨k', ks'⟩
  · rfl
  · exact absurd h (by simp [crashText, lit])
  · exact absurd h (by simp [crashText, lit])
  · have htext : formatInts (k :: ks) ++ [] = formatInts (k' :: ks') ++ [] := by
      simpa [crashText] using h
    exact (formatInts_inj (List.cons_ne_nil _ _) (List.cons_ne_nil _ _) htext).1

theorem together_inj {xs ys ks ks' : List ℕ} (h : together xs ks = together ys ks') :
    xs = ys ∧ ks = ks' := by
  rcases xs with _ | ⟨x, xs⟩ <;> rcases ys with _ | ⟨y, ys⟩
  · rw [together_nil, together_nil] at h
    exact ⟨rfl, crashText_inj h⟩
  · rw [together_nil, together_cons] at h
    exact absurd h (crashText_ne (by decide) ks _)
  · rw [together_nil, together_cons] at h
    exact absurd h.symm (crashText_ne (by decide) ks' _)
  · rw [together_cons, together_cons] at h
    obtain ⟨rfl, hrest⟩ := itoa_following_inj (List.cons.inj h).2
    obtain ⟨rfl, hcrash⟩ := following_inj hrest
    exact ⟨rfl, crashText_inj hcrash⟩

theorem alone_cons (d : ℕ) (ds : List ℕ) (s : GoString) :
    alone (d :: ds) ++ s = 0x5B :: (itoa d ++ following (0x20 :: (alone ds ++ s)) []) := by
  simp [alone, following, lit]

/-- No text of this kind begins with a slash. -/
theorem alone_together_ne (ds xs ks : List ℕ) (s : GoString) :
    alone ds ++ together xs ks ≠ 0x2F :: s := by
  intro h
  rcases ds with _ | ⟨d, ds⟩
  · rcases xs with _ | ⟨x, xs⟩
    · exact crashText_ne (by decide) ks s h
    · rw [together_cons] at h
      exact absurd (List.cons.inj h).1 (by decide)
  · rw [alone_cons] at h
    exact absurd (List.cons.inj h).1 (by decide)

/-- The blank after a server that stands alone tells it from the servers that are together. -/
theorem together_ne_alone (xs ks : List ℕ) (d : ℕ) (ds xs' ks' : List ℕ) :
    together xs ks ≠ alone (d :: ds) ++ together xs' ks' := by
  intro h
  rw [alone_cons] at h
  rcases xs with _ | ⟨x, xs⟩
  · exact crashText_ne (by decide) ks _ h
  · rw [together_cons] at h
    obtain ⟨-, hrest⟩ := itoa_following_inj (List.cons.inj h).2
    obtain ⟨-, hcrash⟩ := following_inj hrest
    rcases crashText_cases ks with hk | ⟨t, hk⟩
    · rw [hk] at hcrash
      cases hcrash
    · rw [hk] at hcrash
      exact alone_together_ne ds xs' ks' t (List.cons.inj hcrash).2.symm

theorem alone_inj {ds ds' xs xs' ks ks' : List ℕ}
    (h : alone ds ++ together xs ks = alone ds' ++ together xs' ks') :
    ds = ds' ∧ xs = xs' ∧ ks = ks' := by
  induction ds generalizing ds' with
  | nil =>
    cases ds' with
    | nil => exact ⟨rfl, together_inj h⟩
    | cons d' ds' => exact absurd h (together_ne_alone xs ks d' ds' xs' ks')
  | cons d ds ih =>
    cases ds' with
    | nil => exact absurd h.symm (together_ne_alone xs' ks' d ds xs ks)
    | cons d' ds' =>
      rw [alone_cons, alone_cons] at h
      obtain ⟨rfl, hrest⟩ := itoa_following_inj (List.cons.inj h).2
      obtain ⟨rfl, hlists⟩ := ih (List.cons.inj (following_inj hrest).2).2
      exact ⟨rfl, hlists⟩

theorem selected_inj {n : ℕ} {f g : ℕ → Bool} (h : selected n f = selected n g) :
    ∀ id < n, f id = g id := by
  intro id hid
  have hmem : id ∈ selected n f ↔ id ∈ selected n g := by rw [h]
  simp only [selected, List.mem_filter, List.mem_range, hid, true_and] at hmem
  exact Bool.eq_iff_iff.mpr hmem

theorem describe_inj {n : ℕ} {linked dead linked' dead' : ℕ → Bool} :
    describe n linked dead = describe n linked' dead' ↔
      ∀ id < n, dead id = dead' id ∧ (dead id = false → linked id = linked' id) := by
  constructor
  · intro h id hid
    obtain ⟨-, hconn, hdead⟩ := alone_inj (List.append_cancel_left h)
    have hd := selected_inj hdead id hid
    refine ⟨hd, fun hup => ?_⟩
    have hc := selected_inj hconn id hid
    simpa [← hd, hup] using hc
  · intro h
    have hsame : ∀ {f g : ℕ → Bool}, (∀ id < n, f id = g id) →
        selected n f = selected n g := fun hfg =>
      List.filter_congr fun id hid => hfg id (List.mem_range.mp hid)
    have hpart : ∀ b, selected n (fun id => !dead id && (linked id == b)) =
        selected n fun id => !dead' id && (linked' id == b) := fun b => hsame fun id hid => by
      rcases hdead : dead id with _ | _
      · rw [← (h id hid).1, hdead, (h id hid).2 hdead]
      · rw [← (h id hid).1, hdead]
        rfl
    have hfalse := hpart false
    have htrue := hpart true
    simp only [beq_true, beq_false] at hfalse htrue
    rw [describe, describe, hfalse, htrue, hsame fun id hid => (h id hid).1]

/-- CORRECT: for any number of servers, the text of the flags tells which servers have crashed, and
    which of the others are connected. -/
theorem fault_text_exact {connected crashed connected' crashed' : List Bool} {n : ℕ}
    (h₁ : connected.length = n) (h₂ : crashed.length = n) (h₃ : connected'.length = n)
    (h₄ : crashed'.length = n) : (∃ text, faultText connected crashed = some text) ∧
    (faultText connected crashed = faultText connected' crashed' ↔
      crashed = crashed' ∧ ∀ id : ℕ, crashed[id]? = some false →
        connected[id]? = connected'[id]?) := by
  have hflags : ∀ {l : List Bool}, l.length = n →
      l = (List.range n).map fun id => l.getD id false := by
    intro l hl
    refine List.ext_getElem (by simp [hl]) fun i hi _ => ?_
    simp [List.getElem?_eq_getElem hi]
  have hget : ∀ {l : List Bool} {id : ℕ}, l.length = n → id < n →
      l[id]? = some (l.getD id false) := by
    intro l id hl hid
    simp [List.getElem?_eq_getElem (hl ▸ hid)]
  have htext := faultText_eq n (fun id => connected.getD id false) fun id => crashed.getD id false
  have htext' :=
    faultText_eq n (fun id => connected'.getD id false) fun id => crashed'.getD id false
  rw [← hflags h₁, ← hflags h₂] at htext
  rw [← hflags h₃, ← hflags h₄] at htext'
  refine ⟨⟨_, htext⟩, ?_⟩
  rw [htext, htext', Option.some.injEq, describe_inj]
  constructor
  · intro h
    refine ⟨?_, fun id hup => ?_⟩
    · rw [hflags h₂, hflags h₄]
      exact List.map_congr_left fun id hid => (h id (List.mem_range.mp hid)).1
    · obtain ⟨hid, -⟩ := List.getElem?_eq_some_iff.mp hup
      rw [h₂] at hid
      rw [hget h₂ hid, Option.some.injEq] at hup
      rw [hget h₁ hid, hget h₃ hid, (h id hid).2 hup]
  · rintro ⟨rfl, hlinked⟩ id hid
    refine ⟨rfl, fun hup => ?_⟩
    have hsame := hlinked id (by rw [hget h₂ hid, hup])
    rwa [hget h₁ hid, hget h₃ hid, Option.some.injEq] at hsame

/-- Servers 0 and 1 of two have lost their connections, or only server 0: a blank at the end
    tells. -/
theorem fault_text_exact_two :
    faultText [false, false] [false, false] = some (lit "partition = [0] [1] ") ∧
    faultText [false, true] [false, false] = some (lit "partition = [0] [1]") ∧
    faultText [false, false] [false, false] ≠ faultText [false, true] [false, false] := by
  refine ⟨by decide +kernel, by decide +kernel, fun h => ?_⟩
  have hsame := ((fault_text_exact (n := 2) rfl rfl rfl rfl).2.mp h).2 1 rfl
  cases hsame

end format

/-! ### Calls -/

inductive FaultOp where
  | connection (connection : List Bool)
  | twoPartitions (p1 p2 : List ℕ)
  | clearFailure
  | shutdown (servers : List ℕ)
  | shutdownAll
  | restart (servers : List ℕ)
  | restartAll
  /-- a check, or some other annotation in between -/
  | other (op : CheckOp)
  deriving DecidableEq

/-- A call, with the time it reads. -/
structure FaultCall where
  now : ℤ
  op : FaultOp

def Globals.fault (g : Globals) (c : FaultCall) : Option Globals :=
  match c.op with
  | .connection connection => annotateConnection g c.now connection
  | .twoPartitions p1 p2 => some (annotateTwoPartitions g c.now p1 p2)
  | .clearFailure => some (annotateClearFailure g c.now)
  | .shutdown servers => annotateShutdown g c.now servers
  | .shutdownAll => annotateShutdownAll g c.now
  | .restart servers => annotateRestart g c.now servers
  | .restartAll => annotateRestartAll g c.now
  | .other op => some (g.call ⟨c.now, op⟩)

def AnnotateOp.tag : AnnotateOp → GoString
  | .point tag _ _ _ => tag
  | .interval tag _ _ _ _ => tag
  | .continuous tag _ _ _ => tag
  | .continuousEnd tag => tag

/-- Servers are named by their numbers, all flags are given, and nobody else annotates failures. -/
def FaultOp.Proper (n : ℕ) : FaultOp → Prop
  | .connection l => l.length = n
  | .shutdown servers => ∀ id ∈ servers, id < n
  | .restart servers => ∀ id ∈ servers, id < n
  | .other (.annotate op) => op.tag ≠ tagPartition
  | _ => True

/-! ### What should be shown -/

/-- Whether a call says of a server that it has crashed. -/
def FaultOp.marks (id : ℕ) : FaultOp → Option Bool
  | .shutdown servers => if id ∈ servers then some true else none
  | .shutdownAll => some true
  | .restart servers => if id ∈ servers then some false else none
  | .restartAll => some false
  | .clearFailure => some false
  | _ => none

/-- Whether a call says of a server that it is connected. -/
def FaultOp.links (id : ℕ) : FaultOp → Option Bool
  | .connection l => l[id]?
  | .clearFailure => some true
  | _ => none

/-- What was last said of each server, and the partition in two that was announced after that. -/
structure Failure where
  linked : ℕ → Bool
  dead : ℕ → Bool
  split : Option (List ℕ × List ℕ)

namespace Failure

def start : Failure := ⟨fun _ => true, fun _ => false, none⟩

/-- The same is known of the servers of the test. -/
def Same (n : ℕ) (f f' : Failure) : Prop :=
  ∀ id < n, f'.linked id = f.linked id ∧ f'.dead id = f.dead id

instance instDecidableSame (n : ℕ) (f f' : Failure) : Decidable (Same n f f') :=
  inferInstanceAs (Decidable (∀ id < n, _ ∧ _))

def said (f : Failure) (op : FaultOp) : Failure where
  linked id := (op.links id).getD (f.linked id)
  dead id := (op.marks id).getD (f.dead id)
  split := none

def step (n : ℕ) (f : Failure) (op : FaultOp) : Failure :=
  match op with
  | .twoPartitions p1 p2 => { f with split := some (p1, p2) }
  | .clearFailure => f.said op
  | op => if Same n f (f.said op) then f else f.said op

def Well (n : ℕ) (f : Failure) : Prop := ∀ id < n, f.linked id = true ∧ f.dead id = false

instance instDecidableWell (n : ℕ) (f : Failure) : Decidable (f.Well n) :=
  inferInstanceAs (Decidable (∀ id < n, _ ∧ _))

/-- The text on show, if there is one. -/
def shown (n : ℕ) (f : Failure) : Option GoString :=
  match f.split with
  | some (p1, p2) => some (twoPartitionsText p1 p2)
  | none => if f.Well n then none else some (describe n f.linked f.dead)

/-- The failures that are cleared while there is nothing on show. -/
def idleClears (n : ℕ) : Failure → List FaultOp → ℕ
  | _, [] => 0
  | f, op :: ops => (if op = .clearFailure ∧ f.shown n = none then 1 else 0) +
      idleClears n (f.step n op) ops

end Failure

/-! ### The annotation of failures -/

section annotation
variable {an : Annotation} (now : ℤ) (text : GoString)

/-- The text of the open annotation of a failure. -/
def Annotation.failure (an : Annotation) : Option GoString :=
  (an.continuous.lookup tagPartition).map Continuous.desp

/-- The annotations of failures without a text. -/
def Annotation.blanks (an : Annotation) : ℕ :=
  an.annotations.countP fun a => a.tag = tagPartition ∧ a.description = []

theorem failure_of_lookup {cont : Continuous} (h : an.continuous.lookup tagPartition = some cont) :
    an.failure = some cont.desp := congrArg (Option.map Continuous.desp) h

theorem failure_continuous :
    (an.annotateContinuousColor now tagPartition text text colorFault).failure = some text := by
  rw [annotateContinuousColor_eq, Annotation.failure]
  simp

/-- An annotation with a text ends when the next one begins. -/
theorem blanks_continuous (h : ∀ old, an.failure = some old → old ≠ []) :
    (an.annotateContinuousColor now tagPartition text text colorFault).blanks = an.blanks := by
  rw [annotateContinuousColor_eq, Annotation.blanks, Annotation.blanks, List.countP_append]
  rcases hlook : an.continuous.lookup tagPartition with _ | cont
  · simp
  · have hdesp : cont.desp ≠ [] := h _ (failure_of_lookup hlook)
    simp [Continuous.ending, hdesp]

theorem failure_end : (an.annotateContinuousEnd now tagPartition).failure = none := by
  simp [Finmap.lookup_erase, Annotation.annotateContinuousEnd, Annotation.failure]

/-- An end records a text, or an annotation without one if nothing is open. -/
theorem blanks_end (h : ∀ old, an.failure = some old → old ≠ []) :
    (an.annotateContinuousEnd now tagPartition).blanks = an.blanks + if an.failure = none then 1
      else 0 := by
  unfold Annotation.annotateContinuousEnd Annotation.blanks
  rw [List.countP_append]
  rcases hlook : an.continuous.lookup tagPartition with _ | cont
  · simp [hlook, Annotation.failure, Continuous.ending]
  · have hdesp : cont.desp ≠ [] := h _ (failure_of_lookup hlook)
    simp [failure_of_lookup hlook, Continuous.ending, hdesp]

theorem blanks_record {an : Annotation} {a : PorcupineAnnotation} (h : a.tag ≠ tagPartition) :
    ({ an with annotations := an.annotations ++ [a] } : Annotation).blanks = an.blanks := by
  simp [h, Annotation.blanks, List.countP_append]

/-- An annotation with another tag leaves the failures alone. -/
theorem failure_elsewhere {op : AnnotateOp} (h : op.tag ≠ tagPartition) :
    (an.call ⟨now, op⟩).failure = an.failure ∧ (an.call ⟨now, op⟩).blanks = an.blanks := by
  cases op with
  | point tag desp details bgcolor => exact ⟨rfl, blanks_record h⟩
  | interval tag start desp details bgcolor => exact ⟨rfl, blanks_record h⟩
  | continuous tag desp details bgcolor =>
    have hne : tag ≠ tagPartition := h
    have hcall : an.call ⟨now, .continuous tag desp details bgcolor⟩ =
      an.annotateContinuousColor now tag desp details bgcolor := rfl
    rw [hcall, annotateContinuousColor_eq]
    refine ⟨?_, ?_⟩
    · simp [Finmap.lookup_insert_of_ne _ hne.symm, Annotation.failure]
    · rcases an.continuous.lookup tag with _ | cont
      · unfold Annotation.blanks
        simp
      · simp [hne, Annotation.blanks, List.countP_append, Continuous.ending]
  | continuousEnd tag =>
    have hne : tag ≠ tagPartition := h
    refine ⟨?_, ?_⟩
    · simp [Finmap.lookup_erase_ne hne.symm, Annotation.call, Annotation.annotateContinuousEnd,
        Annotation.failure]
    · exact blanks_record h

end annotation

/-! ### Whole histories -/

section histories
variable {n k : ℕ} {f : Failure} {g : Globals} (now : ℤ)

/-- The flags are what was last said, and the text is on show. -/
structure Failure.On (n : ℕ) (f : Failure) (k : ℕ) (g : Globals) : Prop where
  nservers : g.finfo.nservers = n
  connected : g.finfo.connected = (List.range n).map f.linked
  crashed : g.finfo.crashed = (List.range n).map f.dead
  failure : g.an.failure = f.shown n
  blanks : g.an.blanks = k

theorem Failure.shown_ne {text : GoString} (h : f.shown n = some text) : text ≠ [] := by
  rw [Failure.shown] at h
  split at h
  · obtain rfl := Option.some.inj h
    simp [twoPartitionsText, lit]
  · split at h
    · cases h
    · obtain rfl := Option.some.inj h
      simp [describe, lit]

theorem Failure.shown_of_not_well (h : ¬ f.Well n) : f.shown n ≠ none := by
  rw [Failure.shown]
  split
  · exact Option.some_ne_none _
  · rw [if_neg h]
    exact Option.some_ne_none _

theorem Failure.On.text (h : f.On n k g) : ∀ old, g.an.failure = some old →
    old ≠ [] := fun _ hold =>
  Failure.shown_ne (h.failure.symm.trans hold)

theorem map_range_eq_iff {p q : ℕ → Bool} :
    (List.range n).map p = (List.range n).map q ↔ ∀ id < n, p id = q id := by
  simp [List.map_inj_left]

theorem Failure.well_iff : f.Well n ↔ List.replicate n true = (List.range n).map f.linked ∧
    List.replicate n false = (List.range n).map f.dead := by
  have hconst : ∀ b : Bool, List.replicate n b = (List.range n).map fun _ => b := by simp
  rw [hconst, hconst, map_range_eq_iff, map_range_eq_iff, ← forall₂_and]
  exact forall₂_congr fun id _ => and_congr eq_comm eq_comm

/-- `annotateFault` shows the flags. It has something to end, if there was something on show. -/
theorem annotateFault_on (hn : g.finfo.nservers = n)
    (hc : g.finfo.connected = (List.range n).map f.linked)
    (hd : g.finfo.crashed = (List.range n).map f.dead) (hsplit : f.split = none)
    (hold : ∀ old, g.an.failure = some old → old ≠ []) (hopen : f.Well n → g.an.failure ≠ none) :
    ∃ g', annotateFault g now = some g' ∧ f.On n g.an.blanks g' := by
  have hshown : f.shown n = if f.Well n then none else some (describe n f.linked f.dead) := by
    rw [Failure.shown, hsplit]
  rw [annotateFault, hn, hc, hd, faultText_eq]
  by_cases hwell : f.Well n
  · rw [if_pos (Failure.well_iff.mp hwell)]
    refine ⟨_, rfl, hn, hc, hd, ?_, ?_⟩
    · rw [hshown, if_pos hwell]
      exact failure_end now
    · have hblanks := blanks_end now hold
      rwa [if_neg (hopen hwell), Nat.add_zero] at hblanks
  · rw [if_neg fun hall => hwell (Failure.well_iff.mpr hall)]
    refine ⟨_, rfl, hn, hc, hd, ?_, blanks_continuous now _ hold⟩
    rw [hshown, if_neg hwell]
    exact failure_continuous now _

/-- Flags that differ from those before are shown. If all is well now, it was not before. -/
theorem Failure.On.changed (h : f.On n k g) {op : FaultOp} (hdiff : ¬ Failure.Same n f (f.said op))
    {finfo : FrameworkInfo} (hn : finfo.nservers = n)
    (hc : finfo.connected = (List.range n).map (f.said op).linked)
    (hd : finfo.crashed = (List.range n).map (f.said op).dead) :
    ∃ g', annotateFault { g with finfo := finfo } now = some g' ∧ (f.said op).On n k g' := by
  have hopen : (f.said op).Well n → g.an.failure ≠ none := by
    intro hwell
    rw [h.failure]
    refine Failure.shown_of_not_well fun hwas => hdiff fun id hid => ?_
    rw [(hwell id hid).1, (hwell id hid).2, (hwas id hid).1, (hwas id hid).2]
    exact ⟨rfl, rfl⟩
  have hfault := annotateFault_on (g := { g with finfo := finfo }) now hn hc hd rfl h.text hopen
  rwa [h.blanks] at hfault

/-- `AnnotateConnection`. -/
theorem Failure.On.connection (h : f.On n k g) {l : List Bool} (hl : l.length = n) :
    ∃ g', annotateConnection g now l = some g' ∧
      Failure.On n
        (if Failure.Same n f (f.said (.connection l)) then f else f.said (.connection l)) k g' := by
  have hsaid : l = (List.range n).map (f.said (.connection l)).linked := by
    refine List.ext_getElem (by simp [hl]) fun i hi _ => ?_
    simp [Failure.said, FaultOp.links, List.getElem?_eq_getElem hi]
  have hsame : g.finfo.connected = l ↔ Failure.Same n f (f.said (.connection l)) := by
    have hlists : g.finfo.connected = l ↔ ∀ id < n,
        f.linked id = (f.said (.connection l)).linked id := by
      rw [← map_range_eq_iff, ← hsaid, h.connected]
    exact hlists.trans
      (forall₂_congr fun id _ => ⟨fun heq => ⟨heq.symm, rfl⟩, fun heq => heq.1.symm⟩)
  rw [annotateConnection]
  by_cases heq : g.finfo.connected = l
  · rw [if_pos heq, if_pos (hsame.mp heq)]
    exact ⟨g, rfl, h⟩
  · rw [if_neg heq, if_neg fun hs => heq (hsame.mpr hs)]
    have hlen : g.finfo.connected.length = n := by
      rw [h.connected, List.length_map, List.length_range]
    have hcopy : copySlice g.finfo.connected l = l := by
      rw [copySlice, hlen, ← hl, List.take_length, hl, ← hlen, List.drop_length, List.append_nil]
    rw [hcopy]
    exact h.changed now (fun hs => heq (hsame.mpr hs)) h.nservers hsaid h.crashed

/-- The loop marks the servers, and notices whether one of them was not marked. -/
theorem markLoop_run (value : Bool) (dead : ℕ → Bool) (changed : Bool) (servers : List ℕ)
    (hs : ∀ id ∈ servers, id < n) :
    run (markLoop value) ((List.range n).map dead, changed) servers =
      some ((List.range n).map fun id => if id ∈ servers then value else dead id,
        changed || servers.any fun id => dead id != value) := by
  induction servers generalizing dead changed with
  | nil => simp
  | cons j servers ih =>
    have hj : j < n := hs j List.mem_cons_self
    have hget : ((List.range n).map dead)[j]? = some (dead j) := by
      rw [List.getElem?_map, List.getElem?_range hj, Option.map_some]
    have hset : ((List.range n).map dead).set j value =
        (List.range n).map fun id => if id = j then value else dead id := by
      refine List.ext_getElem (by simp) fun i _ _ => ?_
      simp [List.getElem_set, eq_comm]
    refine run_cons.mpr
      ⟨(_, changed || dead j != value), by rw [markLoop, hget, Option.map_some, hset], ?_⟩
    rw [ih _ _ fun id hid => hs id (List.mem_cons_of_mem _ hid)]
    congr 2
    · refine List.map_congr_left fun id _ => ?_
      rcases eq_or_ne id j with rfl | hne
      · simp
      · simp [hne]
    · rw [Bool.eq_iff_iff]
      simp only [Bool.or_eq_true, List.any_eq_true, List.any_cons, bne_iff_ne, ne_eq, or_assoc]
      refine or_congr_right
        (or_congr_right' fun hjv => exists_congr fun id => and_congr_right fun _ => ?_)
      rcases eq_or_ne id j with rfl | hne
      · simpa using hjv
      · simp [hne]

/-- `AnnotateShutdown` and `AnnotateRestart`, of some servers or of all. -/
theorem Failure.On.mark (h : f.On n k g) {value : Bool} {servers : List ℕ}
    (hs : ∀ id ∈ servers, id < n) {op : FaultOp} (hlinks : ∀ id, op.links id = none)
    (hmarks : ∀ id < n, op.marks id = if id ∈ servers then some value else none) :
    ∃ g', annotateMark value g now servers = some g' ∧
      (if Failure.Same n f (f.said op) then f else f.said op).On n k g' := by
  have hlinked : (f.said op).linked = f.linked := funext fun id => by simp [Failure.said, hlinks]
  have hsaid : ∀ id < n, (f.said op).dead id = if id ∈ servers then value else f.dead id :=
    fun id hid => by
    have hmark : (f.said op).dead id = (op.marks id).getD (f.dead id) := rfl
    rw [hmark, hmarks id hid]
    split <;> rfl
  have hdead : ((List.range n).map fun id => if id ∈ servers then value else f.dead id) =
      (List.range n).map (f.said op).dead := by
    exact List.map_congr_left fun id hid => (hsaid id (List.mem_range.mp hid)).symm
  have hsame : (servers.any fun id => f.dead id != value) = true ↔
      ¬ Failure.Same n f (f.said op) := by
    rw [List.any_eq_true, Failure.Same, hlinked]
    constructor
    · rintro ⟨id, hid, hne⟩ hall
      have hd := (hall id (hs id hid)).2
      rw [hsaid id (hs id hid), if_pos hid] at hd
      simp [hd] at hne
    · intro hall
      by_contra hnone
      refine hall fun id hid => ⟨rfl, ?_⟩
      rw [hsaid id hid]
      split
      · next hmem =>
        by_contra hne
        exact hnone ⟨id, hmem, by simpa using Ne.symm hne⟩
      · rfl
  rw [annotateMark, h.crashed, markLoop_run value f.dead false servers hs,
    Option.bind_some, Bool.false_or, hdead]
  by_cases hdiff : Failure.Same n f (f.said op)
  · rw [if_pos hdiff, if_neg fun hany => hsame.mp hany hdiff]
    refine ⟨_, rfl, h.nservers, h.connected, ?_, h.failure, h.blanks⟩
    exact map_range_eq_iff.mpr fun id hid => (hdiff id hid).2
  · rw [if_neg hdiff, if_pos (hsame.mpr hdiff)]
    exact h.changed now hdiff h.nservers (by rw [hlinked]; exact h.connected) rfl

theorem Failure.On.other (h : f.On n k g) {op : CheckOp}
    (hop : (FaultOp.other op).Proper n) : f.On n k (g.call ⟨now, op⟩) := by
  have hend : ∀ desp details color, f.On n k (annotateCheckerEnd g now desp details color) := by
    intro desp details color
    have htag : tagChecker ≠ tagPartition := by decide
    rw [annotateCheckerEnd]
    split
    · exact ⟨h.nservers, h.connected, h.crashed, h.failure, (blanks_record htag).trans h.blanks⟩
    · exact ⟨h.nservers, h.connected, h.crashed, h.failure, (blanks_record htag).trans h.blanks⟩
  cases op with
  | checkerBegin details => exact ⟨h.nservers, h.connected, h.crashed, h.failure, h.blanks⟩
  | checkerEnd desp details color => exact hend desp details color
  | success desp details => exact hend desp details colorSuccess
  | failure desp details => exact hend desp details colorFailure
  | neutral desp details => exact hend desp details colorNeutral
  | annotate op =>
    have htag : op.tag ≠ tagPartition := hop
    obtain ⟨hfailure, hblanks⟩ := failure_elsewhere now htag
    exact ⟨h.nservers, h.connected, h.crashed, hfailure.trans h.failure, hblanks.trans h.blanks⟩

/-- Every call goes through and shows what it should; clearing what is not there leaves a blank. -/
theorem Failure.On.step (h : f.On n k g) {op : FaultOp} (hop : op.Proper n) :
    ∃ g', g.fault ⟨now, op⟩ = some g' ∧
      (f.step n op).On n (k + if op = .clearFailure ∧ f.shown n = none then 1 else 0) g' := by
  have hk : ∀ {op : FaultOp}, op ≠ .clearFailure →
      (k + if op = .clearFailure ∧ f.shown n = none then 1 else 0) = k := fun hne => by simp [hne]
  have hall : ∀ id ∈ List.range g.finfo.nservers, id < n :=
    fun id hid => h.nservers ▸ List.mem_range.mp hid
  cases op with
  | connection l =>
    rw [hk (by simp)]
    exact h.connection now hop
  | twoPartitions p1 p2 =>
    rw [hk (by simp)]
    refine ⟨_, rfl, h.nservers, h.connected, h.crashed, failure_continuous now _, ?_⟩
    exact (blanks_continuous now _ h.text).trans h.blanks
  | clearFailure =>
    have hwell : (f.said .clearFailure).Well n := fun id _ => ⟨rfl, rfl⟩
    have hshown : (f.said .clearFailure).shown n = none := if_pos hwell
    refine ⟨_, rfl, h.nservers, ?_, ?_, (failure_end now).trans hshown.symm, ?_⟩
    · simp [annotateClearFailure, h.connected, Failure.step, Failure.said, FaultOp.links]
    · simp [annotateClearFailure, h.crashed, Failure.step, Failure.said, FaultOp.marks]
    · refine (blanks_end now h.text).trans ?_
      simp [h.blanks, h.failure]
  | shutdown servers =>
    rw [hk (by simp)]
    exact h.mark now hop (fun _ => rfl) fun _ _ => rfl
  | shutdownAll =>
    rw [hk (by simp)]
    exact h.mark now hall (fun _ => rfl) fun id hid => by simp [FaultOp.marks, h.nservers, hid]
  | restart servers =>
    rw [hk (by simp)]
    exact h.mark now hop (fun _ => rfl) fun _ _ => rfl
  | restartAll =>
    rw [hk (by simp)]
    exact h.mark now hall (fun _ => rfl) fun id hid => by simp [FaultOp.marks, h.nservers, hid]
  | other op =>
    have hsame : Failure.Same n f (f.said (.other op)) := fun _ _ => ⟨rfl, rfl⟩
    have hstep : f.step n (.other op) = f := if_pos hsame
    rw [hk (by simp), hstep]
    exact ⟨_, rfl, h.other now hop⟩

/-- A history of calls. -/
theorem Failure.On.run (h : f.On n k g) {cs : List FaultCall} (hcs : ∀ c ∈ cs, c.op.Proper n) :
    ∃ g', run Globals.fault g cs = some g' ∧
      ((cs.map FaultCall.op).foldl (Failure.step n) f).On n
        (k + Failure.idleClears n f (cs.map FaultCall.op)) g' := by
  induction cs generalizing f k g with
  | nil => exact ⟨g, rfl, h⟩
  | cons c cs ih =>
    obtain ⟨g₁, hstep, h₁⟩ := h.step c.now (hcs c List.mem_cons_self)
    obtain ⟨g', hrun, h'⟩ := ih h₁ fun c' hc' => hcs c' (List.mem_cons_of_mem _ hc')
    refine ⟨g', run_cons.mpr ⟨g₁, hstep, hrun⟩, ?_⟩
    rwa [List.map_cons, List.foldl_cons, Failure.idleClears, ← Nat.add_assoc]

theorem Failure.on_start (an : Annotation) (now : ℤ) (desp : GoString) (n : ℕ) :
    Failure.start.On n 0 (annotateTest an now desp n) := by
  have hwell : Failure.start.Well n := fun _ _ => ⟨rfl, rfl⟩
  refine ⟨rfl, ?_, ?_, ?_, ?_⟩
  · simp [annotateTest, mkFrameworkInfo, Failure.start]
  · simp [annotateTest, mkFrameworkInfo, Failure.start]
  · rw [Failure.shown, show Failure.start.split = none from rfl]
    exact (if_pos hwell).symm
  · have htag : tagInfo ≠ tagPartition := by decide
    exact blanks_record htag

/-- CORRECT: after any calls the flags are what was last said of each server, and the open
    annotation has the text of the last partition in two, if no flag has changed since, and
    otherwise of the flags, or there is none if all is well. There are as many annotations of a
    failure without a text as failures have been cleared while nothing was on show. -/
theorem failures_shown (an : Annotation) (now : ℤ) (desp : GoString) (n : ℕ) (cs : List FaultCall)
    (hcs : ∀ c ∈ cs, c.op.Proper n) :
    ∃ g, run Globals.fault (annotateTest an now desp n) cs = some g ∧
      g.finfo.connected =
        (List.range n).map ((cs.map FaultCall.op).foldl (Failure.step n) .start).linked ∧
      g.finfo.crashed =
        (List.range n).map ((cs.map FaultCall.op).foldl (Failure.step n) .start).dead ∧
      (g.an.continuous.lookup tagPartition).map Continuous.desp =
        ((cs.map FaultCall.op).foldl (Failure.step n) .start).shown n ∧
      (g.an.annotations.filter fun a => a.tag = tagPartition ∧ a.description = []).length =
        Failure.idleClears n .start (cs.map FaultCall.op) := by
  obtain ⟨g, hrun, h⟩ := (Failure.on_start an now desp n).run hcs
  refine ⟨g, hrun, h.connected, h.crashed, h.failure, ?_⟩
  rw [← List.countP_eq_length_filter, ← Nat.zero_add (Failure.idleClears _ _ _)]
  exact h.blanks

/-- A partition of three servers is on show until a server crashes, and all is cleared twice. -/
theorem failures_shown_three : ∃ g, run Globals.fault (annotateTest ⟨[], ∅, false⟩ 1 (lit "t") 3)
      [⟨2, .twoPartitions [0, 1] [2]⟩, ⟨3, .shutdown [2]⟩, ⟨4, .clearFailure⟩, ⟨5, .clearFailure⟩] =
        some g ∧
    (g.an.annotations.filter fun a => a.tag = tagPartition ∧ a.description = []).length = 1 := by
  obtain ⟨g, hrun, -, -, -, hblanks⟩ := failures_shown ⟨[], ∅, false⟩ 1 (lit "t") 3
    [⟨2, .twoPartitions [0, 1] [2]⟩, ⟨3, .shutdown [2]⟩, ⟨4, .clearFailure⟩, ⟨5, .clearFailure⟩]
    (by simp [FaultOp.Proper])
  refine ⟨g, hrun, hblanks.trans ?_⟩
  decide +kernel

end histories

end DistSys.Tester
