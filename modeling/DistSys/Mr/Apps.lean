import DistSys.Mr.EndToEnd

/-! @go mrapps/wc.go, mrapps/crash.go, mrapps/nocrash.go, mr/worker.go | name:Map, Reduce, Worker |
    scheme:machine, grouping | end-to-end:applications

    What the outputs of a distributed job are for the applications it is tested with, whatever the
    inputs hold, and whichever workers crash. Word count splits at every rune that is not a letter,
    and at every byte that is not UTF-8, so that its words survive the intermediate files.

        contents ──runes──▶ l l . l \xFF l l l ──words──▶ [ll] [l] [lll] ──count──▶ (ll, 1) …

    And a worker that is told to exit finds all of that in place. -/

namespace DistSys.Mr
open GoString (lit itoa)
open Grouping (reduced valuesOf Insensitive)

/-! ### Outputs of any application -/

/-- The output files hold these records together, each in the file that its key selects. -/
def Job.Outputs (J : Job) (fs : Disk) (all : List (GoString × GoString)) : Prop :=
  ∃ records : ℕ → List (GoString × GoString),
    (∀ r < J.nReduce, fs.Holds (outName r) (render (records r))) ∧
    (∀ r < J.nReduce, ∀ p ∈ records r, ihash p.1 % J.nReduce = r) ∧
    ((List.range J.nReduce).flatMap records).Perm all

section outputs
variable {J : Job} {fs₀ : Disk}

/-- What reducing all emitted pairs at once gives. -/
theorem outputs_of_done (hP : J.Proper fs₀) (hu : J.EmitsUtf8 fs₀) {s : State} (hs : Safe J fs₀ s)
    (hd : s.coord.done = true) :
    J.Outputs s.fs
      (reduced (·.key) (·.value) J.reducef (sequentialPairs J.mapf (J.inputs fs₀))) := by
  have hparts : ∀ r, ((J.pairs fs₀ r J.files.length).mergeSort fun x y => x.key ≤ y.key).Perm
      ((sequentialPairs J.mapf (J.inputs fs₀)).filter fun kv => ihash kv.key % J.nReduce = r) :=
    fun r => (List.mergeSort_perm _ _).trans (List.Perm.of_eq (pairs_eq_filter hu r))
  refine ⟨J.records fs₀, fun r hr => ?_, fun r _ p hp => ?_, ?_⟩
  · rw [← hs.book.reduceLength] at hr
    have hflag : s.coord.reduceTasksDone = true := hs.book.allDone ▸ hd
    exact hs.reduces r _ (List.getElem?_eq_getElem hr)
      (hs.book.reduces.flag.mp hflag _ (List.getElem_mem hr))
  · obtain ⟨kv, hkv, hkey⟩ := List.mem_map.mp (Grouping.mem_reduced.mp hp).1
    have hmem := List.of_mem_filter ((hparts r).mem_iff.mp hkv)
    rw [← hkey]
    exact of_decide_eq_true hmem
  · exact Grouping.reduced_partition hP.reducef (fun k => Nat.mod_lt (ihash k) hP.nReduce)
      fun r _ => hparts r

/-- Once a job is done, its outputs are in place, then and ever after. -/
theorem outputs_run (hP : J.Proper fs₀) (hu : J.EmitsUtf8 fs₀)
    {acts acts' : List Action} {s s' : State}
    (hrun : Machine.run (jobStep J) (J.start fs₀) acts = some s) (hd : s.coord.done = true)
    (hrun' : Machine.run (jobStep J) s acts' = some s') :
    J.Outputs s'.fs
      (reduced (·.key) (·.value) J.reducef (sequentialPairs J.mapf (J.inputs fs₀))) := by
  have hs : Safe J fs₀ s := Machine.run_invariant (safe_step hP) (safe_start hP) hrun
  have hs' : Safe J fs₀ s' := Machine.run_invariant (safe_step hP) hs hrun'
  have hd' : s'.coord.done = true := Machine.run_relation
    (fun s a s' hs h => ⟨safe_step hP s a s' hs h, done_step s a s' hs h⟩) (fun _ => id)
    (fun _ _ _ h h' hd => h' (h hd)) hs hrun' hd
  exact outputs_of_done hP hu hs' hd'

end outputs

/-! ### Turns of one worker -/

/-- A worker does a map task with `n` pairs in one bucket. -/
def mapTurn (w n : ℕ) (ck : Clock) : List Action :=
  [.ask w, .handle 0 ck, .deliver 0, .work w .go, .work w (.random [])] ++
    List.replicate (n + 2) (.work w .go) ++ [.notify w, .handle 0 ck, .callReturns w]

/-- A worker does a reduce task with one input, and sorts what it has read to `kva`, of `n` keys. -/
def reduceTurn (w n : ℕ) (kva : List KeyValue) (ck : Clock) : List Action :=
  [.ask w, .handle 0 ck, .deliver 0, .work w .go, .work w (.chunk 500), .work w (.chunk 0),
    .work w (.sorted kva), .work w (.random [])] ++ List.replicate (n + 1) (.work w .go) ++
    [.notify w, .handle 0 ck, .callReturns w]

/-- All clocks read the same time. -/
def still (now : Time) : Clock := ⟨fun _ => now, now⟩

/-! ### A worker that exits -/

section exits
variable {J : Job} {fs₀ : Disk}

/-- Nobody is told to exit, or has exited, before the job is done. -/
structure Told (s : State) : Prop where
  replies : ∀ p ∈ s.replies, p.2.taskType = .exit → s.coord.done = true
  workers : ∀ w, s.workers w = .exited → s.coord.done = true

theorem workerStep_exited {fs fs' : Disk} {pc pc' : Pc} {choice : Choice}
    (h : workerStep J fs pc choice = some (fs', pc')) : pc' ≠ .exited := by
  rintro rfl
  unfold workerStep at h
  repeat' split at h
  all_goals first
    | cases h
    | exact absurd (Option.map_eq_some_iff.mp h) (by simp)

theorem dispatch_exited {reply : CoordinatorReply} (h : dispatch reply = .exited) :
    reply.taskType = .exit := by
  unfold dispatch at h
  split at h
  all_goals first | assumption | cases h

theorem assignTask_exit {ck : Clock} {c : Coordinator} (h : (assignTask ck c).2.taskType = .exit) :
    c.allDone = true := by
  obtain ⟨i, t, -, -, -, heq⟩ | ⟨-, -, heq⟩ | ⟨i, t, -, -, -, -, heq⟩ |
    ⟨-, -, -, heq⟩ | ⟨-, -, hall, heq⟩ | ⟨-, -, -, heq⟩ := assignTask_cases ck c
  case inr.inr.inr.inr.inl => exact hall
  all_goals
    rw [heq] at h
    cases h

/-- One worker moves to a place from which it has not exited. -/
theorem Told.setWorker {s : State} (h : Told s) {w : ℕ} {pc : Pc}
    (hpc : pc = .exited → s.coord.done = true) : Told (s.setWorker w pc) := by
  refine ⟨h.replies, ?_⟩
  intro w' hw'
  rcases eq_or_ne w' w with rfl | hne
  · simp only [State.setWorker, Function.update_self] at hw'
    exact hpc hw'
  · simp only [State.setWorker, Function.update_of_ne hne] at hw'
    exact h.workers w' hw'

/-- Whoever moves. -/
theorem told_step {s s' : State} {a : Action} (hs : Safe J fs₀ s) (h : Told s)
    (hstep : jobStep J s a = some s') : Told s' := by
  have hmono := done_step s a s' hs hstep
  cases a with
  | ask w =>
    simp only [jobStep, Option.ite_none_right_eq_some, Option.some.injEq] at hstep
    obtain ⟨-, rfl⟩ := hstep
    have hset : Told (s.setWorker w .asking) := h.setWorker fun hpc => by cases hpc
    exact ⟨hset.replies, hset.workers⟩
  | work w choice =>
    obtain ⟨⟨fs, pc⟩, hwork, rfl⟩ := Option.map_eq_some_iff.mp hstep
    have hset : Told (s.setWorker w pc) :=
      h.setWorker fun hpc => absurd hpc (workerStep_exited hwork)
    exact ⟨hset.replies, hset.workers⟩
  | notify w =>
    simp only [jobStep] at hstep
    split at hstep
    · cases hstep
      have hset : Told (s.setWorker w .awaiting) := h.setWorker fun hpc => by cases hpc
      exact ⟨hset.replies, hset.workers⟩
    · cases hstep
  | handle k ck =>
    obtain ⟨q, -, hq⟩ := Option.bind_eq_some_iff.mp hstep
    cases q with
    | assign w =>
      cases hq
      refine ⟨?_, fun w' hw' => hmono (h.workers w' hw')⟩
      intro p hp hexit
      rcases List.mem_append.mp hp with hp | hp
      · exact hmono (h.replies p hp hexit)
      · rw [List.mem_singleton.mp hp] at hexit
        exact hmono (assignTask_exit hexit)
    | notify w args =>
      obtain ⟨coord, -, rfl⟩ := Option.map_eq_some_iff.mp hq
      exact ⟨fun p hp hexit => hmono (h.replies p hp hexit), fun w' hw' => hmono (h.workers w' hw')⟩
  | deliver k =>
    obtain ⟨p, hp, rfl⟩ := Option.map_eq_some_iff.mp hstep
    have hrest : Told { s with replies := s.replies.eraseIdx k } :=
      ⟨fun q hq => h.replies q (List.mem_of_mem_eraseIdx hq), h.workers⟩
    rw [State.receive]
    split
    · exact hrest.setWorker fun hpc => h.replies p (List.mem_of_getElem? hp) (dispatch_exited hpc)
    · exact hrest
  | loseRequest k =>
    cases hstep
    exact ⟨h.replies, h.workers⟩
  | loseReply k =>
    cases hstep
    exact ⟨fun q hq => h.replies q (List.mem_of_mem_eraseIdx hq), h.workers⟩
  | callReturns w =>
    obtain ⟨pc, hpc, rfl⟩ := Option.map_eq_some_iff.mp hstep
    refine h.setWorker ?_
    rintro rfl
    unfold afterCall at hpc
    split at hpc <;> cases hpc
  | crash w =>
    cases hstep
    exact h.setWorker fun hpc => by cases hpc

/-- A worker that has exited was told so by a coordinator whose job is done. -/
theorem told_run (hP : J.Proper fs₀) {acts : List Action} {s : State}
    (hrun : Machine.run (jobStep J) (J.start fs₀) acts = some s) : Safe J fs₀ s ∧ Told s := by
  have hstep : ∀ s a s', Safe J fs₀ s ∧ Told s → jobStep J s a = some s' →
    Safe J fs₀ s' ∧ Told s' :=
    fun s a s' h hstep => ⟨safe_step hP s a s' h.1 hstep, told_step h.1 h.2 hstep⟩
  exact Machine.run_invariant hstep ⟨safe_start hP, by simp [Job.start], by simp [Job.start]⟩ hrun

/-- CORRECT: no worker exits early. Where one has exited, the outputs are all in place, then and
    ever after, and they are what reducing all emitted pairs at once gives. -/
theorem no_early_exit (hP : J.Proper fs₀) (hu : J.EmitsUtf8 fs₀)
    {acts acts' : List Action} {s s' : State}
    (hrun : Machine.run (jobStep J) (J.start fs₀) acts = some s) {w : ℕ}
    (hw : s.workers w = .exited) (hrun' : Machine.run (jobStep J) s acts' = some s') :
    J.Outputs s'.fs (reduced (·.key) (·.value) J.reducef (sequentialPairs J.mapf (J.inputs fs₀))) :=
  outputs_run hP hu hrun ((told_run hP hrun).2.workers w hw) hrun'

end exits

/-- The worker of the echo job asks once more. -/
theorem no_early_exit_echo : ∃ s, Machine.run (jobStep echoJob) (echoJob.start (echoDisk (lit "a")))
    (mapTurn 0 1 (still 0) ++ reduceTurn 0 1 [⟨lit "a", []⟩] (still 0) ++
      [.ask 0, .handle 0 (still 0), .deliver 0]) = some s ∧ s.workers 0 = .exited ∧
      echoJob.Outputs s.fs [(lit "a", lit "1")] := by
  have hend : (Machine.run (jobStep echoJob) (echoJob.start (echoDisk (lit "a")))
      (mapTurn 0 1 (still 0) ++ reduceTurn 0 1 [⟨lit "a", []⟩] (still 0) ++
        [.ask 0, .handle 0 (still 0), .deliver 0])).map
      (fun s => decide (s.workers 0 = .exited)) = some true := by decide +kernel
  obtain ⟨s, hrun, hw⟩ := Option.map_eq_some_iff.mp hend
  have hu : echoJob.EmitsUtf8 (echoDisk (lit "a")) := by
    intro f hf kv hkv
    cases List.mem_singleton.mp hf
    cases List.mem_singleton.mp hkv
    decide
  have hw := of_decide_eq_true hw
  exact ⟨s, hrun, hw, no_early_exit (echo_proper _) hu hrun hw (Machine.run_nil s)⟩

/-! ### Counting -/

/-- `Reduce` of `wc.go` and of `early_exit.go`. -/
def countReduce (_key : GoString) (values : List GoString) : GoString := itoa values.length

/-- A job that emits keys, each with `"1"`, and counts them. -/
def countJob (keysOf : GoString → GoString → List GoString) (files : List GoString) (nReduce : ℕ)
    (tempDir : GoString) : Job where
  mapf := fun filename contents => (keysOf filename contents).map fun k => ⟨k, lit "1"⟩
  reducef := countReduce
  files := files
  nReduce := nReduce
  tempDir := tempDir

/-- One record for each key, with the number of its occurrences. -/
def tally (keys : List GoString) : List (GoString × GoString) :=
  keys.dedup.map fun k => (k, itoa (keys.count k))

theorem insensitive_count : Insensitive countReduce := fun _ _ _ h => congrArg itoa h.length_eq

section counting
variable (keysOf : GoString → GoString → List GoString) (files : List GoString)
  (nReduce : ℕ) (tempDir : GoString) (fs₀ : Disk)

/-- The keys that all map tasks emit. -/
def allKeys : List GoString := files.flatMap fun f => keysOf f (content fs₀ f)

theorem reduced_count (keys : List GoString) :
    reduced (·.key) (·.value) countReduce (keys.map fun k => (⟨k, lit "1"⟩ : KeyValue)) =
      tally keys := by
  have hkeys : (keys.map fun k => (⟨k, lit "1"⟩ : KeyValue)).map (·.key) = keys := by
    rw [List.map_map]
    exact List.map_id keys
  rw [reduced, hkeys, tally]
  refine List.map_congr_left ?_
  intro k _
  have hcount :
      (valuesOf (·.key) (·.value) k (keys.map fun k => (⟨k, lit "1"⟩ : KeyValue))).length =
        keys.count k := by
    rw [valuesOf, List.length_map, List.filter_map, List.length_map, List.count_eq_length_filter]
    exact congrArg List.length (List.filter_congr fun x _ => (beq_eq_decide x k).symm)
  rw [countReduce, hcount]

theorem count_pairs : sequentialPairs (countJob keysOf files nReduce tempDir).mapf
    ((countJob keysOf files nReduce tempDir).inputs fs₀) =
      (allKeys keysOf files fs₀).map fun k => ⟨k, lit "1"⟩ := by
  rw [sequentialPairs, Job.inputs, List.flatMap_map, allKeys, List.map_flatMap]
  rfl

variable {keysOf files nReduce tempDir fs₀}

/-- A job that counts, of keys that are UTF-8. -/
theorem count_run (hP : (countJob keysOf files nReduce tempDir).Placed fs₀)
    (hu : ∀ f ∈ files, ∀ k ∈ keysOf f (content fs₀ f), Utf8.Valid k)
    {acts acts' : List Action} {s s' : State}
    (hrun : Machine.run (jobStep (countJob keysOf files nReduce tempDir))
      ((countJob keysOf files nReduce tempDir).start fs₀) acts = some s) (hd : s.coord.done = true)
    (hrun' : Machine.run (jobStep (countJob keysOf files nReduce tempDir)) s acts' = some s') :
    (countJob keysOf files nReduce tempDir).Outputs s'.fs (tally (allKeys keysOf files fs₀)) := by
  have hutf8 : (countJob keysOf files nReduce tempDir).EmitsUtf8 fs₀ := by
    intro f hf kv hkv
    obtain ⟨k, hk, rfl⟩ := List.mem_map.mp hkv
    exact ⟨hu f hf k hk, show Utf8.Valid (lit "1") by decide⟩
  have hout := outputs_run ⟨hP, insensitive_count⟩ hutf8 hrun hd hrun'
  rw [count_pairs] at hout
  rwa [← reduced_count]

end counting

/-! ### Word count -/

section wordCount
variable (isLetter : GoString → Bool)

/-- `strings.FieldsFunc` over the runes of a string, `cur` being the field that is open. -/
def fields : Option GoString → List (Option GoString) → List GoString
  | cur, [] => cur.toList
  | cur, some r :: rs =>
      if isLetter r then fields (some (cur.getD [] ++ r)) rs else cur.toList ++ fields none rs
  | cur, none :: rs => cur.toList ++ fields none rs

/-- The words of a text. `isLetter` is `unicode.IsLetter` on the bytes of a rune; U+FFFD, as which
    an invalid byte is read, is no letter. -/
def words (contents : GoString) : List GoString := fields isLetter none (Utf8.runes contents)

/-- A job of `wc.go`. -/
def wcJob (files : List GoString) (nReduce : ℕ) (tempDir : GoString) : Job :=
  countJob (fun _ contents => words isLetter contents) files nReduce tempDir

variable {isLetter}

/-- A field is made of whole runes. -/
theorem fields_valid {rs : List (Option GoString)} (hrs : ∀ r, some r ∈ rs → Utf8.IsRune r)
    {cur : Option GoString} (hcur : Utf8.Valid (cur.getD [])) :
    ∀ w ∈ fields isLetter cur rs, Utf8.Valid w := by
  have hopen : ∀ {cur : Option GoString}, Utf8.Valid (cur.getD []) →
      ∀ w ∈ cur.toList, Utf8.Valid w := by
    intro cur hcur w hw
    rw [Option.mem_toList.mp hw] at hcur
    exact hcur
  induction rs generalizing cur with
  | nil => exact hopen hcur
  | cons r rs ih =>
    have hrest : ∀ r, some r ∈ rs → Utf8.IsRune r := fun r hr => hrs r (List.mem_cons_of_mem _ hr)
    have hclosed : ∀ w ∈ cur.toList ++ fields isLetter none rs, Utf8.Valid w := by
      intro w hw
      rcases List.mem_append.mp hw with hw | hw
      · exact hopen hcur w hw
      · exact ih hrest (by decide) w hw
    cases r with
    | none => exact hclosed
    | some r =>
      rw [fields]
      split
      · exact ih hrest (hcur.append (hrs r List.mem_cons_self).valid)
      · exact hclosed

/-- Words are UTF-8 whatever the text is. -/
theorem words_valid (contents : GoString) : ∀ w ∈ words isLetter contents, Utf8.Valid w :=
  fields_valid (fun _ hr => Utf8.isRune_of_mem hr) (by decide)

/-- CORRECT: in every run of a distributed word count, whatever the bytes of the inputs and
    whichever workers crash, once the job is done its outputs hold, then and ever after, each word
    once, with the number of its occurrences in all inputs. -/
theorem word_count_correct {files : List GoString} {nReduce : ℕ} {tempDir : GoString} {fs₀ : Disk}
    (hP : (wcJob isLetter files nReduce tempDir).Placed fs₀)
    {acts acts' : List Action} {s s' : State}
    (hrun : Machine.run (jobStep (wcJob isLetter files nReduce tempDir))
      ((wcJob isLetter files nReduce tempDir).start fs₀) acts = some s) (hd : s.coord.done = true)
    (hrun' : Machine.run (jobStep (wcJob isLetter files nReduce tempDir)) s acts' = some s') :
    (wcJob isLetter files nReduce tempDir).Outputs s'.fs
      (tally (files.flatMap fun f => words isLetter (content fs₀ f))) :=
  count_run hP (fun f _ => words_valid (content fs₀ f)) hrun hd hrun'

end wordCount

/-- One letter. -/
def letterA (r : GoString) : Bool := r = lit "a"

/-- The word occurs twice, with a byte that is not UTF-8 in between. -/
theorem word_count_correct_two :
    ∃ s, Machine.run (jobStep (wcJob letterA [lit "in"] 1 (lit "/tmp")))
      ((wcJob letterA [lit "in"] 1 (lit "/tmp")).start (echoDisk [0x61, 0xFF, 0x61]))
      (mapTurn 0 2 (still 0) ++
        reduceTurn 0 1 [⟨lit "a", lit "1"⟩, ⟨lit "a", lit "1"⟩] (still 0)) = some s ∧
      s.coord.done = true ∧
      (wcJob letterA [lit "in"] 1 (lit "/tmp")).Outputs s.fs [(lit "a", lit "2")] := by
  have hend : (Machine.run (jobStep (wcJob letterA [lit "in"] 1 (lit "/tmp")))
      ((wcJob letterA [lit "in"] 1 (lit "/tmp")).start (echoDisk [0x61, 0xFF, 0x61]))
      (mapTurn 0 2 (still 0) ++
        reduceTurn 0 1 [⟨lit "a", lit "1"⟩, ⟨lit "a", lit "1"⟩] (still 0))).map
      (·.coord.done) = some true := by
    decide +kernel
  obtain ⟨s, hrun, hd⟩ := Option.map_eq_some_iff.mp hend
  have hplaced : (wcJob letterA [lit "in"] 1 (lit "/tmp")).Placed (echoDisk [0x61, 0xFF, 0x61]) :=
    echo_placed _ rfl (le_refl 1)
  exact ⟨s, hrun, hd, word_count_correct hplaced hrun hd (Machine.run_nil s)⟩

/-! ### Crashing workers -/

/-- `Map` of `crash.go` and `nocrash.go`, if it does not crash. -/
def crashMap (filename contents : GoString) : List KeyValue :=
  [⟨lit "a", filename⟩, ⟨lit "b", itoa filename.length⟩, ⟨lit "c", itoa contents.length⟩,
    ⟨lit "d", lit "xyzzy"⟩]

/-- `Reduce` of `crash.go` and `nocrash.go`, if it does not crash. -/
def crashReduce (_key : GoString) (values : List GoString) : GoString :=
  List.intercalate (lit " ") values.mergeSort

def crashJob (files : List GoString) (nReduce : ℕ) (tempDir : GoString) : Job where
  mapf := crashMap
  reducef := crashReduce
  files := files
  nReduce := nReduce
  tempDir := tempDir

/-- What the application is to output: the names of the inputs, the lengths of the names and of the
    inputs. -/
def crashRecords (files : List GoString) (fs₀ : Disk) : List (GoString × GoString) :=
  [(lit "a", crashReduce (lit "a") files),
    (lit "b", crashReduce (lit "b") (files.map fun f => itoa f.length)),
    (lit "c", crashReduce (lit "c") (files.map fun f => itoa (content fs₀ f).length)),
    (lit "d", crashReduce (lit "d") (files.map fun _ => lit "xyzzy"))]

theorem insensitive_crash : Insensitive crashReduce := by
  intro _ vs vs' h
  have hsort : vs.mergeSort = vs'.mergeSort :=
    (((List.mergeSort_perm _ _).trans h).trans (List.mergeSort_perm _ _).symm).eq_of_pairwise'
      (List.pairwise_mergeSort' (· ≤ ·) _) (List.pairwise_mergeSort' (· ≤ ·) _)
  rw [crashReduce, crashReduce, hsort]

section crashing
variable {files : List GoString} {nReduce : ℕ} {tempDir : GoString} {fs₀ : Disk}

theorem crash_pairs (files : List GoString) (nReduce : ℕ) (tempDir : GoString) (fs₀ : Disk) :
    sequentialPairs crashMap ((crashJob files nReduce tempDir).inputs fs₀) =
    files.flatMap fun f => crashMap f (content fs₀ f) := by
  rw [sequentialPairs, Job.inputs, List.flatMap_map]
  rfl

/-- The values of one of the four keys. -/
theorem valuesOf_crash (k : GoString) :
    valuesOf (·.key) (·.value) k (files.flatMap fun f => crashMap f (content fs₀ f)) =
      files.flatMap fun f => ((crashMap f (content fs₀ f)).filter (·.key = k)).map (·.value) := by
  rw [valuesOf, List.filter_flatMap, List.map_flatMap]

/-- The keys are the four, as soon as there is a file. -/
theorem mem_crash_keys (hfiles : files ≠ []) {k : GoString} :
    k ∈ (files.flatMap fun f => crashMap f (content fs₀ f)).map (·.key) ↔
      k ∈ [lit "a", lit "b", lit "c", lit "d"] := by
  obtain ⟨f, rest, rfl⟩ := List.exists_cons_of_ne_nil hfiles
  rw [List.map_flatMap, List.mem_flatMap]
  constructor
  · rintro ⟨g, -, hk⟩
    exact hk
  · intro hk
    exact ⟨f, List.mem_cons_self, hk⟩

theorem crash_reduced (hfiles : files ≠ []) :
    (reduced (·.key) (·.value) crashReduce (files.flatMap fun f => crashMap f (content fs₀ f))).Perm
      (crashRecords files fs₀) := by
  have hvalues :
    ∀ k g, (∀ f, ((crashMap f (content fs₀ f)).filter (·.key = k)).map (·.value) = [g f]) →
      valuesOf (·.key) (·.value) k (files.flatMap fun f => crashMap f (content fs₀ f)) =
        files.map g := by
    intro k g hg
    rw [valuesOf_crash, List.map_eq_flatMap]
    exact List.flatMap_congr fun f _ => hg f
  have ha := hvalues (lit "a") id fun _ => rfl
  have hb := hvalues (lit "b") (fun f => itoa f.length) fun _ => rfl
  have hc := hvalues (lit "c") (fun f => itoa (content fs₀ f).length) fun _ => rfl
  have hd := hvalues (lit "d") (fun _ => lit "xyzzy") fun _ => rfl
  rw [List.map_id] at ha
  have hnodup : (crashRecords files fs₀).Nodup :=
    List.Nodup.of_map Prod.fst (show [lit "a", lit "b", lit "c", lit "d"].Nodup by decide)
  refine (List.perm_ext_iff_of_nodup (Grouping.nodup_reduced _) hnodup).mpr ?_
  rintro ⟨k, out⟩
  rw [Grouping.mem_reduced, mem_crash_keys hfiles]
  simp only [crashRecords, List.mem_cons, List.not_mem_nil, or_false, Prod.mk.injEq, or_and_right]
  refine or_congr ?_ (or_congr ?_ (or_congr ?_ ?_))
  · exact and_congr_right (by rintro rfl; rw [ha])
  · exact and_congr_right (by rintro rfl; rw [hb])
  · exact and_congr_right (by rintro rfl; rw [hc])
  · exact and_congr_right (by rintro rfl; rw [hd])

/-- CORRECT: in every run of the crashing application, whichever of its workers crash and whenever,
    once the job is done its outputs hold, then and ever after, what the application outputs without
    a crash. -/
theorem crash_correct (hP : (crashJob files nReduce tempDir).Placed fs₀)
    (hnames : ∀ f ∈ files, Utf8.Valid f) {acts acts' : List Action} {s s' : State}
    (hrun : Machine.run (jobStep (crashJob files nReduce tempDir))
      ((crashJob files nReduce tempDir).start fs₀) acts = some s) (hd : s.coord.done = true)
    (hrun' : Machine.run (jobStep (crashJob files nReduce tempDir)) s acts' = some s') :
    (crashJob files nReduce tempDir).Outputs s'.fs (crashRecords files fs₀) := by
  have hutf8 : (crashJob files nReduce tempDir).EmitsUtf8 fs₀ := by
    intro f hf kv hkv
    simp only [crashJob, crashMap, List.mem_cons, List.not_mem_nil, or_false] at hkv
    rcases hkv with rfl | rfl | rfl | rfl
    · exact ⟨show Utf8.Valid (lit "a") by decide, hnames f hf⟩
    · exact ⟨show Utf8.Valid (lit "b") by decide, Utf8.valid_itoa _⟩
    · exact ⟨show Utf8.Valid (lit "c") by decide, Utf8.valid_itoa _⟩
    · exact ⟨show Utf8.Valid (lit "d") by decide, show Utf8.Valid (lit "xyzzy") by decide⟩
  obtain ⟨records, hfiles, hkeys, hperm⟩ := outputs_run ⟨hP, insensitive_crash⟩ hutf8 hrun hd hrun'
  refine ⟨records, hfiles, hkeys, hperm.trans ?_⟩
  rw [show (crashJob files nReduce tempDir).mapf = crashMap from rfl, crash_pairs]
  exact crash_reduced hP.files

end crashing

/-- One worker crashes in the middle of the map task, and another one is given it eleven seconds
    later. -/
def crashRun : List Action :=
  [.ask 1, .handle 0 (still 0), .deliver 0, .work 1 .go, .work 1 (.random (lit "1")),
    .work 1 .go, .crash 1] ++ mapTurn 0 4 (still (11 * second)) ++
    reduceTurn 0 4
      [⟨lit "a", lit "in"⟩, ⟨lit "b", lit "2"⟩, ⟨lit "c", lit "0"⟩, ⟨lit "d", lit "xyzzy"⟩]
      (still (11 * second))

theorem crash_correct_run : ∃ s, Machine.run (jobStep (crashJob [lit "in"] 1 (lit "/tmp")))
    ((crashJob [lit "in"] 1 (lit "/tmp")).start (echoDisk [])) crashRun = some s ∧
      s.coord.done = true ∧
    (crashJob [lit "in"] 1 (lit "/tmp")).Outputs s.fs
      [(lit "a", lit "in"), (lit "b", lit "2"), (lit "c", lit "0"), (lit "d", lit "xyzzy")] := by
  have hend : (Machine.run (jobStep (crashJob [lit "in"] 1 (lit "/tmp")))
      ((crashJob [lit "in"] 1 (lit "/tmp")).start (echoDisk [])) crashRun).map (·.coord.done) =
        some true := by
    decide +kernel
  obtain ⟨s, hrun, hd⟩ := Option.map_eq_some_iff.mp hend
  have hplaced : (crashJob [lit "in"] 1 (lit "/tmp")).Placed (echoDisk []) :=
    echo_placed _ rfl (le_refl 1)
  have hrecords : crashRecords [lit "in"] (echoDisk []) =
      [(lit "a", lit "in"), (lit "b", lit "2"), (lit "c", lit "0"), (lit "d", lit "xyzzy")] := by
        decide +kernel
  rw [← hrecords]
  exact ⟨s, hrun, hd, crash_correct hplaced (by decide) hrun hd (Machine.run_nil s)⟩

end DistSys.Mr
