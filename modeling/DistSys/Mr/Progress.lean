import DistSys.Mr.History
import Mathlib.Data.List.Nodup

/-! @go mr/coordinator.go, mr/worker.go | name:Worker, AssignTask, NotifyComplete | scheme:machine

    No state of the coordinator is stuck. Suppose every worker falls silent but one, and the stamps
    of the tasks still assigned are more than ten seconds old. Then every task that has not
    succeeded is due, so the remaining worker is handed the unfinished map tasks in order of index,
    then the unfinished reduce tasks, then `Exit`.

        unfinished c = k₁ :: k₂ :: … :: []      each turn takes the head off -/

namespace DistSys.Mr

variable {ι : Type}

/-- The indices, from `k` on, of the tasks that have not succeeded. -/
def unfinishedTasks (k : ℕ) (ts : List (Task ι)) : List ℕ :=
  ((ts.zipIdx k).filter fun p => p.1.status ≠ .success).map (·.2)

/-- The tasks left to do, in the order in which they are handed out. -/
def unfinished (c : Coordinator) : List TaskId :=
  (unfinishedTasks 0 c.mapTasks).map .map ++ (unfinishedTasks 0 c.reduceTasks).map .reduce

/-- One round of a worker's loop: ask, then report the task received, if any. -/
def soloTurn (ck : Clock) (c : Coordinator) : Except String (CoordinatorReply × Coordinator) :=
  let (c', reply) := assignTask ck c
  match reply.taskType with
  | .mapTask | .reduceTask => (notifyComplete reply.report c').map fun c'' => (reply, c'')
  | _ => .ok (reply, c')

/-- The rounds of one worker, nobody else calling, with the replies it got. -/
def solo : List Clock → Coordinator → Except String (List CoordinatorReply × Coordinator)
  | [], c => .ok ([], c)
  | ck :: cks, c => do
      let (reply, c') ← soloTurn ck c
      let (replies, c'') ← solo cks c'
      return (reply :: replies, c'')

/-- Every reading of a call is more than ten seconds past the stamps of the tasks still assigned. -/
structure Elapsed (ck : Clock) (c : Coordinator) : Prop where
  maps : ∀ i (t : MapTask), c.mapTasks[i]? = some t → t.status = .assigned →
    ck.since i - t.timeStamp > 10 * second
  reduces : ∀ i (t : ReduceTask), c.reduceTasks[i]? = some t → t.status = .assigned →
    ck.since i - t.timeStamp > 10 * second

/-! ### The list of unfinished tasks -/

section tasks
variable {i : ℕ} {is : List ℕ}

theorem unfinishedTasks_cons (k : ℕ) (t : Task ι) (ts : List (Task ι)) :
    unfinishedTasks k (t :: ts) = if t.status = .success then unfinishedTasks (k + 1) ts
    else k :: unfinishedTasks (k + 1) ts := by
  by_cases h : t.status = .success <;> simp [unfinishedTasks, h]

theorem length_unfinishedTasks (k : ℕ) (ts : List (Task ι)) :
    (unfinishedTasks k ts).length = ts.countP fun t => t.status ≠ .success := by
  induction ts generalizing k with
  | nil => rfl
  | cons t ts ih =>
    rw [unfinishedTasks_cons]
    rcases eq_or_ne t.status .success with h | h <;> simp [h, ih (k + 1)]

theorem nodup_unfinishedTasks (k : ℕ) (ts : List (Task ι)) : (unfinishedTasks k ts).Nodup := by
  have hsub : (unfinishedTasks k ts).Sublist (List.range' k ts.length) := by
    rw [← List.zipIdx_map_snd]
    exact List.filter_sublist.map _
  exact hsub.nodup List.nodup_range'

theorem nodup_unfinished (c : Coordinator) : (unfinished c).Nodup := by
  rw [unfinished, List.nodup_append]
  refine ⟨List.Nodup.map map_injective (nodup_unfinishedTasks 0 _),
    List.Nodup.map reduce_injective (nodup_unfinishedTasks 0 _), ?_⟩
  intro a ha b hb
  obtain ⟨i, _, rfl⟩ := List.mem_map.mp ha
  obtain ⟨j, _, rfl⟩ := List.mem_map.mp hb
  simp

theorem unfinishedTasks_eq_nil {k : ℕ} {ts : List (Task ι)} :
    unfinishedTasks k ts = [] ↔ ∀ t ∈ ts, t.status = .success := by
  induction ts generalizing k with
  | nil => simp [unfinishedTasks]
  | cons t ts ih =>
    rw [unfinishedTasks_cons]
    rcases eq_or_ne t.status .success with h | h <;> simp [h, ih]

theorem unfinishedTasks_ge {k : ℕ} {ts : List (Task ι)} (h : i ∈ unfinishedTasks k ts) :
    k ≤ i ∧ i < k + ts.length := by
  induction ts generalizing k with
  | nil => simp [unfinishedTasks] at h
  | cons t ts ih =>
    rw [unfinishedTasks_cons] at h
    have hlater : i ∈ unfinishedTasks (k + 1) ts → k ≤ i ∧ i < k + (t :: ts).length := fun h' => by
      have := ih h'
      simp only [List.length_cons]; omega
    split at h
    · exact hlater h
    · rcases List.mem_cons.mp h with rfl | h
      · simp
      · exact hlater h

/-- When all that is unfinished is due, the scan stops at the first unfinished task. -/
theorem findDue_eq_head (since : ℕ → Time) {k : ℕ} {ts : List (Task ι)}
    (hst : ∀ t ∈ ts, t.status = .todo ∨ t.status = .assigned ∨ t.status = .success)
    (hold : ∀ j (t : Task ι), ts[j]? = some t → t.status = .assigned →
      since (k + j) - t.timeStamp > 10 * second) :
    findDue since k ts = (unfinishedTasks k ts).head? := by
  induction ts generalizing k with
  | nil => rfl
  | cons t ts ih =>
    have hrest : findDue since (k + 1) ts = (unfinishedTasks (k + 1) ts).head? := by
      refine ih (fun u hu => hst u (by simp [hu])) (fun j u hu hs => ?_)
      have := hold (j + 1) u (by simpa using hu) hs
      rwa [show k + (j + 1) = k + 1 + j by omega] at this
    rw [findDue, unfinishedTasks_cons]
    rcases hst t (by simp) with hs | hs | hs
    · simp [Task.due, hs]
    · have := hold 0 t rfl hs
      simp only [Nat.add_zero] at this
      simp [Task.due, hs, this]
    · simp [Task.due, hs, hrest]

/-- Finishing the first unfinished task takes the head off. -/
theorem unfinishedTasks_finish {f : Task ι → Task ι} (hf : ∀ t, (f t).status = .success) {k : ℕ}
    {ts : List (Task ι)} (h : unfinishedTasks k ts = i :: is) :
    unfinishedTasks k (ts.modify (i - k) f) = is := by
  induction ts generalizing k with
  | nil => simp [unfinishedTasks] at h
  | cons t ts ih =>
    rw [unfinishedTasks_cons] at h
    by_cases hs : t.status = .success
    · rw [if_pos hs] at h
      obtain ⟨hge, _⟩ := unfinishedTasks_ge (i := i) (by rw [h]; simp)
      rw [show i - k = (i - (k + 1)) + 1 by omega, List.modify_succ_cons,
        unfinishedTasks_cons, if_pos hs]
      exact ih h
    · rw [if_neg hs] at h
      obtain ⟨rfl, rfl⟩ := List.cons_eq_cons.mp h
      simp [unfinishedTasks_cons, hf]

end tasks

/-! ### One turn -/

section turn
variable {files : List GoString} {nReduce : ℕ} {c : Coordinator} {ck : Clock}

/-- Assigning and finishing a task leaves the others as they were. -/
theorem modify_finish_assign {ts : List (Task ι)} {i j : ℕ} {now : Time} {t : Task ι}
    (h : ((ts.modify i (·.assign now)).modify i (·.finish))[j]? = some t)
    (hs : t.status = .assigned) :
    ts[j]? = some t := by
  rw [List.modify_modify_eq] at h
  rcases getElem?_modify_cases h with ⟨_, h⟩ | ⟨_, u, _, rfl⟩
  · exact h
  · simp [Task.finish] at hs

theorem unfinishedTasks_turn {ts : List (Task ι)} {i : ℕ} {is : List ℕ} (now : Time)
    (h : unfinishedTasks 0 ts = i :: is) :
    unfinishedTasks 0 ((ts.modify i (·.assign now)).modify i (·.finish)) = is := by
  rw [List.modify_modify_eq]
  exact unfinishedTasks_finish (fun _ => rfl) h

/-- While a phase has unfinished tasks its flag is down, and the first of them is due. -/
theorem Phase.first_unfinished {inputs : List ι} {ts : List (Task ι)} {num i : ℕ}
    {flag : Bool} {is : List ℕ} {since : ℕ → Time} (h : Phase inputs ts num flag)
    (hold : ∀ j (t : Task ι), ts[j]? = some t → t.status = .assigned →
      since j - t.timeStamp > 10 * second)
    (hu : unfinishedTasks 0 ts = i :: is) : i < ts.length ∧ flag = false ∧
      findDue since 0 ts = some i := by
  refine ⟨?_, ?_, ?_⟩
  · have := (unfinishedTasks_ge (k := 0) (i := i) (by rw [hu]; simp)).2
    omega
  · rw [← Bool.not_eq_true, h.flag, ← unfinishedTasks_eq_nil (k := 0), hu]
    simp
  · rw [findDue_eq_head since h.status (by simpa using hold), hu, List.head?_cons]

/-- The turn of a lone worker takes the first unfinished task off the list. -/
theorem soloTurn_step {k : TaskId} {rest : List TaskId} (hb : Bookkept files nReduce c)
    (he : Elapsed ck c) (hu : unfinished c = k :: rest) :
    ∃ reply c', soloTurn ck c = .ok (reply, c') ∧ reply.task = some k ∧ Bookkept files nReduce c' ∧
      unfinished c' = rest ∧ ∀ ck', Elapsed ck' c → Elapsed ck' c' := by
  have hb1 := (bookkept_assignTask ck hb).1
  cases hm : unfinishedTasks 0 c.mapTasks with
  | cons i is =>
    obtain ⟨hi, hflag, hdm⟩ := hb.maps.first_unfinished he.maps hm
    simp only [unfinished, hm, List.map_cons, List.cons_append, List.cons.injEq] at hu
    obtain ⟨rfl, rfl⟩ := hu
    simp only [assignTask, hflag, hdm, Bool.not_false, if_true] at hb1
    refine ⟨⟨.mapTask, (c.mapTasks[i]?.map (·.input)).toList, c.nReduce, i⟩, finishMap _ i, ?_, rfl,
      (bookkept_finishMap hb1 (by simpa using hi)).1, ?_, ?_⟩
    · simp only [soloTurn, assignTask, hflag, hdm, Bool.not_false, if_true, CoordinatorReply.report]
      rw [notifyComplete_map (by simpa using hi)]; rfl
    · simp only [unfinished, finishMap, complete_tasks]
      rw [unfinishedTasks_turn ck.now hm]
    · intro ck' he'
      refine ⟨fun j t ht hs => ?_, he'.reduces⟩
      simp only [finishMap, complete_tasks] at ht
      exact he'.maps j t (modify_finish_assign ht hs) hs
  | nil =>
    have hflag : c.mapTasksDone = true := hb.maps.flag.mpr (unfinishedTasks_eq_nil.mp hm)
    cases hr : unfinishedTasks 0 c.reduceTasks with
    | nil => simp [unfinished, hm, hr] at hu
    | cons i is =>
      obtain ⟨hi, hflag', hdr⟩ := hb.reduces.first_unfinished he.reduces hr
      simp only [unfinished, hm, hr, List.map_nil, List.nil_append, List.map_cons,
        List.cons.injEq] at hu
      obtain ⟨rfl, rfl⟩ := hu
      simp only [assignTask, hflag, hflag', hdr, Bool.not_true, Bool.not_false, if_true,
        Bool.false_eq_true, if_false] at hb1
      refine ⟨⟨.reduceTask, (c.reduceTasks[i]?.map (·.input)).getD [], c.nReduce, i⟩,
        finishReduce _ i, ?_, rfl, (bookkept_finishReduce hb1 (by simpa using hi)).1, ?_, ?_⟩
      · simp only [soloTurn, assignTask, hflag, hflag', hdr, Bool.not_true, Bool.not_false, if_true,
          Bool.false_eq_true, if_false, CoordinatorReply.report]
        rw [notifyComplete_reduce (by simpa using hi)]; rfl
      · simp only [unfinished, finishReduce, complete_tasks, hm]
        rw [unfinishedTasks_turn ck.now hr]; rfl
      · intro ck' he'
        refine ⟨he'.maps, fun j t ht hs => ?_⟩
        simp only [finishReduce, complete_tasks] at ht
        exact he'.reduces j t (modify_finish_assign ht hs) hs

/-- With nothing unfinished the worker is told to exit. -/
theorem soloTurn_exit (ck : Clock) (hb : Bookkept files nReduce c) (hu : unfinished c = []) :
    soloTurn ck c = .ok (⟨.exit, [], c.nReduce, 0⟩, c) ∧ c.done = true := by
  obtain ⟨hm, hr⟩ := List.append_eq_nil_iff.mp hu
  have hm' := hb.maps.flag.mpr (unfinishedTasks_eq_nil.mp (List.map_eq_nil_iff.mp hm))
  have hr' := hb.reduces.flag.mpr (unfinishedTasks_eq_nil.mp (List.map_eq_nil_iff.mp hr))
  have ha : c.allDone = true := hb.allDone.trans hr'
  exact ⟨by simp [soloTurn, assignTask, hm', hr', ha], ha⟩

/-- As many turns as there are unfinished tasks hand out exactly those. -/
theorem solo_drains {cks : List Clock} {c : Coordinator} (hb : Bookkept files nReduce c)
    (he : ∀ ck ∈ cks, Elapsed ck c) (hlen : cks.length = (unfinished c).length) :
    ∃ replies c', solo cks c = .ok (replies, c') ∧ replies.map (·.task) = (unfinished c).map some ∧
      Bookkept files nReduce c' ∧ unfinished c' = [] := by
  induction cks generalizing c with
  | nil =>
    have hu : unfinished c = [] := List.eq_nil_of_length_eq_zero hlen.symm
    exact ⟨[], c, rfl, by simp [hu], hb, hu⟩
  | cons ck cks ih =>
    cases hu : unfinished c with
    | nil => simp [hu] at hlen
    | cons k rest =>
      obtain ⟨reply, c', hturn, hk, hb', hrest, hkeep⟩ := soloTurn_step hb (he ck (by simp)) hu
      have he' : ∀ ck' ∈ cks, Elapsed ck' c' := by
        intro ck' hmem
        exact hkeep ck' (he ck' (List.mem_cons_of_mem _ hmem))
      obtain ⟨replies, c'', hsolo, hmap, hb'', hnil⟩ :=
        ih hb' he' (by rw [hrest]; simpa [hu] using hlen)
      refine ⟨reply :: replies, c'', ?_, by simp [hk, hmap, hrest], hb'', hnil⟩
      rw [solo, hturn]
      simp only [bind, Except.bind, hsolo]
      rfl

end turn

/-- CORRECT: from any state of a run, a lone worker whose clock is past the stamps is handed every
    unfinished task once, never `Wait`, and then `Exit` with the job done. -/
theorem solo_progress (files : List GoString) (nReduce : ℕ) (hf : files ≠ []) (hn : 1 ≤ nReduce)
    (h : List Event) (c : Coordinator) (hist : History files nReduce h c)
    (cks : List Clock) (last : Clock)
    (he : ∀ ck ∈ cks, Elapsed ck c)
    (hlen : cks.length = (c.mapTasks.countP fun t => t.status ≠ .success) +
      c.reduceTasks.countP fun t => t.status ≠ .success) :
    ∃ replies c' reply, solo cks c = .ok (replies, c') ∧
      replies.map (·.task) = (unfinished c).map some ∧
      (∀ r ∈ replies, r.taskType ≠ .wait) ∧ (unfinished c).Nodup ∧
      soloTurn last c' = .ok (reply, c') ∧ reply.taskType = .exit ∧ c'.done = true := by
  have hlen' : cks.length = (unfinished c).length := by
    simp only [unfinished, List.length_append, List.length_map, length_unfinishedTasks, hlen]
  obtain ⟨replies, c', hsolo, hmap, hb', hnil⟩ := solo_drains (hist.tracked hf hn).book he hlen'
  obtain ⟨hexit, hdone⟩ := soloTurn_exit last hb' hnil
  refine ⟨replies, c', _, hsolo, hmap, ?_, nodup_unfinished c, hexit, rfl, hdone⟩
  intro r hr hwait
  have hmem : r.task ∈ (unfinished c).map some := by rw [← hmap]; exact List.mem_map_of_mem hr
  simp [CoordinatorReply.task, hwait] at hmem

/-- One of two map tasks was assigned and never reported; twenty seconds later three turns do the
    job. -/
theorem solo_progress_silent : ∃ c replies c' reply, solo
      [⟨fun _ => 20 * second, 20 * second⟩, ⟨fun _ => 21 * second, 21 * second⟩,
        ⟨fun _ => 22 * second, 22 * second⟩] c = .ok (replies, c') ∧
    replies.map (·.task) = [some (.map 0), some (.map 1), some (.reduce 0)] ∧
    soloTurn ⟨fun _ => 23 * second, 23 * second⟩ c' = .ok (reply, c') ∧ reply.taskType = .exit := by
  have h₀ : History [GoString.lit "a.txt", GoString.lit "b.txt"] 1 [] _ := .make
  have h₁ := h₀.assign 0 ⟨fun _ => 0, 0⟩ ⟨monotone_const, fun _ => le_rfl⟩ (by simp)
  obtain ⟨replies, c', reply, hsolo, hmap, _, _, hturn, hexit, _⟩ :=
    solo_progress _ 1 (by simp) le_rfl _ _ h₁
    [⟨fun _ => 20 * second, 20 * second⟩, ⟨fun _ => 21 * second, 21 * second⟩,
      ⟨fun _ => 22 * second, 22 * second⟩] ⟨fun _ => 23 * second, 23 * second⟩
    (by
      intro ck hck
      have hsince : ∀ i, ck.since i - 0 > 10 * second := by
        simp only [List.mem_cons, List.not_mem_nil, or_false] at hck
        rcases hck with rfl | rfl | rfl <;> simp [second]
      refine ⟨fun i t ht hs => ?_, fun i t ht hs => ?_⟩
      · rcases i with _ | _ | i <;> cases ht
        · exact hsince 0
        · exact hsince 1
      · rcases i with _ | i <;> cases ht
        exact hsince 0)
    (by decide)
  exact ⟨_, replies, c', reply, hsolo, hmap, hturn, hexit⟩

end DistSys.Mr
