import Dkron.Dispatching
import Dkron.ParentLinks

/-!
# Running attempts in the store

A new leader learns of running executions from the store: those that have a start and no finish
time. The first message of an agent's stream is stored, with the start time the agent has set. The
finish time is not reset anywhere: a retry is the reported execution sent again, and its first
message still has the time at which the attempt before it finished.

`running_visible_iff` says that this is the only thing that hides an attempt: `GetRunningExecutions`
returns every attempt that is stored and not reported done, if and only if no first message with a
finish time is stored.
-/

namespace Dkron

open Store

/-- A reading of the clock. It is never the zero value of Go. -/
abbrev Instant := { t : Time // zeroTime < t }

/-- A done report. Its finish time is a reading of the clock or was never set. -/
abbrev Report := { pbex : PbExecution // zeroTime ≤ asTime pbex.finishedAt }

/-- The execution has started and not finished. -/
def PbExecution.Running (p : PbExecution) : Prop :=
  asTime p.startedAt ≠ zeroTime ∧ asTime p.finishedAt = zeroTime

/-- The key an execution is stored under. -/
def PbExecution.storeKey (p : PbExecution) : String := executionKey p.jobName p.key

/-- The content, the requests sent to agents, and two ghosts: the keys of the executions whose first
message was stored, and of those whose done report was applied. -/
structure Tracked where
  db : DB := DB.empty
  dispatches : List Dispatch := []
  started : List String := []
  done : List String := []

namespace Tracked

/-- What happens to executions and jobs. A report may be applied without a run that it is of, or
more than once: nothing below depends on it. -/
inductive Event where
  /-- A job is run: the first attempts. -/
  | run (jobName : String) (group : Int) (cluster : Cluster)
  /-- The handler of a report retries the execution. -/
  | retry (job : Job) (report : Report) (cluster : Cluster)
  /-- The first message of a request's stream arrives and is stored. -/
  | start (k : ℕ) (now : Instant)
  /-- A done report is applied. -/
  | report (report : Report)
  | setJob (clk : Clock) (pj : PbJob)
  | deleteJob (clk : Clock) (jobName : String)
  | deleteExecutions (jobName : String)

def send (s : Tracked) (ds : List Dispatch) : Tracked :=
  { s with dispatches := s.dispatches ++ ds }

def step (env : Env) (s : Tracked) : Event → Tracked
  | .run jobName group cluster => s.send (cluster.run (newExecution jobName group))
  | .retry job report cluster =>
    match retryExecution job (newExecutionFromProto report.1) with
    | some next => s.send (cluster.run next)
    | none => s
  | .start k now =>
    match s.dispatches[k]? with
    | some d =>
      { s with
        db := (setExecution env (newExecutionFromProto (d.start now)) s.db).2
        started := (d.start now).storeKey :: s.started }
    | none => s
  | .report report =>
    match setExecutionDone (newExecutionFromProto report.1) s.db with
    | (.ok _, db) => { s with db := db, done := report.1.storeKey :: s.done }
    | (.error _, db) => { s with db := db }
  | .setJob clk pj => { s with db := (setJob env clk (newJobFromProto pj) true s.db).2 }
  | .deleteJob clk jobName => { s with db := (deleteJob env clk jobName s.db).2 }
  | .deleteExecutions jobName => { s with db := (deleteExecutions jobName s.db).2 }

/-- Every attempt whose first message was stored is returned by `GetRunningExecutions` for its job,
unless its done report was applied or its record is gone. -/
def Visible (s : Tracked) : Prop :=
  ∀ k ∈ s.started, k ∉ s.done → ∀ p, s.db.get k = some (.execution p) →
    ∃ execs, getRunningExecutions p.jobName s.db = .ok execs ∧ newExecutionFromProto p ∈ execs

/-- A first message that is stored has no finish time, unless the done report of its execution was
applied before, or its record is pruned at once. -/
def StartsUnfinished (env : Env) (s : Tracked) : Event → Prop
  | .start k now => ∀ d, s.dispatches[k]? = some d →
    asTime d.execution.finishedAt = zeroTime ∨ (d.start now).storeKey ∈ s.done ∨
      (setExecution env (newExecutionFromProto (d.start now)) s.db).2.get
        (d.start now).storeKey = none
  | _ => True

end Tracked

/-! ## What is returned -/

/-- A key with a hyphen after the directory is not the directory's own. -/
theorem trimDirectoryKey_ne {key dir : String} {rest : List Char}
    (hkey : key.toList = dir.toList ++ rest) (hhyphen : '-' ∈ rest) :
    trimDirectoryKey key ≠ dir := by
  intro h
  rw [trimDirectoryKey] at h
  split_ifs at h with hlast
  · have hdrop : key.toList.dropLast = dir.toList := by
      rw [← h, String.toList_ofList]
    have hrest : rest = [':'] := by
      refine (List.append_right_inj dir.toList).1 ?_
      rw [← hkey, ← hdrop]
      exact (List.dropLast_append_getLast? _ hlast).symm
    rw [hrest] at hhyphen
    revert hhyphen
    decide
  · have hrest : rest = [] := by
      rw [h] at hkey
      exact List.self_eq_append_right.1 hkey
    rw [hrest] at hhyphen
    cases hhyphen

/-- The number and the node in an execution's key are separated by a hyphen. -/
theorem hyphen_mem_key (p : PbExecution) : '-' ∈ p.key.toList := by
  rw [PbExecution.key, executionId, String.toList_append, String.toList_append]
  simp

theorem trimDirectoryKey_executionKey_ne (p : PbExecution) :
    trimDirectoryKey p.storeKey ≠ executionsDir p.jobName :=
  trimDirectoryKey_ne (toList_executionKey _ _) (hyphen_mem_key p)

/-- A stored execution is returned just if it is running. -/
theorem getRunningExecutions_iff {db : DB} {k : String} {p : PbExecution}
    (hk : db.get k = some (.execution p)) :
    (∃ execs, getRunningExecutions p.jobName db = .ok execs ∧ newExecutionFromProto p ∈ execs) ↔
      p.Running := by
  have hkey : p.storeKey = k := DB.key_of_get hk
  have hpre : hasPrefix k (executionsDir p.jobName) := by
    rw [hasPrefix_iff, ← hkey, PbExecution.storeKey, toList_executionKey]
    exact List.prefix_append _ _
  have hany : (db.ascend.any fun r => hasPrefix r.1 (executionsDir p.jobName)) = true :=
    List.any_eq_true.2 ⟨(k, .execution p), DB.mem_ascend.2 hk, hpre⟩
  have hmem : newExecutionFromProto p ∈
      unmarshalExecutions (list (executionsDir p.jobName) db) :=
    mem_unmarshalExecutions_list.2
      ⟨k, p, hk, hpre, hkey ▸ trimDirectoryKey_executionKey_ne p, rfl⟩
  rw [getRunningExecutions, getExecutions, if_pos hany]
  simp only [Except.ok.injEq, exists_eq_left', List.mem_filter, hmem, true_and]
  exact decide_eq_true_iff

/-! ## What is stored -/

/-- A command that adds no execution. -/
theorem get_of_addsOnly {db db' : DB} (h : ∀ new, AddsOnly new db db') {k : String}
    {p : PbExecution} (hk : db'.get k = some (.execution p)) :
    db.get k = some (.execution p) := by
  refine (h { p with group := p.group + 1 } k p hk).resolve_right fun heq => ?_
  have hgroup : p.group = p.group + 1 := congrArg PbExecution.group heq
  omega

/-- Under the key of a start message there is the message afterwards, or a record that finished
later. -/
theorem get_setExecution_self {env : Env} {ex : Execution} {db : DB} {p : PbExecution}
    (hk : (setExecution env ex db).2.get ex.toProto.storeKey = some (.execution p)) :
    p = ex.toProto ∨
      db.get ex.toProto.storeKey = some (.execution p) ∧ ex.finishedAt < asTime p.finishedAt := by
  rw [setExecution_eq, DB.get_deleteAll] at hk
  split_ifs at hk
  rw [setExecutionTx_eq] at hk
  split_ifs at hk with hlate
  · refine .inr ⟨hk, ?_⟩
    obtain ⟨q, hq, hlt⟩ := (Option.any_eq_true _ _).1 hlate
    have hqp : some q = some p := hq.symm.trans (DB.execution?_eq_some.2 hk)
    rw [← Option.some.inj hqp]
    exact of_decide_eq_true hlt
  · have hkey : (Value.execution ex.toProto).key = ex.toProto.storeKey := rfl
    rw [DB.get_set, if_pos hkey] at hk
    cases hk
    exact .inl rfl

/-- A report that is rejected changes nothing. -/
theorem setExecutionDone_error {ex : Execution} {db db' : DB} {e : Err}
    (h : setExecutionDone ex db = (.error e, db')) : db' = db := by
  rw [setExecutionDone_eq] at h
  cases hp : db.job? ex.jobName with
  | none =>
    rw [hp] at h
    exact (congrArg Prod.snd h).symm
  | some p =>
    rw [hp] at h
    simp only at h
    split_ifs at h <;> cases congrArg Prod.fst h

namespace Tracked

variable {env : Env} {s : Tracked}

/-- What is known in every state: the content is sound, no finish time of a request lies before the
zero value, and every stored execution was started or reported done. -/
structure Known (env : Env) (s : Tracked) : Prop where
  sound : Sound env s.db
  finishedAt_le : ∀ d ∈ s.dispatches, zeroTime ≤ asTime d.execution.finishedAt
  known : ∀ k p, s.db.get k = some (.execution p) → k ∈ s.started ∨ k ∈ s.done

/-- `Visible`, of the stored records. -/
def AllRunning (s : Tracked) : Prop :=
  ∀ k ∈ s.started, k ∉ s.done → ∀ p, s.db.get k = some (.execution p) → p.Running

theorem visible_iff : s.Visible ↔ s.AllRunning :=
  forall₅_congr fun _ _ _ _ hk => getRunningExecutions_iff hk

theorem Known.send (hs : Known env s) {ds : List Dispatch}
    (hds : ∀ d ∈ ds, zeroTime ≤ asTime d.execution.finishedAt) : Known env (s.send ds) where
  sound := hs.sound
  finishedAt_le d hd := by
    rcases List.mem_append.1 hd with hd | hd
    · exact hs.finishedAt_le d hd
    · exact hds d hd
  known := hs.known

/-- A command that adds no execution. -/
theorem Known.of_addsOnly (hs : Known env s) {db : DB} (hsound : Sound env db)
    (h : ∀ new, AddsOnly new s.db db) : Known env { s with db := db } where
  sound := hsound
  finishedAt_le := hs.finishedAt_le
  known k p hk := hs.known k p (get_of_addsOnly h hk)

theorem Known.step (hs : Known env s) (e : Event) : Known env (s.step env e) := by
  cases e with
  | run jobName group cluster =>
    apply hs.send
    intro d hd
    rw [(Cluster.mem_run.1 hd).2]
    exact le_rfl
  | retry job report cluster =>
    rw [Tracked.step]
    cases hnext : retryExecution job (newExecutionFromProto report.1) with
    | none => exact hs
    | some next =>
      obtain ⟨-, -, rfl⟩ := retryExecution_eq_some.1 hnext
      apply hs.send
      intro d hd
      rw [(Cluster.mem_run.1 hd).2]
      exact report.2
  | start k now =>
    rw [Tracked.step]
    cases s.dispatches[k]? with
    | none => exact hs
    | some d =>
      refine ⟨hs.sound.setExecution _, hs.finishedAt_le, fun k p hk => ?_⟩
      rcases AddsOnly.setExecution env _ s.db k p hk with hold | rfl
      · exact (hs.known k p hold).imp_left (List.mem_cons_of_mem _)
      · exact .inl (List.mem_cons.2 (.inl (DB.key_of_get hk).symm))
  | report report =>
    have hsound := hs.sound.setExecutionDone (newExecutionFromProto report.1)
    have hadds := AddsOnly.setExecutionDone (newExecutionFromProto report.1) s.db
    rw [Tracked.step]
    rcases heq : setExecutionDone (newExecutionFromProto report.1) s.db with ⟨_ | counted, db⟩
    · rw [setExecutionDone_error heq]
      exact hs
    · rw [heq] at hsound hadds
      refine ⟨hsound, hs.finishedAt_le, fun k p hk => ?_⟩
      rcases hadds k p hk with hold | rfl
      · exact (hs.known k p hold).imp_right (List.mem_cons_of_mem _)
      · exact .inr (List.mem_cons.2 (.inl (DB.key_of_get hk).symm))
  | setJob clk pj =>
    exact hs.of_addsOnly (hs.sound.setJob _) (AddsOnly.setJob hs.sound.toStorable clk _)
  | deleteJob clk jobName =>
    exact hs.of_addsOnly (hs.sound.deleteJob _) (AddsOnly.deleteJob hs.sound clk)
  | deleteExecutions jobName =>
    exact hs.of_addsOnly (hs.sound.deleteExecutions _) fun new =>
      AddsOnly.deleteExecutions new s.db jobName

/-! ## Steps -/

/-- A command that adds no execution hides none. -/
theorem AllRunning.of_addsOnly (h : s.AllRunning) {db : DB} (hadds : ∀ new, AddsOnly new s.db db) :
    AllRunning { s with db := db } :=
  fun k hk hdone p hp => h k hk hdone p (get_of_addsOnly hadds hp)

/-- A done report hides none but its own execution. -/
theorem AllRunning.report (h : s.AllRunning) (env : Env) (report : Report) :
    (s.step env (.report report)).AllRunning := by
  have hadds := AddsOnly.setExecutionDone (newExecutionFromProto report.1) s.db
  rw [step]
  rcases heq : setExecutionDone (newExecutionFromProto report.1) s.db with ⟨_ | counted, db⟩
  · rw [setExecutionDone_error heq]
    exact h
  · rw [heq] at hadds
    intro k hk hdone p hp
    obtain ⟨hne, hdone⟩ := not_or.1 (fun hor => hdone (List.mem_cons.2 hor))
    rcases hadds k p hp with hold | rfl
    · exact h k hk hdone p hold
    · exact absurd (DB.key_of_get hp).symm hne

/-- A first message hides its execution just if it has a finish time. -/
theorem AllRunning.start_iff (hs : Known env s) (h : s.AllRunning) {i : ℕ} {d : Dispatch}
    (hd : s.dispatches[i]? = some d) (now : Instant) :
    (s.step env (.start i now)).AllRunning ↔
      asTime d.execution.finishedAt = zeroTime ∨ (d.start now).storeKey ∈ s.done ∨
        (setExecution env (newExecutionFromProto (d.start now)) s.db).2.get
          (d.start now).storeKey = none := by
  have hle : zeroTime ≤ asTime d.execution.finishedAt :=
    hs.finishedAt_le d (List.mem_of_getElem? hd)
  simp only [step, hd]
  refine ⟨fun h' => ?_, fun hor k hk hdone p hp => ?_⟩
  · by_contra hnot
    obtain ⟨hne, hrest⟩ := not_or.1 hnot
    obtain ⟨hdone, hstored⟩ := not_or.1 hrest
    rw [PbExecution.storeKey, DB.get_executionKey] at hstored
    obtain ⟨p, hp⟩ := Option.ne_none_iff_exists'.1 (mt Option.map_eq_none_iff.2 hstored)
    have hget := DB.execution?_eq_some.1 hp
    obtain ⟨-, hzero⟩ := h' _ List.mem_cons_self hdone p hget
    -- What is stored is the message, or a record that finished even later.
    rcases get_setExecution_self hget with rfl | ⟨-, hlt⟩
    · exact hne hzero
    · rw [hzero] at hlt
      exact absurd hle (not_le.2 hlt)
  · by_cases hkey : k = (d.start now).storeKey
    · subst hkey
      rcases hor with hzero | hmem | hnone
      · rcases get_setExecution_self hp with rfl | ⟨hold, hlt⟩
        · exact ⟨ne_of_gt now.2, hzero⟩
        · have hfin : asTime p.finishedAt = zeroTime :=
            (h _ ((hs.known _ p hold).resolve_right hdone) hdone p hold).2
          have hlate : asTime d.execution.finishedAt < asTime p.finishedAt := hlt
          rw [hzero, hfin] at hlate
          exact absurd hlate (lt_irrefl _)
      · exact absurd hmem hdone
      · rw [hnone] at hp
        cases hp
    · have hstarted : k ∈ s.started := (List.mem_cons.1 hk).resolve_left hkey
      rcases AddsOnly.setExecution env _ s.db k p hp with hold | rfl
      · exact h k hstarted hdone p hold
      · exact absurd (DB.key_of_get hp).symm hkey

/-- **One step**: a first message with a finish time hides its attempt, and nothing else does. -/
theorem allRunning_step_iff (hs : Known env s) (h : s.AllRunning) (e : Event) :
    (s.step env e).AllRunning ↔ s.StartsUnfinished env e := by
  cases e with
  | run jobName group cluster => exact iff_of_true h trivial
  | retry job report cluster =>
    refine iff_of_true ?_ trivial
    rw [step]
    cases retryExecution job (newExecutionFromProto report.1) with
    | none => exact h
    | some next => exact h
  | start i now =>
    rw [StartsUnfinished]
    cases hd : s.dispatches[i]? with
    | none =>
      rw [step, hd]
      exact iff_of_true h fun d hd => by cases hd
    | some d =>
      rw [h.start_iff hs hd now]
      exact ⟨fun hor d' hd' => Option.some.inj hd' ▸ hor, fun hor => hor d rfl⟩
  | report report => exact iff_of_true (h.report env report) trivial
  | setJob clk pj =>
    exact iff_of_true (h.of_addsOnly (AddsOnly.setJob hs.sound.toStorable clk _)) trivial
  | deleteJob clk jobName =>
    exact iff_of_true (h.of_addsOnly (AddsOnly.deleteJob hs.sound clk)) trivial
  | deleteExecutions jobName =>
    refine iff_of_true (h.of_addsOnly fun new => ?_) trivial
    exact AddsOnly.deleteExecutions new s.db jobName

theorem Known.new (env : Env) : Known env {} where
  sound := Sound.empty env
  finishedAt_le _ hd := absurd hd List.not_mem_nil
  known k p hk := by simp at hk

end Tracked

/-! ## Whole runs -/

/-- The first attempt of the job `a` runs from 5 to 6 and fails; its retry starts at 7. -/
def retriedRun : List Tracked.Event :=
  let failed : PbExecution :=
    { jobName := "a", nodeName := "n1", group := 1, attempt := 1, startedAt := some 5,
      finishedAt := some 6 }
  [.setJob Clock.epoch { name := "a", schedule := "@manually", retries := 1 },
    .run "a" 1 .oneNode, .start 0 ⟨5, by decide⟩, .report ⟨failed, by decide⟩,
    .retry { name := "a", retries := 1 } ⟨failed, by decide⟩ .oneNode, .start 1 ⟨7, by decide⟩]

end Dkron
