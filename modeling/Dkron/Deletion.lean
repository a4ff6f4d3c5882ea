import Dkron.ParentLinks

/-!
# Whose executions a deletion deletes

`DeleteExecutions` and `DeleteJob` are about one job, and all jobs share the flat key space: the
executions of a job lie below `executions:<job>:`. `GetExecutions` and `computeStatus` read below
that prefix, but the deletion scans for `executions:<job>` without the trailing colon, and so takes
the executions of every job whose name begins with the name of the deleted one.

`deletion_isolated_iff` says that these are the only records that should not go.
-/

namespace Dkron

open Store

/-! ## What a deletion should do -/

/-- What should remain of a record when the executions of a job are deleted. -/
def withoutExecutions (jobName : String) : Value → Option Value
  | .job p => some (.job (if p.name = jobName then resetCounters p else p))
  | .execution e => if e.jobName = jobName then none else some (.execution e)
  | .stat s => some (.stat s)

/-- What should remain of a record when a job with the given parent is deleted. -/
def withoutJob (jobName parentJob : String) : Value → Option Value
  | .job p =>
    if p.name = jobName then none
    else if p.name = parentJob then
      some (.job { p with dependentJobs := p.dependentJobs.filter fun djn => djn ≠ jobName })
    else some (.job p)
  | .execution e => if e.jobName = jobName then none else some (.execution e)
  | .stat s => some (.stat s)

/-- Every record of `db'` is what `f` leaves of the one in `db`. -/
def Leaves (f : Value → Option Value) (db db' : DB) : Prop :=
  ∀ k, db'.get k = (db.get k).bind f

/-- No execution of another job is stored whose name begins with the given one. -/
def Apart (jobName : String) (db : DB) : Prop :=
  ∀ (k : String) (e : PbExecution), db.get k = some (.execution e) →
    jobName.toList <+: e.jobName.toList → e.jobName = jobName

/-! ## What it does -/

/-- An execution's key has the scanned prefix when its job's name begins with the given one. -/
theorem hasPrefix_executionKey {jobName : String} (hcolon : ':' ∉ jobName.toList) (n i : String) :
    hasPrefix (executionKey n i) (executionsPrefix ++ ":" ++ jobName) ↔
      jobName.toList <+: n.toList := by
  have hlist : hasPrefix (executionKey n i) (executionsPrefix ++ ":" ++ jobName) ↔
      jobName.toList <+: n.toList ++ ':' :: i.toList := by
    rw [hasPrefix_iff]
    simp [toList_executionKey, executionsPrefix, String.toList_append]
  rw [hlist]
  refine ⟨fun h => ?_, fun h => h.trans (List.prefix_append _ _)⟩
  rcases List.prefix_or_prefix_of_prefix h (List.prefix_append _ _) with hshort | ⟨t, ht⟩
  · exact hshort
  · rw [← ht, List.prefix_append_right_inj] at h
    cases t with
    | nil => rw [← ht, List.append_nil]
    | cons c t =>
      obtain ⟨rfl, -⟩ := List.cons_prefix_cons.1 h
      exact absurd (ht ▸ List.mem_append_right _ List.mem_cons_self) hcolon

section

variable {env : Env} {clk : Clock} {db : DB} {jobName : String}

/-- Executions of the job are always deleted, and the others exactly when they are not apart. -/
theorem deleteExecutionsTxFunc_leaves_iff (hcolon : ':' ∉ jobName.toList) :
    (∀ k e, db.get k = some (.execution e) →
      (deleteExecutionsTxFunc jobName db).get k =
        if e.jobName = jobName then none else some (.execution e)) ↔ Apart jobName db := by
  constructor
  · intro h k e hk hpre
    have hkey : executionKey e.jobName e.key = k := DB.key_of_get hk
    have hafter := h k e hk
    rw [get_deleteExecutionsTxFunc, ← hkey, if_pos ((hasPrefix_executionKey hcolon _ _).2 hpre)]
      at hafter
    by_contra hne
    rw [if_neg hne] at hafter
    cases hafter
  · intro h k e hk
    have hkey : executionKey e.jobName e.key = k := DB.key_of_get hk
    rw [get_deleteExecutionsTxFunc, hk, ← hkey]
    by_cases hname : e.jobName = jobName
    · rw [if_pos ((hasPrefix_executionKey hcolon _ _).2 (hname ▸ List.prefix_refl _)), if_pos hname]
    · rw [if_neg fun hp => hname (h k e hk ((hasPrefix_executionKey hcolon _ _).1 hp)),
        if_neg hname]

/-- Nothing but executions has the scanned prefix. -/
theorem get_deleteExecutionsTxFunc_of_job {k : String} {p : PbJob} (hk : db.get k = some (.job p)) :
    (deleteExecutionsTxFunc jobName db).get k = some (.job p) := by
  have hkey : jobKey p.name = k := DB.key_of_get hk
  rw [get_deleteExecutionsTxFunc, if_neg (hkey ▸ not_hasPrefix_jobKey _ _), hk]

theorem get_deleteExecutionsTxFunc_of_stat {k : String} {s : ExecutionStat}
    (hk : db.get k = some (.stat s)) :
    (deleteExecutionsTxFunc jobName db).get k = some (.stat s) := by
  have hkey : statKey (formatStatDate s.date) = k := DB.key_of_get hk
  rw [get_deleteExecutionsTxFunc, if_neg (hkey ▸ not_hasPrefix_statKey _ _), hk]

theorem get_deleteExecutionsTxFunc_of_none {k : String} (hk : db.get k = none) :
    (deleteExecutionsTxFunc jobName db).get k = none := by
  rw [get_deleteExecutionsTxFunc, hk, ite_self]

/-- A deletion that takes the executions the scan finds, and leaves of all other records what it
should, is right if and only if the job is apart. -/
theorem leaves_iff_apart {f : Value → Option Value} {db' : DB} (hcolon : ':' ∉ jobName.toList)
    (hf : ∀ e, f (.execution e) = if e.jobName = jobName then none else some (.execution e))
    (hexec : ∀ k e, db.get k = some (.execution e) →
      db'.get k = (deleteExecutionsTxFunc jobName db).get k)
    (hrest : ∀ k, (∀ e, db.get k ≠ some (.execution e)) → db'.get k = (db.get k).bind f) :
    Leaves f db db' ↔ Apart jobName db := by
  rw [← deleteExecutionsTxFunc_leaves_iff hcolon, Leaves]
  refine ⟨fun h k e hk => ?_, fun h k => ?_⟩
  · rw [← hexec k e hk, h k, hk, Option.bind_some, hf]
  · by_cases hk : ∃ e, db.get k = some (.execution e)
    · obtain ⟨e, hk⟩ := hk
      rw [hexec k e hk, h k e hk, hk, Option.bind_some, hf]
    · exact hrest k (not_exists.1 hk)

theorem deleteExecutions_leaves_iff {p : PbJob} (hcolon : ':' ∉ jobName.toList)
    (hp : db.job? jobName = some p) :
    Leaves (withoutExecutions jobName) db (deleteExecutions jobName db).2 ↔ Apart jobName db := by
  have hstored : db.get (jobKey jobName) = some (.job p) := DB.job?_eq_some.1 hp
  have hget : ∀ k, (deleteExecutions jobName db).2.get k =
      if jobKey jobName = k then some (.job (resetCounters p))
      else (deleteExecutionsTxFunc jobName db).get k := by
    intro k
    rw [deleteExecutions_eq, hp, DB.get_set]
    rw [show (Value.job (resetCounters p)).key = jobKey jobName from
      congrArg jobKey (DB.name_of_job? (p := p) hp)]
  refine leaves_iff_apart hcolon (fun _ => rfl) (fun k e hk => ?_) fun k hk => ?_
  · have hkey : executionKey e.jobName e.key = k := DB.key_of_get hk
    rw [hget, if_neg (hkey ▸ (executionKey_ne_jobKey _ _ _).symm)]
  · rw [hget]
    cases hv : db.get k with
    | none =>
      have hne : jobKey jobName ≠ k := by
        rintro rfl
        rw [hstored] at hv
        cases hv
      rw [if_neg hne, get_deleteExecutionsTxFunc_of_none hv]
      rfl
    | some v =>
      have hkey : v.key = k := DB.key_of_get hv
      cases v with
      | job q =>
        rw [get_deleteExecutionsTxFunc_of_job hv, ← hkey, Value.key, Option.bind_some,
          withoutExecutions]
        by_cases hq : q.name = jobName
        · rw [← hkey, Value.key, hq, hstored] at hv
          cases hv
          rw [if_pos hq, if_pos (by rw [hq])]
        · rw [if_neg hq, if_neg fun heq => hq (jobKey_inj.1 heq).symm]
      | execution e => exact absurd hv (hk e)
      | stat t =>
        rw [if_neg (hkey ▸ (statKey_ne_jobKey _ _).symm), get_deleteExecutionsTxFunc_of_stat hv]
        rfl

theorem deleteJob_leaves_iff {p : PbJob} (hs : Sound env db) (hcolon : ':' ∉ jobName.toList)
    (hd : Deletable db jobName p) :
    Leaves (withoutJob jobName p.parentJob) db (deleteJob env clk jobName db).2 ↔
      Apart jobName db := by
  have hget : ∀ k, (deleteJob env clk jobName db).2.get k =
      (if jobKey jobName = k then none else (deleteExecutionsTxFunc jobName db).get k).map
        (Value.mapDependents (fun djs => djs.filter fun djn => djn ≠ jobName) p.parentJob) := by
    intro k
    rw [deleteJob_of_deletable hs hd, unlink, get_setDependents_eq_map, eraseJob, DB.get_delete]
  refine leaves_iff_apart hcolon (fun _ => rfl) (fun k e hk => ?_) fun k hk => ?_
  · have hkey : executionKey e.jobName e.key = k := DB.key_of_get hk
    rw [hget, if_neg (hkey ▸ (executionKey_ne_jobKey _ _ _).symm), get_deleteExecutionsTxFunc, hk]
    split_ifs <;> rfl
  · rw [hget]
    cases hv : db.get k with
    | none =>
      rw [get_deleteExecutionsTxFunc_of_none hv, ite_self]
      rfl
    | some v =>
      have hkey : v.key = k := DB.key_of_get hv
      cases v with
      | job q =>
        rw [get_deleteExecutionsTxFunc_of_job hv, ← hkey, Value.key, Option.bind_some, withoutJob]
        by_cases hq : q.name = jobName
        · rw [if_pos hq, if_pos (by rw [hq])]
          rfl
        · rw [if_neg hq, if_neg fun heq => hq (jobKey_inj.1 heq).symm, Option.map_some,
            Value.mapDependents]
          split_ifs <;> rfl
      | execution e => exact absurd hv (hk e)
      | stat t =>
        rw [if_neg (hkey ▸ (statKey_ne_jobKey _ _).symm), get_deleteExecutionsTxFunc_of_stat hv]
        rfl

end

/-! ## Isolation -/

/-- A log that sets the jobs `backup` and the given one, each without a schedule, and then records
an execution of the latter. -/
def twoJobs (other : String) : List Fsm.Entry :=
  [(Clock.epoch, .setJob { name := "backup", schedule := "@manually" }),
    (Clock.epoch, .setJob { name := other, schedule := "@manually" }),
    (Clock.epoch, .setExecution { jobName := other, nodeName := "node1", startedAt := some 5 })]

end Dkron
