import Dkron.Deletion
import Dkron.ExecutionRecords
import Dkron.Lib.Grouped
import Dkron.Rescheduling

/-!
# The executions of the analytics

The analytics handler collects the executions of all jobs in one scan below the prefix that all of
them have. For a store of another kind, and if the scan finds nothing, it asks for the executions of
each stored job.

The scan also finds executions of jobs that are not stored. A done report of such a job is rejected,
but a first message is not: `SetExecution` does not look at the jobs.

**Theorem (`paths_agree_iff`).** In every content of a run of commands both ways collect the same
executions, if and only if no start of an execution is applied while its job is not stored. Where
the name of the execution's job has a colon, the job is the one named by the part before it.
-/

namespace Dkron

open Store

/-- The scan. -/
def analyticsScan (db : DB) : List Execution :=
  unmarshalExecutions (list (executionsPrefix ++ ":") db)

/-- The loop over the jobs. -/
def analyticsFallback (jobs : List Job) (db : DB) : List Execution :=
  jobs.flatMap fun job =>
    match getExecutions job.name db with
    | .ok jExecs => jExecs
    | .error _ => []

/-- The executions that `analyticsHandler` collects. -/
def analyticsExecutions (jobs : List Job) (db : DB) : List Execution :=
  if analyticsScan db = [] then analyticsFallback jobs db else analyticsScan db

/-- Both ways collect the same executions. -/
def PathsAgree (db : DB) : Prop := (analyticsScan db).Perm (analyticsFallback (getJobs db) db)

instance (db : DB) : Decidable (PathsAgree db) := inferInstanceAs (Decidable (List.Perm _ _))

/-- The job of an execution that starts is stored. -/
def StartsOfStored (db : DB) (e : Fsm.Entry) : Prop :=
  ∀ pbex, e.2 = .setExecution pbex → db.job? (baseName pbex.jobName) ≠ none

/-! ## What is collected -/

/-- The scan finds all stored executions. -/
theorem analyticsScan_eq (db : DB) :
    analyticsScan db = db.executions.map newExecutionFromProto := by
  rw [analyticsScan, unmarshalExecutions_list, List.filter_eq_self.2 fun e _ => ?_]
  have hkey : e.storeKey.toList = (executionsPrefix ++ ":").toList ++
      (e.jobName.toList ++ ':' :: e.key.toList) := by
    simp [PbExecution.storeKey, toList_executionKey, executionsPrefix]
  refine decide_eq_true ⟨hasPrefix_iff.2 ⟨_, hkey.symm⟩, trimDirectoryKey_ne hkey ?_⟩
  exact List.mem_append_right _ (List.mem_cons_of_mem _ (hyphen_mem_key e))

theorem analyticsFallback_eq (jobs : List Job) (db : DB) :
    analyticsFallback jobs db = jobs.flatMap fun job =>
      (db.executions.filter fun e => e.Below (executionsDir job.name)).map
        newExecutionFromProto := by
  apply List.flatMap_congr
  intro job _
  rw [← getExecutions_getD]
  cases getExecutions job.name db <;> rfl

/-- When the scan finds nothing there is nothing to collect. -/
theorem analyticsExecutions_eq (jobs : List Job) (db : DB) :
    analyticsExecutions jobs db = analyticsScan db := by
  rw [analyticsExecutions]
  split_ifs with hnil
  · rw [analyticsFallback_eq, hnil]
    rw [analyticsScan_eq, List.map_eq_nil_iff] at hnil
    simp [hnil]
  · rfl

section

variable {env : Env} {db : DB}

/-- The job of every stored execution is stored. -/
def Owned (db : DB) : Prop := ∀ e ∈ db.executions, db.job? (baseName e.jobName) ≠ none

/-- A stored job has no colon in its name. -/
theorem Sound.colon_notMem (hs : Sound env db) {n : String} (hn : db.job? n ≠ none) :
    ':' ∉ n.toList := by
  obtain ⟨p, hp⟩ := Option.ne_none_iff_exists'.1 hn
  rw [← DB.name_of_job? hp]
  exact Job.colon_not_mem_of_validate (hs.valid n p hp)

/-- In a sound content both ways agree if the executions are those of stored jobs. -/
theorem pathsAgree_iff (hs : Sound env db) : PathsAgree db ↔ Owned db := by
  have hname : ∀ n, n ∈ (getJobs db).map Job.name ↔ db.job? n ≠ none := by
    intro n
    rw [List.mem_map, Option.ne_none_iff_exists']
    constructor
    · rintro ⟨job, hjob, rfl⟩
      obtain ⟨n, p, hp, rfl⟩ := mem_getJobs.1 hjob
      exact ⟨p, by rw [← hp, ← DB.name_of_job? hp]; rfl⟩
    · rintro ⟨p, hp⟩
      exact ⟨newJobFromProto p, mem_getJobs.2 ⟨n, p, hp, rfl⟩, DB.name_of_job? hp⟩
  have hgroups : analyticsFallback (getJobs db) db =
      ((getJobs db).map Job.name).flatMap fun n =>
        (Grouped.group (fun e => baseName e.jobName) n db.executions).map
          newExecutionFromProto := by
    rw [analyticsFallback_eq, List.flatMap_map]
    apply List.flatMap_congr
    intro job hjob
    have hcolon := hs.colon_notMem ((hname job.name).1 (List.mem_map_of_mem hjob))
    rw [Grouped.group]
    congr 1
    exact List.filter_congr fun e _ => decide_eq_decide.2 (below_iff_baseName hcolon)
  have hnodup : ((getJobs db).map Job.name).Nodup := List.pairwise_map.2 (getJobs_pairwise db)
  rw [PathsAgree, List.perm_comm, hgroups, analyticsScan_eq, Grouped.map_groups_perm_iff _ hnodup]
  simp only [hname, Owned]

/-! ## Steps -/

theorem job?_ne_none_iff {n : String} : db.job? n ≠ none ↔ links db n ≠ none := by
  rw [links, ne_eq, ne_eq, Option.map_eq_none_iff]

/-- A command that adds no execution and deletes no job. -/
theorem Owned.of_addsOnly {db' : DB} (h : Owned db) (hadds : ∀ new, AddsOnly new db db')
    (hjobs : ∀ n, db.job? n ≠ none → db'.job? n ≠ none) : Owned db' := by
  intro e he
  refine hjobs _ (h e (DB.mem_executions.2 ?_))
  exact get_of_addsOnly hadds (DB.mem_executions.1 he)

theorem Owned.setJob (h : Owned db) (hs : Sound env db) (clk : Clock) (job : Job) :
    Owned (setJob env clk job true db).2 := by
  refine h.of_addsOnly (AddsOnly.setJob hs.toStorable clk job) fun n hn => ?_
  by_cases ha : Accepts env db job
  · obtain ⟨m, -, hlinks⟩ := links_setJob clk hs ha
    rw [job?_ne_none_iff] at hn ⊢
    rw [hlinks, Links.put]
    split_ifs
    · simp
    · simpa using hn
  · obtain ⟨e, heq⟩ := setJob_of_not_accepts clk true ha
    rwa [heq]

/-- The executions of a deleted job are gone. -/
theorem Owned.deleteJob (h : Owned db) (hs : Sound env db) (clk : Clock) (name : String) :
    Owned (deleteJob env clk name db).2 := by
  by_cases hd : ∃ p, Deletable db name p
  · obtain ⟨p, hd⟩ := hd
    intro e he
    rw [job?_ne_none_iff, links_deleteJob hs hd, Links.remove]
    rw [DB.mem_executions, deleteJob_of_deletable hs hd] at he
    have herase := get_of_addsOnly
      (fun new => AddsOnly.setDependents new (eraseJob name db) _ p.parentJob) he
    rw [eraseJob, DB.get_delete, get_deleteExecutionsTxFunc] at herase
    split_ifs at herase with hjob hpre
    have hstored := h e (DB.mem_executions.2 herase)
    rw [job?_ne_none_iff] at hstored
    have hne : baseName e.jobName ≠ name := by
      intro hname
      have hcolon := hs.colon_notMem (n := name) (by simp [hd.1])
      refine hpre ((hasPrefix_executionKey hcolon _ _).2 ?_)
      rw [← hname, toList_baseName]
      exact List.takeWhile_prefix _
    rw [if_neg hne]
    simpa using hstored
  · obtain ⟨e, heq⟩ := deleteJob_of_not_deletable env clk hd
    rwa [heq]

theorem Owned.deleteExecutions (h : Owned db) (name : String) :
    Owned (deleteExecutions name db).2 := by
  refine h.of_addsOnly (fun new => AddsOnly.deleteExecutions new db name) fun n hn => ?_
  rw [job?_ne_none_iff] at hn ⊢
  rwa [links_deleteExecutions]

/-- A done report of a job that is not stored is rejected. -/
theorem Owned.setExecutionDone (h : Owned db) (hs : Sound env db) (ex : Execution) :
    Owned (setExecutionDone ex db).2 := by
  intro e he
  rw [job?_ne_none_iff, links_setExecutionDone, ← job?_ne_none_iff]
  rcases AddsOnly.setExecutionDone ex db _ _ (DB.mem_executions.1 he) with hold | rfl
  · exact h e (DB.mem_executions.2 hold)
  · cases hp : db.job? ex.jobName with
    | none =>
      rw [setExecutionDone_eq, hp] at he
      exact h _ he
    | some p =>
      have hstored : db.job? ex.jobName ≠ none := by simp [hp]
      rwa [show baseName ex.toProto.jobName = ex.jobName from
        baseName_of_notMem (hs.colon_notMem hstored)]

/-- If no execution lies below the directory of its job, an execution is stored and none pruned. -/
theorem setExecution_of_none_below (env : Env) {ex : Execution}
    (hfree : ∀ e ∈ db.executions, ¬e.Below (executionsDir ex.jobName)) :
    (setExecution env ex db).2 = db.set (.execution ex.toProto) := by
  have hprevious : db.execution? ex.jobName ex.key = none := by
    cases hp : db.execution? ex.jobName ex.key with
    | none => rfl
    | some p =>
      have hget := DB.execution?_eq_some.1 hp
      have hkey : p.storeKey = ex.toProto.storeKey := DB.key_of_get hget
      refine absurd ?_ (hfree p (DB.get_of_mem_executions hget))
      rw [PbExecution.Below, hkey]
      exact below_executionsDir ex.toProto
  have hset : (setExecutionTx ex.toProto db).2 = db.set (.execution ex.toProto) := by
    rw [setExecutionTx_eq, show db.execution? ex.toProto.jobName ex.toProto.key = none
      from hprevious]
    rfl
  have honly : ∀ e ∈ (db.set (.execution ex.toProto)).executions.filter
      fun e => e.Below (executionsDir ex.jobName), e ∈ [ex.toProto] := by
    intro e he
    obtain ⟨he, hbelow⟩ := List.mem_filter.1 he
    obtain rfl | ⟨hold, -⟩ := DB.mem_executions_set.1 he
    · exact List.mem_singleton.2 rfl
    · exact absurd (of_decide_eq_true hbelow) (hfree e hold)
  have hshort := (((db.set (.execution ex.toProto)).nodup_executions.filter _).subperm
    honly).length_le
  have hkept : overflowKeys env ex.jobName (db.set (.execution ex.toProto)) = [] := by
    rw [overflowKeys, getExecutions_getD, overflow, List.length_map,
      Nat.sub_eq_zero_of_le (hshort.trans (show 1 ≤ maxExecutions by decide))]
    rfl
  rw [setExecution_eq, hset, hkept]
  rfl

/-- A start is stored, its job being stored or not. -/
theorem owned_setExecution_iff (h : Owned db) (ex : Execution) :
    Owned (setExecution env ex db).2 ↔ db.job? (baseName ex.jobName) ≠ none := by
  constructor
  · intro hafter hnone
    -- no execution of the job is stored, so this one is the only one after it is written
    have hfree : ∀ e ∈ db.executions, ¬e.Below (executionsDir ex.jobName) := fun e he hbelow =>
      h e he (by rw [baseName_of_below hbelow]; exact hnone)
    refine absurd (hafter ex.toProto ?_) (by simpa using hnone)
    rw [setExecution_of_none_below env hfree]
    exact DB.mem_executions_set.2 (.inl rfl)
  · intro hstored e he
    rw [job?_setExecution]
    rcases AddsOnly.setExecution env ex db _ _ (DB.mem_executions.1 he) with hold | rfl
    · exact h e (DB.mem_executions.2 hold)
    · exact hstored

theorem owned_step_iff (h : Owned db) (hs : Sound env db) (e : Fsm.Entry) :
    Owned (Fsm.step env db e) ↔ StartsOfStored db e := by
  obtain ⟨clk, c⟩ := e
  cases c with
  | setJob pj =>
    rw [Fsm.step_setJob]
    exact iff_of_true (h.setJob hs clk _) (fun pbex heq => by cases heq)
  | deleteJob name =>
    rw [Fsm.step_deleteJob]
    exact iff_of_true (h.deleteJob hs clk name) (fun pbex heq => by cases heq)
  | deleteExecutions name =>
    rw [Fsm.step_deleteExecutions]
    exact iff_of_true (h.deleteExecutions name) (fun pbex heq => by cases heq)
  | executionDone pbex =>
    rw [Fsm.step_executionDone]
    exact iff_of_true (h.setExecutionDone hs _) (fun pbex heq => by cases heq)
  | setExecution pbex =>
    rw [Fsm.step_setExecution, owned_setExecution_iff h]
    constructor
    · rintro hstored _ ⟨⟩
      exact hstored
    · exact fun hstored => hstored pbex rfl

end

/-! ## Whole runs -/

/-- Along a run from a new store both ways collect the same executions in every content if and only
if every execution that starts is one of a stored job. -/
theorem paths_agree_iff (env : Env) (log : List Fsm.Entry) :
    Runs.Everywhere (Fsm.step env) PathsAgree DB.empty log ↔
      Runs.Along (Fsm.step env) StartsOfStored DB.empty log := by
  refine Runs.everywhere_iff_along (J := Sound env) (fun _ e hs => hs.step e) ?_ (Sound.empty env)
    ((pathsAgree_iff (Sound.empty env)).2 fun e he => ?_)
  · intro db e hs h
    rw [pathsAgree_iff (hs.step e)]
    exact owned_step_iff ((pathsAgree_iff hs).1 h) hs e
  · rw [DB.mem_executions, DB.get_empty] at he
    cases he

/-- The job `a` is deleted before the first message of its execution is applied. -/
def lateStart : List Fsm.Entry :=
  Fsm.setA ++ [(Clock.epoch, .deleteJob "a"),
    (Clock.epoch, .setExecution { jobName := "a", startedAt := some 5, nodeName := "n1" })]

/-- The scan finds the execution, and no stored job has it. -/
theorem late_start_found :
    ¬PathsAgree (Fsm.run Env.small DB.empty lateStart) := by
  decide +kernel

end Dkron
