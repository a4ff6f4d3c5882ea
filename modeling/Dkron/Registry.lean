import Dkron.CommandBytes
import Dkron.Merge

/-!
# The registry of jobs

What users see of the store is a registry: a request that is answered without an error sets a job,
an answered deletion takes it away, and nothing else touches its settings. The store keeps more in
the same records (counters, times, dependents, `Next`), writes them from executions, from the
parents of other jobs and in transactions that follow each other, and reads a request against what
is stored.

`registry_run` says that the settings are still those of the registry that the answers alone tell:
every job has the settings of the last request that was answered for it, whatever else the log
holds.
-/

namespace Dkron

open Store

/-- The settings of the jobs. -/
abbrev Registry := String → Option Job

namespace Registry

/-- What a command tells, with its answer. -/
def note (r : Registry) : Command × Response → Registry
  | (.setJob pj, .nil) => Function.update r pj.name (some (newJobFromProto pj).settings)
  | (.deleteJob jobName, .job _) => Function.update r jobName none
  | _ => r

/-- What a log tells, with its answers. -/
def told (cs : List (Command × Response)) : Registry := cs.foldl note fun _ => none

end Registry

/-- The settings of the stored jobs. -/
def registry (db : DB) : Registry := fun n => (db.job? n).map fun p => (newJobFromProto p).settings

section

variable {env : Env} {clk : Clock} {db : DB}

theorem settings_of_definition {p q : PbJob} (h : q.definition = p.definition) :
    (newJobFromProto q).settings = (newJobFromProto p).settings :=
  field_of_definition (fun p => (newJobFromProto p).settings) h

/-- A command that changes only the results of jobs keeps the settings. -/
theorem registry_of_results {db db' : DB} {g : String → PbJob → PbJob}
    (hjob : ∀ n, db'.job? n = (db.job? n).map (g n))
    (hdef : ∀ n p, (g n p).definition = p.definition) : registry db' = registry db := by
  funext n
  rw [registry, registry, hjob, Option.map_map]
  congr 1
  funext p
  exact settings_of_definition (hdef n p)

/-- The dependents of a job are no settings of it. -/
theorem registry_setDependents (f : List String → List String) (name : String) (db : DB) :
    registry (setDependents f name db) = registry db := by
  funext n
  rw [registry, registry, job?_setDependents, Option.map_map]
  congr 1
  funext p
  simp only [Function.comp_apply]
  split_ifs <;> rfl

theorem registry_relink (child old new : String) (db : DB) :
    registry (relink child old new db) = registry db := by
  unfold relink
  split_ifs
  · rfl
  · rw [link, registry_setDependents, unlink, registry_setDependents]

theorem registry_set_job (p : PbJob) (db : DB) :
    registry (db.set (.job p)) =
      Function.update (registry db) p.name (some (newJobFromProto p).settings) := by
  funext n
  rw [registry, DB.job?_set_job, Function.update_apply]
  by_cases h : p.name = n
  · rw [if_pos h, if_pos h.symm, Option.map_some]
  · rw [if_neg h, if_neg (Ne.symm h), registry]

theorem registry_eraseJob (name : String) (db : DB) :
    registry (eraseJob name db) = Function.update (registry db) name none := by
  funext n
  rw [registry, job?_eraseJob, Function.update_apply]
  by_cases h : name = n
  · rw [if_pos h, if_pos h.symm, Option.map_none]
  · rw [if_neg h, if_neg (Ne.symm h), registry]

/-- An accepted request sets the job. -/
theorem registry_setJob {job : Job} (clk : Clock) (hs : Sound env db) (ha : Accepts env db job)
    (hjob : job.Representable) :
    registry (setJob env clk job true db).2 =
      Function.update (registry db) job.name (some job.settings) := by
  obtain ⟨m, hm, heq⟩ := setJob_of_accepts clk true hs.toStorable ha
  rw [heq, registry_relink, registry_set_job, newJobFromProto_toProto (hjob.mergedJob hm),
    settings_of_mergedJob hm]
  exact congrArg (Function.update (registry db) · _) (name_of_mergedJob hm)

/-- **One command on the registry.** -/
theorem registry_step (hs : Sound env db) (e : Fsm.Entry) :
    registry (Fsm.step env db e) =
      Registry.note (registry db) (e.2, (Fsm.apply env e.1 e.2 db).1) := by
  obtain ⟨clk, c⟩ := e
  cases c with
  | setJob pj =>
    rw [Fsm.step_setJob]
    simp only [Fsm.apply, Fsm.applySetJob]
    by_cases ha : Accepts env db (newJobFromProto pj)
    · have hset := registry_setJob clk hs ha (representable_newJobFromProto pj)
      obtain ⟨m, -, heq⟩ := setJob_of_accepts clk true hs.toStorable ha
      rw [heq] at hset ⊢
      exact hset
    · obtain ⟨err, heq⟩ := setJob_of_not_accepts clk true ha
      rw [heq]
      rfl
  | deleteJob jobName =>
    rw [Fsm.step_deleteJob]
    simp only [Fsm.apply, Fsm.applyDeleteJob]
    by_cases hd : ∃ p, Deletable db jobName p
    · obtain ⟨p, hd⟩ := hd
      rw [deleteJob_of_deletable hs hd, unlink, registry_setDependents]
      exact registry_eraseJob jobName db
    · obtain ⟨err, heq⟩ := deleteJob_of_not_deletable env clk hd
      rw [heq]
      rfl
  | setExecution pbex =>
    refine registry_of_results (g := fun _ p => p) (fun n => ?_) fun _ _ => rfl
    rw [Fsm.step_setExecution, job?_setExecution, Option.map_id']
  | deleteExecutions jobName =>
    rw [Fsm.step_deleteExecutions, registry_of_results (job?_deleteExecutions jobName db)]
    · rfl
    · intro n p
      split_ifs <;> rfl
  | executionDone pbex =>
    rw [Fsm.step_executionDone,
      registry_of_results (job?_setExecutionDone _ db) (definition_reported _ db)]
    rfl

theorem registry_run_of_sound (hs : Sound env db) (log : List Fsm.Entry) :
    registry (Fsm.run env db log) =
      ((log.map (·.2)).zip (Fsm.responses env log db)).foldl Registry.note (registry db) := by
  induction log generalizing db with
  | nil => rfl
  | cons e log ih =>
    rw [Fsm.run, List.foldl_cons, ← Fsm.run, ih (hs.step e), registry_step hs e]
    rfl

theorem toOption_getJob (n : String) (db : DB) :
    (getJob n db).toOption.map Job.settings = registry db n := by
  rw [getJob, registry]
  cases db.job? n <;> rfl

/-- A command answers with the settings of the job. -/
theorem settings_of_apply (hs : Sound env db) {e : Fsm.Entry} {j : Job}
    (h : (Fsm.apply env e.1 e.2 db).1 = .job j) : registry db j.name = some j.settings := by
  have hstored {name : String} {p : PbJob} (hp : db.job? name = some p) :
      registry db (newJobFromProto p).name = some (newJobFromProto p).settings := by
    rw [registry, show (newJobFromProto p).name = name from DB.name_of_job? hp, hp, Option.map_some]
  obtain ⟨clk, c⟩ := e
  cases c with
  | setJob pj =>
    simp only [Fsm.apply, Fsm.applySetJob] at h
    generalize setJob env clk (newJobFromProto pj) true db = r at h
    rcases r with ⟨_ | _, db'⟩ <;> cases h
  | deleteJob jobName =>
    simp only [Fsm.apply, Fsm.applyDeleteJob] at h
    by_cases hd : ∃ p, Deletable db jobName p
    · obtain ⟨p, hd⟩ := hd
      rw [deleteJob_of_deletable hs hd] at h
      cases h
      exact hstored hd.1
    · obtain ⟨err, heq⟩ := deleteJob_of_not_deletable env clk hd
      rw [heq] at h
      cases h
  | setExecution pbex => cases h
  | deleteExecutions jobName =>
    simp only [Fsm.apply, Fsm.applyDeleteExecutions, deleteExecutions_eq] at h
    cases hp : db.job? jobName with
    | none =>
      rw [hp] at h
      cases h
    | some p =>
      have hname : (resetCounters p).name = jobName := DB.name_of_job? (p := p) hp
      simp only [hp, getJob, DB.job?_set_job, if_pos hname] at h
      cases h
      have hregistered := hstored hp
      exact hregistered
  | executionDone pbex =>
    simp only [Fsm.apply, Fsm.applyExecutionDone] at h
    generalize setExecutionDone (newExecutionFromProto pbex) db = r at h
    rcases r with ⟨_ | _, db'⟩ <;> cases h

end

end Dkron
