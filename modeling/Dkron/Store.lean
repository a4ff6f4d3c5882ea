import Dkron.Database

/-!
# The store

`dkron/store.go`, over the flat key space. A store function takes the content of the database and
returns its result with the content it leaves behind. A transaction that returns an error is rolled
back, so it leaves what it found; `SetJob` and `DeleteJob` run more than one transaction and can
fail after the first has been committed.

Logging, tracing and the Prometheus counters are left out.
-/

namespace Dkron

/-- The clock of the server that applies a command, and its local time zone. -/
structure Clock where
  now : Time
  zone : Zone

/-- A clock at the epoch, in UTC. -/
def Clock.epoch : Clock := ⟨0, fun _ => 0⟩

namespace Store

/-- `MaxExecutions`. -/
def maxExecutions : Nat := 100

/-! ## Setting jobs -/

/-- `GetJob`. -/
def getJob (name : String) (db : DB) : Except Err Job :=
  match db.job? name with
  | none => .error .notFound
  | some pbj => .ok (newJobFromProto pbj)

/-- `GetJobs` without options: all jobs. -/
def getJobs (db : DB) : List Job :=
  db.ascend.filterMap fun
    | (_, .job pbj) => some (newJobFromProto pbj)
    | _ => none

/-- The job `SetJob` finds under a name: one made from the empty message if there is none. -/
def storedJob (name : String) (db : DB) : Job := newJobFromProto ((db.job? name).getD {})

/-- What `SetJob` keeps of the stored job `ej`: the results of its runs, and its dependent jobs if
there are any and the caller asks for them. -/
def keepStored (copyDependentJobs : Bool) (ej job : Job) : Job :=
  if ej.name = "" then job
  else
    { job with
      lastError :=
        if NullableTime.after ej.lastError job.lastError then ej.lastError else job.lastError
      lastSuccess :=
        if NullableTime.after ej.lastSuccess job.lastSuccess then ej.lastSuccess
        else job.lastSuccess
      successCount :=
        if job.successCount < ej.successCount then ej.successCount else job.successCount
      errorCount := if job.errorCount < ej.errorCount then ej.errorCount else job.errorCount
      dependentJobs :=
        if ej.dependentJobs ≠ [] ∧ copyDependentJobs then ej.dependentJobs else job.dependentJobs
      status := if ej.status ≠ "" then ej.status else job.status }

/-- The next run of the job: computed anew when the schedule changed, and otherwise the later one
of the two. -/
def setNext (env : Env) (clk : Clock) (ej job : Job) : Except Err Job :=
  if job.schedule ≠ ej.schedule then
    match job.getNext env clk.zone clk.now with
    | .error e => .error e
    | .ok t => .ok { job with next := t }
  else if job.next < ej.next then .ok { job with next := ej.next }
  else .ok job

/-- The transaction of `SetJob`: the job as stored, and the new content. -/
def setJobTx (env : Env) (clk : Clock) (job : Job) (copyDependentJobs : Bool) (db : DB) :
    Except Err (Job × DB) :=
  let ej := storedJob job.name db
  match setNext env clk ej (keepStored copyDependentJobs ej job) with
  | .error e => .error e
  | .ok job => .ok (job, db.set (.job job.toProto))

/-- `GetParent`. -/
def getParent (j : Job) (db : DB) : Except Err Job :=
  if j.name = j.parentJob then .error .sameParent
  else if j.parentJob = "" then .error .noParent
  else
    match getJob j.parentJob db with
    | .error .notFound => .error .parentJobNotFound
    | .error e => .error e
    | .ok parent => .ok parent

section Parents

variable (setParent : Job → DB → Except Err Unit × DB)

/-- `removeFromParent`: drops every occurrence of the child. `setParent` stores the parent. -/
def removeFromParent (child : Job) (db : DB) : Except Err Unit × DB :=
  if child.parentJob = "" then (.ok (), db)
  else
    match getParent child db with
    | .error e => (.error e, db)
    | .ok parent =>
      setParent { parent with
        dependentJobs := parent.dependentJobs.filter fun djn => djn ≠ child.name } db

/-- `addToParent`. `setParent` stores the parent. -/
def addToParent (child : Job) (db : DB) : Except Err Unit × DB :=
  if child.parentJob = "" then (.ok (), db)
  else
    match getParent child db with
    | .error e => (.error e, db)
    | .ok parent =>
      setParent { parent with dependentJobs := parent.dependentJobs ++ [child.name] } db

end Parents

/-- `SetJob`, at most `depth` calls deep: it calls itself on the old and the new parent. -/
def setJobDepth (env : Env) (clk : Clock) :
    (depth : Nat) → (job : Job) → (copyDependentJobs : Bool) → DB → Except Err Unit × DB
  | 0, _, _, db => (.error (.text "stack overflow"), db)
  | depth + 1, job, copyDependentJobs, db =>
    match job.validate env with
    | .error e => (.error e, db)
    | .ok () =>
      -- Abort if the parent is not found before committing the job to the store.
      if job.parentJob ≠ "" ∧ db.job? job.parentJob = none then (.error .parentJobNotFound, db)
      else
        match setJobTx env clk job copyDependentJobs db with
        | .error e => (.error e, db)
        | .ok (job', db') =>
          let ej := storedJob job.name db
          if job'.parentJob = ej.parentJob then (.ok (), db')
          else
            match removeFromParent (setJobDepth env clk depth · false) ej db' with
            | (.error e, db'') => (.error e, db'')
            | (.ok (), db'') => addToParent (setJobDepth env clk depth · false) job' db''

/-- `SetJob`. The parents' own parents do not change, so the calls on the parents are the last. -/
def setJob (env : Env) (clk : Clock) (job : Job) (copyDependentJobs : Bool) (db : DB) :
    Except Err Unit × DB :=
  setJobDepth env clk 2 job copyDependentJobs db

/-! ## Deleting -/

/-- `deleteExecutionsTxFunc`: the keys are collected in a scan over the whole database first. -/
def deleteExecutionsTxFunc (jobName : String) (db : DB) : DB :=
  let pre := executionsPrefix ++ ":" ++ jobName
  db.deleteAll ((db.ascend.map (·.1)).filter fun k => hasPrefix k pre)

/-- `DeleteJob`. -/
def deleteJob (env : Env) (clk : Clock) (name : String) (db : DB) : Except Err Job × DB :=
  match db.job? name with
  | none => (.error .notFound, db)
  | some pbj =>
    if pbj.dependentJobs ≠ [] then (.error .dependentJobs, db)
    else
      let job := newJobFromProto pbj
      let db' := (deleteExecutionsTxFunc name db).delete (jobKey name)
      if job.parentJob = "" then (.ok job, db')
      else
        match removeFromParent (setJob env clk · false) job db' with
        | (.error e, db'') => (.error e, db'')
        | (.ok (), db'') => (.ok job, db'')

/-- The job whose counters `DeleteExecutions` has reset. -/
def resetCounters (pbj : PbJob) : PbJob :=
  { pbj with successCount := 0, errorCount := 0, lastSuccess := some {}, lastError := some {} }

/-- `DeleteExecutions`, one transaction. -/
def deleteExecutions (jobName : String) (db : DB) : Except Err Unit × DB :=
  let db' := deleteExecutionsTxFunc jobName db
  match db'.job? jobName with
  | none => (.error .notFound, db)
  | some pbj => (.ok (), db'.set (.job (resetCounters pbj)))

/-! ## Reading executions -/

/-- `trimDirectoryKey`. -/
def trimDirectoryKey (key : String) : String :=
  if key.toList.getLast? = some ':' then String.ofList key.toList.dropLast else key

/-- `listTxFunc` with the default options: the records below a prefix, in the order of keys. -/
def list (pre : String) (db : DB) : List (String × Value) :=
  db.ascend.filter fun r => hasPrefix r.1 pre ∧ trimDirectoryKey r.1 ≠ pre

/-- `unmarshalExecutions`. Below the executions prefix there are only executions. -/
def unmarshalExecutions (items : List (String × Value)) : List Execution :=
  items.filterMap fun
    | (_, .execution pbe) => some (newExecutionFromProto pbe)
    | _ => none

/-- `GetExecutions` with the default options. -/
def getExecutions (jobName : String) (db : DB) : Except Err (List Execution) :=
  if db.ascend.any fun r => hasPrefix r.1 (executionsDir jobName) then
    .ok (unmarshalExecutions (list (executionsDir jobName) db))
  else .error .notFound

/-- `GetExecutionGroup`. -/
def getExecutionGroup (execution : Execution) (db : DB) : Except Err (List Execution) :=
  (getExecutions execution.jobName db).map fun res =>
    res.filter fun ex => ex.group = execution.group

/-- `GetRunningExecutions`: those that have started and not finished. -/
def getRunningExecutions (jobName : String) (db : DB) : Except Err (List Execution) :=
  match getExecutions jobName db with
  | .error .notFound => .ok []
  | .error e => .error e
  | .ok allExecs =>
    .ok (allExecs.filter fun exec => exec.startedAt ≠ zeroTime ∧ exec.finishedAt = zeroTime)

/-- `computeStatus`. -/
def computeStatus (jobName : String) (exGroup : Int) (db : DB) : String :=
  let execs := unmarshalExecutions (list (executionsDir jobName) db)
  let executions := execs.filter fun ex => ex.group = exGroup
  let success := executions.countP fun ex => ex.success
  let failed := executions.countP fun ex => !ex.success
  if failed = 0 then statusSuccess
  else if success = 0 then statusFailed
  else statusPartiallyFailed

/-! ## Setting executions -/

/-- `setExecutionTx`: does nothing if a more recent execution is stored under the key. -/
def setExecutionTx (pbe : PbExecution) (db : DB) : Bool × DB :=
  match db.execution? pbe.jobName pbe.key with
  | none => (true, db.set (.execution pbe))
  | some p =>
    if asTime pbe.finishedAt < asTime p.finishedAt then (false, db)
    else (true, db.set (.execution pbe))

/-- The executions over the limit, starting from the oldest. -/
def overflow (env : Env) (execs : List Execution) : List Execution :=
  (env.sortSlice (·.startedAt) execs).take (execs.length - maxExecutions)

/-- `SetExecution`: the key of the saved execution. -/
def setExecution (env : Env) (execution : Execution) (db : DB) : String × DB :=
  let db' := (setExecutionTx execution.toProto db).2
  let execs := (getExecutions execution.jobName db').toOption.getD []
  (executionKey execution.jobName execution.key,
    (overflow env execs).foldl (fun db ex => db.delete (executionKey ex.jobName ex.key)) db')

/-- Whether a report that is not older than the stored one has to be counted: the same result of
the same time is not when it is the job's latest one. -/
def shouldCount (pbj : PbJob) (previous : Option PbExecution) (pbe : PbExecution) : Bool :=
  match previous with
  | none => true
  | some p =>
    if asTime p.finishedAt = asTime pbe.finishedAt ∧ p.success = pbe.success then
      PbNullableTime.get (if pbe.success then pbj.lastSuccess else pbj.lastError) ≠
        some (asTime pbe.finishedAt)
    else true

/-- The job with one more result. -/
def countResult (pbj : PbJob) (pbe : PbExecution) : PbJob :=
  if pbe.success then
    { pbj with lastSuccess := some ⟨true, pbe.finishedAt⟩, successCount := pbj.successCount + 1 }
  else
    { pbj with lastError := some ⟨true, pbe.finishedAt⟩, errorCount := pbj.errorCount + 1 }

/-- The statistics of a date with one more result. -/
def ExecutionStat.increment (stat : ExecutionStat) (success : Bool) : ExecutionStat :=
  if success then { stat with successCount := stat.successCount + 1 }
  else { stat with failedCount := stat.failedCount + 1 }

/-- `incrementStatTxFunc`. A date outside the years 0 to 9999 has no JSON form. -/
def incrementStatTxFunc (date : Time) (success : Bool) (db : DB) : Except Err DB :=
  let stat := (db.stat? (formatStatDate date)).getD ⟨truncateDay date, 0, 0⟩
  let stat := ExecutionStat.increment stat success
  if 0 ≤ year stat.date ∧ year stat.date < 10000 then .ok (db.set (.stat stat))
  else .error (.text "Time.MarshalJSON: year outside of range [0,9999]")

/-- `SetExecutionDone`: whether the execution was counted. -/
def setExecutionDone (execution : Execution) (db : DB) : Except Err Bool × DB :=
  match db.job? execution.jobName with
  | none => (.error .executionDoneForDeletedJob, db)
  | some pbj =>
    let pbe := execution.toProto
    let previous := db.execution? execution.jobName execution.key
    if previous.any fun p => execution.finishedAt < asTime p.finishedAt then (.ok false, db)
    else
      let db' := (setExecutionTx pbe db).2
      if ¬shouldCount pbj previous pbe then (.ok false, db')
      else
        let status := computeStatus pbj.name pbe.group db'
        let db' := db'.set (.job { countResult pbj pbe with status := status })
        -- A failed update of the statistics does not fail the whole operation.
        match incrementStatTxFunc execution.finishedAt pbe.success db' with
        | .error _ => (.ok true, db')
        | .ok db'' => (.ok true, db'')

/-! ## Saving and loading -/

/-- `Snapshot`: BuntDB writes one record per live key. -/
def snapshot (db : DB) : List Value := db.ascend.map (·.2)

/-- `Restore`: BuntDB sets the records it reads, on top of the current content. -/
def restore (records : List Value) (db : DB) : DB := records.foldl DB.set db

end Store

end Dkron
