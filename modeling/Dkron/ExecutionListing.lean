import Dkron.AnalyticsPaths
import Dkron.JobListing

/-!
# Listing executions

`executionsHandler` lists the executions of a job in the order of an index, each with the end of its
output that fits, and `executionHandler` looks one up by the id that it was listed with.

The listing reads a directory, in which executions of other jobs may lie, and the lookup reads a
key. `executions_listed` says what the two show of each other.
-/

namespace Dkron

open Store

/-! ## The store -/

/-- `ExecutionOptions`; a time zone changes no instant. -/
structure ExecutionOptions where
  sort : String := ""
  order : String := ""
deriving DecidableEq, Repr

/-- The indexes of the executions. -/
def executionIndexes : List String :=
  (storeIndexes.filter fun r => r.2 = executionsPrefix).map Prod.fst

/-- `GetExecutions`. -/
def BuntDB.getExecutions (bunt : BuntDB) (jobName : String) (opts : ExecutionOptions) (db : DB) :
    Except Err (List Execution) :=
  match bunt.scan (opts.order = "DESC") opts.sort db with
  | none => .error .notFound
  | some items =>
    if items.any fun v => hasPrefix v.key (executionsDir jobName) then
      .ok (unmarshalExecutions ((items.map fun v => (v.key, v)).filter fun r =>
        hasPrefix r.1 (executionsDir jobName) ∧ trimDirectoryKey r.1 ≠ executionsDir jobName))
    else .error .notFound

/-- `GetExecution`. -/
def getExecution (jobName executionName : String) (db : DB) : Except Err Execution :=
  match db.execution? jobName executionName with
  | none => .error .notFound
  | some pbe => .ok (newExecutionFromProto pbe)

/-! ## The handlers -/

/-- The parameters of the request; none where one is absent. -/
structure ExecutionsQuery where
  sort : Option String := none
  order : Option String := none
  outputSizeLimit : Option String := none
deriving DecidableEq, Repr

/-- The options for `GetExecutions`. -/
def ExecutionsQuery.options (query : ExecutionsQuery) : ExecutionOptions where
  sort := if query.sort.getD "" = "id" then "started_at" else query.sort.getD ""
  order := query.order.getD "DESC"

/-- The size that is read, -1 for none. -/
def ExecutionsQuery.limit (query : ExecutionsQuery) : Int :=
  (parseInt (query.outputSizeLimit.getD "")).getD (-1)

/-- `apiExecution`. -/
structure ApiExecution where
  execution : Execution
  outputTruncated : Bool := false
deriving DecidableEq, Repr

/-- The execution with its output truncated. -/
def apiExecution (outputSizeLimit : Int) (execution : Execution) : ApiExecution :=
  if -1 < outputSizeLimit then
    let size := execution.output.length
    if outputSizeLimit < size then
      ⟨{ execution with output := execution.output.drop (size - outputSizeLimit.toNat) }, true⟩
    else ⟨execution, false⟩
  else ⟨execution, false⟩

/-- How `executionsHandler` ends. -/
inductive ExecutionsAnswer where
  /-- Status 404. -/
  | notFound
  /-- The error is logged. -/
  | silent
  /-- Status 200, with the header `X-Total-Count`. -/
  | listed (totalCount : Nat) (executions : List ApiExecution)
deriving DecidableEq, Repr

/-- `executionsHandler`. -/
def executionsHandler (bunt : BuntDB) (db : DB) (jobName : String) (query : ExecutionsQuery) :
    ExecutionsAnswer :=
  match getJob jobName db with
  | .error _ => .notFound
  | .ok job =>
    match bunt.getExecutions job.name query.options db with
    | .error .notFound => .listed 0 []
    | .error _ => .silent
    | .ok executions =>
      .listed executions.length (executions.map (apiExecution query.limit))

/-- `executionHandler`: none is status 404, since the store has no other error. -/
def executionHandler (db : DB) (jobName executionName : String) : Option Execution :=
  match getJob jobName db with
  | .error _ => none
  | .ok job => (getExecution job.name executionName db).toOption

/-! ## Truncation -/

/-- What is listed is the end of an output, as long as the limit if something was cut off. -/
theorem apiExecution_spec (limit : Int) (execution : Execution) :
    ∃ front, execution = { (apiExecution limit execution).execution with
        output := front ++ (apiExecution limit execution).execution.output } ∧
      ((apiExecution limit execution).outputTruncated = true ↔ front ≠ []) ∧
      ((apiExecution limit execution).outputTruncated = true ↔
        0 ≤ limit ∧ limit < execution.output.length) ∧
      (front ≠ [] → ((apiExecution limit execution).execution.output.length : Int) = limit) := by
  unfold apiExecution
  by_cases hlimit : -1 < limit
  · rw [if_pos hlimit]
    by_cases hsize : limit < execution.output.length
    · simp only [if_pos hsize]
      refine ⟨execution.output.take (execution.output.length - limit.toNat), ?_, ?_, ?_, ?_⟩
      · rw [List.take_append_drop]
      · have hpos : 0 < execution.output.length - limit.toNat := by omega
        have hne : execution.output ≠ [] := by
          intro hnil
          rw [hnil] at hpos
          simp at hpos
        simp [hne, hpos.ne']
      · simp only [true_iff]
        omega
      · intro _
        rw [List.length_drop]
        omega
    · simp only [if_neg hsize]
      exact ⟨[], by simp, by simp, by simp [hsize], by simp⟩
  · rw [if_neg hlimit]
    refine ⟨[], by simp, by simp, ?_, by simp⟩
    simp only [Bool.false_eq_true, false_iff]
    omega

/-! ## What is listed -/

section

variable {db : DB} {jobName : String}

/-- Of what a scan visits, the executions below the directory are returned. -/
theorem BuntDB.getExecutions_of_scan {bunt : BuntDB} {opts : ExecutionOptions} {items : List Value}
    (hscan : bunt.scan (opts.order = "DESC") opts.sort db = some items) :
    (bunt.getExecutions jobName opts db).toOption.getD [] =
      ((items.filterMap Value.execution?).filter fun e => e.Below (executionsDir jobName)).map
        newExecutionFromProto := by
  have hkeys : ∀ r ∈ items.map fun v => (v.key, v), r.2.key = r.1 := by simp
  have hfound := unmarshalExecutions_filter (executionsDir jobName) hkeys
  rw [List.filterMap_map] at hfound
  rw [getExecutions, hscan]
  simp only [hfound]
  split_ifs with hany
  · rfl
  · -- nothing below the directory was visited
    refine (List.map_eq_nil_iff.2 (List.filter_eq_nil_iff.2 fun e he hbelow => hany ?_)).symm
    obtain ⟨v, hv, hexecution⟩ := List.mem_filterMap.1 he
    obtain rfl := Value.execution?_eq_some.1 hexecution
    exact List.any_eq_true.2 ⟨_, hv, (of_decide_eq_true hbelow).1⟩

/-- The records of an index of the executions include all executions. -/
theorem filterMap_matching_executions (db : DB) :
    ((matching executionsPrefix db).map Prod.snd).filterMap Value.execution? = db.executions := by
  rw [DB.executions, List.filterMap_map, matching, List.filterMap_filter]
  apply List.filterMap_congr
  rintro ⟨k, v⟩ hr
  have hkey : v.key = k := DB.key_of_mem_ascend hr
  cases v with
  | execution e =>
    have hprefix : hasPrefix k (executionsPrefix ++ ":") := by
      rw [← hkey, hasPrefix_iff]
      exact ⟨e.jobName.toList ++ ':' :: e.key.toList, by
        simp [Value.key, toList_executionKey, executionsPrefix]⟩
    rw [if_pos hprefix]
    rfl
  | job p => exact ite_self _
  | stat s => exact ite_self _

/-- The records of an index of the jobs include none. -/
theorem filterMap_matching_jobs_execution? (db : DB) :
    ((matching jobsPrefix db).map Prod.snd).filterMap Value.execution? = [] := by
  rw [List.filterMap_map, matching, List.filterMap_filter, List.filterMap_eq_nil_iff]
  rintro ⟨k, v⟩ hr
  have hkey : v.key = k := DB.key_of_mem_ascend hr
  cases v with
  | execution e =>
    have hprefix : ¬hasPrefix k (jobsPrefix ++ ":") := by
      rw [← hkey, hasPrefix_iff, Value.key, toList_executionKey, toList_executionsDir]
      simp [jobsPrefix]
    rw [if_neg hprefix]
  | job p => exact ite_self _
  | stat s => exact ite_self _

/-- Every index visits all executions or none. -/
theorem BuntDB.scan_executions (bunt : BuntDB) (descend : Bool) (db : DB) {sort : String}
    (hsort : sort = "" ∨ sort ∈ executionIndexes) :
    ∃ items, bunt.scan descend sort db = some items ∧
      (items.filterMap Value.execution?).Perm db.executions := by
  obtain rfl | hindex := hsort
  · obtain ⟨items, hitems, hperm⟩ := bunt.all descend db
    refine ⟨items, hitems, (hperm.filterMap _).trans ?_⟩
    rw [List.filterMap_map]
    exact .refl _
  · obtain ⟨r, hr, rfl⟩ := List.mem_map.1 hindex
    obtain ⟨hr, hpre⟩ := List.mem_filter.1 hr
    obtain ⟨items, hitems, hperm⟩ := bunt.matched descend db r hr
    rw [of_decide_eq_true hpre] at hperm
    refine ⟨items, hitems, (hperm.filterMap _).trans ?_⟩
    rw [filterMap_matching_executions]

/-- An index of the jobs finds no executions. -/
theorem BuntDB.getExecutions_of_jobIndex (bunt : BuntDB) {opts : ExecutionOptions}
    (hsort : opts.sort ∈ jobIndexes) :
    (bunt.getExecutions jobName opts db).toOption.getD [] = [] := by
  obtain ⟨r, hr, heq⟩ := List.mem_map.1 hsort
  obtain ⟨hr, hpre⟩ := List.mem_filter.1 hr
  obtain ⟨items, hitems, hperm⟩ := bunt.matched (opts.order = "DESC") db r hr
  rw [heq] at hitems
  rw [of_decide_eq_true hpre] at hperm
  have hnone : items.filterMap Value.execution? = [] := by
    have h := hperm.filterMap Value.execution?
    rw [filterMap_matching_jobs_execution?] at h
    exact h.eq_nil
  rw [BuntDB.getExecutions_of_scan hitems, hnone]
  rfl

/-- The handler answers with what `GetExecutions` returns, and with nothing if it finds nothing. -/
theorem executionsHandler_eq (bunt : BuntDB) (query : ExecutionsQuery)
    (hn : db.job? jobName ≠ none) :
    ∃ executions, executions = (bunt.getExecutions jobName query.options db).toOption.getD [] ∧
      executionsHandler bunt db jobName query =
        .listed executions.length (executions.map (apiExecution query.limit)) := by
  obtain ⟨p, hp⟩ := Option.ne_none_iff_exists'.1 hn
  have hname : (newJobFromProto p).name = jobName := DB.name_of_job? hp
  refine ⟨_, rfl, ?_⟩
  simp only [executionsHandler, getJob, hp, hname]
  unfold BuntDB.getExecutions
  cases bunt.scan (query.options.order = "DESC") query.options.sort db with
  | none => rfl
  | some items =>
    simp only
    split_ifs <;> rfl

/-! ## What is looked up -/

theorem executionHandler_eq_some {id : String} {ex : Execution} (hn : db.job? jobName ≠ none) :
    executionHandler db jobName id = some ex ↔
      ∃ e ∈ db.executions, e.storeKey = executionKey jobName id ∧ newExecutionFromProto e = ex := by
  obtain ⟨p, hp⟩ := Option.ne_none_iff_exists'.1 hn
  have hname : (newJobFromProto p).name = jobName := DB.name_of_job? hp
  simp only [executionHandler, getJob, hp, hname, getExecution]
  constructor
  · intro h
    cases hstored : db.execution? jobName id with
    | none =>
      rw [hstored] at h
      cases h
    | some e =>
      rw [hstored] at h
      cases h
      have hget := DB.execution?_eq_some.1 hstored
      exact ⟨e, DB.get_of_mem_executions hget, DB.key_of_get hget, rfl⟩
  · rintro ⟨e, he, hkey, rfl⟩
    rw [DB.mem_executions, hkey] at he
    rw [DB.execution?_eq_some.2 he]
    rfl

/-- An execution is looked up by its id if it is one of the job. -/
theorem executionHandler_id_iff {e : PbExecution} (he : e ∈ db.executions)
    (hn : db.job? jobName ≠ none) :
    executionHandler db jobName e.key = some (newExecutionFromProto e) ↔ e.jobName = jobName := by
  rw [executionHandler_eq_some hn]
  constructor
  · rintro ⟨e', he', hkey, heq⟩
    obtain rfl := DB.eq_of_newExecutionFromProto he' he heq
    have hdir := congrArg String.toList hkey
    rw [PbExecution.storeKey, toList_executionKey, toList_executionKey] at hdir
    exact String.toList_inj.1 (by simpa using hdir)
  · rintro rfl
    exact ⟨e, he, rfl, rfl⟩

/-- What is looked up lies below the directory of the job. -/
theorem baseName_of_storeKey {e : PbExecution} {id : String} (hcolon : ':' ∉ jobName.toList)
    (hkey : e.storeKey = executionKey jobName id) : baseName e.jobName = jobName := by
  have hdir := congrArg String.toList hkey
  rw [PbExecution.storeKey, toList_executionKey, toList_executionKey, toList_executionsDir,
    toList_executionsDir] at hdir
  simp only [List.append_assoc, List.append_cancel_left_eq, List.cons_append, List.nil_append]
    at hdir
  have hbase := congrArg (List.takeWhile (· ≠ ':')) hdir
  rw [takeWhile_append_colon, takeWhile_append_colon] at hbase
  rw [← baseName_of_notMem hcolon, baseName, baseName, hbase, ← baseName]

end

end Dkron
