import Dkron.Store

/-!
# The replicated state machine

`dkron/fsm.go`: the commands of the raft log and how a server applies them. The bytes of a command
are its message type and its protobuf message, decoded here.
-/

namespace Dkron

/-- A raft command. -/
inductive Command where
  | setJob (pj : PbJob)
  | deleteJob (jobName : String)
  | setExecution (pbex : PbExecution)
  | deleteExecutions (jobName : String)
  | executionDone (pbex : PbExecution)
deriving DecidableEq, Repr

/-- What `Apply` hands to the caller of raft. -/
inductive Response where
  | nil
  | err (e : Err)
  | job (j : Job)
  | key (k : String)
deriving DecidableEq, Repr

namespace Fsm

def applySetJob (env : Env) (clk : Clock) (pj : PbJob) (db : DB) : Response × DB :=
  match Store.setJob env clk (newJobFromProto pj) true db with
  | (.error e, db) => (.err e, db)
  | (.ok (), db) => (.nil, db)

def applyDeleteJob (env : Env) (clk : Clock) (jobName : String) (db : DB) : Response × DB :=
  match Store.deleteJob env clk jobName db with
  | (.error e, db) => (.err e, db)
  | (.ok job, db) => (.job job, db)

def applyDeleteExecutions (jobName : String) (db : DB) : Response × DB :=
  match Store.deleteExecutions jobName db with
  | (.error e, db) => (.err e, db)
  | (.ok (), db) =>
    -- Return the updated job.
    match Store.getJob jobName db with
    | .error e => (.err e, db)
    | .ok job => (.job job, db)

def applyExecutionDone (pbex : PbExecution) (db : DB) : Response × DB :=
  match Store.setExecutionDone (newExecutionFromProto pbex) db with
  | (.error e, db) => (.err e, db)
  | (.ok _, db) => (.nil, db)

def applySetExecution (env : Env) (pbex : PbExecution) (db : DB) : Response × DB :=
  let (key, db) := Store.setExecution env (newExecutionFromProto pbex) db
  (.key key, db)

/-- `Apply`. -/
def apply (env : Env) (clk : Clock) (c : Command) (db : DB) : Response × DB :=
  match c with
  | .setJob pj => applySetJob env clk pj db
  | .deleteJob jobName => applyDeleteJob env clk jobName db
  | .deleteExecutions jobName => applyDeleteExecutions jobName db
  | .executionDone pbex => applyExecutionDone pbex db
  | .setExecution pbex => applySetExecution env pbex db

/-- A log entry as one server applies it: the command and the clock at that moment. -/
abbrev Entry := Clock × Command

/-- The content after a log entry. -/
def step (env : Env) (db : DB) (e : Entry) : DB := (apply env e.1 e.2 db).2

theorem step_setJob (env : Env) (db : DB) (clk : Clock) (pj : PbJob) :
    step env db (clk, .setJob pj) = (Store.setJob env clk (newJobFromProto pj) true db).2 := by
  change (applySetJob env clk pj db).2 = _
  unfold applySetJob
  rcases Store.setJob env clk (newJobFromProto pj) true db with ⟨_ | _, db'⟩ <;> rfl

theorem step_deleteJob (env : Env) (db : DB) (clk : Clock) (jobName : String) :
    step env db (clk, .deleteJob jobName) = (Store.deleteJob env clk jobName db).2 := by
  change (applyDeleteJob env clk jobName db).2 = _
  unfold applyDeleteJob
  rcases Store.deleteJob env clk jobName db with ⟨_ | _, db'⟩ <;> rfl

theorem step_deleteExecutions (env : Env) (db : DB) (clk : Clock) (jobName : String) :
    step env db (clk, .deleteExecutions jobName) = (Store.deleteExecutions jobName db).2 := by
  change (applyDeleteExecutions jobName db).2 = _
  unfold applyDeleteExecutions
  rcases Store.deleteExecutions jobName db with ⟨_ | _, db'⟩
  · rfl
  · simp only
    cases Store.getJob jobName db' <;> rfl

theorem step_executionDone (env : Env) (db : DB) (clk : Clock) (pbex : PbExecution) :
    step env db (clk, .executionDone pbex) =
      (Store.setExecutionDone (newExecutionFromProto pbex) db).2 := by
  change (applyExecutionDone pbex db).2 = _
  unfold applyExecutionDone
  rcases Store.setExecutionDone (newExecutionFromProto pbex) db with ⟨_ | _, db'⟩ <;> rfl

theorem step_setExecution (env : Env) (db : DB) (clk : Clock) (pbex : PbExecution) :
    step env db (clk, .setExecution pbex) =
      (Store.setExecution env (newExecutionFromProto pbex) db).2 := rfl

/-- The content after a log. -/
def run (env : Env) (db : DB) (log : List Entry) : DB := log.foldl (step env) db

/-- A content some log leads to from a new store. -/
def Reachable (env : Env) (db : DB) : Prop := ∃ log, run env DB.empty log = db

theorem run_append (env : Env) (db : DB) (as bs : List Entry) :
    run env db (as ++ bs) = run env (run env db as) bs :=
  List.foldl_append

theorem Reachable.run {env : Env} {db : DB} (h : Reachable env db) (log : List Entry) :
    Reachable env (Fsm.run env db log) := by
  obtain ⟨log', rfl⟩ := h
  exact ⟨log' ++ log, run_append env _ log' log⟩

/-- A log that sets the job `a`, without a schedule. -/
def setA : List Entry := [(Clock.epoch, .setJob { name := "a", schedule := "@manually" })]

end Fsm

end Dkron
