import Dkron.AgentRun
import Dkron.RunningAttempts

/-!
# Running a job on an agent

`AgentServer.AgentRun` is the other side of the calls in `AgentRun`. The agent sends the execution
before its executor starts, with every status update, and once more when the executor is done,
always the same record with a few fields changed. When the last message cannot be sent any more it
reports the execution itself.

Executor plugins, the clock and the moment the stream breaks are parameters of a call, and so is the
output buffer.
-/

namespace Dkron

/-- `ExecuteResponse`. -/
structure ExecuteResponse where
  output : Bytes := []
  error : String := ""
deriving DecidableEq, Repr

/-- What `Execute` returns: a response, or an error and perhaps a response. -/
abbrev ExecuteResult := Except (String × Option ExecuteResponse) ExecuteResponse

/-- An executor plugin: the outputs of its status updates and what it returns, for the name of a job
and the configuration of its executor. -/
abbrev Executor := String → StrMap → List Bytes × ExecuteResult

namespace ExecuteResult

/-- The error of an execution: that of the call, or else that in the response. -/
def error? : ExecuteResult → Option String
  | .ok out => if out.error ≠ "" then some out.error else none
  | .error (text, _) => some text

def response? : ExecuteResult → Option ExecuteResponse
  | .ok out => some out
  | .error (_, out) => out

/-- What is written to the output buffer. -/
def writes (r : ExecuteResult) : List Bytes :=
  (r.error?.map fun text => (text ++ "\n").toUTF8.toList).toList ++
    (r.response?.map (·.output)).toList

end ExecuteResult

/-- An agent while it handles a call. -/
structure AgentServer where
  nodeName : String
  executorPlugins : String → Option Executor
  /-- What a `circbuf.Buffer` of `maxBufSize` bytes holds after the writes. -/
  buffer : List Bytes → Bytes
  startedAt : Instant
  finishedAt : Instant
  /-- How many messages are sent before the stream breaks. -/
  sends : ℕ
  /-- What a broken stream answers. -/
  sendError : CallError

/-- How `AgentServer.AgentRun` goes on after its last message. -/
inductive Returned where
  | nil
  | error (e : CallError)
  /-- The final execution is not sent but reported with `ExecutionDone`. -/
  | fallback (execution : Execution)

namespace AgentServer

def noExecutor : CallError :=
  .status .unknown "grpc_agent: No executor defined, nothing to do"

/-- The execution of the first message. -/
def started (a : AgentServer) (execution : PbExecution) : PbExecution :=
  { execution with startedAt := some a.startedAt.1, nodeName := a.nodeName }

/-- What the executor of the job does: its updates, whether it succeeds, and what is written to the
output buffer. -/
def execute (a : AgentServer) (job : PbJob) : List Bytes × Bool × List Bytes :=
  match a.executorPlugins job.executor with
  | some executor =>
    let (updates, result) := executor job.name job.executorConfig
    (updates, result.error?.isNone, result.writes)
  | none => ([], false, ["grpc_agent: Specified executor is not present".toUTF8.toList])

/-- The execution of the last message. -/
def finished (a : AgentServer) (job : PbJob) (execution : PbExecution) : PbExecution :=
  { a.started execution with
    finishedAt := some a.finishedAt.1
    success := (a.execute job).2.1
    output := a.buffer (a.execute job).2.2 }

/-- The messages of a stream that does not break. -/
def messages (a : AgentServer) (job : PbJob) (execution : PbExecution) : List PbExecution :=
  a.started execution ::
      (a.execute job).1.map (fun b => { a.started execution with output := b }) ++
    [a.finished job execution]

/-- `AgentServer.AgentRun`: the messages that are sent, and what follows them. -/
def agentRun (a : AgentServer) (job : PbJob) (execution : PbExecution) :
    List PbExecution × Returned :=
  if a.sends = 0 then ([], .error a.sendError)
  else if job.executor = "" then ([a.started execution], .error noExecutor)
  else if (a.messages job execution).length ≤ a.sends then (a.messages job execution, .nil)
  else ((a.messages job execution).take a.sends,
    .fallback (newExecutionFromProto (a.finished job execution)))

/-- The executor of the job is installed and returns without an error. -/
def Succeeds (a : AgentServer) (job : PbJob) : Prop :=
  ∃ executor, a.executorPlugins job.executor = some executor ∧
    (executor job.name job.executorConfig).2.error? = none

section

variable (a : AgentServer) (job : PbJob) (execution : PbExecution)

theorem succeeds_iff : a.Succeeds job ↔ (a.execute job).2.1 = true := by
  rw [Succeeds, execute]
  cases a.executorPlugins job.executor with
  | none => simp
  | some executor => simp [Option.isNone_iff_eq_none]

theorem toProto_finished :
    (newExecutionFromProto (a.finished job execution)).toProto = a.finished job execution := by
  rw [toProto_newExecutionFromProto]
  rfl

theorem storeKey_finished : (a.finished job execution).storeKey = (a.started execution).storeKey :=
  rfl

/-- The last message is the one of the executor's result; the others only say how far it is. -/
theorem mem_messages {m : PbExecution} (h : m ∈ a.messages job execution) :
    m = a.finished job execution ∨ ∃ output, m = { a.started execution with output := output } := by
  rw [messages, List.cons_append, List.mem_cons, List.mem_append, List.mem_map,
    List.mem_singleton] at h
  rcases h with rfl | ⟨output, _, rfl⟩ | rfl
  · exact .inr ⟨_, rfl⟩
  · exact .inr ⟨output, rfl⟩
  · exact .inl rfl

/-- All messages are of one execution. -/
theorem storeKey_of_mem_messages {m : PbExecution} (h : m ∈ a.messages job execution) :
    m.storeKey = (a.started execution).storeKey := by
  rcases a.mem_messages job execution h with rfl | ⟨output, rfl⟩
  · exact a.storeKey_finished job execution
  · rfl

theorem getLast?_messages : (a.messages job execution).getLast? = some (a.finished job execution) :=
  List.getLast?_append_of_ne_nil _ (List.cons_ne_nil _ _)

/-- Only messages of the stream are sent, in their order. -/
theorem agentRun_fst_prefix : (a.agentRun job execution).1 <+: a.messages job execution := by
  rw [agentRun]
  split_ifs
  · exact List.nil_prefix
  · exact ⟨_, rfl⟩
  · exact List.prefix_refl _
  · exact List.take_prefix _ _

/-- An agent that returns without an error has sent its last message. -/
theorem agentRun_fst_of_nil (h : (a.agentRun job execution).2 = .nil) :
    (a.agentRun job execution).1 = a.messages job execution := by
  rw [agentRun] at h ⊢
  split_ifs at h ⊢
  rfl

/-- What an agent reports itself is the execution of its last message. -/
theorem agentRun_snd_of_fallback {ex : Execution}
    (h : (a.agentRun job execution).2 = .fallback ex) :
    ex.toProto = a.finished job execution := by
  rw [agentRun] at h
  split_ifs at h
  cases h
  exact a.toProto_finished job execution

end

end AgentServer

end Dkron
