import Dkron.Job
import Dkron.Execution

/-!
# Dispatching executions

`Agent.Run` sends an execution to the nodes of the cluster, and a failed execution is sent again by
the handler of its done report. What is sent again is the reported execution with the next attempt
number and without its output; everything else stays, the time it finished included.

How `Run` stores the next run of the job is in `RunUpdates`, and what one call of the agent does is
in `AgentRun`.
-/

namespace Dkron

/-- A member of the cluster, as serf sees it. -/
structure Member where
  name : String
  alive : Bool
deriving DecidableEq, Repr

/-- The members when a run looks for its nodes, and the nodes that `getTargetNodes` selects by the
tags of the job. It selects members, and the names of members differ. -/
structure Cluster where
  members : List Member
  targetNodes : List String
  nodup : targetNodes.Nodup

/-- A cluster of one node. -/
def Cluster.oneNode : Cluster := ⟨[⟨"n1", true⟩], ["n1"], by decide⟩

/-- The nodes `Agent.Run` sends the execution to: those selected for a first attempt, and the node
it ran on for a retry, if that is alive. -/
def Cluster.nodesFor (cluster : Cluster) (ex : Execution) : List String :=
  if ex.attempt ≤ 1 then cluster.targetNodes
  else
    match cluster.members.find? fun m => ex.nodeName = m.name with
    | some m => if m.alive then [m.name] else []
    | none => []

/-- `NewExecution`. The group is the clock's reading. -/
def newExecution (jobName : String) (group : Int) : Execution where
  jobName := jobName
  group := group
  attempt := 1

/-- The execution that `ExecutionDone` runs when it retries the reported one. -/
def retryExecution (job : Job) (execution : Execution) : Option Execution :=
  if ¬execution.success ∧ execution.attempt < job.retries + 1 then
    some { execution with attempt := execution.attempt + 1, output := [] }
  else none

/-- A request to an agent: the node and the execution in the message. -/
structure Dispatch where
  node : String
  execution : PbExecution
deriving DecidableEq, Repr

/-- The requests of one `Agent.Run`. -/
def Cluster.run (cluster : Cluster) (ex : Execution) : List Dispatch :=
  (cluster.nodesFor ex).map fun node => ⟨node, ex.toProto⟩

/-- The first message of the agent's stream. -/
def Dispatch.start (d : Dispatch) (now : Time) : PbExecution :=
  { d.execution with startedAt := some now, nodeName := d.node }

section

variable {cluster : Cluster} {ex : Execution} {d : Dispatch}

theorem Cluster.mem_run : d ∈ cluster.run ex ↔ d.node ∈ cluster.nodesFor ex ∧
    d.execution = ex.toProto := by
  obtain ⟨node, execution⟩ := d
  rw [run, List.mem_map]
  refine ⟨?_, fun ⟨hnode, hex⟩ => ⟨node, hnode, by rw [← hex]⟩⟩
  rintro ⟨node', hnode, heq⟩
  cases heq
  exact ⟨hnode, rfl⟩

/-- A run sends at most one request to a node. -/
theorem Cluster.nodup_nodesFor (cluster : Cluster) (ex : Execution) :
    (cluster.nodesFor ex).Nodup := by
  rw [nodesFor]
  split_ifs
  · exact cluster.nodup
  · cases cluster.members.find? fun m => ex.nodeName = m.name with
    | none => exact List.nodup_nil
    | some m => by_cases h : m.alive <;> simp [h]

/-- A retry goes to the node of the execution. -/
theorem Cluster.node_of_retry (h : 1 < ex.attempt) (hd : d ∈ cluster.run ex) :
    d.node = ex.nodeName := by
  have hnode := (mem_run.1 hd).1
  rw [nodesFor, if_neg (not_le.2 h)] at hnode
  cases hfind : cluster.members.find? fun m => ex.nodeName = m.name with
  | none =>
    rw [hfind] at hnode
    cases hnode
  | some m =>
    have hname : ex.nodeName = m.name := by simpa using List.find?_some hfind
    simp only [hfind] at hnode
    split_ifs at hnode
    · rw [hname]
      exact List.mem_singleton.1 hnode
    · cases hnode

theorem retryExecution_eq_some {job : Job} {ex' : Execution} :
    retryExecution job ex = some ex' ↔ ex.success = false ∧ ex.attempt < job.retries + 1 ∧
      ex' = { ex with attempt := ex.attempt + 1, output := [] } := by
  rw [retryExecution, ← and_assoc]
  split_ifs with h
  · have hfail : ex.success = false := Bool.eq_false_iff.2 h.1
    exact ⟨fun heq => ⟨⟨hfail, h.2⟩, (Option.some.inj heq).symm⟩, fun heq => by rw [heq.2]⟩
  · refine iff_of_false nofun fun ⟨hretry, _⟩ => h ⟨?_, hretry.2⟩
    rw [hretry.1]
    exact Bool.false_ne_true

end

end Dkron
