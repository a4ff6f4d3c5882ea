import Dkron.Proto

/-!
# Executions

The `Execution` record of the server and its conversions from and to the message.
-/

namespace Dkron

/-- `Execution`. -/
structure Execution where
  id : String := ""
  jobName : String := ""
  startedAt : Time := zeroTime
  finishedAt : Time := zeroTime
  success : Bool := false
  output : Bytes := []
  nodeName : String := ""
  group : Int := 0
  attempt : Nat := 0
deriving DecidableEq, Repr

/-- `Execution.Key`. -/
def Execution.key (e : Execution) : String := executionId e.startedAt e.nodeName

/-- `NewExecutionFromProto`. -/
def newExecutionFromProto (e : PbExecution) : Execution where
  id := e.key
  jobName := e.jobName
  success := e.success
  output := e.output
  nodeName := e.nodeName
  group := e.group
  attempt := e.attempt.toNat
  startedAt := asTime e.startedAt
  finishedAt := asTime e.finishedAt

/-- `Execution.ToProto`. -/
def Execution.toProto (e : Execution) : PbExecution where
  jobName := e.jobName
  success := e.success
  output := e.output
  nodeName := e.nodeName
  group := e.group
  attempt := UInt32.ofNat e.attempt
  startedAt := some e.startedAt
  finishedAt := some e.finishedAt

@[simp] theorem Execution.toProto_jobName (e : Execution) : e.toProto.jobName = e.jobName := rfl
@[simp] theorem Execution.toProto_success (e : Execution) : e.toProto.success = e.success := rfl
@[simp] theorem Execution.toProto_group (e : Execution) : e.toProto.group = e.group := rfl
@[simp] theorem Execution.toProto_finishedAt (e : Execution) :
    e.toProto.finishedAt = some e.finishedAt := rfl
@[simp] theorem Execution.toProto_key (e : Execution) : e.toProto.key = e.key := rfl

@[simp] theorem newExecutionFromProto_key (e : PbExecution) :
    (newExecutionFromProto e).key = e.key := rfl

/-- What is read back is what was written, but for the id, which the key replaces. -/
theorem newExecutionFromProto_toProto {e : Execution} (h : e.attempt < 2 ^ 32) :
    newExecutionFromProto e.toProto = { e with id := e.key } := by
  have hattempt : (UInt32.ofNat e.attempt).toNat = e.attempt := by
    simpa using h
  simp [newExecutionFromProto, Execution.toProto, PbExecution.key, Execution.key, hattempt]

/-- Writing what was read fills in the missing timestamps and changes nothing else. -/
theorem toProto_newExecutionFromProto (e : PbExecution) :
    (newExecutionFromProto e).toProto =
      { e with
        startedAt := some (asTime e.startedAt)
        finishedAt := some (asTime e.finishedAt) } := by
  simp [newExecutionFromProto, Execution.toProto]

end Dkron
