import Dkron.Time

/-!
# Messages

The protobuf messages of `proto/types/v1/dkron.proto` that the state machine reads and writes.
Jobs and executions are stored as these messages. A Go map is a list of pairs here: no code below
depends on the order of a map.
-/

namespace Dkron

/-- `map[string]string`. -/
abbrev StrMap := List (String × String)

/-- The value Go reads under a key: the empty string when it is missing. -/
def StrMap.at (m : StrMap) (k : String) : String := (m.lookup k).getD ""

/-- The content of a `bytes` field. -/
abbrev Bytes := List UInt8

/-- `Job.NullableTime`. -/
structure PbNullableTime where
  hasValue : Bool := false
  time : Timestamp := none
deriving DecidableEq, Repr

/-- `GetHasValue` and `GetTime` of a possibly nil message. -/
def PbNullableTime.get (t : Option PbNullableTime) : NullableTime :=
  match t with
  | some ⟨true, ts⟩ => some (asTime ts)
  | _ => none

/-- The message of a `NullableTime`. -/
def PbNullableTime.new (t : NullableTime) : PbNullableTime := ⟨t.isSome, t⟩

/-- `Job`. -/
structure PbJob where
  name : String := ""
  timezone : String := ""
  schedule : String := ""
  owner : String := ""
  ownerEmail : String := ""
  successCount : Int32 := 0
  errorCount : Int32 := 0
  disabled : Bool := false
  tags : StrMap := []
  retries : UInt32 := 0
  dependentJobs : List String := []
  parentJob : String := ""
  concurrency : String := ""
  executor : String := ""
  executorConfig : StrMap := []
  status : String := ""
  metadata : StrMap := []
  lastSuccess : Option PbNullableTime := none
  lastError : Option PbNullableTime := none
  next : Timestamp := none
  displayname : String := ""
  processors : List (String × StrMap) := []
  ephemeral : Bool := false
  expiresAt : Option PbNullableTime := none
  startsAt : Option PbNullableTime := none
deriving DecidableEq, Repr

/-- `Execution`. -/
structure PbExecution where
  jobName : String := ""
  success : Bool := false
  output : Bytes := []
  nodeName : String := ""
  group : Int := 0
  attempt : UInt32 := 0
  startedAt : Timestamp := none
  finishedAt : Timestamp := none
deriving DecidableEq, Repr

/-- The text `"%d-%s"` of a start time and a node name. -/
def executionId (startedAt : Time) (nodeName : String) : String :=
  toString (unixNano startedAt) ++ "-" ++ nodeName

/-- `Execution.Key` of the message. -/
def PbExecution.key (e : PbExecution) : String := executionId (asTime e.startedAt) e.nodeName

/-- `ExecutionStat`: the executions of one day. -/
structure ExecutionStat where
  date : Time
  successCount : Int
  failedCount : Int
deriving DecidableEq, Repr

/-- `TotalExecutions`. -/
def ExecutionStat.totalExecutions (es : ExecutionStat) : Int := es.successCount + es.failedCount

@[simp] theorem PbNullableTime.get_new (t : NullableTime) :
    PbNullableTime.get (some (PbNullableTime.new t)) = t := by
  cases t <;> rfl

end Dkron
