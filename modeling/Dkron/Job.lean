import Dkron.Extcron

/-!
# Jobs

The `Job` record of the server, its conversions from and to the stored message, its validation
and the time of its next run.
-/

namespace Dkron

/-- The errors the store and the validation return. -/
inductive Err where
  | parentJobNotFound
  | sameParent
  | noParent
  | wrongConcurrency
  | dependentJobs
  | executionDoneForDeletedJob
  /-- `buntdb.ErrNotFound`. -/
  | notFound
  /-- An error made on the spot. -/
  | text (msg : String)
deriving DecidableEq, Repr

/-- The text of an error. -/
def Err.error : Err → String
  | .parentJobNotFound => "specified parent job not found"
  | .sameParent => "the job can not have itself as parent"
  | .noParent => "the job doesn't have a parent job set"
  | .wrongConcurrency => "invalid concurrency policy value, use \"allow\" or \"forbid\""
  | .dependentJobs => "store: could not delete job with dependent jobs, delete children first"
  | .executionDoneForDeletedJob => "grpc: Received execution done for a deleted job"
  | .notFound => "not found"
  | .text msg => msg

def statusSuccess : String := "success"
def statusFailed : String := "failed"
def statusPartiallyFailed : String := "partially_failed"

/-- `Job`. -/
structure Job where
  id : String := ""
  name : String := ""
  displayName : String := ""
  timezone : String := ""
  schedule : String := ""
  owner : String := ""
  ownerEmail : String := ""
  successCount : Int := 0
  errorCount : Int := 0
  lastSuccess : NullableTime := none
  lastError : NullableTime := none
  disabled : Bool := false
  tags : StrMap := []
  metadata : StrMap := []
  retries : Nat := 0
  dependentJobs : List String := []
  parentJob : String := ""
  processors : List (String × StrMap) := []
  concurrency : String := ""
  executor : String := ""
  executorConfig : StrMap := []
  status : String := ""
  next : Time := zeroTime
  ephemeral : Bool := false
  startsAt : NullableTime := none
  expiresAt : NullableTime := none
deriving DecidableEq, Repr

/-- `NewJobFromProto`. -/
def newJobFromProto (j : PbJob) : Job where
  id := j.name
  name := j.name
  displayName := j.displayname
  timezone := j.timezone
  schedule := j.schedule
  owner := j.owner
  ownerEmail := j.ownerEmail
  successCount := j.successCount.toInt
  errorCount := j.errorCount.toInt
  disabled := j.disabled
  tags := j.tags
  retries := j.retries.toNat
  dependentJobs := j.dependentJobs
  parentJob := j.parentJob
  concurrency := j.concurrency
  executor := j.executor
  executorConfig := j.executorConfig
  status := j.status
  metadata := j.metadata
  next := asTime j.next
  ephemeral := j.ephemeral
  lastSuccess := PbNullableTime.get j.lastSuccess
  lastError := PbNullableTime.get j.lastError
  startsAt := PbNullableTime.get j.startsAt
  expiresAt := PbNullableTime.get j.expiresAt
  processors := j.processors

/-- `Job.ToProto`. The counters are cut to 32 bits. -/
def Job.toProto (j : Job) : PbJob where
  name := j.name
  displayname := j.displayName
  timezone := j.timezone
  schedule := j.schedule
  owner := j.owner
  ownerEmail := j.ownerEmail
  successCount := Int32.ofInt j.successCount
  errorCount := Int32.ofInt j.errorCount
  disabled := j.disabled
  tags := j.tags
  retries := UInt32.ofNat j.retries
  dependentJobs := j.dependentJobs
  parentJob := j.parentJob
  concurrency := j.concurrency
  processors := j.processors
  executor := j.executor
  executorConfig := j.executorConfig
  status := j.status
  metadata := j.metadata
  lastSuccess := some (PbNullableTime.new j.lastSuccess)
  lastError := some (PbNullableTime.new j.lastError)
  next := some j.next
  ephemeral := j.ephemeral
  expiresAt := some (PbNullableTime.new j.expiresAt)
  startsAt := some (PbNullableTime.new j.startsAt)

/-! ## Schedules of jobs -/

/-- `nameHash`: the sum of the characters of the name. -/
def nameHash (name : String) : Nat := (name.toList.map Char.toNat).sum

/-- The number that replaces the hash symbol in the cron field of the given index. -/
def partHash (hash : Nat) : Nat → Nat
  | 2 => hash % 24
  | 3 => hash % 28 + 1
  | 4 => hash % 12 + 1
  | 5 => hash % 7
  | _ => hash % 60

/-- The loop of `scheduleHash` over the parts of a specification; no result when a part is a
predefined schedule. A zone does not count as a field. -/
def hashParts (hash : Nat) : Nat → List (List Char) → Option (List (List Char))
  | _, [] => some []
  | i, part :: parts =>
    if part.head? = some '@' then none
    else if "TZ=".toList.isPrefixOf part ∨ "CRON_TZ=".toList.isPrefixOf part then
      (hashParts hash i parts).map (part :: ·)
    else
      let digits := (Nat.repr (partHash hash i)).toList
      (hashParts hash (i + 1) parts).map
        (part.flatMap (fun c => if c = '~' then digits else [c]) :: ·)

/-- `scheduleHash`. -/
def Job.scheduleHash (j : Job) : String :=
  if j.schedule.toList.contains '~' then
    match hashParts (nameHash j.name) 0 (j.schedule.toList.splitOn ' ') with
    | none => j.schedule
    | some parts => String.ofList ([' '].intercalate parts)
  else j.schedule

/-- `GetNext`: the job's next activation, seen from `now` on a server in the given zone. -/
def Job.getNext (env : Env) (zone : Zone) (now : Time) (j : Job) : Except Err Time :=
  match j.startsAt with
  | some t => if now < t then .ok t else scheduled
  | none => scheduled
where
  scheduled :=
    if j.schedule = "" then .ok zeroTime
    else
      match parse env j.scheduleHash with
      | .error msg => .error (.text msg)
      | .ok s => .ok (s.next zone now)

/-! ## Validation -/

/-- The characters `isSlug` allows: lower case letters, digits, underscore and dash. -/
def slugChar (env : Env) (c : Char) : Bool :=
  env.isLowercase c ∨ ('0' ≤ c ∧ c ≤ '9') ∨ c = '_' ∨ c = '-'

/-- `isSlug`: whether the text may be a key, and otherwise its first illegal character. -/
def isSlug (env : Env) (candidate : String) : Bool × String :=
  match candidate.toList.find? fun c => ¬slugChar env c with
  | none => (true, "")
  | some c => (false, String.singleton c)

/-- The factor of an upper case memory unit. -/
def memoryMultiplier : String → Option Nat
  | "" | "B" | "BYTES" => some 1
  | "KB" | "K" => some (1024)
  | "MB" | "M" => some (1024 * 1024)
  | "GB" | "G" => some (1024 * 1024 * 1024)
  | "TB" | "T" => some (1024 * 1024 * 1024 * 1024)
  | _ => none

/-- `validateMemoryLimit`. A product that does not fit into an `int64` converts to its least value,
as on amd64, and so counts as an overflow. -/
def validateMemoryLimit (env : Env) (limit : String) : Except String Unit := do
  if limit = "" then return
  if let some value := parseInt limit then
    if value ≤ 0 then throw "memory limit must be greater than 0"
    return
  let limit := toUpper (trimSpace limit)
  let (num, unit) := limit.toList.span fun c => c.isDigit ∨ c = '.'
  if num = [] then throw ("invalid memory limit format: " ++ limit)
  let some value := env.parseFloat (String.ofList num)
    | throw ("invalid numeric value in memory limit: " ++ String.ofList num)
  if value ≤ 0 then throw "memory limit must be greater than 0"
  let some multiplier := memoryMultiplier (String.ofList unit)
    | throw ("unsupported memory unit: " ++ String.ofList unit ++
        " (supported: B, KB, MB, GB, TB)")
  let bytes := (value * multiplier).floor
  if bytes ≤ 0 ∨ 2 ^ 63 ≤ bytes then throw "memory limit too large or causes overflow"

/-- The checks of `Validate` on the name and on the parent's name. -/
def Job.validateNames (env : Env) (j : Job) : Except Err Unit := do
  if j.name = "" then throw (.text "name cannot be empty")
  let (valid, chr) := isSlug env j.name
  if ¬valid then throw (.text ("name contains illegal character '" ++ chr ++ "'"))
  if j.parentJob = j.name then throw .sameParent

/-- The check of the schedule; it may be empty if the parent job is set. -/
def Job.validateSchedule (env : Env) (j : Job) : Except Err Unit :=
  if j.schedule ≠ "" ∨ j.parentJob = "" then
    match parse env j.scheduleHash with
    | .error msg => .error (.text ("can't parse job schedule: " ++ msg))
    | .ok _ => .ok ()
  else .ok ()

/-- The remaining checks: concurrency, time zone and the configuration of the shell executor. -/
def Job.validateSettings (env : Env) (j : Job) : Except Err Unit := do
  if j.concurrency ≠ "allow" ∧ j.concurrency ≠ "forbid" ∧ j.concurrency ≠ "" then
    throw .wrongConcurrency
  if let .error msg := env.loadLocation j.timezone then throw (.text msg)
  if j.executor = "shell" ∧ j.executorConfig.at "timeout" ≠ "" then
    if let .error _ := env.parseDuration (j.executorConfig.at "timeout") then
      throw (.text "Error parsing job timeout value")
  if j.executor = "shell" ∧ j.executorConfig.at "mem_limit" ≠ "" then
    if let .error msg := validateMemoryLimit env (j.executorConfig.at "mem_limit") then
      throw (.text ("Error parsing job memory limit value: " ++ msg))

/-- `Validate`. -/
def Job.validate (env : Env) (j : Job) : Except Err Unit := do
  j.validateNames env
  j.validateSchedule env
  j.validateSettings env

theorem slugChar_of_isSlug {env : Env} {s : String} (h : (isSlug env s).1) {c : Char}
    (hc : c ∈ s.toList) : slugChar env c := by
  unfold isSlug at h
  cases hfind : s.toList.find? fun c => ¬slugChar env c with
  | none => simpa using List.find?_eq_none.1 hfind c hc
  | some d => rw [hfind] at h; cases h

theorem Job.validateNames_ok {env : Env} {j : Job} (h : j.validateNames env = .ok ()) :
    j.name ≠ "" ∧ (isSlug env j.name).1 ∧ j.parentJob ≠ j.name := by
  unfold Job.validateNames at h
  by_cases hname : j.name = ""
  · simp [hname] at h
    cases h
  · by_cases hslug : (isSlug env j.name).1
    · refine ⟨hname, hslug, fun hparent => ?_⟩
      simp [hname, hslug, hparent] at h
    · simp [hname, hslug] at h
      cases h

theorem Job.validate_eq_ok {env : Env} {j : Job} (h : j.validate env = .ok ()) :
    j.validateNames env = .ok () ∧ j.validateSchedule env = .ok () ∧
      j.validateSettings env = .ok () := by
  unfold Job.validate at h
  cases hn : j.validateNames env with
  | error e => rw [hn] at h; cases h
  | ok u =>
    cases hs : j.validateSchedule env with
    | error e => rw [hn, hs] at h; cases h
    | ok u => rw [hn, hs] at h; exact ⟨rfl, rfl, h⟩

/-- The errors validation can return. -/
def Err.ofValidation : Err → Bool
  | .sameParent | .wrongConcurrency | .text _ => true
  | _ => false

theorem Job.validateNames_error {job : Job} {env : Env} {e : Err}
    (h : job.validateNames env = .error e) : e.ofValidation := by
  unfold Job.validateNames at h
  simp only [bind, Except.bind, pure, Except.pure, throw, throwThe, MonadExceptOf.throw] at h
  split_ifs at h <;> cases h <;> rfl

theorem Job.validateSchedule_error {job : Job} {env : Env} {e : Err}
    (h : job.validateSchedule env = .error e) : e.ofValidation := by
  unfold Job.validateSchedule at h
  split_ifs at h
  cases hp : parse env job.scheduleHash <;> rw [hp] at h <;> cases h
  rfl

theorem Job.validateSettings_error {job : Job} {env : Env} {e : Err}
    (h : job.validateSettings env = .error e) : e.ofValidation := by
  unfold Job.validateSettings at h
  simp only [bind, Except.bind, pure, Except.pure, throw, throwThe, MonadExceptOf.throw] at h
  -- Every branch that fails names its error.
  repeat' split at h
  all_goals first
    | (cases h; rfl)
    | cases h

/-- Validation fails with these errors only. -/
theorem Job.validate_error {job : Job} {env : Env} {e : Err} (h : job.validate env = .error e) :
    e.ofValidation := by
  unfold Job.validate at h
  cases hn : job.validateNames env with
  | error e' =>
    rw [hn] at h
    cases h
    exact validateNames_error hn
  | ok u =>
    cases hs : job.validateSchedule env with
    | error e' =>
      rw [hn, hs] at h
      cases h
      exact validateSchedule_error hs
    | ok u =>
      rw [hn, hs] at h
      exact validateSettings_error h

/-- What an accepted job's names are like. -/
theorem Job.names_of_validate {env : Env} {j : Job} (h : j.validate env = .ok ()) :
    j.name ≠ "" ∧ j.parentJob ≠ j.name :=
  let hnames := validateNames_ok (validate_eq_ok h).1
  ⟨hnames.1, hnames.2.2⟩

/-- An accepted name holds no colon, which separates the parts of a key. -/
theorem Job.colon_not_mem_of_validate {env : Env} {j : Job} (h : j.validate env = .ok ()) :
    ':' ∉ j.name.toList := by
  intro hc
  have hslug := slugChar_of_isSlug (validateNames_ok (validate_eq_ok h).1).2.1 hc
  rw [slugChar, env.isLowercase_colon] at hslug
  revert hslug
  decide

/-- An accepted job has a next activation. -/
theorem Job.getNext_of_validate {env : Env} {j : Job} (h : j.validate env = .ok ())
    (zone : Zone) (now : Time) : ∃ t, j.getNext env zone now = .ok t := by
  have hsched := (validate_eq_ok h).2.1
  have hscheduled : ∃ t, getNext.scheduled env zone now j = .ok t := by
    unfold getNext.scheduled
    by_cases hempty : j.schedule = ""
    · exact ⟨zeroTime, by rw [if_pos hempty]⟩
    · rw [validateSchedule, if_pos (Or.inl hempty)] at hsched
      rw [if_neg hempty]
      cases hp : parse env j.scheduleHash with
      | error msg => rw [hp] at hsched; cases hsched
      | ok s => exact ⟨_, rfl⟩
  unfold getNext
  cases hstart : j.startsAt with
  | none => exact hscheduled
  | some t =>
    by_cases hnow : now < t
    · exact ⟨t, if_pos hnow⟩
    · simp only [if_neg hnow]
      exact hscheduled

/-- Validation looks at these fields only. -/
theorem Job.validate_congr {env : Env} {j k : Job} (hname : j.name = k.name)
    (hparent : j.parentJob = k.parentJob) (hschedule : j.schedule = k.schedule)
    (hconcurrency : j.concurrency = k.concurrency) (htimezone : j.timezone = k.timezone)
    (hexecutor : j.executor = k.executor) (hconfig : j.executorConfig = k.executorConfig) :
    j.validate env = k.validate env := by
  unfold validate validateNames validateSchedule validateSettings scheduleHash
  rw [hname, hparent, hschedule, hconcurrency, htimezone, hexecutor, hconfig]

/-! ## Round trips -/

/-- A message as `ToProto` writes it: no timestamp is missing. -/
def PbJob.Canonical (j : PbJob) : Prop := (newJobFromProto j).toProto = j

theorem toProto_canonical (j : Job) : j.toProto.Canonical := by
  simp only [PbJob.Canonical, newJobFromProto, Job.toProto, Int32.ofInt_toInt, UInt32.ofNat_toNat,
    PbNullableTime.get_new, asTime_some]

end Dkron
