import Dkron.AgentServer
import Dkron.CronParser

/-!
# The shell executor

`Shell.ExecuteImpl` prepares a command from the configuration of a job, starts it, and waits for it
while a timer and a memory monitor watch it. Both limits are enforced by killing the process group
of the command, and the memory limit is read only after the command has started.

* A command that is started is waited for, if its job is one that the store has accepted.
* A timeout always reaches the command. The memory limit reaches it only if the command has a
  process group of its own, and that depends on two other settings.

The operating system and the packages for words, base64 and formats are parameters.
-/

namespace Dkron

open Store

/-- `parseMemoryLimit`, in bytes; 0 if there is no limit. -/
def parseMemoryLimit (env : Env) (limit : String) : Except String Int := do
  if limit = "" then return 0
  if let some value := parseInt limit then
    if value ≤ 0 then throw "memory limit must be greater than 0"
    return value
  let limit := toUpper (trimSpace limit)
  let (num, unit) := limit.toList.span fun c => c.isDigit ∨ c = '.'
  if num = [] then throw ("invalid memory limit format: " ++ limit)
  let some value := env.parseFloat (String.ofList num)
    | throw ("invalid numeric value in memory limit: " ++ String.ofList num)
  if value ≤ 0 then throw "memory limit must be greater than 0"
  let some multiplier := memoryMultiplier (String.ofList unit)
    | throw ("unsupported memory unit: " ++ String.ofList unit ++
        " (supported: B, KB, MB, GB, TB)")
  let bytes := (value * multiplier).floor
  if bytes ≤ 0 ∨ 2 ^ 63 ≤ bytes then throw "memory limit too large or causes overflow"
  return bytes

/-- `exec.Cmd`, as far as it is set. -/
structure ShellCmd where
  args : List String
  env : List String
  dir : String
  setpgid : Bool := false
  /-- The user and the group. -/
  credential : Option (Int × Int) := none
deriving DecidableEq, Repr

/-- What the executor calls. -/
structure ShellHost where
  environ : List String
  /-- `shellwords.Parse`. -/
  words : String → Except String (List String)
  lookupUser : String → Except String (Int × Int)
  lookupGroup : String → Except String Int
  stdinPipe : ShellCmd → Except String Unit
  /-- `base64.StdEncoding.DecodeString`. -/
  decodeString : String → Except String Bytes
  start : ShellCmd → Bytes → Except String Unit
  /-- The format `%v` of a duration. -/
  formatDuration : Int → String
  /-- The format `%.0f`. -/
  formatFloat : ℚ → String

/-- `buildCmd`. -/
def buildCmd (host : ShellHost) (command : String) (useShell : Bool) (env : List String)
    (cwd : String) : Except String ShellCmd :=
  if useShell then .ok ⟨["/bin/sh", "-c", command], host.environ ++ env, cwd, false, none⟩
  else
    match host.words command with
    | .error e => .error e
    | .ok [] => .error "shell: Command missing"
    | .ok args => .ok ⟨args, host.environ ++ env, cwd, false, none⟩

/-- The user and the group of `su`, a text `user` or `user:group`. -/
def credentialOf (host : ShellHost) (su : String) : Except String (Int × Int) :=
  match splitText ':' su with
  | user :: group :: _ => do
    let (uid, _) ← host.lookupUser user
    let gid ← host.lookupGroup group
    return (uid, gid)
  | parts => host.lookupUser (parts.headD "")

/-- `setCmdAttr`, on Unix. -/
def setCmdAttr (host : ShellHost) (cmd : ShellCmd) (config : StrMap) : Except String ShellCmd := do
  let mut cmd := cmd
  if config.at "su" ≠ "" then
    let credential ← credentialOf host (config.at "su")
    cmd := { cmd with setpgid := true, credential := some credential }
  if config.at "timeout" ≠ "" then
    cmd := { cmd with setpgid := true }
  return cmd

/-- `processKill`: the signal goes to the process group with the number of the process. There is one
if the command was started in its own. -/
def processKill (cmd : ShellCmd) : Bool := cmd.setpgid

/-- What happens while the command runs. -/
inductive ShellEvent where
  | write (data : Bytes) (isError : Bool)
  /-- The timer of the timeout fires. -/
  | timer
  /-- The memory monitor looks, and finds the usage, if it can be told. -/
  | tick (totalMem : Option ℚ)

/-- A running command. -/
structure ShellRun where
  written : List Bytes := []
  updates : List Bytes := []
  jobTimeoutMessage : String := ""
  jobTimedOut : Bool := false
  memLimitExceededMessage : String := ""
  memLimitExceeded : Bool := false
  /-- Whether the signal of the timer, and that of the monitor, reached the command. -/
  timeoutKilled : Bool := false
  limitKilled : Bool := false
deriving DecidableEq, Repr

def timeoutMessage (host : ShellHost) (command : String) (jt : Int) (killed : Bool) : String :=
  "shell: Job '" ++ command ++ "' execution time exceeding defined timeout " ++
    host.formatDuration jt ++
    if killed then ". Job was killed" else ". SIGKILL returned error. Job may not have been killed"

def memLimitMessage (host : ShellHost) (command : String) (totalMem : ℚ) (memLimit : Int)
    (killed : Bool) : String :=
  "shell: Job '" ++ command ++ "' memory usage (" ++ host.formatFloat totalMem ++
    " bytes) exceeding defined limit (" ++ toString memLimit ++ " bytes)" ++
    if killed then ". Job was killed" else ". SIGKILL returned error. Job may not have been killed"

/-- The timer fires once, and the monitor ends when it has found the limit exceeded. -/
def ShellRun.step (host : ShellHost) (command : String) (cmd : ShellCmd) (jt memLimit : Int)
    (run : ShellRun) : ShellEvent → ShellRun
  | .write data _ => { run with written := run.written ++ [data], updates := run.updates ++ [data] }
  | .timer =>
    if jt ≠ 0 ∧ run.jobTimedOut = false then
      { run with
        jobTimeoutMessage := timeoutMessage host command jt (processKill cmd)
        jobTimedOut := true
        timeoutKilled := processKill cmd }
    else run
  | .tick none => run
  | .tick (some totalMem) =>
    if 0 < memLimit ∧ run.memLimitExceeded = false ∧ memLimit < totalMem then
      { run with
        memLimitExceededMessage := memLimitMessage host command totalMem memLimit (processKill cmd)
        memLimitExceeded := true
        limitKilled := processKill cmd }
    else run

/-- What is written after the command has ended. -/
def ShellRun.notes (run : ShellRun) : List Bytes :=
  (if run.jobTimedOut then [run.jobTimeoutMessage.toUTF8.toList] else []) ++
    if run.memLimitExceeded then [run.memLimitExceededMessage.toUTF8.toList] else []

theorem ShellRun.notes_eq_nil {run : ShellRun} :
    run.notes = [] ↔ run.jobTimedOut = false ∧ run.memLimitExceeded = false := by
  unfold notes
  cases run.jobTimedOut <;> cases run.memLimitExceeded <;> simp

/-- How `ExecuteImpl` returns. -/
inductive ShellOutcome where
  /-- Before the command is started. -/
  | rejected (err : String)
  /-- The command is started and left to itself. -/
  | abandoned (cmd : ShellCmd) (err : String)
  /-- The command is waited for. -/
  | waited (cmd : ShellCmd) (run : ShellRun) (err : Option String)

/-- The command of the configuration, ready to start, with its input and its timeout. -/
def prepare (env : Env) (host : ShellHost) (jobName : String) (config : StrMap) :
    Except String (ShellCmd × Bytes × Int) := do
  let shell := config.at "shell" ∈ ["1", "t", "T", "TRUE", "true", "True"]
  let vars := splitText ',' (config.at "env") ++ splitText ',' ("ENV_JOB_NAME=" ++ jobName)
  let cmd ← buildCmd host (config.at "command") shell vars (config.at "cwd")
  let cmd ← setCmdAttr host cmd config
  host.stdinPipe cmd
  let payload ← host.decodeString (config.at "payload")
  let jt ←
    if config.at "timeout" ≠ "" then
      match env.parseDuration (config.at "timeout") with
      | .ok jt => .ok jt
      | .error _ => .error "shell: Error parsing job timeout"
    else .ok 0
  return (cmd, payload, jt)

/-- `ExecuteImpl`, for a command that ends with the error after the events. -/
def executeImpl (env : Env) (host : ShellHost) (jobName : String) (config : StrMap)
    (events : List ShellEvent) (exit : Option String) : ShellOutcome :=
  match prepare env host jobName config with
  | .error err => .rejected err
  | .ok (cmd, payload, jt) =>
    match host.start cmd payload with
    | .error err => .rejected err
    | .ok () =>
      match parseMemoryLimit env (config.at "mem_limit") with
      | .error err => .abandoned cmd ("shell: Error parsing job memory limit: " ++ err)
      | .ok memLimit =>
        let run := events.foldl (ShellRun.step host (config.at "command") cmd jt memLimit) {}
        .waited cmd run exit

/-- `Execute`: the updates that are sent, and the response. -/
def ShellOutcome.executed (buffer : List Bytes → Bytes) : ShellOutcome → List Bytes × ExecuteResult
  | .rejected err | .abandoned _ err => ([], .ok { error := err })
  | .waited _ run err =>
    (run.updates, .ok { output := buffer (run.written ++ run.notes), error := err.getD "" })

/-- The shell executor as the agent calls it. -/
def shellExecutor (env : Env) (host : ShellHost) (buffer : List Bytes → Bytes)
    (events : List ShellEvent) (exit : Option String) : Executor :=
  fun jobName config => (executeImpl env host jobName config events exit).executed buffer

/-! ## The memory limit -/

/-- The executor and the validation of jobs read a memory limit alike, and reject it with the same
text. -/
theorem parseMemoryLimit_map (env : Env) (limit : String) :
    (parseMemoryLimit env limit).map (fun _ => ()) = validateMemoryLimit env limit := by
  unfold parseMemoryLimit validateMemoryLimit
  by_cases hempty : limit = ""
  · simp [hempty]
    rfl
  · simp only [hempty, if_false]
    cases hint : parseInt limit with
    | some value =>
      by_cases hpos : value ≤ 0
      · simp [hpos]
        rfl
      · simp [hpos]
        rfl
    | none =>
      simp only [bind, Except.bind, pure, Except.pure, throw, throwThe, MonadExceptOf.throw]
      generalize (toUpper (trimSpace limit)).toList.span _ = parts
      by_cases hnum : parts.1 = []
      · rw [if_pos hnum, if_pos hnum]
        rfl
      · rw [if_neg hnum, if_neg hnum]
        cases env.parseFloat (String.ofList parts.1) with
        | none => rfl
        | some value =>
          by_cases hvalue : value ≤ 0
          · simp only [if_pos hvalue]
            rfl
          · simp only [if_neg hvalue]
            cases memoryMultiplier (String.ofList parts.2) with
            | none => rfl
            | some multiplier =>
              simp only
              split_ifs <;> rfl

/-- A limit that validation accepts can be read. -/
theorem parseMemoryLimit_of_validate {env : Env} {limit : String}
    (h : validateMemoryLimit env limit = .ok ()) :
    ∃ bytes, parseMemoryLimit env limit = .ok bytes := by
  rw [← parseMemoryLimit_map] at h
  cases hparse : parseMemoryLimit env limit with
  | ok bytes => exact ⟨bytes, rfl⟩
  | error err =>
    rw [hparse] at h
    cases h

/-- The memory limit of a job that validation accepts, if it is one of the shell executor. -/
theorem parseMemoryLimit_of_validateSettings {env : Env} {j : Job}
    (h : j.validateSettings env = .ok ()) (hshell : j.executor = "shell") :
    ∃ bytes, parseMemoryLimit env (j.executorConfig.at "mem_limit") = .ok bytes := by
  by_cases hempty : j.executorConfig.at "mem_limit" = ""
  · exact ⟨0, by rw [hempty]; rfl⟩
  · apply parseMemoryLimit_of_validate
    unfold Job.validateSettings at h
    simp only [bind, Except.bind, pure, Except.pure, throw, throwThe, MonadExceptOf.throw, hshell,
      hempty, ne_eq, not_false_eq_true, and_self, if_true] at h
    cases hlimit : validateMemoryLimit env (j.executorConfig.at "mem_limit") with
    | ok u => rfl
    | error msg =>
      rw [hlimit] at h
      repeat' split at h
      all_goals cases h

/-! ## The process group -/

section

variable {env : Env} {host : ShellHost} {jobName : String} {config : StrMap}

theorem setpgid_buildCmd {command : String} {useShell : Bool} {vars : List String} {cwd : String}
    {cmd : ShellCmd} (h : buildCmd host command useShell vars cwd = .ok cmd) :
    cmd.setpgid = false := by
  unfold buildCmd at h
  split_ifs at h
  · cases h
    rfl
  · split at h <;> cases h
    rfl

/-- A command gets a process group of its own if it has a user or a timeout. -/
theorem setpgid_setCmdAttr {cmd cmd' : ShellCmd} (h : setCmdAttr host cmd config = .ok cmd')
    (hgroup : cmd.setpgid = false) :
    cmd'.setpgid = true ↔ config.at "su" ≠ "" ∨ config.at "timeout" ≠ "" := by
  unfold setCmdAttr at h
  by_cases hsu : config.at "su" = "" <;> by_cases htimeout : config.at "timeout" = "" <;>
    simp only [hsu, htimeout, bind, Except.bind, pure, Except.pure, ne_eq, not_true_eq_false,
      not_false_eq_true, if_true, if_false] at h
  · cases h
    simp [hsu, htimeout, hgroup]
  · cases h
    simp [htimeout]
  · cases hcredential : credentialOf host (config.at "su") with
    | error e =>
      rw [hcredential] at h
      cases h
    | ok credential =>
      rw [hcredential] at h
      cases h
      simp [hsu]
  · cases hcredential : credentialOf host (config.at "su") with
    | error e =>
      rw [hcredential] at h
      cases h
    | ok credential =>
      rw [hcredential] at h
      cases h
      simp [hsu]

theorem prepare_ok {cmd : ShellCmd} {payload : Bytes} {jt : Int}
    (h : prepare env host jobName config = .ok (cmd, payload, jt)) :
    (cmd.setpgid = true ↔ config.at "su" ≠ "" ∨ config.at "timeout" ≠ "") ∧
      (jt ≠ 0 ↔ config.at "timeout" ≠ "" ∧
        ∃ d, env.parseDuration (config.at "timeout") = .ok d ∧ d ≠ 0) := by
  unfold prepare at h
  simp only [bind, Except.bind, pure, Except.pure] at h
  split at h
  · cases h
  · rename_i built hbuilt
    split at h
    · cases h
    · rename_i set hset
      have hgroup := setpgid_setCmdAttr hset (setpgid_buildCmd hbuilt)
      repeat' split at h
      all_goals cases h
      all_goals exact ⟨hgroup, by simp [*]⟩

end

/-! ## Runs -/

/-- The data that the command writes. -/
def ShellEvent.written : ShellEvent → List Bytes
  | .write data _ => [data]
  | _ => []

/-- What a run shows, after the events. -/
structure Limited (host : ShellHost) (command : String) (cmd : ShellCmd) (jt memLimit : Int)
    (events : List ShellEvent) (run : ShellRun) : Prop where
  written : run.written = events.flatMap ShellEvent.written
  updates : run.updates = run.written
  timedOut : run.jobTimedOut = true ↔ jt ≠ 0 ∧ .timer ∈ events
  timeoutKilled : run.jobTimedOut = true → run.timeoutKilled = processKill cmd
  exceeded : run.memLimitExceeded = true ↔
    0 < memLimit ∧ ∃ totalMem : ℚ, .tick (some totalMem) ∈ events ∧ memLimit < totalMem
  limitKilled : run.memLimitExceeded = true → run.limitKilled = processKill cmd

variable {host : ShellHost} {command : String} {cmd : ShellCmd} {jt memLimit : Int}

theorem Limited.step {events : List ShellEvent} {run : ShellRun}
    (h : Limited host command cmd jt memLimit events run) (event : ShellEvent) :
    Limited host command cmd jt memLimit (events ++ [event])
      (run.step host command cmd jt memLimit event) := by
  obtain ⟨hwritten, hupdates, htimed, htimeout, hexceeded, hlimit⟩ := h
  cases event with
  | write data isError =>
    refine ⟨?_, ?_, ?_, htimeout, ?_, hlimit⟩
    · simp [ShellRun.step, ShellEvent.written, hwritten]
    · simp [ShellRun.step, hupdates]
    · simpa [ShellRun.step] using htimed
    · simpa [ShellRun.step] using hexceeded
  | timer =>
    simp only [ShellRun.step]
    by_cases hfires : jt ≠ 0 ∧ run.jobTimedOut = false
    · rw [if_pos hfires]
      refine ⟨?_, hupdates, ?_, fun _ => rfl, ?_, hlimit⟩
      · simp [ShellEvent.written, hwritten]
      · simp [hfires.1]
      · simpa using hexceeded
    · rw [if_neg hfires]
      refine ⟨?_, hupdates, ?_, htimeout, ?_, hlimit⟩
      · simp [ShellEvent.written, hwritten]
      · by_cases hjt : jt = 0
        · simpa [hjt] using htimed
        · have hset : run.jobTimedOut = true := by simpa [hjt] using hfires
          simp [hset, hjt]
      · simpa using hexceeded
  | tick found =>
    cases found with
    | none =>
      refine ⟨?_, hupdates, ?_, htimeout, ?_, hlimit⟩
      · simp [ShellRun.step, ShellEvent.written, hwritten]
      · simpa [ShellRun.step] using htimed
      · simpa [ShellRun.step] using hexceeded
    | some totalMem =>
      simp only [ShellRun.step]
      by_cases hfound : 0 < memLimit ∧ run.memLimitExceeded = false ∧ memLimit < totalMem
      · rw [if_pos hfound]
        refine ⟨?_, hupdates, ?_, htimeout, ?_, fun _ => rfl⟩
        · simp [ShellEvent.written, hwritten]
        · simpa using htimed
        · simp only [true_iff]
          exact ⟨hfound.1, totalMem, by simp, hfound.2.2⟩
      · rw [if_neg hfound]
        refine ⟨?_, hupdates, ?_, htimeout, ?_, hlimit⟩
        · simp [ShellEvent.written, hwritten]
        · simpa using htimed
        · rw [hexceeded]
          refine and_congr_right fun hpos => ⟨?_, ?_⟩
          · rintro ⟨m, hm, hlt⟩
            exact ⟨m, List.mem_append_left _ hm, hlt⟩
          · rintro ⟨m, hm, hlt⟩
            -- A look that changes nothing finds less than the limit, or comes after another.
            by_cases hset : run.memLimitExceeded = true
            · exact (hexceeded.1 hset).2
            · have hle : ¬(memLimit : ℚ) < totalMem := fun hlt' =>
                hfound ⟨hpos, by simpa using hset, hlt'⟩
              obtain hm | hm := List.mem_append.1 hm
              · exact ⟨m, hm, hlt⟩
              · simp only [List.mem_singleton, ShellEvent.tick.injEq, Option.some.injEq] at hm
                exact absurd (hm ▸ hlt) hle

theorem limited_run (events : List ShellEvent) :
    Limited host command cmd jt memLimit events
      (events.foldl (ShellRun.step host command cmd jt memLimit) {}) := by
  induction events using List.reverseRecOn with
  | nil => constructor <;> simp
  | append_singleton events event ih =>
    rw [List.foldl_append]
    exact ih.step event

end Dkron
