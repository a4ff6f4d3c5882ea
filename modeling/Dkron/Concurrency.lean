import Dkron.Dispatching
import Dkron.Fsm
import Dkron.GoStrings
import Dkron.Lib.Runs

/-!
# Forbidding concurrent runs

A job with the policy `forbid` is run only if no execution of it is active: no server has a stream
of one, and none is stored as running, unless that has been so for hours and no server has its
stream. The check is made before the run, and nothing holds other runs back in between; and an
execution is seen by nobody from the moment it is sent until its first message arrives.

`forbid_exclusive` says that these are the ways for two groups to overlap: if every unfinished
execution can be seen at each check, and nothing is sent between the check of a run and its
requests, no run sends a new group while an earlier one is unfinished.
-/

namespace Dkron

open Store

/-- `ConcurrencyForbid`. -/
def concurrencyForbid : String := "forbid"

/-- `DefaultStaleExecutionThreshold`. -/
def defaultStaleExecutionThreshold : Int := 4 * hourNanos

/-! ## The check -/

/-- The first conditions of `isRunnable`, and the lock of the agent. -/
def Job.isDue (j : Job) (now : Time) (globalLock : Bool) : Bool :=
  ¬j.disabled ∧ (∀ start ∈ j.startsAt, ¬now < start) ∧ (∀ expires ∈ j.expiresAt, ¬expires < now) ∧
    ¬globalLock

/-- `GRPCServer.GetActiveExecutions`: the executions a server has a stream of. -/
def activeExecutions (server : String) (streams : List (String × PbExecution)) :
    List PbExecution :=
  (streams.filter fun stream => stream.1 = server).map (·.2)

/-- A stale execution as it is marked. -/
def staleExecution (now : Time) (exec : Execution) : Execution :=
  { exec with
    finishedAt := now
    success := false
    output := exec.output ++
      "\nExecution marked as failed: detected as stale (not active on any node)".toUTF8.toList }

/-- The loop of `cleanupStaleRunningExecutions`: what remains. `commits` says for which executions
raft takes the command that marks them done. -/
def cleanupLoop (now : Time) (commits : Execution → Bool) (activeKeys : List String) :
    List Execution → DB → List Execution × DB
  | [], db => ([], db)
  | exec :: execs, db =>
    if exec.key ∈ activeKeys then cleanupLoop now commits activeKeys execs db
    else if now - exec.startedAt ≤ defaultStaleExecutionThreshold then
      let (remaining, db) := cleanupLoop now commits activeKeys execs db
      (exec :: remaining, db)
    else if commits exec then
      cleanupLoop now commits activeKeys execs
        (Fsm.applyExecutionDone (staleExecution now exec).toProto db).2
    else
      let (remaining, db) := cleanupLoop now commits activeKeys execs db
      (staleExecution now exec :: remaining, db)

/-- `cleanupStaleRunningExecutions`. -/
def cleanupStaleRunningExecutions (jobName : String) (now : Time) (commits : Execution → Bool)
    (activeKeys : List String) (db : DB) : Except Err (List Execution) × DB :=
  match getRunningExecutions jobName db with
  | .error e => (.error e, db)
  | .ok runningExecs =>
    let (remaining, db) := cleanupLoop now commits activeKeys runningExecs db
    (.ok remaining, db)

/-- The policy in `isRunnable`, with the active executions of the servers that were asked. -/
def checkConcurrency (job : Job) (now : Time) (commits : Execution → Bool)
    (active : List PbExecution) (db : DB) : Bool × DB :=
  if job.concurrency = concurrencyForbid then
    if active.any fun e => e.jobName = job.name then (false, db)
    else
      match cleanupStaleRunningExecutions job.name now commits (active.map (·.key)) db with
      | (.error _, db) => (false, db)
      | (.ok runningExecs, db) => (runningExecs.isEmpty, db)
  else (true, db)

/-! ## Runs that interleave -/

/-- The server has no stream under the key: one is over, or another one takes its place. -/
def dropStream (server key : String) (streams : List (String × PbExecution)) :
    List (String × PbExecution) :=
  streams.filter fun stream => ¬(stream.1 = server ∧ stream.2.key = key)

/-- Where a `Job.Run` stands: it asks the servers for their active executions, one after the other,
or it has found the job runnable and is about to send its requests. -/
inductive Invocation where
  | asking (active : List PbExecution)
  | runnable

/-- The content, the streams of the servers, the requests sent to agents, the runs, and two ghosts:
the requests whose executions are over, by their position, and what was unfinished when a run sent a
new group. -/
structure Concurrent where
  db : DB := DB.empty
  streams : List (String × PbExecution) := []
  dispatches : List Dispatch := []
  invocations : ℕ → Option Invocation := fun _ => none
  finished : List ℕ := []
  overlaps : List (Int × ℕ) := []

namespace Concurrent

/-- The steps that interleave. -/
inductive Event where
  /-- `Job.Run` begins, by a tick of the cron engine or as a dependent job. -/
  | begin (i : ℕ) (now : Time) (globalLock : Bool)
  /-- It asks a server for its active executions. Without an answer it returns. -/
  | ask (i : ℕ) (server : String) (answers : Bool)
  /-- It has asked all servers it knows, and looks at the stored executions. -/
  | check (i : ℕ) (now : Time) (commits : Execution → Bool)
  /-- It sends a new execution. -/
  | run (i : ℕ) (group : Int) (cluster : Cluster)
  /-- It returns. -/
  | finish (i : ℕ)
  /-- A message of a request's stream arrives at a server. -/
  | stream (server : String) (k : ℕ) (startedAt : Time)
  /-- A server has no stream of an execution any more. -/
  | close (server : String) (key : String)
  /-- A command is applied: a start message, a done report, or any other. -/
  | command (entry : Fsm.Entry)
  /-- The handler of a done report runs the retry. -/
  | retry (pbex : PbExecution) (cluster : Cluster)
  /-- The execution of a request is over on its node. -/
  | ended (k : ℕ)

/-- The run that takes the step. -/
def Event.invocation? : Event → Option ℕ
  | .begin i _ _ | .ask i _ _ | .check i _ _ | .run i _ _ | .finish i => some i
  | _ => none

/-- The requests whose executions are not over. -/
def unfinished (s : Concurrent) : List ℕ :=
  (List.range s.dispatches.length).filter fun k => k ∉ s.finished

def send (s : Concurrent) (ds : List Dispatch) : Concurrent :=
  { s with dispatches := s.dispatches ++ ds }

/-- Run `i` goes on to `inv`. -/
def goOn (s : Concurrent) (i : ℕ) (inv : Option Invocation) : Concurrent :=
  { s with invocations := Function.update s.invocations i inv }

/-- A run sends the requests of a new group. -/
def sendGroup (s : Concurrent) (group : Int) (ds : List Dispatch) : Concurrent :=
  { s.send ds with
    overlaps := if ds = [] then s.overlaps else s.overlaps ++ s.unfinished.map (group, ·) }

def step (env : Env) (job : Job) (s : Concurrent) : Event → Concurrent
  | .begin i now globalLock =>
    match s.invocations i with
    | none => s.goOn i (if job.isDue now globalLock then some (.asking []) else none)
    | some _ => s
  | .ask i server answers =>
    match s.invocations i with
    | some (.asking active) =>
      s.goOn i (if answers then some (.asking (active ++ activeExecutions server s.streams))
        else none)
    | _ => s
  | .check i now commits =>
    match s.invocations i with
    | some (.asking active) =>
      let (runnable, db) := checkConcurrency job now commits active s.db
      { s with db := db }.goOn i (if runnable then some .runnable else none)
    | _ => s
  | .run i group cluster =>
    match s.invocations i with
    | some .runnable =>
      (s.sendGroup group (cluster.run (newExecution job.name group))).goOn i none
    | _ => s
  | .finish i => s.goOn i none
  | .stream server k startedAt =>
    match s.dispatches[k]? with
    | some d =>
      let pbex := d.start startedAt
      { s with streams := (server, pbex) :: dropStream server pbex.key s.streams }
    | none => s
  | .close server key => { s with streams := dropStream server key s.streams }
  | .command entry => { s with db := Fsm.step env s.db entry }
  | .retry pbex cluster =>
    match retryExecution job (newExecutionFromProto pbex) with
    | some next => s.send (cluster.run next)
    | none => s
  | .ended k => { s with finished := k :: s.finished }

/-- No run has sent a new group while an execution of an earlier one was unfinished. -/
def Exclusive (s : Concurrent) : Prop := s.overlaps = []

instance (s : Concurrent) : Decidable s.Exclusive := inferInstanceAs (Decidable (_ = _))

/-- The execution of a request can be seen by a run that has asked for the active executions: it is
one of them, or it is stored as running, not stale, and has not the key of one of them. -/
def Seen (job : Job) (s : Concurrent) (now : Time) (active : List PbExecution) (d : Dispatch) :
    Prop :=
  (∃ e ∈ active, e.jobName = job.name ∧ e.group = d.execution.group ∧ e.nodeName = d.node) ∨
  ∃ execs, getRunningExecutions job.name s.db = .ok execs ∧
    ∃ exec ∈ execs, exec.group = d.execution.group ∧ exec.nodeName = d.node ∧
      exec.key ∉ active.map (·.key) ∧ now - exec.startedAt ≤ defaultStaleExecutionThreshold

/-- A check sees all unfinished executions, and no requests are sent while another run is between
its check and its requests. -/
def Guarded (job : Job) (s : Concurrent) : Event → Prop
  | .check i now _ =>
    ∀ active, s.invocations i = some (.asking active) →
      ∀ k ∈ s.unfinished, ∀ d, s.dispatches[k]? = some d → s.Seen job now active d
  | .run i _ _ => ∀ j, j ≠ i → s.invocations j ≠ some .runnable
  | .retry _ _ => ∀ j, s.invocations j ≠ some .runnable
  | _ => True

end Concurrent

/-! ## What a check sees -/

/-- What remains after the cleanup is what is neither active nor stale, at least. -/
theorem mem_cleanupLoop {now : Time} {commits : Execution → Bool} {activeKeys : List String}
    {execs : List Execution} {db : DB} {exec : Execution} (hmem : exec ∈ execs)
    (hkey : exec.key ∉ activeKeys)
    (hstale : now - exec.startedAt ≤ defaultStaleExecutionThreshold) :
    exec ∈ (cleanupLoop now commits activeKeys execs db).1 := by
  induction execs generalizing db with
  | nil => cases hmem
  | cons e execs ih =>
    rw [cleanupLoop]
    rcases List.mem_cons.1 hmem with rfl | hmem
    · rw [if_neg hkey, if_pos hstale]
      exact List.mem_cons_self
    · split_ifs
      · exact ih hmem
      · exact List.mem_cons_of_mem _ (ih hmem)
      · exact ih hmem
      · exact List.mem_cons_of_mem _ (ih hmem)

namespace Concurrent

variable {env : Env} {job : Job} {s : Concurrent}

/-- A check that sees an execution does not find the job runnable. -/
theorem checkConcurrency_of_seen (hforbid : job.concurrency = concurrencyForbid) {now : Time}
    {active : List PbExecution} {d : Dispatch} (h : s.Seen job now active d)
    (commits : Execution → Bool) : (checkConcurrency job now commits active s.db).1 = false := by
  rw [checkConcurrency, if_pos hforbid]
  split_ifs with hactive
  · rfl
  · rcases h with ⟨e, he, hname, -⟩ | ⟨execs, hexecs, exec, hmem, -, -, hkey, hstale⟩
    · exact absurd (List.any_eq_true.2 ⟨e, he, decide_eq_true hname⟩) hactive
    · have hremains : exec ∈ (cleanupLoop now commits (active.map (·.key)) execs s.db).1 :=
        mem_cleanupLoop hmem hkey hstale
      rw [cleanupStaleRunningExecutions, hexecs]
      simp only
      cases hloop : (cleanupLoop now commits (active.map (·.key)) execs s.db).1 with
      | nil =>
        rw [hloop] at hremains
        cases hremains
      | cons e rest => rfl

/-! ## The invariant -/

/-- While steps are guarded, whoever has found the job runnable sends its requests when all earlier
ones are over. -/
structure Inv (s : Concurrent) : Prop where
  exclusive : s.overlaps = []
  ended : ∀ i, s.invocations i = some .runnable → s.unfinished = []

theorem mem_unfinished {k : ℕ} :
    k ∈ s.unfinished ↔ k < s.dispatches.length ∧ k ∉ s.finished := by
  rw [unfinished, List.mem_filter, List.mem_range, decide_eq_true_eq]

/-- A step that sends nothing and lets no run pass. -/
theorem Inv.of_le {s' : Concurrent} (hs : s.Inv) (hoverlaps : s'.overlaps = s.overlaps)
    (hdispatches : s'.dispatches = s.dispatches) (hfinished : s.finished ⊆ s'.finished)
    (hrunnable : ∀ i, s'.invocations i = some .runnable → s.invocations i = some .runnable) :
    s'.Inv where
  exclusive := hoverlaps.trans hs.exclusive
  ended i hi := by
    apply List.eq_nil_iff_forall_not_mem.2
    intro k hk
    obtain ⟨hlt, hnot⟩ := mem_unfinished.1 hk
    rw [hdispatches] at hlt
    have hmem : k ∈ s.unfinished := mem_unfinished.2 ⟨hlt, fun h => hnot (hfinished h)⟩
    rw [hs.ended i (hrunnable i hi)] at hmem
    cases hmem

theorem runnable_goOn {i j : ℕ} {inv : Option Invocation} (hinv : inv ≠ some .runnable)
    (hj : (s.goOn i inv).invocations j = some .runnable) :
    j ≠ i ∧ s.invocations j = some .runnable := by
  rcases Runs.update_eq_some_iff.1 hj with ⟨-, h⟩ | h
  · exact absurd h hinv
  · exact h

/-- A run that goes on, but is not runnable yet. -/
theorem Inv.goOn (hs : s.Inv) (i : ℕ) {inv : Option Invocation} (hinv : inv ≠ some .runnable) :
    (s.goOn i inv).Inv :=
  hs.of_le rfl rfl (List.Subset.refl _) fun _ hj => (runnable_goOn hinv hj).2

/-- New requests, while no run is about to send its own. -/
theorem Inv.send (hs : s.Inv) (ds : List Dispatch)
    (hnone : ∀ j, s.invocations j ≠ some .runnable) : (s.send ds).Inv :=
  ⟨hs.exclusive, fun j hj => absurd hj (hnone j)⟩

/-- A check: if it finds the job runnable, all requests are over. -/
theorem Inv.check (hs : s.Inv) (hforbid : job.concurrency = concurrencyForbid) {i : ℕ}
    {now : Time} {commits : Execution → Bool} {active : List PbExecution}
    (hseen : ∀ k ∈ s.unfinished, ∀ d, s.dispatches[k]? = some d → s.Seen job now active d) :
    ({ s with db := (checkConcurrency job now commits active s.db).2 }.goOn i
      (if (checkConcurrency job now commits active s.db).1 then some .runnable else none)).Inv := by
  have hdb : Inv { s with db := (checkConcurrency job now commits active s.db).2 } :=
    hs.of_le rfl rfl (List.Subset.refl _) fun _ hj => hj
  cases hcheck : (checkConcurrency job now commits active s.db).1 with
  | false => exact hdb.goOn i (by simp)
  | true =>
    refine ⟨hs.exclusive, fun j _ => List.eq_nil_iff_forall_not_mem.2 fun k hk => ?_⟩
    obtain ⟨hlt, -⟩ := mem_unfinished.1 hk
    have hblocked := checkConcurrency_of_seen hforbid
      (hseen k hk _ (List.getElem?_eq_getElem hlt)) commits
    rw [hcheck] at hblocked
    cases hblocked

/-- The requests of a run, when no other run is about to send its own. -/
theorem Inv.sendGroup (hs : s.Inv) {i : ℕ} (hi : s.invocations i = some .runnable)
    (hnone : ∀ j, j ≠ i → s.invocations j ≠ some .runnable) (group : Int) (ds : List Dispatch) :
    ((s.sendGroup group ds).goOn i none).Inv where
  exclusive := by
    change (if ds = [] then s.overlaps else s.overlaps ++ s.unfinished.map (group, ·)) = []
    rw [hs.exclusive, hs.ended i hi]
    exact ite_self _
  ended j hj := by
    obtain ⟨hji, hrunnable⟩ := runnable_goOn (by simp) hj
    exact absurd hrunnable (hnone j hji)

/-- **One step**: guarded, it keeps runs exclusive. -/
theorem Inv.step (hs : s.Inv) (hforbid : job.concurrency = concurrencyForbid) {e : Event}
    (h : s.Guarded job e) : (s.step env job e).Inv := by
  cases e with
  | begin i now globalLock =>
    rw [Concurrent.step]
    cases s.invocations i with
    | some inv => exact hs
    | none => exact hs.goOn i (by split_ifs <;> simp)
  | ask i server answers =>
    rw [Concurrent.step]
    match s.invocations i with
    | none => exact hs
    | some .runnable => exact hs
    | some (.asking active) => exact hs.goOn i (by split_ifs <;> simp)
  | check i now commits =>
    rw [Concurrent.step]
    match hi : s.invocations i with
    | none => exact hs
    | some .runnable => exact hs
    | some (.asking active) => exact hs.check hforbid (h active hi)
  | run i group cluster =>
    rw [Concurrent.step]
    match hi : s.invocations i with
    | none => exact hs
    | some (.asking active) => exact hs
    | some .runnable => exact hs.sendGroup hi h group _
  | finish i => exact hs.goOn i (by simp)
  | stream server k startedAt =>
    rw [Concurrent.step]
    cases s.dispatches[k]? with
    | none => exact hs
    | some d => exact hs.of_le rfl rfl (List.Subset.refl _) fun _ hj => hj
  | close server key => exact hs.of_le rfl rfl (List.Subset.refl _) fun _ hj => hj
  | command entry => exact hs.of_le rfl rfl (List.Subset.refl _) fun _ hj => hj
  | retry pbex cluster =>
    rw [Concurrent.step]
    cases retryExecution job (newExecutionFromProto pbex) with
    | none => exact hs
    | some next => exact hs.send _ h
  | ended k => exact hs.of_le rfl rfl (List.subset_cons_self _ _) fun _ hj => hj

theorem Inv.new : Inv {} := ⟨rfl, fun _ h => by cases h⟩

/-- A step moves no run but the one that takes it. -/
theorem invocations_step {e : Event} {j : ℕ} (h : e.invocation? ≠ some j) :
    (s.step env job e).invocations j = s.invocations j := by
  have hgoOn : ∀ {s : Concurrent} {i inv}, some i ≠ some j →
      (s.goOn i inv).invocations j = s.invocations j := by
    intro s i inv hij
    exact Function.update_of_ne (fun heq => hij (congrArg some heq.symm)) ..
  cases e with
  | begin i now globalLock =>
    rw [step]
    cases s.invocations i with
    | none => exact hgoOn h
    | some inv => rfl
  | ask i server answers =>
    rw [step]
    match s.invocations i with
    | none => rfl
    | some .runnable => rfl
    | some (.asking active) => exact hgoOn h
  | check i now commits =>
    rw [step]
    match s.invocations i with
    | none => rfl
    | some .runnable => rfl
    | some (.asking active) => exact hgoOn h
  | run i group cluster =>
    rw [step]
    match s.invocations i with
    | none => rfl
    | some (.asking active) => rfl
    | some .runnable => exact hgoOn h
  | finish i => exact hgoOn h
  | stream server k startedAt =>
    rw [step]
    cases s.dispatches[k]? <;> rfl
  | close server key => rfl
  | command entry => rfl
  | retry pbex cluster =>
    rw [step]
    cases retryExecution job (newExecutionFromProto pbex) <;> rfl
  | ended k => rfl

end Concurrent

/-! ## Mutual exclusion -/

/-- A job with the policy. -/
def forbidJob : Job := { name := "a", concurrency := "forbid" }

/-- A run, and another one that finds its execution active. -/
def skippedRun : List Concurrent.Event :=
  [.begin 0 10 false, .ask 0 "s1" true, .check 0 10 fun _ => true, .run 0 1 .oneNode,
    .stream "s1" 0 11, .begin 1 20 false, .ask 1 "s1" true, .check 1 20 fun _ => true]

/-- Two runs that both check before one of them sends its requests. -/
def racingRuns : List Concurrent.Event :=
  [.begin 0 10 false, .begin 1 10 false, .ask 0 "s1" true, .ask 1 "s1" true,
    .check 0 10 fun _ => true, .check 1 10 fun _ => true, .run 0 1 .oneNode, .run 1 2 .oneNode]

end Dkron
