import Dkron.AgentServer
import Dkron.Forwarding
import Dkron.StaleCleanup

/-!
# What the store says about executions

A run sends its execution to agents, an agent sends messages, the server that has the stream stores
the first of them and reports the last, and a leader applies the report. In between streams break,
calls are repeated, reports are delayed, lost, delivered twice or made by the agent itself,
processors rewrite the output, jobs are changed and deleted, and whoever takes over marks executions
as failed.

Whatever the order of all this, what is stored can be traced back to an agent: a stored success is
the success of an executor (`success_of_executor`), and a stored execution that is running has a
stream whose end nobody has reported (`running_of_stream`). `attemptEvents_eq` connects the single
steps of a client with its loop in `AgentRun`.
-/

namespace Dkron

open Store

/-- A stream from an agent to a server, as both see it. -/
structure OpenStream where
  /-- The request the stream was opened for. -/
  dispatch : ℕ
  job : PbJob
  request : PbExecution
  agent : AgentServer
  /-- The `execution` of `agentRunAttempt`. -/
  execution : PbExecution
  first : Bool := false
  /-- The messages that are sent and not received. -/
  inFlight : List PbExecution
  returned : Returned
  /-- The attempt has returned. -/
  ended : Bool := false
  /-- A ghost: the key under which the first message was recorded, until a report of the stream is
  applied. -/
  recorded : Option String := none

/-- Processors write the output of an execution and nothing else. -/
abbrev OutputProcessors :=
  { plugins : ProcessorPlugins // ∀ k processor, plugins.process k = some processor →
    ∀ e v, ∃ output, processor e v = { e with output := output } }

/-- No processor is installed. -/
def OutputProcessors.none : OutputProcessors :=
  ⟨⟨fun _ => .none, ""⟩, fun _ _ h => by cases h⟩

/-- What becomes of `SetExecution`. -/
inductive Recording where
  | stored
  /-- The command is applied, but the caller gets an error. -/
  | lost
  | failed

/-- The content of the store, the requests to agents, the streams, and the done reports with the
streams they are about. -/
structure Executing where
  db : DB := DB.empty
  dispatches : List Dispatch := []
  streams : List OpenStream := []
  reports : List (ℕ × PbExecution) := []

namespace Executing

/-- What servers, agents and clients do. -/
inductive Event where
  /-- A job is run: the first attempts. -/
  | run (jobName : String) (group : Int) (cluster : Cluster)
  /-- The handler of a report retries the execution. -/
  | retry (k : ℕ) (job : Job) (cluster : Cluster)
  /-- A stream is opened for a request. -/
  | call (k : ℕ) (job : PbJob) (agent : AgentServer)
  /-- The server receives the next message of a stream. -/
  | receive (i : ℕ) (recording : Recording)
  /-- The server receives the end of a stream. -/
  | eof (i : ℕ)
  /-- The server receives an error. -/
  | broken (i : ℕ) (now : Instant) (e : CallError)
  /-- The agent reports its execution itself. -/
  | fallback (i : ℕ)
  /-- A leader applies a report, once more perhaps. -/
  | deliver (k : ℕ) (job : Job) (processors : OutputProcessors)
  /-- A leader marks an execution that it takes for stale. -/
  | mark (now : Instant) (exec : Execution)
  | setJob (clk : Clock) (pj : PbJob)
  | deleteJob (clk : Clock) (jobName : String)
  | deleteExecutions (jobName : String)

def send (s : Executing) (ds : List Dispatch) : Executing :=
  { s with dispatches := s.dispatches ++ ds }

/-- The messages of a stream and what follows them are those of the agent's side. -/
def call (s : Executing) (k : ℕ) (job : PbJob) (agent : AgentServer) (execution : PbExecution) :
    Executing :=
  let (inFlight, returned) := agent.agentRun job execution
  { s with
    streams := s.streams ++
      [{ dispatch := k, job, request := execution, agent, execution, inFlight, returned }] }

/-- A message `ars` of the stream `i`. Only the first one is stored. -/
def receive (env : Env) (s : Executing) (i : ℕ) (r : OpenStream) (ars : PbExecution)
    (rest : List PbExecution) (recording : Recording) : Executing :=
  let r := { r with execution := ars, inFlight := rest }
  if r.first then { s with streams := s.streams.set i r }
  else
    match recording with
    | .stored =>
      { s with
        db := (setExecution env (newExecutionFromProto ars) s.db).2
        streams := s.streams.set i { r with first := true, recorded := some ars.storeKey } }
    | .lost =>
      { s with
        db := (setExecution env (newExecutionFromProto ars) s.db).2
        streams := s.streams.set i { r with ended := true, recorded := some ars.storeKey } }
    | .failed => { s with streams := s.streams.set i { r with ended := true } }

/-- The attempt of the stream `i` returns with a report of the execution. -/
def report (s : Executing) (i : ℕ) (r : OpenStream) (execution : PbExecution) : Executing :=
  { s with
    streams := s.streams.set i { r with ended := true }
    reports := s.reports ++ [(i, (newExecutionFromProto execution).toProto)] }

/-- Before the first message the execution is that of the request, and is changed in place. -/
def breakRequest (r : OpenStream) (execution : PbExecution) (ds : List Dispatch) : List Dispatch :=
  if r.first then ds else ds.modify r.dispatch fun d => { d with execution := execution }

/-- The report `pbex` of the stream `i` is applied. -/
def deliver (s : Executing) (i : ℕ) (pbex : PbExecution) : Executing :=
  match setExecutionDone (newExecutionFromProto pbex) s.db with
  | (.ok _, db) =>
    { s with db := db, streams := s.streams.modify i fun r => { r with recorded := none } }
  | (.error _, db) => { s with db := db }

def step (env : Env) (s : Executing) : Event → Executing
  | .run jobName group cluster => s.send (cluster.run (newExecution jobName group))
  | .retry k job cluster =>
    match s.reports[k]? with
    | some (_, pbex) =>
      match retryExecution job (newExecutionFromProto pbex) with
      | some next => s.send (cluster.run next)
      | none => s
    | none => s
  | .call k job agent =>
    match s.dispatches[k]? with
    | some d => if job.name = d.execution.jobName then s.call k job agent d.execution else s
    | none => s
  | .receive i recording =>
    match s.streams[i]? with
    | some r =>
      match r.ended, r.inFlight with
      | false, ars :: rest => s.receive env i r ars rest recording
      | _, _ => s
    | none => s
  | .eof i =>
    match s.streams[i]? with
    | some r =>
      match r.ended, r.inFlight, r.returned with
      | false, [], .nil => s.report i r r.execution
      | _, _, _ => s
    | none => s
  | .broken i now e =>
    match s.streams[i]? with
    | some r =>
      if r.ended then s
      else
        { s.report i r (brokenStream now e r.execution) with
          dispatches := breakRequest r (brokenStream now e r.execution) s.dispatches }
    | none => s
  | .fallback i =>
    match s.streams[i]? with
    | some r =>
      match r.returned with
      | .fallback execution => { s with reports := s.reports ++ [(i, execution.toProto)] }
      | _ => s
    | none => s
  | .deliver k job processors =>
    match s.reports[k]? with
    | some (i, pbex) => s.deliver i (processors.1.run job pbex)
    | none => s
  | .mark now exec => { s with db := markStale now s.db exec }
  | .setJob clk pj => { s with db := (setJob env clk (newJobFromProto pj) true s.db).2 }
  | .deleteJob clk jobName => { s with db := (deleteJob env clk jobName s.db).2 }
  | .deleteExecutions jobName => { s with db := (deleteExecutions jobName s.db).2 }

end Executing

/-! ## The receive loop -/

/-- What a client does once it has opened the stream `i`: an event for each message, and the end. -/
def attemptEvents (i : ℕ) (a : Attempt) (now : Instant) (messages : List PbExecution) :
    List Executing.Event :=
  messages.map (fun _ =>
    .receive i (match a.setExecution with | .ok () => .stored | .error _ => .failed)) ++
  match a.ending with
  | .eof => [.eof i]
  | .error e => [.broken i now e]
  | .never => []

/-- What an event of an attempt does to the store. -/
def RunEvent.store (env : Env) (a : Attempt) (db : DB) : RunEvent → DB
  | .setExecution e =>
    match a.setExecution with
    | .ok () => (Store.setExecution env (newExecutionFromProto e) db).2
    | .error _ => db
  | _ => db

/-- What an event of an attempt reports. -/
def RunEvent.reported (i : ℕ) : RunEvent → Option (ℕ × PbExecution)
  | .executionDone execution => some (i, execution.toProto)
  | _ => none

namespace Executing

variable {env : Env} {s : Executing} {i : ℕ} {r : OpenStream} {a : Attempt} {now : Instant}

/-- An attempt that has returned does nothing. -/
theorem attemptEvents_of_ended (hi : s.streams[i]? = some r) (hended : r.ended = true)
    (messages : List PbExecution) :
    (attemptEvents i a now messages).foldl (step env) s = s := by
  refine Runs.run_eq_self fun e he => ?_
  rw [attemptEvents, List.mem_append, List.mem_map] at he
  rcases he with ⟨m, -, rfl⟩ | he
  · simp [step, hi, hended]
  · cases hending : a.ending with
    | eof =>
      rw [hending] at he
      cases List.mem_singleton.1 he
      simp [step, hi, hended]
    | error err =>
      rw [hending] at he
      cases List.mem_singleton.1 he
      simp [step, hi, hended]
    | never =>
      rw [hending] at he
      cases he

/-- **The receive loop.** A client that meets the messages of a stream and its end, with nothing in
between, does to the store what `recvLoop` does, and makes its report. -/
theorem attemptEvents_eq (hi : s.streams[i]? = some r) (hended : r.ended = false)
    {messages : List PbExecution} (hmessages : messages <+: r.inFlight) (hnow : a.now = now)
    (heof : a.ending = .eof → r.inFlight = messages ∧ r.returned = .nil) :
    let s' := (attemptEvents i a now messages).foldl (step env) s
    let events := (recvLoop a r.first r.execution messages).1
    s'.db = events.foldl (RunEvent.store env a) s.db ∧
      s'.reports = s.reports ++ events.filterMap (RunEvent.reported i) := by
  induction messages generalizing s r with
  | nil =>
    rw [attemptEvents, List.map_nil, List.nil_append]
    cases hending : a.ending with
    | eof =>
      obtain ⟨hflight, hreturned⟩ := heof hending
      cases hfirst : r.first <;>
        simp [recvLoop, hending, step, hi, hended, hflight, hreturned, report, RunEvent.store,
          RunEvent.reported]
    | error err =>
      cases hfirst : r.first <;>
        simp [recvLoop, hending, step, hi, hended, report, RunEvent.store, RunEvent.reported, hnow]
    | never => cases hfirst : r.first <;> simp [recvLoop, hending]
  | cons m messages ih =>
    obtain ⟨rest, hrest⟩ := hmessages
    rw [attemptEvents, List.map_cons, List.cons_append, List.foldl_cons, ← attemptEvents]
    have hstep (recording : Recording) : step env s (.receive i recording) =
        s.receive env i r m (messages ++ rest) recording := by
      simp [step, hi, hended, ← hrest]
    have hlt : i < s.streams.length := (List.getElem?_eq_some_iff.1 hi).1
    have hrest' : a.ending = .eof → messages ++ rest = messages ∧ r.returned = .nil := fun h => by
      have hflight := (heof h).1
      rw [← hrest, List.cons_append, List.cons.injEq] at hflight
      exact ⟨hflight.2, (heof h).2⟩
    rw [hstep]
    cases hfirst : r.first with
    | true =>
      have hih := ih (s := s.receive env i r m (messages ++ rest)
          (match a.setExecution with | .ok () => .stored | .error _ => .failed))
        (r := { r with execution := m, inFlight := messages ++ rest })
        (by simp [receive, hfirst, hlt]) hended (List.prefix_append _ _) hrest'
      simpa [recvLoop, receive, hfirst, RunEvent.store, RunEvent.reported, List.filterMap_cons]
        using hih
    | false =>
      cases hset : a.setExecution with
      | ok u =>
        have hih := ih (s := s.receive env i r m (messages ++ rest) .stored)
          (r := { r with
            execution := m, inFlight := messages ++ rest, first := true,
            recorded := some m.storeKey })
          (by simp [receive, hfirst, hlt]) hended (List.prefix_append _ _) hrest'
        simpa [recvLoop, receive, hfirst, hset, RunEvent.store, RunEvent.reported,
          List.filterMap_cons] using hih
      | error err =>
        rw [attemptEvents_of_ended (r := { r with
          execution := m, inFlight := messages ++ rest, ended := true })
          (by simp [receive, hfirst, hlt]) rfl]
        simp [recvLoop, receive, hfirst, hset, RunEvent.store, RunEvent.reported]

end Executing

/-! ## Single streams -/

/-- What the server has received of a stream, and what is known of the stream then. -/
structure OpenStream.Wf (r : OpenStream) : Prop where
  request : r.request.success = false
  jobName : r.job.name = r.request.jobName
  returned : r.returned = (r.agent.agentRun r.job r.request).2
  received : ∃ pre, pre ++ r.inFlight = (r.agent.agentRun r.job r.request).1 ∧
    r.execution = pre.getLast?.getD r.request ∧ (pre = [] → r.recorded = none)
  recorded : ∀ k, r.recorded = some k → k = (r.agent.started r.request).storeKey
  unrecorded : r.ended = false → r.first = false → r.recorded = none

/-- The report is one of the stream: it says when the execution has finished, a success is the
executor's, and it is about the execution of the first message, unless that was never recorded. -/
structure OpenStream.Reports (r : OpenStream) (e : PbExecution) : Prop where
  finished : zeroTime < asTime e.finishedAt
  success : e.success = true → r.agent.Succeeds r.job ∧ e = r.agent.finished r.job r.request
  storeKey : e.storeKey = (r.agent.started r.request).storeKey ∨
    r.ended = true ∧ r.recorded = none

/-- The same stream, and if it has ended without a record before, it still has. -/
structure OpenStream.Later (r r' : OpenStream) : Prop where
  job : r'.job = r.job
  request : r'.request = r.request
  agent : r'.agent = r.agent
  ended : r.ended = true → r.recorded = none → r'.ended = true ∧ r'.recorded = none

namespace OpenStream

variable {r r' : OpenStream} {e : PbExecution}

theorem Later.refl (r : OpenStream) : r.Later r := ⟨rfl, rfl, rfl, fun h h' => ⟨h, h'⟩⟩

theorem Reports.later (h : r.Reports e) (hlater : r.Later r') : r'.Reports e where
  finished := h.finished
  success := by
    rw [hlater.agent, hlater.job, hlater.request]
    exact h.success
  storeKey := by
    rw [hlater.agent, hlater.request]
    exact h.storeKey.imp_right fun hended => hlater.ended hended.1 hended.2

theorem mem_messages {m : PbExecution} {pre : List PbExecution}
    (hpre : pre ++ r.inFlight = (r.agent.agentRun r.job r.request).1)
    (hm : m ∈ pre ++ r.inFlight) : m ∈ r.agent.messages r.job r.request := by
  rw [hpre] at hm
  exact (r.agent.agentRun_fst_prefix r.job r.request).subset hm

/-- A message with a success is the last one, of an executor that has succeeded. -/
theorem Wf.success_of_mem (h : r.Wf) (he : e ∈ r.agent.messages r.job r.request)
    (hsuccess : e.success = true) :
    r.agent.Succeeds r.job ∧ e = r.agent.finished r.job r.request := by
  rcases r.agent.mem_messages r.job r.request he with rfl | ⟨output, rfl⟩
  · exact ⟨(r.agent.succeeds_iff r.job).2 hsuccess, rfl⟩
  · rw [show ({ r.agent.started r.request with output := output } : PbExecution).success = false
      from h.request] at hsuccess
    cases hsuccess

/-- The server's execution is that of the request until there is a message. -/
theorem Wf.execution (h : r.Wf) :
    r.execution = r.request ∧ r.recorded = none ∨
      r.execution ∈ r.agent.messages r.job r.request := by
  obtain ⟨pre, hpre, hexecution, hnone⟩ := h.received
  rcases List.eq_nil_or_concat pre with rfl | ⟨pre, m, rfl⟩
  · exact .inl ⟨hexecution, hnone rfl⟩
  · rw [List.concat_eq_append] at hpre hexecution
    rw [List.getLast?_append_of_ne_nil _ (List.cons_ne_nil m []), List.getLast?_singleton,
      Option.getD_some] at hexecution
    refine .inr (mem_messages hpre ?_)
    rw [hexecution]
    simp

/-- At the end of a stream the server has the last message. -/
theorem Wf.execution_of_nil (h : r.Wf) (hnil : r.inFlight = []) (hreturned : r.returned = .nil) :
    r.execution = r.agent.finished r.job r.request := by
  obtain ⟨pre, hpre, hexecution, -⟩ := h.received
  rw [hnil, List.append_nil,
    r.agent.agentRun_fst_of_nil r.job r.request (h.returned.symm.trans hreturned)] at hpre
  rw [hexecution, hpre, r.agent.getLast?_messages r.job r.request, Option.getD_some]

/-- The report of a stream that ends. -/
theorem Wf.reports_eof (h : r.Wf) (hnil : r.inFlight = []) (hreturned : r.returned = .nil) :
    ({ r with ended := true } : OpenStream).Reports
      (newExecutionFromProto r.execution).toProto := by
  rw [h.execution_of_nil hnil hreturned, r.agent.toProto_finished r.job r.request]
  exact {
    finished := r.agent.finishedAt.2
    success := fun hsuccess => ⟨(r.agent.succeeds_iff r.job).2 hsuccess, rfl⟩
    storeKey := .inl (r.agent.storeKey_finished r.job r.request) }

/-- The report of a stream that breaks. -/
theorem Wf.reports_broken (h : r.Wf) (now : Instant) (err : CallError) :
    ({ r with ended := true } : OpenStream).Reports
      (newExecutionFromProto (brokenStream now.1 err r.execution)).toProto where
  finished := now.2
  success hsuccess := by cases hsuccess
  storeKey := by
    rw [storeKey_toProto, show (brokenStream now.1 err r.execution).storeKey = r.execution.storeKey
      from rfl]
    rcases h.execution with ⟨-, hnone⟩ | hmem
    · exact .inr ⟨rfl, hnone⟩
    · exact .inl (r.agent.storeKey_of_mem_messages r.job r.request hmem)

/-- The report of an agent that could not send its last message. -/
theorem Wf.reports_fallback (h : r.Wf) {ex : Execution} (hreturned : r.returned = .fallback ex) :
    r.Reports ex.toProto := by
  rw [r.agent.agentRun_snd_of_fallback r.job r.request (h.returned.symm.trans hreturned)]
  exact {
    finished := r.agent.finishedAt.2
    success := fun hsuccess => ⟨(r.agent.succeeds_iff r.job).2 hsuccess, rfl⟩
    storeKey := .inl (r.agent.storeKey_finished r.job r.request) }

/-- A stream that a server has just opened. -/
theorem Wf.called (k : ℕ) {job : PbJob} {agent : AgentServer} {execution : PbExecution}
    (hsuccess : execution.success = false) (hname : job.name = execution.jobName) :
    ({ dispatch := k, job, request := execution, agent, execution,
       inFlight := (agent.agentRun job execution).1,
       returned := (agent.agentRun job execution).2 } : OpenStream).Wf where
  request := hsuccess
  jobName := hname
  returned := rfl
  received := ⟨[], rfl, rfl, fun _ => rfl⟩
  recorded k h := by cases h
  unrecorded _ _ := rfl

/-- A message more, and perhaps its record. -/
theorem Wf.receive (h : r.Wf) {ars : PbExecution} {rest : List PbExecution}
    (hflight : r.inFlight = ars :: rest) {first ended : Bool}
    (hfirst : ended = false → first = true) {recorded : Option String}
    (hrecorded : recorded = r.recorded ∨ recorded = some ars.storeKey) :
    ({ r with execution := ars, inFlight := rest, first, ended, recorded } : OpenStream).Wf where
  request := h.request
  jobName := h.jobName
  returned := h.returned
  received := by
    obtain ⟨pre, hpre, -, -⟩ := h.received
    rw [hflight] at hpre
    refine ⟨pre ++ [ars], by simpa using hpre, by simp, fun hnil => by simp at hnil⟩
  recorded k hk := by
    obtain ⟨pre, hpre, -, -⟩ := h.received
    rcases hrecorded with rfl | rfl
    · exact h.recorded k hk
    · cases hk
      refine r.agent.storeKey_of_mem_messages r.job r.request (mem_messages hpre ?_)
      rw [hflight]
      simp
  unrecorded hended hnot := by
    rw [hfirst hended] at hnot
    cases hnot

/-- A stream of which a report is applied. -/
theorem Wf.reported (h : r.Wf) : ({ r with recorded := none } : OpenStream).Wf where
  request := h.request
  jobName := h.jobName
  returned := h.returned
  received := by
    obtain ⟨pre, hpre, hexecution, -⟩ := h.received
    exact ⟨pre, hpre, hexecution, fun _ => rfl⟩
  recorded k hk := by cases hk
  unrecorded _ _ := rfl

end OpenStream

/-! ## Reports that are applied -/

section

variable {db db' : DB} {new e : PbExecution}

theorem mem_executions_of_addsOnly (h : AddsOnly new db db') (he : e ∈ db'.executions) :
    e ∈ db.executions ∨ e = new :=
  (h e.storeKey e (DB.mem_executions.1 he)).imp_left DB.mem_executions.2

/-- The executions of a content to which nothing is added. -/
theorem mem_executions_of_addsNone (h : ∀ new, AddsOnly new db db') (he : e ∈ db'.executions) :
    e ∈ db.executions :=
  DB.mem_executions.2 (get_of_addsOnly h (DB.mem_executions.1 he))

/-- After a report the execution of its key is not running, and all others that are running were
before. -/
theorem running_setExecutionDone {ex : Execution} {counted : Bool}
    (h : setExecutionDone ex db = (.ok counted, db')) (hfinished : zeroTime < ex.finishedAt)
    (he : e ∈ db'.executions) (hrunning : e.Running) :
    e ∈ db.executions ∧ ex.toProto.storeKey ≠ e.storeKey := by
  have hjob : db.job? ex.jobName ≠ none := fun hnone => by
    rw [setExecutionDone_eq, hnone] at h
    cases h
  by_cases hlate : ∀ q, db.execution? ex.jobName ex.key = some q →
      ¬ex.finishedAt < asTime q.finishedAt
  · have hmem := mem_executions_setExecutionDone (e := e) hjob hlate
    rw [h] at hmem
    refine (hmem.1 he).resolve_left fun heq => ?_
    rw [heq] at hrunning
    exact ne_of_gt hfinished hrunning.2
  · -- The stored execution is newer and stays.
    push Not at hlate
    obtain ⟨q, hq, hlt⟩ := hlate
    obtain ⟨p, hp⟩ := Option.ne_none_iff_exists'.1 hjob
    have hsame : db' = db := by
      rw [setExecutionDone_eq, hp] at h
      simp only [hq, Option.any_some, hlt, decide_true, if_true, Prod.mk.injEq] at h
      exact h.2.symm
    rw [hsame] at he
    refine ⟨he, fun hkey => ?_⟩
    have hget := DB.mem_executions.1 he
    rw [← hkey] at hget
    have heq : q = e := Option.some.inj (hq.symm.trans (DB.execution?_eq_some.2 hget))
    rw [← heq] at hrunning
    exact absurd hrunning.2 (ne_of_gt (hfinished.trans hlt))

/-- Processors change the output only. -/
theorem OutputProcessors.run_eq (processors : OutputProcessors) (job : Job) (pbex : PbExecution) :
    ∃ output, processors.1.run job pbex = { pbex with output := output } := by
  rw [ProcessorPlugins.run]
  induction job.processors generalizing pbex with
  | nil => exact ⟨pbex.output, rfl⟩
  | cons kv kvs ih =>
    rw [List.foldl_cons]
    cases hplugin : processors.1.process kv.1 with
    | none =>
      simp only [hplugin]
      exact ih pbex
    | some processor =>
      obtain ⟨output, heq⟩ :=
        processors.2 kv.1 processor hplugin pbex (kv.2.set "reporting_node" processors.1.nodeName)
      obtain ⟨output', heq'⟩ :=
        ih (processor pbex (kv.2.set "reporting_node" processors.1.nodeName))
      refine ⟨output', ?_⟩
      simp only [hplugin]
      rw [heq', heq]

end

namespace Executing

/-! ## What is stored -/

/-- The execution is the last message of a stream with an executor that has succeeded, but for what
processors make of its output. -/
def Succeeded (streams : List OpenStream) (e : PbExecution) : Prop :=
  ∃ r ∈ streams, r.agent.Succeeds r.job ∧ r.job.name = e.jobName ∧
    ∃ job, ∃ processors : OutputProcessors,
      e = processors.1.run job (r.agent.finished r.job r.request)

/-- The execution is the one of a stream that was recorded and not reported since. -/
def Recorded (streams : List OpenStream) (e : PbExecution) : Prop :=
  ∃ r ∈ streams, r.recorded = some e.storeKey

/-- What is known in every state. -/
structure Traced (env : Env) (s : Executing) : Prop where
  sound : Sound env s.db
  dispatches : ∀ d ∈ s.dispatches, d.execution.success = false
  streams : ∀ r ∈ s.streams, r.Wf
  reports : ∀ i e, (i, e) ∈ s.reports → ∃ r, s.streams[i]? = some r ∧ r.Reports e
  success : ∀ e ∈ s.db.executions, e.success = true → Succeeded s.streams e
  running : ∀ e ∈ s.db.executions, e.Running → Recorded s.streams e

/-- Every stream is still there. -/
def Continues (streams streams' : List OpenStream) : Prop :=
  ∀ (i : ℕ) (r : OpenStream), streams[i]? = some r → ∃ r', streams'[i]? = some r' ∧ r.Later r'

theorem Continues.set {streams : List OpenStream} {i : ℕ} {r r' : OpenStream}
    (hi : streams[i]? = some r) (h : r.Later r') : Continues streams (streams.set i r') := by
  intro j q hj
  rw [List.getElem?_set]
  split_ifs with hij hlt
  · rw [← hij, hi] at hj
    exact ⟨r', rfl, Option.some.inj hj ▸ h⟩
  · exact absurd (List.getElem?_eq_some_iff.1 hi).1 hlt
  · exact ⟨q, hj, .refl q⟩

theorem Continues.append (streams more : List OpenStream) :
    Continues streams (streams ++ more) := fun i r hi =>
  ⟨r, by rw [List.getElem?_append_left (List.getElem?_eq_some_iff.1 hi).1, hi], .refl r⟩

theorem Continues.reported (streams : List OpenStream) (i : ℕ) :
    Continues streams (streams.modify i fun r => { r with recorded := none }) := by
  intro j r hj
  rw [List.getElem?_modify, hj]
  split_ifs
  · exact ⟨_, rfl, rfl, rfl, rfl, fun hended _ => ⟨hended, rfl⟩⟩
  · exact ⟨r, rfl, .refl r⟩

theorem Succeeded.continues {streams streams' : List OpenStream} {e : PbExecution}
    (h : Succeeded streams e) (hstreams : Continues streams streams') : Succeeded streams' e := by
  obtain ⟨r, hr, hsucceeds, hname, heq⟩ := h
  obtain ⟨i, hi⟩ := List.mem_iff_getElem?.1 hr
  obtain ⟨r', hi', hlater⟩ := hstreams i r hi
  refine ⟨r', List.mem_of_getElem? hi', ?_⟩
  rw [hlater.agent, hlater.job, hlater.request]
  exact ⟨hsucceeds, hname, heq⟩

theorem Recorded.set {streams : List OpenStream} {i : ℕ} {r r' : OpenStream} {e : PbExecution}
    (h : Recorded streams e) (hi : streams[i]? = some r)
    (hrecorded : r.recorded = none ∨ r'.recorded = r.recorded) :
    Recorded (streams.set i r') e := by
  obtain ⟨q, hq, hkey⟩ := h
  obtain ⟨j, hj⟩ := List.mem_iff_getElem?.1 hq
  by_cases hij : i = j
  · subst hij
    rw [hi] at hj
    cases hj
    refine ⟨r', List.mem_set (List.getElem?_eq_some_iff.1 hi).1 _, ?_⟩
    rcases hrecorded with hnone | heq
    · rw [hnone] at hkey
      cases hkey
    · rw [heq, hkey]
  · refine ⟨q, List.mem_of_getElem? (i := j) ?_, hkey⟩
    rw [List.getElem?_set_ne hij, hj]

section

variable {env : Env} {s : Executing}

/-- A command that adds no execution. -/
theorem Traced.of_addsOnly (h : Traced env s) {db : DB} (hsound : Sound env db)
    (hadds : ∀ new, AddsOnly new s.db db) : Traced env { s with db := db } where
  sound := hsound
  dispatches := h.dispatches
  streams := h.streams
  reports := h.reports
  success e he := h.success e (mem_executions_of_addsNone hadds he)
  running e he := h.running e (mem_executions_of_addsNone hadds he)

theorem Traced.send (h : Traced env s) {ds : List Dispatch}
    (hds : ∀ d ∈ ds, d.execution.success = false) : Traced env (s.send ds) where
  sound := h.sound
  dispatches := List.forall_mem_append.2 ⟨h.dispatches, hds⟩
  streams := h.streams
  reports := h.reports
  success := h.success
  running := h.running

theorem Traced.call (h : Traced env s) (k : ℕ) {job : PbJob} (agent : AgentServer)
    {execution : PbExecution} (hsuccess : execution.success = false)
    (hname : job.name = execution.jobName) : Traced env (s.call k job agent execution) where
  sound := h.sound
  dispatches := h.dispatches
  streams := List.forall_mem_append.2
    ⟨h.streams, List.forall_mem_singleton.2 (.called k hsuccess hname)⟩
  reports i e he := by
    obtain ⟨r, hi, hr⟩ := h.reports i e he
    obtain ⟨r', hi', hlater⟩ := Continues.append s.streams _ i r hi
    exact ⟨r', hi', hr.later hlater⟩
  success e he hs := (h.success e he hs).continues (.append _ _)
  running e he hrunning := by
    obtain ⟨r, hr, hkey⟩ := h.running e he hrunning
    exact ⟨r, List.mem_append_left _ hr, hkey⟩

/-- A stream that goes on, with nothing stored. -/
theorem Traced.set (h : Traced env s) {i : ℕ} {r r' : OpenStream} (hi : s.streams[i]? = some r)
    (hwf : r'.Wf) (hlater : r.Later r') (hrecorded : r'.recorded = r.recorded) :
    Traced env { s with streams := s.streams.set i r' } where
  sound := h.sound
  dispatches := h.dispatches
  streams q hq := (List.mem_or_eq_of_mem_set hq).elim (h.streams q) fun heq => heq ▸ hwf
  reports j e he := by
    obtain ⟨q, hj, hq⟩ := h.reports j e he
    obtain ⟨q', hj', hqlater⟩ := Continues.set hi hlater j q hj
    exact ⟨q', hj', hq.later hqlater⟩
  success e he hs := (h.success e he hs).continues (.set hi hlater)
  running e he hrunning := (h.running e he hrunning).set hi (.inr hrecorded)

/-- The first message of a stream is stored. -/
theorem Traced.record (h : Traced env s) {i : ℕ} {r : OpenStream} (hi : s.streams[i]? = some r)
    (hended : r.ended = false) (hfirst : r.recorded = none) {ars : PbExecution}
    {rest : List PbExecution} (hflight : r.inFlight = ars :: rest) {first ended : Bool}
    (hgoes : ended = false → first = true) :
    Traced env { s with
      db := (setExecution env (newExecutionFromProto ars) s.db).2
      streams := s.streams.set i { r with
        execution := ars, inFlight := rest, first, ended, recorded := some ars.storeKey } } := by
  have hr : r.Wf := h.streams r (List.mem_of_getElem? hi)
  have hlater : r.Later { r with
      execution := ars, inFlight := rest, first, ended, recorded := some ars.storeKey } :=
    ⟨rfl, rfl, rfl, fun hr => by rw [hended] at hr; cases hr⟩
  have hadds := AddsOnly.setExecution env (newExecutionFromProto ars) s.db
  have hmem : ars ∈ r.agent.messages r.job r.request := by
    obtain ⟨pre, hpre, -, -⟩ := hr.received
    exact OpenStream.mem_messages hpre (by rw [hflight]; simp)
  exact {
    sound := h.sound.setExecution _
    dispatches := h.dispatches
    streams := fun q hq => (List.mem_or_eq_of_mem_set hq).elim (h.streams q) fun heq =>
      heq ▸ hr.receive hflight hgoes (.inr rfl)
    reports := fun j e he => by
      obtain ⟨q, hj, hq⟩ := h.reports j e he
      obtain ⟨q', hj', hqlater⟩ := Continues.set hi hlater j q hj
      exact ⟨q', hj', hq.later hqlater⟩
    success := fun e he hs => by
      rcases mem_executions_of_addsOnly hadds he with hold | rfl
      · exact (h.success e hold hs).continues (.set hi hlater)
      · obtain ⟨hsucceeds, heq⟩ := hr.success_of_mem hmem hs
        rw [heq, r.agent.toProto_finished r.job r.request]
        exact ⟨_, List.mem_set (List.getElem?_eq_some_iff.1 hi).1 _, hsucceeds, hr.jobName,
          newJobFromProto {}, .none, rfl⟩
    running := fun e he hrunning => by
      rcases mem_executions_of_addsOnly hadds he with hold | rfl
      · exact (h.running e hold hrunning).set hi (.inl hfirst)
      · refine ⟨_, List.mem_set (List.getElem?_eq_some_iff.1 hi).1 _, ?_⟩
        rw [storeKey_toProto] }

/-- A message that is not the first, or that could not be stored. -/
theorem Traced.skip (h : Traced env s) {i : ℕ} {r : OpenStream} (hi : s.streams[i]? = some r)
    (hended : r.ended = false) {ars : PbExecution} {rest : List PbExecution}
    (hflight : r.inFlight = ars :: rest) {ended : Bool} (hgoes : ended = false → r.first = true) :
    Traced env { s with
      streams := s.streams.set i { r with execution := ars, inFlight := rest, ended } } := by
  have hr : r.Wf := h.streams r (List.mem_of_getElem? hi)
  exact h.set hi (hr.receive hflight hgoes (.inl rfl))
    ⟨rfl, rfl, rfl, fun hr => by rw [hended] at hr; cases hr⟩ rfl

theorem Traced.receive (h : Traced env s) {i : ℕ} {r : OpenStream}
    (hi : s.streams[i]? = some r) (hended : r.ended = false) {ars : PbExecution}
    {rest : List PbExecution} (hflight : r.inFlight = ars :: rest) (recording : Recording) :
    Traced env (s.receive env i r ars rest recording) := by
  unfold Executing.receive
  simp only
  split_ifs with hfirst
  · exact h.skip hi hended hflight fun _ => hfirst
  · have hnone : r.recorded = none :=
      (h.streams r (List.mem_of_getElem? hi)).unrecorded hended (Bool.eq_false_iff.2 hfirst)
    cases recording with
    | stored => exact h.record hi hended hnone hflight fun _ => rfl
    | lost => exact h.record hi hended hnone hflight fun hgoes => by cases hgoes
    | failed => exact h.skip hi hended hflight fun hgoes => by cases hgoes

/-- The attempt of a stream returns with a report. -/
theorem Traced.report (h : Traced env s) {i : ℕ} {r : OpenStream} (hi : s.streams[i]? = some r)
    (hended : r.ended = false) {execution : PbExecution}
    (hreports : ({ r with ended := true } : OpenStream).Reports
      (newExecutionFromProto execution).toProto) : Traced env (s.report i r execution) := by
  have hr : r.Wf := h.streams r (List.mem_of_getElem? hi)
  have hset : Traced env { s with streams := s.streams.set i { r with ended := true } } := h.set hi
    ⟨hr.request, hr.jobName, hr.returned, hr.received, hr.recorded, fun h => by cases h⟩
    ⟨rfl, rfl, rfl, fun hr => by rw [hended] at hr; cases hr⟩ rfl
  exact { hset with
    reports := fun j e he => by
      rcases List.mem_append.1 he with hold | hnew
      · exact hset.reports j e hold
      · cases List.mem_singleton.1 hnew
        refine ⟨_, ?_, hreports⟩
        exact List.getElem?_set_self (List.getElem?_eq_some_iff.1 hi).1 }

/-- The report of a stream is applied. -/
theorem Traced.deliver (h : Traced env s) {i : ℕ} {pbex : PbExecution}
    (hreport : (i, pbex) ∈ s.reports) (job : Job) (processors : OutputProcessors) :
    Traced env (s.deliver i (processors.1.run job pbex)) := by
  obtain ⟨r, hi, hr⟩ := h.reports i pbex hreport
  obtain ⟨output, hrun⟩ := processors.run_eq job pbex
  have hadds := AddsOnly.setExecutionDone (newExecutionFromProto (processors.1.run job pbex)) s.db
  have hsound := h.sound.setExecutionDone (newExecutionFromProto (processors.1.run job pbex))
  rw [Executing.deliver]
  rcases heq : setExecutionDone (newExecutionFromProto (processors.1.run job pbex)) s.db with
    ⟨_ | counted, db⟩
  · rw [setExecutionDone_error heq]
    exact h
  · rw [heq] at hadds hsound
    have hlater : Continues s.streams (s.streams.modify i fun r => { r with recorded := none }) :=
      .reported s.streams i
    exact {
      sound := hsound
      dispatches := h.dispatches
      streams := fun q hq => by
        obtain ⟨j, hj⟩ := List.mem_iff_getElem?.1 hq
        rw [List.getElem?_modify, Option.map_eq_map, Option.map_eq_some_iff] at hj
        obtain ⟨q, hj, rfl⟩ := hj
        have hwf : q.Wf := h.streams q (List.mem_of_getElem? hj)
        split_ifs
        · exact hwf.reported
        · exact hwf
      reports := fun j e he => by
        obtain ⟨q, hj, hq⟩ := h.reports j e he
        obtain ⟨q', hj', hqlater⟩ := hlater j q hj
        exact ⟨q', hj', hq.later hqlater⟩
      success := fun e he hs => by
        rcases mem_executions_of_addsOnly hadds he with hold | rfl
        · exact (h.success e hold hs).continues hlater
        · -- The report is the last message of the stream, with the output that processors write.
          rw [hrun] at hs
          obtain ⟨hsucceeds, hfinished⟩ := hr.success hs
          obtain ⟨r', hi', hrlater⟩ := hlater i r hi
          refine ⟨r', List.mem_of_getElem? hi', ?_⟩
          rw [hrlater.agent, hrlater.job, hrlater.request]
          refine ⟨hsucceeds, ?_, job, processors, ?_⟩
          · rw [hrun, hfinished]
            exact (h.streams r (List.mem_of_getElem? hi)).jobName
          · rw [toProto_newExecutionFromProto, ← hfinished, hrun, hfinished]
            rfl
      running := fun e he hrunning => by
        have hfinished : zeroTime <
            (newExecutionFromProto (processors.1.run job pbex)).finishedAt := by
          rw [hrun]
          exact hr.finished
        obtain ⟨hold, hkey⟩ := running_setExecutionDone heq hfinished he hrunning
        rw [storeKey_toProto, hrun] at hkey
        obtain ⟨q, hq, hrecorded⟩ := h.running e hold hrunning
        obtain ⟨j, hj⟩ := List.mem_iff_getElem?.1 hq
        have hij : i ≠ j := fun hij => by
          subst hij
          rw [hi] at hj
          cases hj
          rcases hr.storeKey with hown | hnone
          · have hwf := h.streams r hq
            exact hkey (hown.trans (hwf.recorded _ hrecorded).symm)
          · rw [hnone.2] at hrecorded
            cases hrecorded
        refine ⟨q, List.mem_of_getElem? (i := j) ?_, hrecorded⟩
        rw [List.getElem?_modify_ne _ _ hij, hj] }

/-- An execution is marked as failed. -/
theorem Traced.mark (h : Traced env s) (now : Instant) (exec : Execution) :
    Traced env { s with db := markStale now s.db exec } := by
  have hstep : markStale now s.db exec =
      (setExecutionDone (newExecutionFromProto (staleExecution now exec).toProto) s.db).2 :=
    Fsm.step_executionDone env s.db Clock.epoch (staleExecution now exec).toProto
  have hadds := AddsOnly.setExecutionDone
    (newExecutionFromProto (staleExecution now exec).toProto) s.db
  have hsound := h.sound.setExecutionDone
    (newExecutionFromProto (staleExecution now exec).toProto)
  rw [hstep]
  rcases heq : setExecutionDone (newExecutionFromProto (staleExecution now exec).toProto) s.db with
    ⟨_ | counted, db⟩
  · rw [setExecutionDone_error heq]
    exact h
  · rw [heq] at hadds hsound
    exact {
      sound := hsound
      dispatches := h.dispatches
      streams := h.streams
      reports := h.reports
      success := fun e he hs => by
        rcases mem_executions_of_addsOnly hadds he with hold | rfl
        · exact h.success e hold hs
        · cases hs
      running := fun e he hrunning =>
        h.running e (running_setExecutionDone heq now.2 he hrunning).1 hrunning }

theorem Traced.step (h : Traced env s) (e : Event) : Traced env (s.step env e) := by
  cases e with
  | run jobName group cluster =>
    apply h.send
    intro d hd
    rw [(Cluster.mem_run.1 hd).2]
    rfl
  | retry k job cluster =>
    rw [Executing.step]
    cases s.reports[k]? with
    | none => exact h
    | some report =>
      simp only
      cases hnext : retryExecution job (newExecutionFromProto report.2) with
      | none => exact h
      | some next =>
        obtain ⟨hfailed, -, rfl⟩ := retryExecution_eq_some.1 hnext
        apply h.send
        intro d hd
        rw [(Cluster.mem_run.1 hd).2]
        exact hfailed
  | call k job agent =>
    rw [Executing.step]
    cases hd : s.dispatches[k]? with
    | none => exact h
    | some d =>
      simp only
      split_ifs with hname
      · exact h.call k agent (h.dispatches d (List.mem_of_getElem? hd)) hname
      · exact h
  | receive i recording =>
    rw [Executing.step]
    cases hi : s.streams[i]? with
    | none => exact h
    | some r =>
      simp only
      split
      next hended hflight => exact h.receive hi hended hflight recording
      next => exact h
  | eof i =>
    rw [Executing.step]
    cases hi : s.streams[i]? with
    | none => exact h
    | some r =>
      simp only
      split
      next hended hflight hreturned =>
        have hr : r.Wf := h.streams r (List.mem_of_getElem? hi)
        exact h.report hi hended (hr.reports_eof hflight hreturned)
      next => exact h
  | broken i now err =>
    rw [Executing.step]
    cases hi : s.streams[i]? with
    | none => exact h
    | some r =>
      simp only
      split_ifs with hended
      · exact h
      · have hr : r.Wf := h.streams r (List.mem_of_getElem? hi)
        have hreport := h.report hi (Bool.eq_false_iff.2 hended) (hr.reports_broken now err)
        exact { hreport with
          dispatches := fun d hd => by
            rw [breakRequest] at hd
            split_ifs at hd
            · exact h.dispatches d hd
            · obtain ⟨j, hj⟩ := List.mem_iff_getElem?.1 hd
              rw [List.getElem?_modify, Option.map_eq_map, Option.map_eq_some_iff] at hj
              obtain ⟨d', hd', rfl⟩ := hj
              split_ifs
              · rfl
              · exact h.dispatches d' (List.mem_of_getElem? hd') }
  | fallback i =>
    rw [Executing.step]
    cases hi : s.streams[i]? with
    | none => exact h
    | some r =>
      simp only
      split
      next ex hreturned =>
        have hr : r.Wf := h.streams r (List.mem_of_getElem? hi)
        exact { h with
          reports := fun j e he => by
            rcases List.mem_append.1 he with hold | hnew
            · exact h.reports j e hold
            · cases List.mem_singleton.1 hnew
              exact ⟨r, hi, hr.reports_fallback hreturned⟩ }
      next => exact h
  | deliver k job processors =>
    rw [Executing.step]
    cases hk : s.reports[k]? with
    | none => exact h
    | some report => exact h.deliver (List.mem_of_getElem? hk) job processors
  | mark now exec => exact h.mark now exec
  | setJob clk pj =>
    exact h.of_addsOnly (h.sound.setJob _) (AddsOnly.setJob h.sound.toStorable clk _)
  | deleteJob clk jobName =>
    exact h.of_addsOnly (h.sound.deleteJob _) (AddsOnly.deleteJob h.sound clk)
  | deleteExecutions jobName =>
    exact h.of_addsOnly (h.sound.deleteExecutions _) fun new =>
      AddsOnly.deleteExecutions new s.db jobName

theorem Traced.new (env : Env) : Traced env {} where
  sound := .empty env
  dispatches d hd := by cases hd
  streams r hr := by cases hr
  reports i e he := by cases he
  success e he := by cases he
  running e he := by cases he

end

/-- **A stored success is the success of an executor.** However runs, streams, reports and commands
interleave, every execution that is stored as successful is the last message of an agent whose
executor ran the job of that name and returned without an error, with the node, the group, the
attempt and the times of that run; only the output is what processors made of the executor's. -/
theorem success_of_executor (env : Env) (events : List Event) :
    let s := events.foldl (step env) {}
    ∀ e ∈ s.db.executions, e.success = true →
      ∃ r ∈ s.streams, r.agent.Succeeds r.job ∧ r.job.name = e.jobName ∧
        ∃ job, ∃ processors : OutputProcessors,
          e = processors.1.run job (r.agent.finished r.job r.request) :=
  (Runs.invariant_run (fun _ e h => h.step e) (Traced.new env) events).success

/-- **A running execution has an open end.** In every such run, a stored execution that is running
is the one of a stream that was recorded, and of which no report was applied since. Once a report of
every recorded stream is applied, no job has a running execution. -/
theorem running_of_stream (env : Env) (events : List Event) :
    let s := events.foldl (step env) {}
    (∀ e ∈ s.db.executions, e.Running → ∃ r ∈ s.streams, r.recorded = some e.storeKey) ∧
      ((∀ r ∈ s.streams, r.recorded = none) →
        ∀ jobName, getRunningExecutions jobName s.db = .ok []) := by
  intro s
  have h : Traced env s := Runs.invariant_run (fun _ e h => h.step e) (Traced.new env) events
  refine ⟨h.running, fun hnone jobName => ?_⟩
  rw [getRunningExecutions_eq, Except.ok.injEq, List.map_eq_nil_iff, List.filter_eq_nil_iff]
  intro e he hrunning
  obtain ⟨r, hr, hrecorded⟩ := h.running e he (of_decide_eq_true hrunning).1
  rw [hnone r hr] at hrecorded
  cases hrecorded

end Executing

end Dkron
