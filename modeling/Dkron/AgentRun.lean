import Dkron.Execution
import Dkron.GoStrings

/-!
# Dispatching to an agent

`GRPCClient.AgentRun` sends one execution to one node. The agent starts the executor when its
stream is opened and reports on the stream; the client reports the first message and the end to
the leader. Errors of all these calls come back as one value, and the retry loop looks at that
value only. When the stream breaks the loop is kept from dispatching again, as a comment there
says; but the leader's errors on the two reports are returned as they are.

What the other side does is a script: the outcomes of the calls, one `Attempt` for each attempt.
`agentRun_single_dispatch_iff` says for which scripts the executor is started twice.
-/

namespace Dkron

/-! ## Errors of calls -/

/-- `codes.Code`. -/
inductive Code where
  | ok | canceled | unknown | invalidArgument | deadlineExceeded | notFound | alreadyExists
  | permissionDenied | resourceExhausted | failedPrecondition | aborted | outOfRange
  | unimplemented | internal | unavailable | dataLoss | unauthenticated
  | unregistered (n : Nat)
deriving DecidableEq, Repr

/-- `Code.String`. -/
def Code.string : Code → String
  | .ok => "OK"
  | .canceled => "Canceled"
  | .unknown => "Unknown"
  | .invalidArgument => "InvalidArgument"
  | .deadlineExceeded => "DeadlineExceeded"
  | .notFound => "NotFound"
  | .alreadyExists => "AlreadyExists"
  | .permissionDenied => "PermissionDenied"
  | .resourceExhausted => "ResourceExhausted"
  | .failedPrecondition => "FailedPrecondition"
  | .aborted => "Aborted"
  | .outOfRange => "OutOfRange"
  | .unimplemented => "Unimplemented"
  | .internal => "Internal"
  | .unavailable => "Unavailable"
  | .dataLoss => "DataLoss"
  | .unauthenticated => "Unauthenticated"
  | .unregistered n => "Code(" ++ Nat.repr n ++ ")"

/-- An error of a call. -/
inductive CallError where
  /-- An error that carries a gRPC status. -/
  | status (code : Code) (desc : String)
  | other (text : String)
deriving DecidableEq, Repr

/-- The text of the error. -/
def CallError.error : CallError → String
  | .status code desc => "rpc error: code = " ++ code.string ++ " desc = " ++ desc
  | .other text => text

/-- The outcome of a call without a result. -/
abbrev Outcome := Except CallError Unit

def errNotLeader : String :=
  "grpc: Error, server is not leader, this operation should be run on the leader"

def errBrokenStream : String :=
  "grpc: Error on execution streaming, agent connection was abruptly terminated"

/-- `isRetryableError`. -/
def isRetryableError : CallError → Bool
  | .status code _ =>
    code = .unavailable ∨ code = .deadlineExceeded ∨ code = .resourceExhausted ∨ code = .aborted ∨
      code = .internal
  | .other text =>
    containsText text "transport is closing" ∨ containsText text "connection refused" ∨
      containsText text "connection reset" ∨ containsText text "broken pipe" ∨
      containsText text "context deadline exceeded"

/-! ## One attempt -/

/-- How a stream ends. -/
inductive Ending where
  | eof
  | error (e : CallError)
  | never
deriving DecidableEq, Repr

/-- What the other side answers in one attempt. -/
structure Attempt where
  connect : Outcome := .ok ()
  /-- The call that opens the stream. -/
  stream : Outcome := .ok ()
  /-- The executions received on the stream. -/
  messages : List PbExecution := []
  ending : Ending := .eof
  /-- `SetExecution` on the leader. -/
  setExecution : Outcome := .ok ()
  /-- `ExecutionDone` on the leader, the connection to it included. -/
  executionDone : Outcome := .ok ()
  now : Time := 0

/-- What the client does. -/
inductive RunEvent where
  | backoff (d : Int)
  | opened (execution : PbExecution)
  | received (execution : PbExecution)
  | setExecution (execution : PbExecution)
  | executionDone (execution : Execution)
deriving DecidableEq, Repr

/-- `GRPCClient.ExecutionDone`: a server that forwards the report to the leader answers with an
error that is none. -/
def clientExecutionDone (rpc : Outcome) : Outcome :=
  match rpc with
  | .ok () => .ok ()
  | .error e =>
    if e.error = "rpc error: code = Unknown desc = " ++ errNotLeader then .ok () else .error e

/-- The execution reported when the stream breaks. -/
def brokenStream (now : Time) (e : CallError) (execution : PbExecution) : PbExecution :=
  { execution with
    finishedAt := some now
    success := false
    output := (errBrokenStream ++ ": " ++ e.error).toUTF8.toList }

/-- The receive loop of `agentRunAttempt`: what it does, and what it returns if it ends. -/
def recvLoop (a : Attempt) : (first : Bool) → (execution : PbExecution) → List PbExecution →
    List RunEvent × Option Outcome
  | _, execution, [] =>
    match a.ending with
    | .eof =>
      ([.executionDone (newExecutionFromProto execution)],
        some (clientExecutionDone a.executionDone))
    | .error e =>
      -- The remote execution has started: its failed result is recorded, the error is dropped.
      ([.executionDone (newExecutionFromProto (brokenStream a.now e execution))],
        some (clientExecutionDone a.executionDone))
    | .never => ([], none)
  | false, _, ars :: rest =>
    match a.setExecution with
    | .error e => ([.received ars, .setExecution ars], some (.error e))
    | .ok () =>
      let (events, result) := recvLoop a true ars rest
      (.received ars :: .setExecution ars :: events, result)
  | true, _, ars :: rest =>
    let (events, result) := recvLoop a true ars rest
    (.received ars :: events, result)

/-- `agentRunAttempt`. -/
def agentRunAttempt (a : Attempt) (execution : PbExecution) : List RunEvent × Option Outcome :=
  match a.connect with
  | .error e => ([], some (.error e))
  | .ok () =>
    match a.stream with
    | .error e => ([], some (.error e))
    | .ok () =>
      let (events, result) := recvLoop a false execution a.messages
      (.opened execution :: events, result)

/-- The caller's execution after the attempt. The attempt changes it in place when the stream
breaks before the first message. -/
def executionAfter (a : Attempt) (execution : PbExecution) : PbExecution :=
  match a.connect, a.stream, a.messages, a.ending with
  | .ok (), .ok (), [], .error e => brokenStream a.now e execution
  | _, _, _, _ => execution

/-! ## The retry loop -/

/-- The configuration of the retries. -/
structure RetryConfig where
  agentRunMaxRetries : Int := 3
  agentRunRetryInitialInterval : Int := 10 ^ 9
  agentRunRetryMaxInterval : Int := 30 * 10 ^ 9

/-- The doubling loop of the backoff. -/
def doubled (maxInterval : Int) : Nat → Int → Int
  | 0, backoff => backoff
  | n + 1, backoff =>
    if maxInterval < wrap64 (backoff * 2) then maxInterval
    else doubled maxInterval n (wrap64 (backoff * 2))

/-- The pause before a retry. -/
def backoff (config : RetryConfig) (attempt : Nat) : Int :=
  let b := doubled config.agentRunRetryMaxInterval (attempt - 1) config.agentRunRetryInitialInterval
  if config.agentRunRetryMaxInterval < b then config.agentRunRetryMaxInterval else b

/-- The loop of `AgentRun` with the given number of attempts left. It returns nothing if an attempt
never ends, and otherwise the last error, if any. -/
def agentRunLoop (config : RetryConfig) (script : Nat → Attempt) :
    (left attempt : Nat) → (lastErr : Option CallError) → PbExecution →
    List RunEvent × Option (Option CallError)
  | 0, _, lastErr, _ => ([], some lastErr)
  | left + 1, attempt, _, execution =>
    let pause := if 0 < attempt then [.backoff (backoff config attempt)] else []
    match agentRunAttempt (script attempt) execution with
    | (events, none) => (pause ++ events, none)
    | (events, some (.ok ())) => (pause ++ events, some none)
    | (events, some (.error err)) =>
      if isRetryableError err then
        let (events', result) := agentRunLoop config script left (attempt + 1) (some err)
          (executionAfter (script attempt) execution)
        (pause ++ events ++ events', result)
      else (pause ++ events, some (some err))

/-- `AgentRun`. -/
def agentRun (config : RetryConfig) (script : Nat → Attempt) (execution : PbExecution) :
    List RunEvent × Option (Option CallError) :=
  agentRunLoop config script (config.agentRunMaxRetries + 1).toNat 0 none execution

/-! ## What one attempt does -/

def RunEvent.isOpened : RunEvent → Bool
  | .opened _ => true
  | _ => false

def RunEvent.isReceived : RunEvent → Bool
  | .received _ => true
  | _ => false

/-- No stream is opened after a message was received. -/
def NoDoubleDispatch (events : List RunEvent) : Prop :=
  events.Pairwise fun e e' => e.isReceived → ¬e'.isOpened

namespace Attempt

variable (a : Attempt)

/-- The attempt opens a stream. -/
def Opens : Prop := a.connect = .ok () ∧ a.stream = .ok ()

/-- The attempt receives a message. -/
def Receives : Prop := a.Opens ∧ a.messages ≠ []

/-- The outcome is an error that is retried. -/
def Retryable (o : Outcome) : Prop := ∃ e, o = .error e ∧ isRetryableError e

/-- The first call that fails in the attempt fails with an error that is retried. -/
def FailsRetryably : Prop :=
  Retryable a.connect ∨
  (a.connect = .ok () ∧ Retryable a.stream) ∨
  (a.Receives ∧ Retryable a.setExecution) ∨
  (a.Opens ∧ (a.messages = [] ∨ a.setExecution = .ok ()) ∧ a.ending ≠ .never ∧
    Retryable (clientExecutionDone a.executionDone))

end Attempt

/-- The loop never opens a stream, and receives what the script says. -/
theorem recvLoop_events (a : Attempt) (first : Bool) (execution : PbExecution)
    (messages : List PbExecution) :
    (∀ e ∈ (recvLoop a first execution messages).1, ¬e.isOpened) ∧
    ((∃ e ∈ (recvLoop a first execution messages).1, e.isReceived) ↔ messages ≠ []) := by
  induction messages generalizing first execution with
  | nil =>
    unfold recvLoop
    cases a.ending <;> simp [RunEvent.isOpened, RunEvent.isReceived]
  | cons ars rest ih =>
    cases first with
    | true =>
      have hrest := (ih true ars).1
      simp only [recvLoop]
      simpa [RunEvent.isOpened, RunEvent.isReceived] using hrest
    | false =>
      have hrest := (ih true ars).1
      simp only [recvLoop]
      cases a.setExecution with
      | error e => simp [RunEvent.isOpened, RunEvent.isReceived]
      | ok u => simpa [RunEvent.isOpened, RunEvent.isReceived] using hrest

/-- What the attempt returns when the stream ends. -/
def Attempt.streamResult (a : Attempt) : Option Outcome :=
  if a.ending = .never then none else some (clientExecutionDone a.executionDone)

/-- After the first message the loop returns what the end of the stream gives. -/
theorem recvLoop_true_snd (a : Attempt) (execution : PbExecution) (messages : List PbExecution) :
    (recvLoop a true execution messages).2 = a.streamResult := by
  induction messages generalizing execution with
  | nil =>
    unfold recvLoop Attempt.streamResult
    cases a.ending <;> rfl
  | cons ars rest ih =>
    simp only [recvLoop]
    exact ih ars

theorem recvLoop_false_snd (a : Attempt) (execution : PbExecution) (messages : List PbExecution) :
    (recvLoop a false execution messages).2 =
      if messages ≠ [] ∧ a.setExecution ≠ .ok () then some a.setExecution else a.streamResult := by
  cases messages with
  | nil =>
    unfold recvLoop Attempt.streamResult
    cases a.ending <;> rfl
  | cons ars rest =>
    simp only [recvLoop]
    cases hset : a.setExecution with
    | error e => simp
    | ok u => simpa using recvLoop_true_snd a ars rest

theorem opens_iff_mem (a : Attempt) (execution : PbExecution) :
    (∃ e ∈ (agentRunAttempt a execution).1, e.isOpened) ↔ a.Opens := by
  unfold agentRunAttempt Attempt.Opens
  cases a.connect with
  | error e => simp
  | ok u =>
    cases a.stream with
    | error e => simp
    | ok u => simp [RunEvent.isOpened]

theorem receives_iff_mem (a : Attempt) (execution : PbExecution) :
    (∃ e ∈ (agentRunAttempt a execution).1, e.isReceived) ↔ a.Receives := by
  unfold agentRunAttempt Attempt.Receives Attempt.Opens
  cases a.connect with
  | error e => simp
  | ok u =>
    cases a.stream with
    | error e => simp
    | ok u =>
      have hloop := (recvLoop_events a false execution a.messages).2
      simpa [RunEvent.isReceived] using hloop

/-- One attempt opens at most one stream, before it receives anything. -/
theorem noDoubleDispatch_attempt (a : Attempt) (execution : PbExecution) :
    NoDoubleDispatch (agentRunAttempt a execution).1 := by
  unfold agentRunAttempt
  cases a.connect with
  | error e => exact List.Pairwise.nil
  | ok u =>
    cases a.stream with
    | error e => exact List.Pairwise.nil
    | ok u =>
      have hloop := (recvLoop_events a false execution a.messages).1
      refine List.pairwise_cons.2 ⟨fun e _ h => ?_, ?_⟩
      · simp [RunEvent.isReceived] at h
      · exact List.Pairwise.imp_of_mem (fun _ hb _ _ => hloop _ hb) (List.pairwise_of_forall
          fun _ _ => trivial : List.Pairwise (fun _ _ => True) _)

theorem failsRetryably_iff (a : Attempt) (execution : PbExecution) :
    (∃ e, (agentRunAttempt a execution).2 = some (.error e) ∧ isRetryableError e) ↔
      a.FailsRetryably := by
  unfold agentRunAttempt Attempt.FailsRetryably Attempt.Receives Attempt.Opens Attempt.Retryable
  cases a.connect with
  | error e => simp
  | ok u =>
    cases a.stream with
    | error e => simp
    | ok u =>
      simp only [recvLoop_false_snd, Attempt.streamResult]
      by_cases hmessages : a.messages = []
      · by_cases hend : a.ending = .never <;> simp [hmessages, hend]
      · cases hset : a.setExecution with
        | error e => simp [hmessages]
        | ok u => by_cases hend : a.ending = .never <;> simp [hmessages, hend]

/-! ## What the loop does -/

section

variable {config : RetryConfig} {script : Nat → Attempt}

/-- Some of the attempts `k`, `k + 1`, …, `left` in number, opens a stream, and those before it fail
retryably. -/
def Dispatches (script : Nat → Attempt) (left k : Nat) : Prop :=
  ∃ m, k ≤ m ∧ m < k + left ∧ (∀ i, k ≤ i → i < m → (script i).FailsRetryably) ∧ (script m).Opens

/-- Of these attempts one receives a message and a later one opens a stream. -/
def DispatchesTwice (script : Nat → Attempt) (left k : Nat) : Prop :=
  ∃ n m, k ≤ n ∧ n < m ∧ m < k + left ∧ (∀ i, k ≤ i → i < m → (script i).FailsRetryably) ∧
    (script n).Receives ∧ (script m).Opens

theorem dispatches_succ (left k : Nat) :
    Dispatches script (left + 1) k ↔
      (script k).Opens ∨ ((script k).FailsRetryably ∧ Dispatches script left (k + 1)) := by
  constructor
  · rintro ⟨m, hk, hm, hfail, hopen⟩
    rcases hk.eq_or_lt with rfl | hlt
    · exact .inl hopen
    · exact .inr ⟨hfail k le_rfl hlt, m, hlt, by omega, fun i hi => hfail i (by omega), hopen⟩
  · rintro (hopen | ⟨hfail, m, hk, hm, hfails, hopen⟩)
    · exact ⟨k, le_rfl, by omega, fun i hi hlt => absurd hlt (by omega), hopen⟩
    · refine ⟨m, by omega, by omega, fun i hi hlt => ?_, hopen⟩
      rcases hi.eq_or_lt with rfl | hlt'
      · exact hfail
      · exact hfails i hlt' hlt

theorem dispatchesTwice_succ (left k : Nat) :
    DispatchesTwice script (left + 1) k ↔
      (script k).FailsRetryably ∧
        (((script k).Receives ∧ Dispatches script left (k + 1)) ∨
          DispatchesTwice script left (k + 1)) := by
  constructor
  · rintro ⟨n, m, hk, hnm, hm, hfail, hreceive, hopen⟩
    refine ⟨hfail k le_rfl (by omega), ?_⟩
    have hfails : ∀ i, k + 1 ≤ i → i < m → (script i).FailsRetryably :=
      fun i hi => hfail i (by omega)
    rcases hk.eq_or_lt with rfl | hlt
    · exact .inl ⟨hreceive, m, hnm, by omega, hfails, hopen⟩
    · exact .inr ⟨n, m, hlt, hnm, by omega, hfails, hreceive, hopen⟩
  · rintro ⟨hfail, ⟨hreceive, m, hk, hm, hfails, hopen⟩ |
      ⟨n, m, hk, hnm, hm, hfails, hreceive, hopen⟩⟩
    · refine ⟨k, m, le_rfl, hk, by omega, fun i hi hlt => ?_, hreceive, hopen⟩
      rcases hi.eq_or_lt with rfl | hlt'
      · exact hfail
      · exact hfails i hlt' hlt
    · refine ⟨n, m, by omega, hnm, by omega, fun i hi hlt => ?_, hreceive, hopen⟩
      rcases hi.eq_or_lt with rfl | hlt'
      · exact hfail
      · exact hfails i hlt' hlt

theorem exists_mem_append {as bs : List RunEvent} {p : RunEvent → Bool} :
    (∃ e ∈ as ++ bs, p e) ↔ (∃ e ∈ as, p e) ∨ ∃ e ∈ bs, p e := by
  simp only [List.mem_append, or_and_right, exists_or]

theorem noDoubleDispatch_append {as bs : List RunEvent} :
    NoDoubleDispatch (as ++ bs) ↔ NoDoubleDispatch as ∧ NoDoubleDispatch bs ∧
      ((∃ e ∈ as, e.isReceived) → ¬∃ e ∈ bs, e.isOpened) := by
  rw [NoDoubleDispatch, List.pairwise_append]
  refine and_congr_right' (and_congr_right' ⟨?_, ?_⟩)
  · rintro h ⟨e, he, hr⟩ ⟨e', he', ho⟩
    exact h e he e' he' hr ho
  · exact fun h e he e' he' hr ho => h ⟨e, he, hr⟩ ⟨e', he', ho⟩

theorem noDoubleDispatch_of_silent {as : List RunEvent} (h : ¬∃ e ∈ as, e.isReceived) :
    NoDoubleDispatch as := by
  induction as with
  | nil => exact List.Pairwise.nil
  | cons e as ih =>
    refine List.pairwise_cons.2 ⟨fun e' _ hr => absurd ⟨e, List.mem_cons_self, hr⟩ h, ih ?_⟩
    rintro ⟨e', he', hr⟩
    exact h ⟨e', List.mem_cons_of_mem _ he', hr⟩

/-- The events of the loop: those of the attempt, and those of the rest when it failed retryably.
The pause is neither an opened stream nor a message. -/
theorem agentRunLoop_events (config : RetryConfig) (script : Nat → Attempt) (left k : Nat)
    (lastErr : Option CallError) (execution : PbExecution) :
    ∃ pause : List RunEvent, (∀ e ∈ pause, ¬e.isOpened ∧ ¬e.isReceived) ∧
      (((script k).FailsRetryably ∧ ∃ err,
        (agentRunLoop config script (left + 1) k lastErr execution).1 =
          pause ++ (agentRunAttempt (script k) execution).1 ++
            (agentRunLoop config script left (k + 1) (some err)
              (executionAfter (script k) execution)).1) ∨
        (¬(script k).FailsRetryably ∧
          (agentRunLoop config script (left + 1) k lastErr execution).1 =
            pause ++ (agentRunAttempt (script k) execution).1)) := by
  refine ⟨if 0 < k then [.backoff (backoff config k)] else [], ?_, ?_⟩
  · split_ifs <;> simp [RunEvent.isOpened, RunEvent.isReceived]
  · rw [← failsRetryably_iff (script k) execution]
    simp only [agentRunLoop]
    rcases agentRunAttempt (script k) execution with ⟨events, _ | err | u⟩
    · exact .inr ⟨by simp, rfl⟩
    · by_cases hretry : isRetryableError err
      · exact .inl ⟨⟨err, rfl, hretry⟩, err, by simp only [if_pos hretry]⟩
      · refine .inr ⟨?_, by simp only [if_neg hretry]⟩
        rintro ⟨e, he, h⟩
        cases he
        exact hretry h
    · exact .inr ⟨by simp, rfl⟩

/-- The loop opens a stream, and opens one after a message, exactly when the script says so. -/
theorem agentRunLoop_spec (left k : Nat) (lastErr : Option CallError) (execution : PbExecution) :
    ((∃ e ∈ (agentRunLoop config script left k lastErr execution).1, e.isOpened) ↔
      Dispatches script left k) ∧
    (NoDoubleDispatch (agentRunLoop config script left k lastErr execution).1 ↔
      ¬DispatchesTwice script left k) := by
  induction left generalizing k lastErr execution with
  | zero =>
    constructor
    · refine iff_of_false (by simp [agentRunLoop]) ?_
      rintro ⟨m, hk, hm, -⟩
      omega
    · refine iff_of_true List.Pairwise.nil ?_
      rintro ⟨n, m, hk, hnm, hm, -⟩
      omega
  | succ left ih =>
    obtain ⟨pause, hpause, h⟩ := agentRunLoop_events config script left k lastErr execution
    have hquiet : ¬∃ e ∈ pause, e.isOpened := fun ⟨e, he, ho⟩ => (hpause e he).1 ho
    have hsilent : ¬∃ e ∈ pause, e.isReceived := fun ⟨e, he, hr⟩ => (hpause e he).2 hr
    have hattempt : NoDoubleDispatch (pause ++ (agentRunAttempt (script k) execution).1) :=
      noDoubleDispatch_append.2 ⟨noDoubleDispatch_of_silent hsilent,
        noDoubleDispatch_attempt _ _, fun h => absurd h hsilent⟩
    rw [dispatches_succ, dispatchesTwice_succ]
    rcases h with ⟨hfail, err, heq⟩ | ⟨hfail, heq⟩
    · obtain ⟨hopen, hsafe⟩ := ih (k + 1) (some err) (executionAfter (script k) execution)
      rw [heq, noDoubleDispatch_append, exists_mem_append, exists_mem_append, exists_mem_append,
        opens_iff_mem, receives_iff_mem, hopen, hsafe]
      simp only [hquiet, hsilent, false_or, hfail, true_and, hattempt, not_or, not_and]
      exact and_comm
    · rw [heq, exists_mem_append, opens_iff_mem]
      simp only [hquiet, false_or, hfail, false_and, or_false, not_false_eq_true, hattempt,
        and_self]

end

/-- **No double dispatch.** `AgentRun` opens no stream after a message was received if and only if
there are no two attempts such that the first receives a message, the second opens a stream and all
attempts before the second fail retryably. -/
theorem agentRun_single_dispatch_iff (config : RetryConfig) (script : Nat → Attempt)
    (execution : PbExecution) :
    NoDoubleDispatch (agentRun config script execution).1 ↔
      ¬∃ n m : Nat, n < m ∧ (m : Int) ≤ config.agentRunMaxRetries ∧
        (∀ i < m, (script i).FailsRetryably) ∧ (script n).Receives ∧ (script m).Opens := by
  rw [agentRun, (agentRunLoop_spec _ _ _ _).2, not_iff_not]
  constructor
  · rintro ⟨n, m, -, hnm, hm, hfail, hreceive, hopen⟩
    exact ⟨n, m, hnm, by omega, fun i => hfail i (Nat.zero_le i), hreceive, hopen⟩
  · rintro ⟨n, m, hnm, hm, hfail, hreceive, hopen⟩
    exact ⟨n, m, Nat.zero_le n, hnm, by omega, fun i _ => hfail i, hreceive, hopen⟩

/-- The leader is unavailable for a moment when the start is reported, and the job is dispatched
again. -/
theorem agentRun_dispatches_twice :
    ¬NoDoubleDispatch (agentRun {}
      (fun i => if i = 0 then
          { messages := [{}], setExecution := .error (.status .unavailable "leader changed") }
        else {}) {}).1 := by
  unfold NoDoubleDispatch
  decide

end Dkron
