import Mathlib.Data.Finset.Card
import Mathlib.Order.Interval.Finset.Nat
import Dkron.Dispatching
import Dkron.Lib.Runs

/-!
# Retrying failed executions

The number of retries rests on the attempt number in each done report alone: a handler that gets the
report of a failed attempt sends the next one if the number allows it, whether or not another
handler has done so. Reports of one attempt come from the agent, from the server when the stream
breaks and from servers that forward them, in any number and order, and the handler sleeps between
its decision and the retry.

`retry_bound` says that this is the only way to exceed the bound, but for two numbers that can run
out: two runs that read the clock in the same nanosecond share a group, and the attempt number is
cut to 32 bits on its way to the agent.
-/

namespace Dkron

/-- What a done report says of an execution. It comes from the agent that ran it, or from the server
whose stream broke, which has the execution as it was sent if no message arrived. -/
structure DoneReport where
  started : Bool
  startedAt : Timestamp
  finishedAt : Timestamp
  success : Bool
  output : Bytes

/-- The execution as it is reported. -/
def Dispatch.report (d : Dispatch) (r : DoneReport) : PbExecution :=
  { d.execution with
    nodeName := if r.started then d.node else d.execution.nodeName
    startedAt := r.startedAt
    finishedAt := r.finishedAt
    success := r.success
    output := r.output }

/-- Where a handler of `ExecutionDone` stands: it has a report, or it waits to run a retry. -/
inductive RetryHandler where
  | received (execution : Execution)
  | sleeping (execution : Execution)

/-- The group, node and attempt number of an execution. -/
def Execution.attemptKey (ex : Execution) : Int × String × ℕ := (ex.group, ex.nodeName, ex.attempt)

/-- The requests sent to agents so far, the handlers, and as a ghost the attempts that handlers have
decided to retry. -/
structure Attempts where
  dispatches : List Dispatch := []
  handlers : ℕ → Option RetryHandler := fun _ => none
  retried : List (Int × String × ℕ) := []

namespace Attempts

/-- The steps that interleave. A report is of one of the requests, by its position in the list, and
is delivered any number of times or never. -/
inductive Event where
  /-- `Job.Run` runs the job. -/
  | run (group : Int) (cluster : Cluster)
  /-- A report arrives at a new handler. -/
  | deliver (i k : ℕ) (r : DoneReport)
  /-- The handler returns, for whatever reason. -/
  | finish (i : ℕ)
  /-- The handler has applied its report and read the job again, and decides. -/
  | decide (i : ℕ)
  /-- The handler wakes up and runs its retry. -/
  | retry (i : ℕ) (cluster : Cluster)

/-- Handler `i` goes on to `h`. -/
def goOn (s : Attempts) (i : ℕ) (h : Option RetryHandler) : Attempts :=
  { s with handlers := Function.update s.handlers i h }

/-- Requests have been sent. -/
def send (s : Attempts) (ds : List Dispatch) : Attempts :=
  { s with dispatches := s.dispatches ++ ds }

/-- The decision of a handler. -/
def decideRetry (job : Job) (s : Attempts) (i : ℕ) (execution : Execution) : Attempts :=
  match retryExecution job execution with
  | none => s.goOn i none
  | some next =>
    { s with retried := execution.attemptKey :: s.retried }.goOn i (some (.sleeping next))

def step (job : Job) (s : Attempts) : Event → Attempts
  | .run group cluster => s.send (cluster.run (newExecution job.name group))
  | .deliver i k r =>
    match s.handlers i, s.dispatches[k]? with
    | none, some d => s.goOn i (some (.received (newExecutionFromProto (d.report r))))
    | _, _ => s
  | .finish i => s.goOn i none
  | .decide i =>
    match s.handlers i with
    | some (.received execution) => s.decideRetry job i execution
    | _ => s
  | .retry i cluster =>
    match s.handlers i with
    | some (.sleeping execution) => (s.send (cluster.run execution)).goOn i none
    | _ => s

/-- At most `Retries + 1` requests were sent to each node for each group. -/
def Bounded (job : Job) (s : Attempts) : Prop :=
  ∀ group node, s.dispatches.countP (fun d => d.execution.group = group ∧ d.node = node) ≤
    job.retries + 1

/-- A run has a group of its own, and a handler that decides to retry is the first that retries the
attempt, whose successor has a number of 32 bits. -/
def RetriesOnce (job : Job) (s : Attempts) : Event → Prop
  | .run group _ => ∀ d ∈ s.dispatches, d.execution.group ≠ group
  | .decide i =>
    ∀ ex, s.handlers i = some (.received ex) → ∀ next, retryExecution job ex = some next →
      ex.attemptKey ∉ s.retried ∧ next.attempt < 2 ^ 32
  | _ => True

/-! ## The invariant -/

/-- The group, node and attempt number of a request. -/
def dispatchKey (d : Dispatch) : Int × String × ℕ :=
  (d.execution.group, d.node, d.execution.attempt.toNat)

/-- The execution comes after an attempt that was retried. -/
def Succeeds (retried : List (Int × String × ℕ)) (group : Int) (node : String) (attempt : ℕ) :
    Prop :=
  1 < attempt → (group, node, attempt - 1) ∈ retried

/-- What holds while each attempt is retried once: the requests differ in their group, node or
attempt number, and each handler that waits has a number of its own that was not sent yet. -/
structure Inv (job : Job) (s : Attempts) : Prop where
  nodup : (s.dispatches.map dispatchKey).Nodup
  sent : ∀ d ∈ s.dispatches, 1 ≤ d.execution.attempt.toNat ∧
    d.execution.attempt.toNat ≤ job.retries + 1 ∧
    Succeeds s.retried d.execution.group d.node d.execution.attempt.toNat
  received : ∀ i ex, s.handlers i = some (.received ex) →
    1 ≤ ex.attempt ∧ ∃ d ∈ s.dispatches, d.execution.group = ex.group
  sleeping : ∀ i ex, s.handlers i = some (.sleeping ex) →
    1 < ex.attempt ∧ ex.attempt ≤ job.retries + 1 ∧ ex.attempt < 2 ^ 32 ∧
      Succeeds s.retried ex.group ex.nodeName ex.attempt ∧
      (∃ d ∈ s.dispatches, d.execution.group = ex.group) ∧
      ex.attemptKey ∉ s.dispatches.map dispatchKey
  apart : ∀ i j ex ex', s.handlers i = some (.sleeping ex) → s.handlers j = some (.sleeping ex') →
    ex.attemptKey = ex'.attemptKey → i = j

section

variable {job : Job} {s : Attempts}

/-- Handler `i` has moved, and the others stand where they stood. -/
theorem of_handlers_goOn {i j : ℕ} {h : Option RetryHandler} {h' : RetryHandler}
    (hj : (s.goOn i h).handlers j = some h') :
    j = i ∧ h = some h' ∨ j ≠ i ∧ s.handlers j = some h' :=
  Runs.update_eq_some_iff.1 hj

/-- The requests of one group to one node have different numbers from 1 to `Retries + 1`. -/
theorem Inv.bounded (hs : Inv job s) : s.Bounded job := by
  intro group node
  rw [List.countP_eq_length_filter]
  generalize hl : s.dispatches.filter _ = l
  have hmem : ∀ d ∈ l, d ∈ s.dispatches ∧ d.execution.group = group ∧ d.node = node := by
    intro d hd
    rw [← hl, List.mem_filter, decide_eq_true_eq] at hd
    exact hd
  have hnodup : (l.map fun d => d.execution.attempt.toNat).Nodup := by
    have hkeys : (l.map dispatchKey).Nodup := by
      rw [← hl]
      exact hs.nodup.sublist (List.filter_sublist.map _)
    have hmap : l.map dispatchKey =
        (l.map fun d => d.execution.attempt.toNat).map fun a => (group, node, a) := by
      rw [List.map_map]
      apply List.map_congr_left
      intro d hd
      obtain ⟨-, hgroup, hnode⟩ := hmem d hd
      rw [dispatchKey, hgroup, hnode]
      rfl
    rw [hmap] at hkeys
    exact hkeys.of_map _
  have hsub : (l.map fun d => d.execution.attempt.toNat).toFinset ⊆
      Finset.Icc 1 (job.retries + 1) := by
    intro a ha
    obtain ⟨d, hd, rfl⟩ := List.mem_map.1 (List.mem_toFinset.1 ha)
    obtain ⟨hpos, hle, -⟩ := hs.sent d (hmem d hd).1
    exact Finset.mem_Icc.2 ⟨hpos, hle⟩
  have hcard := Finset.card_le_card hsub
  rw [List.toFinset_card_of_nodup hnodup, List.length_map, Nat.card_Icc] at hcard
  exact hcard

/-! ### Steps -/

/-- A handler that returns. -/
theorem Inv.finish (hs : Inv job s) (i : ℕ) : Inv job (s.goOn i none) := by
  have hkeep : ∀ {j h}, (s.goOn i none).handlers j = some h → s.handlers j = some h := by
    intro j h hj
    rcases of_handlers_goOn hj with ⟨-, hnone⟩ | ⟨-, hj⟩
    · cases hnone
    · exact hj
  exact {
    nodup := hs.nodup
    sent := hs.sent
    received := fun j ex hj => hs.received j ex (hkeep hj)
    sleeping := fun j ex hj => hs.sleeping j ex (hkeep hj)
    apart := fun j k ex ex' hj hk => hs.apart j k ex ex' (hkeep hj) (hkeep hk) }

/-- New requests: their keys are those of no request and of no handler that waits. -/
theorem Inv.send (hs : Inv job s) {ds : List Dispatch} (hnodup : (ds.map dispatchKey).Nodup)
    (hnew : ∀ d ∈ ds, dispatchKey d ∉ s.dispatches.map dispatchKey)
    (hsent : ∀ d ∈ ds, 1 ≤ d.execution.attempt.toNat ∧
      d.execution.attempt.toNat ≤ job.retries + 1 ∧
      Succeeds s.retried d.execution.group d.node d.execution.attempt.toNat)
    (hwaiting : ∀ d ∈ ds, ∀ i ex, s.handlers i = some (.sleeping ex) →
      ex.attemptKey ≠ dispatchKey d) : Inv job (s.send ds) where
  nodup := by
    rw [Attempts.send, List.map_append, List.nodup_append]
    refine ⟨hs.nodup, hnodup, fun k hk k' hk' heq => ?_⟩
    obtain ⟨d, hd, rfl⟩ := List.mem_map.1 hk'
    exact hnew d hd (heq ▸ hk)
  sent d hd := by
    rcases List.mem_append.1 hd with hd | hd
    · exact hs.sent d hd
    · exact hsent d hd
  received i ex hi := by
    obtain ⟨hpos, d, hd, hgroup⟩ := hs.received i ex hi
    exact ⟨hpos, d, List.mem_append_left _ hd, hgroup⟩
  sleeping i ex hi := by
    obtain ⟨h₁, h₂, h₃, h₄, ⟨d, hd, hgroup⟩, hkey⟩ := hs.sleeping i ex hi
    refine ⟨h₁, h₂, h₃, h₄, ⟨d, List.mem_append_left _ hd, hgroup⟩, ?_⟩
    rw [Attempts.send, List.map_append, List.mem_append, not_or]
    refine ⟨hkey, fun hmem => ?_⟩
    obtain ⟨d', hd', heq⟩ := List.mem_map.1 hmem
    exact hwaiting d' hd' i ex hi heq.symm
  apart := hs.apart

/-- The requests of one run have different keys. -/
theorem nodup_run (cluster : Cluster) (ex : Execution) :
    ((cluster.run ex).map dispatchKey).Nodup := by
  rw [Cluster.run, List.map_map]
  refine (cluster.nodup_nodesFor ex).map fun node node' heq => ?_
  simp only [Function.comp_apply, dispatchKey, Prod.mk.injEq] at heq
  exact heq.2.1

theorem dispatchKey_of_mem_run {cluster : Cluster} {ex : Execution} {d : Dispatch}
    (hd : d ∈ cluster.run ex) (hlt : ex.attempt < 2 ^ 32) :
    dispatchKey d = (ex.group, d.node, ex.attempt) := by
  have hattempt : (UInt32.ofNat ex.attempt).toNat = ex.attempt := by simpa using hlt
  rw [dispatchKey, (Cluster.mem_run.1 hd).2]
  simp [Execution.toProto, hattempt]

/-- The first attempts of a new group. -/
theorem Inv.run (hs : Inv job s) {group : Int}
    (hnew : ∀ d ∈ s.dispatches, d.execution.group ≠ group) (cluster : Cluster) :
    Inv job (s.send (cluster.run (newExecution job.name group))) := by
  have hkey : ∀ d ∈ cluster.run (newExecution job.name group),
      dispatchKey d = (group, d.node, 1) := by
    intro d hd
    exact dispatchKey_of_mem_run hd (by decide : (1 : ℕ) < 2 ^ 32)
  refine hs.send (nodup_run _ _) (fun d hd hmem => ?_) (fun d hd => ?_) fun d hd i ex hi heq => ?_
  · obtain ⟨d', hd', heq⟩ := List.mem_map.1 hmem
    rw [hkey d hd] at heq
    exact hnew d' hd' (congrArg Prod.fst heq)
  · have hattempt : d.execution.attempt.toNat = 1 := congrArg (·.2.2) (hkey d hd)
    rw [hattempt]
    exact ⟨le_rfl, Nat.le_add_left .., fun h => absurd h (lt_irrefl 1)⟩
  · rw [hkey d hd] at heq
    obtain ⟨-, -, -, -, ⟨d', hd', hgroup⟩, -⟩ := hs.sleeping i ex hi
    exact hnew d' hd' (hgroup.trans (congrArg Prod.fst heq))

/-- A report arrives. -/
theorem Inv.deliver (hs : Inv job s) {i : ℕ} {d : Dispatch} (hd : d ∈ s.dispatches)
    (r : DoneReport) :
    Inv job (s.goOn i (some (.received (newExecutionFromProto (d.report r))))) where
  nodup := hs.nodup
  sent := hs.sent
  received j ex hj := by
    rcases of_handlers_goOn hj with ⟨-, h⟩ | ⟨-, h⟩
    · cases h
      exact ⟨(hs.sent d hd).1, d, hd, rfl⟩
    · exact hs.received j ex h
  sleeping j ex hj := by
    rcases of_handlers_goOn hj with ⟨-, h⟩ | ⟨-, h⟩
    · cases h
    · exact hs.sleeping j ex h
  apart j k ex ex' hj hk := by
    rcases of_handlers_goOn hj with ⟨-, h⟩ | ⟨-, h⟩
    · cases h
    · rcases of_handlers_goOn hk with ⟨-, h'⟩ | ⟨-, h'⟩
      · cases h'
      · exact hs.apart j k ex ex' h h'

/-- The first decision to retry an attempt. -/
theorem Inv.decide (hs : Inv job s) {i : ℕ} {ex next : Execution}
    (hi : s.handlers i = some (.received ex)) (hnext : retryExecution job ex = some next)
    (hfirst : ex.attemptKey ∉ s.retried) (hlt : next.attempt < 2 ^ 32) :
    Inv job ({ s with retried := ex.attemptKey :: s.retried }.goOn i (some (.sleeping next))) := by
  obtain ⟨-, hretries, rfl⟩ := retryExecution_eq_some.1 hnext
  obtain ⟨hpos, hgroup⟩ := hs.received i ex hi
  have hmono : ∀ {group node attempt}, Succeeds s.retried group node attempt →
      Succeeds (ex.attemptKey :: s.retried) group node attempt :=
    fun h ha => List.mem_cons_of_mem _ (h ha)
  -- Whoever has the next number already comes after the same attempt.
  have hunused : ∀ {group node attempt}, Succeeds s.retried group node attempt →
      (group, node, attempt) ≠ (ex.group, ex.nodeName, ex.attempt + 1) := by
    intro group node attempt h heq
    cases heq
    exact hfirst (h (by omega))
  exact {
    nodup := hs.nodup
    sent := fun d hd => by
      obtain ⟨h₁, h₂, h₃⟩ := hs.sent d hd
      exact ⟨h₁, h₂, hmono h₃⟩
    received := fun j ex' hj => by
      rcases of_handlers_goOn hj with ⟨-, h⟩ | ⟨-, h⟩
      · cases h
      · exact hs.received j ex' h
    sleeping := fun j ex' hj => by
      rcases of_handlers_goOn hj with ⟨-, h⟩ | ⟨-, h⟩
      · cases h
        refine ⟨by simp only; omega, by simp only; omega, hlt, fun _ => ?_, hgroup, fun hmem => ?_⟩
        · exact List.mem_cons_self
        · obtain ⟨d, hd, heq⟩ := List.mem_map.1 hmem
          exact hunused (hs.sent d hd).2.2 heq
      · obtain ⟨h₁, h₂, h₃, h₄, h₅⟩ := hs.sleeping j ex' h
        exact ⟨h₁, h₂, h₃, hmono h₄, h₅⟩
    apart := fun j k ex₁ ex₂ hj hk heq => by
      rcases of_handlers_goOn hj with ⟨hji, h₁⟩ | ⟨-, h₁⟩ <;>
        rcases of_handlers_goOn hk with ⟨hki, h₂⟩ | ⟨-, h₂⟩
      · rw [hji, hki]
      · cases h₁
        exact absurd heq.symm (hunused (hs.sleeping k ex₂ h₂).2.2.2.1)
      · cases h₂
        exact absurd heq (hunused (hs.sleeping j ex₁ h₁).2.2.2.1)
      · exact hs.apart j k ex₁ ex₂ h₁ h₂ heq }

/-- A retry is sent. -/
theorem Inv.retry (hs : Inv job s) {i : ℕ} {ex : Execution}
    (hi : s.handlers i = some (.sleeping ex)) (cluster : Cluster) :
    Inv job ((s.send (cluster.run ex)).goOn i none) := by
  obtain ⟨hgt, hle, hlt, hsucc, -, hkey⟩ := hs.sleeping i ex hi
  have hrun : ∀ d ∈ cluster.run ex, dispatchKey d = ex.attemptKey := by
    intro d hd
    rw [dispatchKey_of_mem_run hd hlt, Cluster.node_of_retry hgt hd]
    rfl
  change Inv job ((s.goOn i none).send (cluster.run ex))
  refine (hs.finish i).send (nodup_run _ _) (fun d hd => ?_) (fun d hd => ?_)
    fun d hd j ex' hj heq => ?_
  · rw [hrun d hd]
    exact hkey
  · have hfields := hrun d hd
    rw [dispatchKey, Execution.attemptKey, Prod.mk.injEq, Prod.mk.injEq] at hfields
    obtain ⟨hgroup, hnode, hattempt⟩ := hfields
    rw [hgroup, hnode, hattempt]
    exact ⟨hgt.le, hle, hsucc⟩
  · rcases of_handlers_goOn hj with ⟨-, h⟩ | ⟨hij, h⟩
    · cases h
    · exact hij (hs.apart j i ex' ex h hi (heq.trans (hrun d hd)))

/-- **One step**: the invariant holds on when attempts are retried once. -/
theorem Inv.step (hs : Inv job s) {e : Event} (h : s.RetriesOnce job e) :
    Inv job (s.step job e) := by
  cases e with
  | run group cluster => exact hs.run h cluster
  | deliver i k r =>
    rw [Attempts.step]
    cases hi : s.handlers i with
    | some handler => exact hs
    | none =>
      cases hk : s.dispatches[k]? with
      | none => exact hs
      | some d => exact hs.deliver (List.mem_of_getElem? hk) r
  | finish i => exact hs.finish i
  | decide i =>
    rw [Attempts.step]
    cases hi : s.handlers i with
    | none => exact hs
    | some handler =>
      cases handler with
      | sleeping ex => exact hs
      | received ex =>
        simp only [decideRetry]
        cases hnext : retryExecution job ex with
        | none => exact hs.finish i
        | some next =>
          obtain ⟨hfirst, hlt⟩ := h ex hi next hnext
          exact hs.decide hi hnext hfirst hlt
  | retry i cluster =>
    rw [Attempts.step]
    cases hi : s.handlers i with
    | none => exact hs
    | some handler =>
      cases handler with
      | received ex => exact hs
      | sleeping ex => exact hs.retry hi cluster

theorem Inv.new (job : Job) : Inv job {} where
  nodup := List.nodup_nil
  sent _ hd := absurd hd List.not_mem_nil
  received _ _ h := by cases h
  sleeping _ _ h := by cases h
  apart _ _ _ _ h := by cases h

end

end Attempts

/-! ## The bound -/

/-- **Retry bound.** In every run in which each run of the job has a group of its own and each
attempt is retried by one handler at most, no node gets more than `Retries + 1` requests for a
group, whatever reports are lost, repeated or late. -/
theorem retry_bound (job : Job) (es : List Attempts.Event)
    (h : Runs.Along (Attempts.step job) (Attempts.RetriesOnce job) {} es) :
    Runs.Everywhere (Attempts.step job) (Attempts.Bounded job) {} es :=
  (Runs.everywhere_of_along (fun _ _ hs he => hs.step he) (Attempts.Inv.new job) h).mono
    fun _ hs => hs.bounded

/-- A job with one retry. -/
def retriedJob : Job := { name := "a", retries := 1 }

/-- A failure. -/
def failedReport : DoneReport where
  started := true
  startedAt := some 5
  finishedAt := some 6
  success := false
  output := []

/-- The first attempt fails, and so does the retry. -/
def failingRun : List Attempts.Event :=
  [.run 1 .oneNode, .deliver 0 0 failedReport, .decide 0, .retry 0 .oneNode,
    .deliver 1 1 failedReport, .decide 1]

theorem failingRun_bounded :
    Runs.Everywhere (Attempts.step retriedJob) (Attempts.Bounded retriedJob) {} failingRun := by
  refine retry_bound retriedJob failingRun
    ⟨fun d hd => absurd hd List.not_mem_nil, trivial, ?_, trivial, trivial, ?_, trivial⟩
  · intro ex hex next hnext
    cases hex
    cases hnext
    decide
  · intro ex hex next hnext
    cases hex
    cases hnext

/-- The report of the first attempt arrives twice: from the agent and from the server. -/
def reportedTwice : List Attempts.Event :=
  [.run 1 .oneNode, .deliver 0 0 failedReport, .deliver 1 0 failedReport, .decide 0, .decide 1,
    .retry 0 .oneNode, .retry 1 .oneNode]

/-- Both handlers send the retry. -/
theorem retried_twice :
    ¬Attempts.Bounded retriedJob (reportedTwice.foldl (Attempts.step retriedJob) {}) := by
  intro h
  have hcount := h 1 "n1"
  revert hcount
  decide

end Dkron
