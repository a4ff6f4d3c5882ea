import Dkron.AgentRun
import Dkron.Store
import Dkron.Dispatching
import Dkron.Lib.Decimal
import Dkron.Lib.Runs

/-!
# Execution identity

An execution is stored under its start time and its node (`Execution.Key`), and both are set by the
agent that runs it: the server learns of them with the first message of the agent's stream. A stream
that ends before that is reported with the execution as it was sent. A first attempt is sent
without a start and a node, so all such reports have one key, whatever their group and node; a retry
is sent with those of the attempt before it, whose record it replaces.

The processors of a report, as far as they come with the server, change its output only, which a
retry does not keep.

**Theorem (`identity_iff`).** In every state of a run of the dispatch code reports of different
groups, nodes or attempts have different keys, if and only if no retry is reported before its first
message, and no two of them are reported before the first message or start on one node at the same
nanosecond.
-/

namespace Dkron

/-- What an agent's message has besides the start. -/
structure AgentUpdate where
  finishedAt : Timestamp
  success : Bool
  output : Bytes

/-- A message of the agent that the request was sent to, which it started at the given time. -/
def Dispatch.message (d : Dispatch) (start : Time) (u : AgentUpdate) : PbExecution :=
  { d.start start with finishedAt := u.finishedAt, success := u.success, output := u.output }

/-- The execution of a done report. -/
def RunEvent.done? : RunEvent → Option Execution
  | .executionDone execution => some execution
  | _ => none

/-- A done report, with the node its request was sent to and, if a message of the agent had arrived,
the time at which the agent started. -/
structure IssuedReport where
  node : String
  start : Option Time
  execution : Execution

/-- The requests sent to agents, and the done reports. -/
structure Issuing where
  dispatches : List Dispatch := []
  reports : List IssuedReport := []

namespace Issuing

/-- What the dispatch code does for one job. -/
inductive Event where
  /-- The job is run. -/
  | run (group : Int) (cluster : Cluster)
  /-- The handler of a report retries the execution. -/
  | retry (k : ℕ) (job : Job) (cluster : Cluster)
  /-- An attempt of the client to have a request run, with what the agent sends. -/
  | attempt (k : ℕ) (a : Attempt) (start : Time) (updates : List AgentUpdate)
  /-- The agent cannot send its last message and reports itself. -/
  | fallback (k : ℕ) (start : Time) (u : AgentUpdate)

/-- The attempt with the messages of the agent. -/
def withMessages (a : Attempt) (d : Dispatch) (start : Time) (updates : List AgentUpdate) :
    Attempt :=
  { a with messages := updates.map (d.message start) }

/-- The reports of one attempt. -/
def attemptReports (a : Attempt) (d : Dispatch) (start : Time) (updates : List AgentUpdate) :
    List IssuedReport :=
  ((agentRunAttempt (withMessages a d start updates) d.execution).1.filterMap RunEvent.done?).map
    fun execution => ⟨d.node, if updates = [] then none else some start, execution⟩

def step (jobName : String) (s : Issuing) : Event → Issuing
  | .run group cluster =>
    { s with dispatches := s.dispatches ++ cluster.run (newExecution jobName group) }
  | .retry k job cluster =>
    match s.reports[k]? with
    | none => s
    | some r =>
      match retryExecution job (newExecutionFromProto r.execution.toProto) with
      | none => s
      | some next => { s with dispatches := s.dispatches ++ cluster.run next }
  | .attempt k a start updates =>
    match s.dispatches[k]? with
    | none => s
    | some d =>
      -- the client tries again with the execution as the attempt has left it
      { dispatches := s.dispatches.set k
          { d with execution := executionAfter (withMessages a d start updates) d.execution }
        reports := s.reports ++ attemptReports a d start updates }
  | .fallback k start u =>
    match s.dispatches[k]? with
    | none => s
    | some d =>
      { s with
        reports := s.reports ++
          [⟨d.node, some start, newExecutionFromProto (d.message start u)⟩] }

end Issuing

/-- The group, node and attempt of a request. -/
def Dispatch.origin (d : Dispatch) : Int × String × ℕ :=
  (d.execution.group, d.node, d.execution.attempt.toNat)

/-- The group, node and attempt that a report comes from. -/
def IssuedReport.origin (r : IssuedReport) : Int × String × ℕ :=
  (r.execution.group, r.node, r.execution.attempt)

/-- Where and when the agent started, if it was heard of, and else what an execution has that never
started. -/
def mark (node : String) (start : Option Time) : Int × String :=
  match start with
  | some t => (unixNano t, node)
  | none => (unixNano zeroTime, "")

namespace Issuing

/-- Reports of different groups, nodes or attempts have different keys. -/
def Distinct (s : Issuing) : Prop :=
  ∀ r ∈ s.reports, ∀ r' ∈ s.reports, r.origin ≠ r'.origin → r.execution.key ≠ r'.execution.key

/-- The attempt issues a report. -/
def IssuesReport (a : Attempt) (updates : List AgentUpdate) : Prop :=
  a.Opens ∧ (updates = [] ∨ a.setExecution = .ok ()) ∧ a.ending ≠ .never

/-- A report of a request that starts as given is like no report of another request so far. -/
def FreshMark (s : Issuing) (d : Dispatch) (start : Option Time) : Prop :=
  ∀ r ∈ s.reports, r.origin ≠ d.origin → mark r.node r.start ≠ mark d.node start

/-- The request was not started before. -/
def NeverStarted (d : Dispatch) : Prop :=
  (unixNano (asTime d.execution.startedAt), d.execution.nodeName) = (unixNano zeroTime, "")

/-- A report that is issued before the first message is not of a retry of a started execution, and
no report of another request is issued before the first message too, or started on the same node in
the same nanosecond. -/
def KeepsIdentity (s : Issuing) : Event → Prop
  | .attempt k a start updates => ∀ d, s.dispatches[k]? = some d → IssuesReport a updates →
      if updates = [] then NeverStarted d ∧ FreshMark s d none else FreshMark s d (some start)
  | .fallback k start _ => ∀ d, s.dispatches[k]? = some d → FreshMark s d (some start)
  | _ => True

end Issuing

/-! ## Keys -/

/-- The digits of a number end where a dash stands. -/
theorem takeWhile_repr_dash (k : ℕ) (l : List Char) :
    ((Nat.repr k).toList ++ '-' :: l).takeWhile Char.isDigit = (Nat.repr k).toList := by
  rw [List.takeWhile_append_of_pos fun c hc => Decimal.isDigit_of_mem_repr hc,
    List.takeWhile_cons_of_neg (by decide), List.append_nil]

theorem repr_dash_inj {j k : ℕ} {m n : List Char}
    (h : (Nat.repr j).toList ++ '-' :: m = (Nat.repr k).toList ++ '-' :: n) : j = k ∧ m = n := by
  have hdigits := congrArg (List.takeWhile Char.isDigit) h
  rw [takeWhile_repr_dash, takeWhile_repr_dash] at hdigits
  rw [hdigits] at h
  exact ⟨Decimal.repr_toList_inj hdigits, (List.cons.inj (List.append_cancel_left h)).2⟩

/-- Digits do not begin with a dash. -/
theorem repr_append_ne_dash (k : ℕ) (l m : List Char) : (Nat.repr k).toList ++ l ≠ '-' :: m := by
  intro h
  cases hdigits : (Nat.repr k).toList with
  | nil => exact Decimal.repr_toList_ne_nil k hdigits
  | cons c cs =>
    rw [hdigits, List.cons_append] at h
    have hc : c.isDigit := Decimal.isDigit_of_mem_repr (n := k) (hdigits ▸ List.mem_cons_self)
    rw [(List.cons.inj h).1] at hc
    exact absurd hc (by decide)

theorem toString_toList (z : Int) :
    (toString z).toList =
      if z < 0 then '-' :: (Nat.repr z.natAbs).toList else (Nat.repr z.natAbs).toList := by
  cases z with
  | ofNat n => simp [toString, Int.repr]
  | negSucc n => simp [toString, Int.repr]

theorem toString_dash_inj {y z : Int} {m n : String}
    (h : toString y ++ "-" ++ m = toString z ++ "-" ++ n) : y = z ∧ m = n := by
  have hlist := congrArg String.toList h
  simp only [String.toList_append, toString_toList, List.append_assoc] at hlist
  split_ifs at hlist with hy hz hz
  · obtain ⟨habs, hrest⟩ := repr_dash_inj (List.cons.inj hlist).2
    exact ⟨by omega, String.toList_inj.1 hrest⟩
  · exact absurd hlist.symm (repr_append_ne_dash _ _ _)
  · exact absurd hlist (repr_append_ne_dash _ _ _)
  · obtain ⟨habs, hrest⟩ := repr_dash_inj hlist
    exact ⟨by omega, String.toList_inj.1 hrest⟩

/-- A key tells the start, as far as it is written, and the node. -/
theorem executionId_inj {t u : Time} {m n : String} :
    executionId t m = executionId u n ↔ (unixNano t, m) = (unixNano u, n) := by
  constructor
  · intro h
    obtain ⟨hstart, hnode⟩ := toString_dash_inj h
    rw [hstart, hnode]
  · intro h
    rw [executionId, executionId, (Prod.mk.inj h).1, (Prod.mk.inj h).2]

/-- The start, as far as a key has it, and the node. -/
def Execution.stamp (e : Execution) : Int × String := (unixNano e.startedAt, e.nodeName)

def PbExecution.stamp (e : PbExecution) : Int × String :=
  (unixNano (asTime e.startedAt), e.nodeName)

theorem Execution.key_eq_iff {e e' : Execution} : e.key = e'.key ↔ e.stamp = e'.stamp :=
  executionId_inj

/-! ## The report of an attempt -/

/-- What a report takes over from the message, whether the stream breaks or not. -/
def Execution.TakenFrom (ex : Execution) (e : PbExecution) : Prop :=
  ex.group = e.group ∧ ex.attempt = e.attempt.toNat ∧ ex.stamp = e.stamp

/-- The report at the end of the stream. -/
def endReport (a : Attempt) (e : PbExecution) : List Execution :=
  match a.ending with
  | .eof => [newExecutionFromProto e]
  | .error err => [newExecutionFromProto (brokenStream a.now err e)]
  | .never => []

theorem endReport_eq (a : Attempt) (e : PbExecution) :
    a.ending = .never ∧ endReport a e = [] ∨
      a.ending ≠ .never ∧ ∃ ex, endReport a e = [ex] ∧ ex.TakenFrom e := by
  cases h : a.ending with
  | eof => exact .inr ⟨nofun, _, by rw [endReport, h], rfl, rfl, rfl⟩
  | error err => exact .inr ⟨nofun, _, by rw [endReport, h], rfl, rfl, rfl⟩
  | never => exact .inl ⟨rfl, by rw [endReport, h]⟩

theorem recvLoop_done_first (a : Attempt) (execution : PbExecution) (messages : List PbExecution) :
    (recvLoop a true execution messages).1.filterMap RunEvent.done? =
      endReport a (messages.getLast?.getD execution) := by
  induction messages generalizing execution with
  | nil =>
    rw [List.getLast?_nil, Option.getD_none, recvLoop, endReport]
    cases a.ending <;> rfl
  | cons ars rest ih =>
    rw [recvLoop]
    show (recvLoop a true ars rest).1.filterMap RunEvent.done? = _
    rw [ih ars, List.getLast?_cons, Option.getD_some]

/-- The reports of the loop: one of what came last. -/
theorem recvLoop_done (a : Attempt) (execution : PbExecution) (messages : List PbExecution) :
    (recvLoop a false execution messages).1.filterMap RunEvent.done? =
      if messages = [] ∨ a.setExecution = .ok () then
        endReport a (messages.getLast?.getD execution)
      else [] := by
  cases messages with
  | nil =>
    rw [if_pos (.inl rfl), List.getLast?_nil, Option.getD_none, recvLoop, endReport]
    cases a.ending <;> rfl
  | cons ars rest =>
    rw [recvLoop]
    cases hset : a.setExecution with
    | error e => rfl
    | ok =>
      show (recvLoop a true ars rest).1.filterMap RunEvent.done? = _
      rw [if_pos (.inr rfl), recvLoop_done_first, List.getLast?_cons, Option.getD_some]

namespace Issuing

variable {a : Attempt} {d : Dispatch} {start : Time} {updates : List AgentUpdate}

instance : Decidable a.Opens := inferInstanceAs (Decidable (_ ∧ _))

theorem agentRunAttempt_done (a : Attempt) (execution : PbExecution) :
    (agentRunAttempt a execution).1.filterMap RunEvent.done? =
      if a.Opens ∧ (a.messages = [] ∨ a.setExecution = .ok ()) then
        endReport a (a.messages.getLast?.getD execution)
      else [] := by
  rw [agentRunAttempt]
  cases hconnect : a.connect with
  | error e => exact (if_neg fun h => by simp [Attempt.Opens, hconnect] at h).symm
  | ok =>
    cases hstream : a.stream with
    | error e => exact (if_neg fun h => by simp [Attempt.Opens, hstream] at h).symm
    | ok =>
      have hopens : a.Opens := ⟨hconnect, hstream⟩
      show (recvLoop a false execution a.messages).1.filterMap RunEvent.done? = _
      rw [recvLoop_done]
      simp only [hopens, true_and]

/-- The execution as the client heard of it last. -/
def heard (d : Dispatch) (start : Time) (updates : List AgentUpdate) : PbExecution :=
  (updates.map (d.message start)).getLast?.getD d.execution

theorem attemptReports_of_not_issues (h : ¬IssuesReport a updates) :
    attemptReports a d start updates = [] := by
  rw [attemptReports, agentRunAttempt_done, List.map_eq_nil_iff]
  split_ifs with hreports
  · obtain ⟨-, heq⟩ | ⟨hending, -⟩ := endReport_eq (withMessages a d start updates)
      ((withMessages a d start updates).messages.getLast?.getD d.execution)
    · exact heq
    · refine absurd ⟨hreports.1, ?_, hending⟩ h
      exact hreports.2.imp_left List.map_eq_nil_iff.1
  · rfl

theorem attemptReports_of_issues (h : IssuesReport a updates) :
    ∃ ex : Execution, attemptReports a d start updates =
      [⟨d.node, if updates = [] then none else some start, ex⟩] ∧
      ex.TakenFrom (heard d start updates) := by
  obtain ⟨hopens, hset, hending⟩ := h
  have hreports : (withMessages a d start updates).Opens ∧
      ((withMessages a d start updates).messages = [] ∨
        (withMessages a d start updates).setExecution = .ok ()) :=
    ⟨hopens, hset.imp_left List.map_eq_nil_iff.2⟩
  rw [attemptReports, agentRunAttempt_done, if_pos hreports]
  obtain ⟨hnever, -⟩ | ⟨-, ex, heq, hex⟩ := endReport_eq (withMessages a d start updates)
    ((withMessages a d start updates).messages.getLast?.getD d.execution)
  · exact absurd hnever hending
  · exact ⟨ex, by rw [heq]; rfl, hex⟩

/-- What the client heard of last is the request, or a message of the agent that ran it. -/
theorem heard_eq (d : Dispatch) (start : Time) (updates : List AgentUpdate) :
    updates = [] ∧ heard d start updates = d.execution ∨
      updates ≠ [] ∧ ∃ u, heard d start updates = d.message start u := by
  rw [heard, List.getLast?_map]
  cases hlast : updates.getLast? with
  | none => exact .inl ⟨List.getLast?_eq_none_iff.1 hlast, rfl⟩
  | some u => exact .inr ⟨fun h => by simp [h] at hlast, u, rfl⟩

/-- A report tells the group, node and attempt of its request. -/
theorem origin_of_heard {ex : Execution} {started : Option Time}
    (h : ex.TakenFrom (heard d start updates)) :
    IssuedReport.origin ⟨d.node, started, ex⟩ = d.origin := by
  obtain ⟨hgroup, hattempt, -⟩ := h
  rw [IssuedReport.origin, Dispatch.origin, hgroup, hattempt]
  obtain ⟨-, heq⟩ | ⟨-, u, heq⟩ := heard_eq d start updates
  · rw [heq]
  · rw [heq, Dispatch.message, Dispatch.start]

/-- Its key has the start and the node of a message, or else those of the request. -/
theorem stamp_of_heard {ex : Execution} (h : ex.TakenFrom (heard d start updates)) :
    ex.stamp = if updates = [] then d.execution.stamp else mark d.node (some start) := by
  rw [h.2.2]
  obtain ⟨hnil, heq⟩ | ⟨hne, u, heq⟩ := heard_eq d start updates
  · rw [heq, if_pos hnil]
  · rw [heq, if_neg hne]
    rfl

/-! ## Steps -/

/-- What holds of the requests and reports, their keys being different or not. -/
structure Sound (s : Issuing) : Prop where
  /-- A request was never started, or it has the key of a report of another attempt. -/
  dispatch : ∀ d ∈ s.dispatches, NeverStarted d ∨
    ∃ r ∈ s.reports, r.execution.stamp = d.execution.stamp ∧ r.origin ≠ d.origin
  /-- A report has the mark of its start, or the key of a report of another attempt. -/
  report : ∀ r ∈ s.reports, r.execution.stamp = mark r.node r.start ∨
    ∃ r' ∈ s.reports, r'.execution.stamp = r.execution.stamp ∧ r'.origin ≠ r.origin
  attempt_lt : ∀ r ∈ s.reports, r.execution.attempt < 2 ^ 32

variable {s s' : Issuing}

/-- A request of the client's that it changed is sent as before, as far as keys are concerned. -/
theorem executionAfter_eq (a : Attempt) (e : PbExecution) :
    (executionAfter a e).group = e.group ∧ (executionAfter a e).attempt = e.attempt ∧
      (executionAfter a e).stamp = e.stamp := by
  unfold executionAfter
  split <;> exact ⟨rfl, rfl, rfl⟩

/-- Another report is issued. -/
theorem Sound.append_report (h : Sound s) {r : IssuedReport}
    (hr : r.execution.stamp = mark r.node r.start ∨
      ∃ r' ∈ s.reports, r'.execution.stamp = r.execution.stamp ∧ r'.origin ≠ r.origin)
    (hlt : r.execution.attempt < 2 ^ 32) :
    Sound { s with reports := s.reports ++ [r] } := by
  refine ⟨fun d hd => ?_, fun r₁ hr₁ => ?_, fun r₁ hr₁ => ?_⟩
  · obtain hnever | ⟨r', hmem, hlike⟩ := h.dispatch d hd
    · exact .inl hnever
    · exact .inr ⟨r', List.mem_append_left _ hmem, hlike⟩
  · obtain hold | hnew := List.mem_append.1 hr₁
    · obtain hmark | ⟨r', hmem, hlike⟩ := h.report r₁ hold
      · exact .inl hmark
      · exact .inr ⟨r', List.mem_append_left _ hmem, hlike⟩
    · rw [List.mem_singleton.1 hnew]
      obtain hmark | ⟨r', hmem, hlike⟩ := hr
      · exact .inl hmark
      · exact .inr ⟨r', List.mem_append_left _ hmem, hlike⟩
  · obtain hold | hnew := List.mem_append.1 hr₁
    · exact h.attempt_lt r₁ hold
    · rwa [List.mem_singleton.1 hnew]

/-- The requests are others. -/
theorem Sound.with_dispatches (h : Sound s) {ds : List Dispatch}
    (hds : ∀ d ∈ ds, NeverStarted d ∨
      ∃ r ∈ s.reports, r.execution.stamp = d.execution.stamp ∧ r.origin ≠ d.origin) :
    Sound { s with dispatches := ds } :=
  ⟨hds, h.report, h.attempt_lt⟩

theorem Sound.append_dispatches (h : Sound s) {ds : List Dispatch}
    (hds : ∀ d ∈ ds, NeverStarted d ∨
      ∃ r ∈ s.reports, r.execution.stamp = d.execution.stamp ∧ r.origin ≠ d.origin) :
    Sound { s with dispatches := s.dispatches ++ ds } :=
  h.with_dispatches fun d hd => (List.mem_append.1 hd).elim (h.dispatch d) (hds d)

theorem distinct_append {r : IssuedReport} (hreports : s'.reports = s.reports ++ [r]) :
    Distinct s' ↔ Distinct s ∧
      ∀ r' ∈ s.reports, r'.origin ≠ r.origin → r'.execution.stamp ≠ r.execution.stamp := by
  simp only [Distinct, hreports, ne_eq, Execution.key_eq_iff]
  constructor
  · intro h
    refine ⟨fun r₁ h₁ r₂ h₂ => ?_, fun r₁ h₁ => ?_⟩
    · exact h r₁ (List.mem_append_left _ h₁) r₂ (List.mem_append_left _ h₂)
    · exact h r₁ (List.mem_append_left _ h₁) r (List.mem_append_right _ (List.mem_singleton_self r))
  · rintro ⟨hold, hnew⟩ r₁ h₁ r₂ h₂ hne
    rcases List.mem_append.1 h₁ with h₁ | h₁ <;> rcases List.mem_append.1 h₂ with h₂ | h₂
    · exact hold r₁ h₁ r₂ h₂ hne
    · rw [List.mem_singleton.1 h₂] at hne ⊢
      exact hnew r₁ h₁ hne
    · rw [List.mem_singleton.1 h₁] at hne ⊢
      exact fun heq => hnew r₂ h₂ (Ne.symm hne) heq.symm
    · rw [List.mem_singleton.1 h₁, List.mem_singleton.1 h₂] at hne
      exact absurd rfl hne

/-- As long as the keys differ, each report has the mark of its start. -/
theorem Sound.stamp_eq (h : Sound s) (hdist : Distinct s) {r : IssuedReport} (hr : r ∈ s.reports) :
    r.execution.stamp = mark r.node r.start := by
  obtain hmark | ⟨r', hr', hstamp, horigin⟩ := h.report r hr
  · exact hmark
  · exact absurd (Execution.key_eq_iff.2 hstamp) (hdist r' hr' r hr horigin)

theorem freshMark_iff (h : Sound s) (hdist : Distinct s) {o : Int × String × ℕ}
    (ho : o = d.origin) {started : Option Time} {p : Int × String}
    (hp : p = mark d.node started) :
    (∀ r ∈ s.reports, r.origin ≠ o → r.execution.stamp ≠ p) ↔ FreshMark s d started := by
  subst ho hp
  apply forall₂_congr
  intro r hr
  rw [h.stamp_eq hdist hr]

/-- A first attempt was never started, and a retry has the key of the attempt before it. -/
theorem dispatch_retry {r : IssuedReport} {job : Job} {next : Execution} {cluster : Cluster}
    (hlt : r.execution.attempt < 2 ^ 32)
    (hnext : retryExecution job (newExecutionFromProto r.execution.toProto) = some next)
    (hd : d ∈ cluster.run next) :
    r.execution.stamp = d.execution.stamp ∧ r.origin ≠ d.origin := by
  obtain ⟨-, -, rfl⟩ := retryExecution_eq_some.1 hnext
  obtain ⟨-, hex⟩ := Cluster.mem_run.1 hd
  rw [newExecutionFromProto_toProto hlt] at hex
  refine ⟨by rw [hex]; rfl, fun heq => ?_⟩
  have hattempt : r.execution.attempt = d.execution.attempt.toNat :=
    (Prod.mk.inj (Prod.mk.inj heq).2).2
  rw [hex] at hattempt
  have hwrap : (UInt32.ofNat (r.execution.attempt + 1)).toNat =
      (r.execution.attempt + 1) % 2 ^ 32 := UInt32.toNat_ofNat'
  have hnext : r.execution.attempt = (r.execution.attempt + 1) % 2 ^ 32 := hattempt.trans hwrap
  omega

theorem Sound.attempted (h : Sound s) (a : Attempt) {k : ℕ} (hd : s.dispatches[k]? = some d) :
    Sound { s with
      dispatches := s.dispatches.set k { d with execution := executionAfter a d.execution } } := by
  apply h.with_dispatches
  intro d' hd'
  obtain hold | rfl := List.mem_or_eq_of_mem_set hd'
  · exact h.dispatch d' hold
  · obtain ⟨hgroup, hattempt, hstamp⟩ := executionAfter_eq a d.execution
    obtain hnever | ⟨r, hr, hlike, hne⟩ := h.dispatch d (List.mem_of_getElem? hd)
    · exact .inl (hstamp.trans hnever)
    · refine .inr ⟨r, hr, hlike.trans hstamp.symm, ?_⟩
      rw [Dispatch.origin, hgroup, hattempt]
      exact hne

/-- The report of an attempt, with what its key is like. -/
theorem attempt_report (h : Sound s) (hd : d ∈ s.dispatches) (hissues : IssuesReport a updates) :
    ∃ r : IssuedReport, attemptReports a d start updates = [r] ∧ r.origin = d.origin ∧
      r.execution.attempt < 2 ^ 32 ∧ r.start = (if updates = [] then none else some start) ∧
      r.execution.stamp = (if updates = [] then d.execution.stamp else mark d.node (some start)) ∧
      (r.execution.stamp = mark r.node r.start ∨
        ∃ r' ∈ s.reports, r'.execution.stamp = r.execution.stamp ∧ r'.origin ≠ r.origin) := by
  obtain ⟨ex, heq, hex⟩ := @attemptReports_of_issues a d start updates hissues
  have horigin : IssuedReport.origin ⟨d.node, if updates = [] then none else some start, ex⟩ =
      d.origin := origin_of_heard hex
  have hstamp := stamp_of_heard hex
  have hlt : ex.attempt < 2 ^ 32 := hex.2.1 ▸ UInt32.toNat_lt _
  refine ⟨_, heq, horigin, hlt, rfl, hstamp, ?_⟩
  split_ifs at hstamp with hnil
  · simp only [if_pos hnil, hstamp]
    obtain hnever | ⟨r', hr', hlike, hne⟩ := h.dispatch d hd
    · exact .inl hnever
    · exact .inr ⟨r', hr', hlike, fun heq => hne (heq.trans horigin)⟩
  · simp only [if_neg hnil, hstamp]
    exact .inl trivial

theorem sound_step (jobName : String) (h : Sound s) (e : Event) : Sound (step jobName s e) := by
  cases e with
  | run group cluster =>
    refine h.append_dispatches fun d hd => .inl ?_
    rw [NeverStarted, (Cluster.mem_run.1 hd).2]
    rfl
  | retry k job cluster =>
    rw [step]
    split
    · exact h
    · rename_i r hr
      have hmem := List.mem_of_getElem? hr
      split
      · exact h
      · rename_i next hnext
        exact h.append_dispatches fun d hd =>
          .inr ⟨r, hmem, dispatch_retry (h.attempt_lt r hmem) hnext hd⟩
  | attempt k a start updates =>
    rw [step]
    split
    · exact h
    · rename_i d hd
      have hmem := List.mem_of_getElem? hd
      have hsent := h.attempted (withMessages a d start updates) hd
      by_cases hissues : IssuesReport a updates
      · obtain ⟨r, heq, -, hlt, -, -, hr⟩ := attempt_report h hmem hissues
        rw [heq]
        exact hsent.append_report hr hlt
      · rw [attemptReports_of_not_issues hissues, List.append_nil]
        exact hsent
  | fallback k start u =>
    rw [step]
    split
    · exact h
    · rename_i d hd
      exact h.append_report (.inl rfl) (UInt32.toNat_lt _)

/-- An attempt that issues a report keeps the identity if the mark of its report is fresh. -/
theorem distinct_attempt_iff (jobName : String) (h : Sound s) (hdist : Distinct s) {k : ℕ}
    (hd : s.dispatches[k]? = some d) (a : Attempt) (start : Time) (updates : List AgentUpdate) :
    Distinct (step jobName s (.attempt k a start updates)) ↔
      KeepsIdentity s (.attempt k a start updates) := by
  rw [KeepsIdentity]
  simp only [hd, Option.some.injEq, forall_eq']
  rw [step, hd]
  have hmem := List.mem_of_getElem? hd
  by_cases hissues : IssuesReport a updates
  · obtain ⟨r, heq, horigin, -, -, hstamp, -⟩ := @attempt_report a d start updates s h hmem hissues
    rw [distinct_append (congrArg (s.reports ++ ·) heq), and_iff_right hdist,
      forall_prop_of_true hissues]
    split_ifs at hstamp ⊢ with hnil
    · by_cases hnever : NeverStarted d
      · rw [and_iff_right hnever]
        exact freshMark_iff h hdist horigin (hstamp.trans hnever)
      · -- a retry that did not start has the mark of the attempt before it
        obtain hnever' | ⟨r', hr', hlike, hne⟩ := h.dispatch d hmem
        · exact absurd hnever' hnever
        · refine iff_of_false (fun hfresh => ?_) fun hkept => hnever hkept.1
          exact hfresh r' hr' (horigin ▸ hne) (hlike.trans hstamp.symm)
    · exact freshMark_iff h hdist horigin hstamp
  · refine iff_of_true ?_ fun hissues' => absurd hissues' hissues
    simp only [attemptReports_of_not_issues hissues, List.append_nil]
    exact hdist

theorem distinct_step_iff (jobName : String) (h : Sound s) (hdist : Distinct s) (e : Event) :
    Distinct (step jobName s e) ↔ KeepsIdentity s e := by
  cases e with
  | run group cluster => exact iff_of_true hdist trivial
  | retry k job cluster =>
    refine iff_of_true ?_ trivial
    rw [step]
    split
    · exact hdist
    · split <;> exact hdist
  | attempt k a start updates =>
    cases hd : s.dispatches[k]? with
    | none =>
      rw [KeepsIdentity, step, hd]
      exact iff_of_true hdist nofun
    | some d => exact distinct_attempt_iff jobName h hdist hd a start updates
  | fallback k start u =>
    rw [KeepsIdentity]
    cases hd : s.dispatches[k]? with
    | none =>
      rw [step, hd]
      exact iff_of_true hdist nofun
    | some d =>
      simp only [Option.some.injEq, forall_eq']
      rw [step, hd, distinct_append rfl, and_iff_right hdist]
      exact freshMark_iff h hdist rfl rfl

/-- Another key is another record: storing an execution leaves it alone. -/
theorem execution?_setExecutionTx {e e' : Execution} (hkey : e.key ≠ e'.key) (db : DB) :
    (Store.setExecutionTx e'.toProto db).2.execution? e'.jobName e.key =
      db.execution? e'.jobName e.key := by
  have hrecord : (Value.execution e'.toProto).key ≠ executionKey e'.jobName e.key := fun heq =>
    hkey (append_left_cancel heq).symm
  have hset : (db.set (.execution e'.toProto)).execution? e'.jobName e.key =
      db.execution? e'.jobName e.key := by
    rw [DB.execution?, DB.get_set, if_neg hrecord]
    rfl
  unfold Store.setExecutionTx
  split
  · exact hset
  · split
    · rfl
    · exact hset

/-- The keys of the reports of different groups, nodes or attempts differ in every state of a run,
and a key survives the conversions to the message and back, if and only if no report comes before
the first message of a retry, and no two of them come before the first message or start on one node
at the same nanosecond. -/
theorem identity_iff (jobName : String) (events : List Event) :
    (Runs.Everywhere (step jobName) Distinct {} events ↔
      Runs.Along (step jobName) KeepsIdentity {} events) ∧
    (∀ e e' : Execution, e.key ≠ e'.key → ∀ db : DB,
      (Store.setExecutionTx e'.toProto db).2.execution? e'.jobName e.key =
        db.execution? e'.jobName e.key) ∧
    (∀ e : Execution, e.toProto.key = e.key) ∧
    ∀ e : PbExecution, (newExecutionFromProto e).key = e.key := by
  refine ⟨?_, fun e e' hkey db => execution?_setExecutionTx hkey db, Execution.toProto_key,
    newExecutionFromProto_key⟩
  apply Runs.everywhere_iff_along (J := Sound)
  · exact fun s e h => sound_step jobName h e
  · exact fun s e h hdist => distinct_step_iff jobName h hdist e
  · exact ⟨nofun, nofun, nofun⟩
  · exact nofun

/-- Two runs of a job whose streams break before the first message. -/
def brokenStreams : List Event :=
  [.run 1 .oneNode, .run 2 .oneNode,
    .attempt 0 { ending := .error (.other "EOF"), now := 5 } 0 [],
    .attempt 1 { ending := .error (.other "EOF"), now := 7 } 0 []]

theorem broken_streams_share_key :
    ∃ r ∈ (brokenStreams.foldl (step "a") {}).reports,
      ∃ r' ∈ (brokenStreams.foldl (step "a") {}).reports,
        r.execution.group ≠ r'.execution.group ∧ r.execution.key = r'.execution.key := by
  refine ⟨_, List.mem_cons_self, _, List.mem_cons_of_mem _ List.mem_cons_self, ?_, ?_⟩
  · show (1 : Int) ≠ 2
    decide
  · exact Execution.key_eq_iff.2 rfl

end Issuing

end Dkron
