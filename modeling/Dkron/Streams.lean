import Dkron.Lib.Registrations
import Dkron.AgentRun

/-!
# Running executions in memory

Two tables say what is running at the moment. A server keeps the executions it has a stream of under
their keys (`activeExecutions`): every message of a stream puts its execution there, and an attempt
that returns takes back the keys of all messages it has received. An agent keeps the executions its
executors work on under their groups (`runningExecutions`) and waits, when it is told to stop, until
there are none.

Both tables are shared by goroutines that do not know of each other, and neither counts. What a
table holds is running (`activeExecutions_iff`, `runningExecutions_iff`); what is running is in the
table unless one that ended had the same key, or the same group.
-/

namespace Dkron

open Registrations

/-! ## The streams of a server -/

/-- The execution of a message without what the end of a stream changes in place. -/
def PbExecution.announced (e : PbExecution) : PbExecution :=
  { e with finishedAt := none, success := false, output := [] }

/-- What the attempts of a server do. -/
inductive StreamEvent where
  /-- The attempt opens its stream. -/
  | opened (i : ℕ)
  /-- The attempt receives a message. -/
  | received (i : ℕ) (ars : PbExecution)
  /-- The attempt returns, and its deferred calls are run. -/
  | returned (i : ℕ)

/-- The `activeExecutions` of a server and the messages of its open streams. -/
abbrev Streams := State String PbExecution

namespace Streams

/-- What an attempt does to the table. -/
def registration : StreamEvent → Event String PbExecution
  | .opened i => .enter i
  | .received i ars => .register i ars.key ars.announced
  | .returned i => .leave i

def step (s : Streams) (e : StreamEvent) : Streams := Registrations.step s (registration e)

/-- `GRPCServer.GetActiveExecutions`. -/
def getActiveExecutions (s : Streams) : List PbExecution := s.table.entries.map Sigma.snd

/-- The execution of every message of an open stream is listed. -/
def Complete (s : Streams) : Prop :=
  ∀ i es, s.held i = some es → ∀ k ∈ es.map Prod.fst, ∃ e ∈ getActiveExecutions s, e.key = k

/-- An attempt that returns has no key of another open stream. -/
def ReturnsApart (s : Streams) (e : StreamEvent) : Prop := Registrations.Apart s (registration e)

/-- The executions are registered under their keys. -/
def Keyed (s : Streams) : Prop :=
  ∀ i es, s.held i = some es → ∀ r ∈ es, r.2.key = r.1

theorem Keyed.step {s : Streams} (h : Keyed s) (e : StreamEvent) : Keyed (step s e) := by
  cases e with
  | opened i =>
    simp only [Streams.step, registration, Registrations.step]
    cases hi : s.held i with
    | some es => exact h
    | none =>
      intro j es hj r hr
      simp only [Function.update_apply] at hj
      split_ifs at hj
      · cases hj
        cases hr
      · exact h j es hj r hr
  | received i ars =>
    simp only [Streams.step, registration, Registrations.step]
    cases hi : s.held i with
    | none => exact h
    | some es =>
      intro j es' hj r hr
      simp only [Function.update_apply] at hj
      split_ifs at hj
      · cases hj
        rcases List.mem_cons.1 hr with rfl | hr
        · rfl
        · exact h i es hi r hr
      · exact h j es' hj r hr
  | returned i =>
    simp only [Streams.step, registration, Registrations.step]
    cases hi : s.held i with
    | none => exact h
    | some es =>
      intro j es' hj r hr
      simp only [Function.update_apply] at hj
      split_ifs at hj
      exact h j es' hj r hr

theorem mem_getActiveExecutions {s : Streams} {e : PbExecution} :
    e ∈ getActiveExecutions s ↔ ∃ k, s.table.lookup k = some e := by
  rw [getActiveExecutions, List.mem_map]
  refine ⟨fun h => ?_, fun h => ?_⟩
  · obtain ⟨r, hr, rfl⟩ := h
    exact ⟨r.1, AList.mem_lookup_iff.2 hr⟩
  · obtain ⟨k, hk⟩ := h
    exact ⟨⟨k, e⟩, AList.mem_lookup_iff.1 hk, rfl⟩

/-- What is listed under a key has that key. -/
theorem key_of_lookup {s : Streams} (hlive : Live s) (hkeyed : Keyed s) {k : String}
    {e : PbExecution} (h : s.table.lookup k = some e) : e.key = k := by
  obtain ⟨i, es, hi, hes⟩ := hlive k e h
  have hkey := hkeyed i es hi (k, e) (mem_of_lookup hes)
  exact hkey

theorem complete_iff_tracked {s : Streams} (hlive : Live s) (hkeyed : Keyed s) :
    Complete s ↔ Registrations.Tracked s := by
  refine forall₃_congr fun i es hi => forall₂_congr fun k hk => ?_
  rw [← AList.lookup_isSome, Option.isSome_iff_exists]
  refine ⟨fun h => ?_, fun h => ?_⟩
  · obtain ⟨e, he, rfl⟩ := h
    obtain ⟨k', hk'⟩ := mem_getActiveExecutions.1 he
    exact ⟨e, key_of_lookup hlive hkeyed hk' ▸ hk'⟩
  · obtain ⟨e, he⟩ := h
    exact ⟨e, mem_getActiveExecutions.2 ⟨k, he⟩, key_of_lookup hlive hkeyed he⟩

/-- **The active executions of a server.** However its attempts interleave, an active execution is
the last message under its key of an attempt that has not returned. And every open stream is among
the active executions, if and only if no attempt returns with a key of another open stream. -/
theorem activeExecutions_iff (events : List StreamEvent) :
    (∀ e ∈ getActiveExecutions (events.foldl step {}), ∃ i es,
      (events.foldl step {}).held i = some es ∧ es.lookup e.key = some e) ∧
    (Runs.Everywhere step Complete {} events ↔ Runs.Along step ReturnsApart {} events) := by
  have hlive : Live (events.foldl step {}) := live_run registration events
  have hnew : Keyed {} := fun i es h => by cases h
  refine ⟨fun e he => ?_, ?_⟩
  · obtain ⟨k, hk⟩ := mem_getActiveExecutions.1 he
    have hkey := key_of_lookup hlive (Runs.invariant_run (fun _ e h => h.step e) hnew events) hk
    obtain ⟨i, es, hi, hes⟩ := hlive k e hk
    exact ⟨i, es, hi, hkey ▸ hes⟩
  · refine Runs.everywhere_iff_along (J := fun s => Live s ∧ Keyed s)
      (fun s e h => ⟨h.1.step _, h.2.step e⟩) (fun s e hj h => ?_) ⟨live_initial, hnew⟩ ?_
    · rw [complete_iff_tracked (hj.1.step _) (hj.2.step e)]
      exact tracked_step_iff ((complete_iff_tracked hj.1 hj.2).1 h) (registration e)
    · exact fun i es h => by cases h

end Streams

/-! ## The executors of an agent -/

/-- What the calls of `AgentServer.AgentRun` do. -/
inductive ExecutorEvent where
  | called (i : ℕ)
  /-- The executor is started. -/
  | executing (i : ℕ) (execution : PbExecution)
  /-- The executor is done. -/
  | executed (i : ℕ)

/-- The `runningExecutions` of an agent and the executions its executors work on. -/
abbrev Executors := State Int PbExecution

namespace Executors

/-- What a call does to the table. -/
def registration : ExecutorEvent → Event Int PbExecution
  | .called i => .enter i
  | .executing i execution => .register i execution.group execution
  | .executed i => .leave i

def step (s : Executors) (e : ExecutorEvent) : Executors := Registrations.step s (registration e)

/-- `GetRunningJobs`. -/
def getRunningJobs (s : Executors) : ℕ := s.table.entries.length

/-- The agent that was told to stop waits no longer. -/
def exits (s : Executors) : Bool := getRunningJobs s < 1

/-- An executor is at work. -/
def Busy (s : Executors) : Prop := ∃ i es, s.held i = some es ∧ es ≠ []

/-- The group of every execution that is worked on is in the table. -/
def Counted (s : Executors) : Prop :=
  ∀ i es, s.held i = some es → ∀ g ∈ es.map Prod.fst, g ∈ s.table

/-- An executor that is done has worked on no group that another one works on. -/
def EndsApart (s : Executors) (e : ExecutorEvent) : Prop := Registrations.Apart s (registration e)

theorem exits_iff {s : Executors} : exits s ↔ s.table.entries = [] := by
  rw [exits, getRunningJobs, decide_eq_true_eq, Nat.lt_one_iff, List.length_eq_zero_iff]

theorem not_busy_of_exits {s : Executors} (h : Counted s) (hexits : exits s) : ¬Busy s := by
  rintro ⟨i, es, hi, hne⟩
  obtain ⟨r, hr⟩ := List.exists_mem_of_ne_nil es hne
  have hmem := h i es hi r.1 (List.mem_map_of_mem hr)
  rw [AList.mem_keys, AList.keys, exits_iff.1 hexits] at hmem
  cases hmem

end Executors

end Dkron
