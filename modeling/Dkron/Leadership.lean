import Dkron.Lib.Runs
import Dkron.Scheduler

/-!
# Leadership

`dkron/leader.go`. `monitorLeadership` starts a leader loop when Raft makes the node the leader and
waits for its end when the node is the leader no more. The loop waits for a barrier, establishes
leadership, which starts the scheduler, and reconciles the members until it is told to stop. A loop
that could not establish leadership tries to hand it over and, if that fails too, tries again.

The model interleaves the monitor, the goroutines of all leader loops and `Agent.Stop`. A step ends
one operation of one of them. What an operation does besides is left out: the clean-up of
executions before the scheduler starts, whose errors are only logged, and the calls to Raft for
the members (`RaftPeers`).

Main result: `only_established_leader_schedules`.
-/

namespace Dkron

/-- `Stop`. -/
def Scheduler.stop (s : Scheduler) : Scheduler := { s with started := false }

@[simp] theorem Scheduler.started_stop (s : Scheduler) : s.stop.started = false := rfl

/-- A scheduler that does not start is running only if it was before. -/
theorem Scheduler.started_of_start_error {env : Env} {jobs : List Job} {s : Scheduler} {e : Err}
    (h : (s.start env jobs).1 = .error e) : (s.start env jobs).2.started = s.started := by
  rw [Scheduler.start] at h ⊢
  split_ifs at h ⊢ with hstarted
  · rfl
  · cases hadd : Scheduler.addJobs env jobs (Scheduler.clearCron s.cron) with
    | mk r c =>
      cases r with
      | error e' => rfl
      | ok u => simp [hadd] at h

namespace Monitoring

/-! ## The leader loop -/

/-- What comes next in a leader loop. -/
inductive Label where
  /-- The barrier after `RECONCILE`. -/
  | reconcile
  | establish
  /-- Leadership could not be established. -/
  | revoke
  /-- `leadershipTransfer`, after `i` attempts. -/
  | transfer (i : ℕ)
  /-- `reconcile`. -/
  | members
  /-- The stop channel is polled. -/
  | poll
  /-- The select after `WAIT`. -/
  | wait
  /-- The loop returns, and the deferred call revokes its leadership. -/
  | deferred
  /-- `leaderLoop` has returned. -/
  | returned
  /-- The goroutine has left the wait group. -/
  | finished
deriving DecidableEq

/-- A leader loop: its place, `establishedLeader`, and whether it receives from the agent's
`reconcileCh`. -/
structure LeaderLoop where
  label : Label := .reconcile
  established : Bool := false
  receives : Bool := false

/-- How an attempt to transfer leadership ends. -/
inductive Transfer where
  | succeeded
  | unsupported
  | failed

/-- How an operation of a leader loop ends. -/
inductive Outcome where
  | barrier (r : Except Err Unit)
  | jobs (r : Except Err (List Job))
  | revoked
  | transferred (t : Transfer)
  | reconciled (r : Except Err Unit)
  | polled
  | stop
  | shutdown
  | interval
  | member

/-- `establishLeadership`, with the jobs of the store or the error of reading them. -/
def establishLeadership (env : Env) (jobs : Except Err (List Job)) (s : Scheduler) :
    Except Err Unit × Scheduler :=
  match jobs with
  | .error e => (.error e, s)
  | .ok jobs => s.start env jobs

/-- `revokeLeadership`. -/
def revokeLeadership (s : Scheduler) : Scheduler := s.stop

/-- The number of attempts of `leadershipTransfer`. -/
def retryCount : ℕ := 3

namespace LeaderLoop

/-- The loop goes to `WAIT`. -/
def toWait (l : LeaderLoop) : LeaderLoop := { l with label := .wait }

/-- The loop returns. Revoking is deferred once leadership is established. -/
def leave (l : LeaderLoop) : LeaderLoop :=
  { l with label := if l.established then .deferred else .returned }

/-- `leaderLoop`: what it does when an operation ends. `stopped` and `shutdown` say whether its stop
channel and the agent's shutdown channel are closed. -/
def step (env : Env) (stopped shutdown : Bool) (l : LeaderLoop) (s : Scheduler) :
    Outcome → LeaderLoop × Scheduler
  | .barrier (.error _) =>
    if l.label = .reconcile then ({ l.toWait with receives := false }, s) else (l, s)
  | .barrier (.ok ()) =>
    if l.label = .reconcile then
      ({ l with label := if l.established then .members else .establish, receives := false }, s)
    else (l, s)
  | .jobs jobs =>
    if l.label = .establish then
      match establishLeadership env jobs s with
      | (.error _, s) => ({ l with label := .revoke }, s)
      | (.ok (), s) => ({ l with label := .members, established := true }, s)
    else (l, s)
  | .revoked =>
    match l.label with
    | .revoke => ({ l with label := .transfer 0 }, revokeLeadership s)
    | .deferred => ({ l with label := .returned }, revokeLeadership s)
    | _ => (l, s)
  | .transferred t =>
    match l.label, t with
    | .transfer _, .succeeded => (l.leave, s.stop)
    | .transfer _, .unsupported => (l.toWait, s)
    | .transfer i, .failed =>
      ({ l with label := if i + 1 < retryCount then .transfer (i + 1) else .wait }, s)
    | _, _ => (l, s)
  | .reconciled (.error _) => if l.label = .members then (l.toWait, s) else (l, s)
  | .reconciled (.ok ()) =>
    if l.label = .members then ({ l with label := .poll, receives := true }, s) else (l, s)
  | .polled =>
    if l.label = .poll then (if stopped then (l.leave, s) else (l.toWait, s)) else (l, s)
  | .stop => if l.label = .wait ∧ stopped then (l.leave, s) else (l, s)
  | .shutdown => if l.label = .wait ∧ shutdown then (l.leave, s) else (l, s)
  | .interval => if l.label = .wait then ({ l with label := .reconcile }, s) else (l, s)
  -- a member is reconciled, which leaves the loop where it is
  | .member => (l, s)

/-- The loop has established leadership and not yet returned. -/
def Leads (l : LeaderLoop) : Prop :=
  l.established ∧ l.label ≠ .returned ∧ l.label ≠ .finished

variable {env : Env} {stopped shutdown : Bool} {l : LeaderLoop} {s : Scheduler}

/-- What one step of a leader loop can do to the loop and the scheduler. -/
inductive Moves (l : LeaderLoop) (s : Scheduler) : LeaderLoop × Scheduler → Prop where
  | stay : Moves l s (l, s)
  /-- The loop goes on, and the scheduler runs if it ran before. -/
  | goOn (label : Label) (receives : Bool) (s' : Scheduler) (hreturned : label ≠ .returned)
      (hfinished : label ≠ .finished) (hs : s'.started = s.started) :
      Moves l s ({ l with label := label, receives := receives }, s')
  | leave : Moves l s (l.leave, s)
  /-- The scheduler stops. -/
  | stop (l' : LeaderLoop) : Moves l s (l', s.stop)
  | establish (s' : Scheduler) : Moves l s ({ l with label := .members, established := true }, s')

theorem moves_toWait : Moves l s (l.toWait, s) :=
  .goOn .wait l.receives s (by simp) (by simp) rfl

/-- **Everything a step of a leader loop can do.** -/
theorem step_moves (o : Outcome) : Moves l s (l.step env stopped shutdown s o) := by
  cases o with
  | barrier r =>
    cases r <;> simp only [step] <;> split_ifs
    · exact .goOn .wait false s (by simp) (by simp) rfl
    · exact .stay
    · exact .goOn .members false s (by simp) (by simp) rfl
    · exact .goOn .establish false s (by simp) (by simp) rfl
    · exact .stay
  | jobs jobs =>
    simp only [step]
    split_ifs
    · cases jobs with
      | error e => exact .goOn .revoke l.receives s (by simp) (by simp) rfl
      | ok jobs =>
        simp only [establishLeadership]
        cases hstart : s.start env jobs with
        | mk r s' =>
          cases r with
          | error e =>
            refine .goOn .revoke l.receives s' (by simp) (by simp) ?_
            have h := Scheduler.started_of_start_error (congrArg Prod.fst hstart)
            rwa [hstart] at h
          | ok u => exact .establish s'
    · exact .stay
  | revoked =>
    simp only [step]
    split
    · exact .stop _
    · exact .stop _
    · exact .stay
  | transferred t =>
    simp only [step]
    split
    · exact .stop _
    · exact moves_toWait
    · refine .goOn _ l.receives s ?_ ?_ rfl <;> split_ifs <;> simp
    · exact .stay
  | reconciled r =>
    cases r <;> simp only [step] <;> split_ifs
    · exact moves_toWait
    · exact .stay
    · exact .goOn .poll true s (by simp) (by simp) rfl
    · exact .stay
  | polled =>
    simp only [step]
    split_ifs
    · exact .leave
    · exact moves_toWait
    · exact .stay
  | stop | shutdown =>
    simp only [step]
    split_ifs
    · exact .leave
    · exact .stay
  | interval =>
    simp only [step]
    split_ifs
    · exact .goOn .reconcile l.receives s (by simp) (by simp) rfl
    · exact .stay
  | member => exact .stay

/-- If the scheduler runs only while the loop leads, it does so after a step. -/
theorem step_leads (o : Outcome) (h : s.started → l.Leads)
    (hs : (l.step env stopped shutdown s o).2.started) :
    (l.step env stopped shutdown s o).1.Leads := by
  have hmoves : Moves l s (l.step env stopped shutdown s o) := step_moves o
  generalize l.step env stopped shutdown s o = r at hmoves hs
  cases hmoves with
  | stay => exact h hs
  | goOn label receives s' hreturned hfinished hstarted =>
    exact ⟨(h (hstarted ▸ hs)).1, hreturned, hfinished⟩
  | leave =>
    have hest : l.established = true := (h hs).1
    simp [Leads, LeaderLoop.leave, hest]
  | stop l' => simp at hs
  | establish s' => simp [Leads]

/-- A loop that is finished takes no step. -/
theorem step_of_finished (o : Outcome) (h : l.label = .finished) :
    l.step env stopped shutdown s o = (l, s) := by
  cases o with
  | barrier r => cases r <;> simp [step, h]
  | reconciled r => cases r <;> simp [step, h]
  | _ => simp [step, h]

end LeaderLoop

/-! ## The monitor and the agent -/

/-- What comes next in `monitorLeadership`. -/
inductive Monitor where
  | select
  /-- The stop channel is closed, and the monitor waits for the group. -/
  | wait
  | returned
deriving DecidableEq

/-- The agent: its monitor, the leader loops in the order they were started, and the scheduler. A
stop channel has the number of the loop it was made for. -/
structure State where
  monitor : Monitor := .select
  weAreLeaderCh : Option ℕ := none
  waitGroup : ℕ := 0
  closed : ℕ → Bool := fun _ => false
  loops : ℕ → Option LeaderLoop := fun _ => none
  started : ℕ := 0
  shutdown : Bool := false
  sched : Scheduler := {}
  /-- The last notification that was processed. -/
  processed : Option Bool := none

/-- An event of the agent. -/
inductive Event where
  | notify (isLeader : Bool)
  /-- The monitor finds the wait group empty. -/
  | waited
  | shutdown
  /-- The monitor finds the shutdown channel closed. -/
  | monitorReturn
  | leaderLoop (i : ℕ) (o : Outcome)
  /-- The goroutine of a leader loop leaves the wait group. -/
  | done (i : ℕ)
  /-- `Agent.Stop`. -/
  | agentStop

/-- `monitorLeadership`: what it does when a notification arrives. -/
def notified (s : State) : Bool → State
  | true =>
    match s.weAreLeaderCh with
    | some _ => { s with processed := some true }
    | none =>
      { s with
        weAreLeaderCh := some s.started
        waitGroup := s.waitGroup + 1
        loops := Function.update s.loops s.started (some {})
        started := s.started + 1
        processed := some true }
  | false =>
    match s.weAreLeaderCh with
    | none => { s with processed := some false }
    | some i => { s with closed := Function.update s.closed i true, monitor := .wait }

/-- What one event does. -/
def step (env : Env) (s : State) : Event → State
  | .notify isLeader => if s.monitor = .select then notified s isLeader else s
  | .waited =>
    if s.monitor = .wait ∧ s.waitGroup = 0 then
      { s with weAreLeaderCh := none, monitor := .select, processed := some false }
    else s
  | .shutdown => { s with shutdown := true }
  | .monitorReturn =>
    if s.monitor = .select ∧ s.shutdown then { s with monitor := .returned } else s
  | .leaderLoop i o =>
    match s.loops i with
    | none => s
    | some l =>
      let r := l.step env (s.closed i) s.shutdown s.sched o
      { s with loops := Function.update s.loops i (some r.1), sched := r.2 }
  | .done i =>
    match s.loops i with
    | none => s
    | some l =>
      if l.label = .returned then
        { s with
          loops := Function.update s.loops i (some { l with label := .finished })
          waitGroup := s.waitGroup - 1 }
      else s
  | .agentStop => if s.sched.started then { s with sched := s.sched.stop } else s

/-- The goroutine of loop `i` is in the wait group. -/
def State.Unfinished (s : State) (i : ℕ) : Prop :=
  ∃ l, s.loops i = some l ∧ l.label ≠ .finished

/-- Loop `i` has been started and has not returned. -/
def State.Running (s : State) (i : ℕ) : Prop :=
  ∃ l, s.loops i = some l ∧ l.label ≠ .returned ∧ l.label ≠ .finished

/-- Loop `i` is running and has established leadership. -/
def State.Established (s : State) (i : ℕ) : Prop := ∃ l, s.loops i = some l ∧ l.Leads

/-- The invariant of the agent. -/
structure Inv (s : State) : Prop where
  /-- Only the loop of the monitor's channel is unfinished. -/
  current : ∀ i, s.Unfinished i → s.weAreLeaderCh = some i
  counted : ∀ i, s.Unfinished i → 0 < s.waitGroup
  scheduled : s.sched.started → ∃ i, s.Established i
  lost : s.processed = some false → s.weAreLeaderCh = none

variable {env : Env} {s : State}

/-! ## The loops of the agent -/

theorem State.Established.running {i : ℕ} (h : s.Established i) : s.Running i := by
  obtain ⟨l, hl, hleads⟩ := h
  exact ⟨l, hl, hleads.2⟩

theorem State.Running.unfinished {i : ℕ} (h : s.Running i) : s.Unfinished i := by
  obtain ⟨l, hl, -, hlabel⟩ := h
  exact ⟨l, hl, hlabel⟩

/-- After one loop has moved, an unfinished loop is that one or was unfinished before. -/
theorem unfinished_of_update {t : State} {i j : ℕ} {l : LeaderLoop}
    (ht : t.loops = Function.update s.loops i (some l)) (h : t.Unfinished j) :
    j = i ∧ l.label ≠ .finished ∨ j ≠ i ∧ s.Unfinished j := by
  obtain ⟨l', hl', hlabel⟩ := h
  rw [ht, Runs.update_eq_some_iff] at hl'
  rcases hl' with ⟨hj, hl⟩ | ⟨hj, hl⟩
  · rw [← Option.some.inj hl] at hlabel
    exact .inl ⟨hj, hlabel⟩
  · exact .inr ⟨hj, l', hl, hlabel⟩

/-- The monitor without a channel has waited for every loop. -/
theorem Inv.finished (h : Inv s) (hch : s.weAreLeaderCh = none) (i : ℕ) : ¬s.Unfinished i := by
  intro hi
  have hcurrent := h.current i hi
  simp [hch] at hcurrent

/-- Without an unfinished loop the scheduler is stopped. -/
theorem Inv.stopped (h : Inv s) (hch : s.weAreLeaderCh = none) : ¬s.sched.started := by
  intro hs
  obtain ⟨i, hi⟩ := h.scheduled hs
  exact h.finished hch i hi.running.unfinished

/-- Two unfinished loops are the same. -/
theorem Inv.eq_of_unfinished (h : Inv s) {i j : ℕ} (hi : s.Unfinished i) (hj : s.Unfinished j) :
    i = j := Option.some.inj ((h.current i hi).symm.trans (h.current j hj))

/-! ## Steps of the agent -/

theorem Inv.notified (h : Inv s) (isLeader : Bool) : Inv (notified s isLeader) := by
  cases isLeader with
  | true =>
    cases hch : s.weAreLeaderCh with
    | some i =>
      simp only [Monitoring.notified, hch]
      exact ⟨fun j hj => hch ▸ h.current j hj, h.counted, h.scheduled, by simp⟩
    | none =>
      simp only [Monitoring.notified, hch]
      refine ⟨fun j hj => ?_, fun j hj => Nat.succ_pos _, fun hs => absurd hs (h.stopped hch),
        by simp⟩
      rcases unfinished_of_update (s := s) rfl hj with ⟨rfl, -⟩ | ⟨-, hj⟩
      · rfl
      · exact absurd hj (h.finished hch j)
  | false =>
    cases hch : s.weAreLeaderCh with
    | none =>
      simp only [Monitoring.notified, hch]
      exact ⟨fun j hj => absurd hj (h.finished hch j), h.counted, h.scheduled, fun _ => rfl⟩
    | some i =>
      simp only [Monitoring.notified, hch]
      exact ⟨fun j hj => hch ▸ h.current j hj, h.counted, h.scheduled, fun hp => hch ▸ h.lost hp⟩

/-- The wait group is empty, so every loop is finished. -/
theorem Inv.waited (h : Inv s) (hgroup : s.waitGroup = 0) :
    Inv { s with weAreLeaderCh := none, monitor := .select, processed := some false } := by
  refine ⟨fun i hi => ?_, h.counted, h.scheduled, fun _ => rfl⟩
  have hpos : 0 < s.waitGroup := h.counted i hi
  omega

theorem Inv.leaderLoop (h : Inv s) {i : ℕ} {l : LeaderLoop} (hl : s.loops i = some l)
    (o : Outcome) :
    Inv { s with
      loops := Function.update s.loops i
        (some (l.step env (s.closed i) s.shutdown s.sched o).1)
      sched := (l.step env (s.closed i) s.shutdown s.sched o).2 } := by
  by_cases hfinished : l.label = .finished
  · rw [LeaderLoop.step_of_finished o hfinished, ← hl, Function.update_eq_self]
    exact h
  · have hi : s.Unfinished i := ⟨l, hl, hfinished⟩
    have hunfinished : ∀ {t : State} {j : ℕ} {l' : LeaderLoop},
        t.loops = Function.update s.loops i (some l') → t.Unfinished j → s.Unfinished j := by
      intro t j l' ht hj
      rcases unfinished_of_update ht hj with ⟨rfl, -⟩ | ⟨-, hj⟩
      · exact hi
      · exact hj
    have hleads : s.sched.started → l.Leads := by
      intro hs
      obtain ⟨j, hj⟩ := h.scheduled hs
      obtain rfl := h.eq_of_unfinished hi hj.running.unfinished
      obtain ⟨l', hl', hleads⟩ := hj
      rwa [Option.some.inj (hl.symm.trans hl')]
    exact ⟨fun j hj => h.current j (hunfinished rfl hj),
      fun j hj => h.counted j (hunfinished rfl hj),
      fun hs => ⟨i, _, Function.update_self i _ _, LeaderLoop.step_leads o hleads hs⟩, h.lost⟩

theorem Inv.done (h : Inv s) {i : ℕ} {l : LeaderLoop} (hl : s.loops i = some l)
    (hlabel : l.label = .returned) :
    Inv { s with
      loops := Function.update s.loops i (some { l with label := .finished })
      waitGroup := s.waitGroup - 1 } := by
  have hi : s.Unfinished i := ⟨l, hl, by simp [hlabel]⟩
  have hnone : ∀ {t : State} {j : ℕ},
      t.loops = Function.update s.loops i (some { l with label := .finished }) →
        ¬t.Unfinished j := by
    intro t j ht hj
    rcases unfinished_of_update ht hj with ⟨-, hlabel⟩ | ⟨hne, hj⟩
    · exact hlabel rfl
    · exact hne (h.eq_of_unfinished hj hi)
  refine ⟨fun j hj => absurd hj (hnone rfl), fun j hj => absurd hj (hnone rfl),
    fun hs => ?_, h.lost⟩
  -- the loop that leads would be the one that has returned
  obtain ⟨j, hj⟩ := h.scheduled hs
  obtain rfl := h.eq_of_unfinished hi hj.running.unfinished
  obtain ⟨l', hl', hleads⟩ := hj
  rw [Option.some.inj (hl.symm.trans hl')] at hlabel
  exact absurd hlabel hleads.2.1

theorem Inv.agentStop (h : Inv s) : Inv { s with sched := s.sched.stop } :=
  ⟨h.current, h.counted, fun hs => by simp at hs, h.lost⟩

/-- **The step.** Every event keeps the invariant. -/
theorem Inv.step (h : Inv s) (e : Event) : Inv (step env s e) := by
  cases e with
  | notify isLeader =>
    simp only [Monitoring.step]
    split_ifs
    · exact h.notified isLeader
    · exact h
  | waited =>
    simp only [Monitoring.step]
    split_ifs with hwait
    · exact h.waited hwait.2
    · exact h
  | shutdown => exact ⟨h.current, h.counted, h.scheduled, h.lost⟩
  | monitorReturn =>
    simp only [Monitoring.step]
    split_ifs
    · exact ⟨h.current, h.counted, h.scheduled, h.lost⟩
    · exact h
  | leaderLoop i o =>
    simp only [Monitoring.step]
    cases hl : s.loops i with
    | none => exact h
    | some l => exact h.leaderLoop hl o
  | done i =>
    simp only [Monitoring.step]
    cases hl : s.loops i with
    | none => exact h
    | some l =>
      simp only
      split_ifs with hlabel
      · exact h.done hl hlabel
      · exact h
  | agentStop =>
    simp only [Monitoring.step]
    split_ifs
    · exact h.agentStop
    · exact h

theorem inv_init : Inv {} :=
  ⟨fun i hi => by simp [State.Unfinished] at hi, fun i hi => by simp [State.Unfinished] at hi,
    fun hs => by simp at hs, fun hp => by simp at hp⟩

end Monitoring

open Monitoring

/-- **Only an established leader schedules.** After any events, no two leader loops are running,
the scheduler runs only while a loop runs that has established leadership, and once a loss of
leadership has been processed the scheduler is stopped. -/
theorem only_established_leader_schedules (env : Env) (events : List Monitoring.Event) :
    let s := events.foldl (step env) {}
    (∀ i j, s.Running i → s.Running j → i = j) ∧
      (s.sched.started → ∃ i, s.Established i) ∧
      (s.processed = some false → ¬s.sched.started) := by
  have h : Inv (events.foldl (step env) {}) := Runs.invariant_run (fun _ e h => h.step e) inv_init
    events
  exact ⟨fun i j hi hj => h.eq_of_unfinished hi.unfinished hj.unfinished, h.scheduled,
    fun hp => h.stopped (h.lost hp)⟩

/-- A leader loop whose barrier is reached starts the scheduler of an empty store. -/
example (env : Env) :
    ([.notify true, .leaderLoop 0 (.barrier (.ok ())), .leaderLoop 0 (.jobs (.ok []))].foldl
      (step env) {}).sched.started = true := rfl

end Dkron
