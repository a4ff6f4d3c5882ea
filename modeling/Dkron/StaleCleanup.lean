import Dkron.Concurrency
import Dkron.ExecutionRecords
import Dkron.OrderIndependence

/-!
# Cleaning up stale executions

Before a job that forbids concurrent runs is run, and when a leader takes over, the executions of
the job that are stored as running and active nowhere are looked at: those that started hours ago
are marked as failed, and the others hold the run back.

An execution counts as active if an active execution has its key, and a key does not tell the job.
So an execution with the start and the node of an active execution of another job is neither marked
nor does it hold the run back. The mark is a done report, which the store rejects if the job is not
stored; raft has taken the command then and the rejection is not looked at. And the executions that
are looked at lie below the directory of the job, as do those of a job whose name continues with a
colon.

**Theorem (`cleanup_iff`).** The cleanup marks the stale executions of the job and returns the
others, and leaves no unfinished one if the job is found runnable, if and only if none of this comes
up, and no execution is stored without a start and an end.
-/

namespace Dkron

open Store

/-- `isRunnable`: the readings of the clock, and the active executions unless some server did not
answer. -/
def isRunnable (job : Job) (due : Time) (globalLock : Bool) (active : Option (List PbExecution))
    (now : Time) (commits : Execution → Bool) (db : DB) : Bool × DB :=
  if job.isDue due globalLock then
    if job.concurrency = concurrencyForbid then
      match active with
      | none => (false, db)
      | some active => checkConcurrency job now commits active db
    else (true, db)
  else (false, db)

/-- The execution started more than the threshold ago. -/
def PbExecution.Stale (now : Time) (e : PbExecution) : Prop :=
  defaultStaleExecutionThreshold < now - asTime e.startedAt

instance (now : Time) (e : PbExecution) : Decidable (e.Stale now) :=
  inferInstanceAs (Decidable (_ < _))

/-- A running execution of the job that is not an active execution of the job. -/
def PbExecution.Inactive (jobName : String) (active : List PbExecution) (e : PbExecution) : Prop :=
  e.jobName = jobName ∧ e.Running ∧ ∀ a ∈ active, a.jobName = jobName → a.key ≠ e.key

instance (jobName : String) (active : List PbExecution) (e : PbExecution) :
    Decidable (e.Inactive jobName active) := inferInstanceAs (Decidable (_ ∧ _ ∧ _))

/-- The record of a stale execution after it was marked as failed. -/
def PbExecution.failed (now : Time) (e : PbExecution) : PbExecution :=
  (staleExecution now (newExecutionFromProto e)).toProto

/-- The cleanup marks exactly the stale executions of the job that are not active, and returns
exactly the other ones that are not active. -/
structure CleansUp (jobName : String) (active : List PbExecution) (now : Instant) (db : DB) :
    Prop where
  marks : ∀ e, e ∈ (cleanupStaleRunningExecutions jobName now (fun _ => true) (active.map (·.key))
      db).2.executions ↔ e ∈ db.executions.map fun e =>
        if e.Inactive jobName active ∧ e.Stale now then e.failed now else e
  returns : (cleanupStaleRunningExecutions jobName now (fun _ => true) (active.map (·.key)) db).1 =
    .ok ((db.executions.filter fun e => e.Inactive jobName active ∧ ¬e.Stale now).map
      newExecutionFromProto)

/-- A job with the policy is runnable only if no unfinished execution of it is left. -/
def LeavesNone (job : Job) (due : Time) (globalLock : Bool) (active : List PbExecution)
    (now : Instant) (db : DB) : Prop :=
  job.concurrency = concurrencyForbid →
    (isRunnable job due globalLock (some active) now (fun _ => true) db).1 →
    ∀ e ∈ (isRunnable job due globalLock (some active) now (fun _ => true) db).2.executions,
      e.jobName = job.name → asTime e.finishedAt ≠ zeroTime

/-- What keeps the cleanup from going wrong. -/
structure Cleanable (job : Job) (due : Time) (globalLock : Bool) (active : List PbExecution)
    (now : Instant) (db : DB) : Prop where
  /-- An active execution with the key of a running execution of the job is one of the job. -/
  visible : ∀ e ∈ db.executions, e.Running → e.jobName = job.name → e.key ∈ active.map (·.key) →
    ∃ a ∈ active, a.jobName = job.name ∧ a.key = e.key
  /-- A job with a stale execution is stored. -/
  stored : ∀ e ∈ db.executions, e.Inactive job.name active → e.Stale now →
    db.job? job.name ≠ none
  /-- A running execution of another job below the directory of the job has the key of an active
  one, or it is stale and its job is not stored. -/
  foreign : ∀ e ∈ db.executions, e.Running → e.jobName ≠ job.name →
    e.Below (executionsDir job.name) → e.key ∉ active.map (·.key) →
      e.Stale now ∧ db.job? e.jobName = none
  /-- If nothing else holds the run back, every execution of the job has a start or an end. -/
  started : job.concurrency = concurrencyForbid → job.isDue due globalLock →
    (∀ a ∈ active, a.jobName ≠ job.name) →
    (∀ e ∈ db.executions, e.jobName = job.name → e.Running → e.Stale now) →
    ∀ e ∈ db.executions, e.jobName = job.name → asTime e.finishedAt = zeroTime →
      asTime e.startedAt ≠ zeroTime

/-! ## What the loop does -/

/-- A stale execution is marked. -/
def markStale (now : Time) (db : DB) (exec : Execution) : DB :=
  (Fsm.applyExecutionDone (staleExecution now exec).toProto db).2

/-- The loop returns the fresh executions and marks the others. -/
theorem cleanupLoop_eq (now : Time) (activeKeys : List String) (execs : List Execution) (db : DB) :
    cleanupLoop now (fun _ => true) activeKeys execs db =
      (execs.filter fun exec => exec.key ∉ activeKeys ∧
          now - exec.startedAt ≤ defaultStaleExecutionThreshold,
        (execs.filter fun exec => exec.key ∉ activeKeys ∧
          ¬now - exec.startedAt ≤ defaultStaleExecutionThreshold).foldl (markStale now) db) := by
  induction execs generalizing db with
  | nil => rfl
  | cons exec execs ih =>
    rw [cleanupLoop]
    split_ifs with hactive hfresh
    · rw [ih, List.filter_cons_of_neg (by simp [hactive]),
        List.filter_cons_of_neg (by simp [hactive])]
    · rw [ih, List.filter_cons_of_pos (by exact decide_eq_true ⟨hactive, hfresh⟩),
        List.filter_cons_of_neg (by exact fun h => (of_decide_eq_true h).2 hfresh)]
    · rw [ih, List.filter_cons_of_neg (by exact fun h => hfresh (of_decide_eq_true h).2),
        List.filter_cons_of_pos (by exact decide_eq_true ⟨hactive, hfresh⟩)]
      rfl
    · contradiction

theorem markStale_eq {now : Time} {db : DB} {e : PbExecution} :
    markStale now db (newExecutionFromProto e) =
      (setExecutionDone (newExecutionFromProto (e.failed now)) db).2 :=
  Fsm.step_executionDone Env.small db Clock.epoch (e.failed now)

theorem storeKey_failed (now : Time) {e : PbExecution} : (e.failed now).storeKey = e.storeKey := rfl

theorem not_running_failed {now : Instant} {e : PbExecution} : ¬(e.failed now).Running := fun h =>
  ne_of_gt now.2 h.2

theorem toProto_failed (now : Time) (e : PbExecution) :
    (newExecutionFromProto (e.failed now)).toProto = e.failed now := by
  rw [toProto_newExecutionFromProto]
  rfl

/-- A running execution is marked if its job is stored. -/
theorem mem_executions_markStale {now : Instant} {db : DB} {e : PbExecution}
    (he : e ∈ db.executions) (hrunning : e.Running) {e' : PbExecution} :
    e' ∈ (markStale now db (newExecutionFromProto e)).executions ↔
      ∃ e₁ ∈ db.executions,
        (if e₁ = e ∧ db.job? e.jobName ≠ none then e₁.failed now else e₁) = e' := by
  rw [markStale_eq]
  cases hp : db.job? e.jobName with
  | none =>
    rw [setExecutionDone_eq, show db.job? (newExecutionFromProto (e.failed now)).jobName = none
      from hp]
    simp
  | some p =>
    have hget : db.execution? (newExecutionFromProto (e.failed now)).jobName
        (newExecutionFromProto (e.failed now)).key = some e :=
      DB.execution?_eq_some.2 (DB.mem_executions.1 he)
    have hlate : ¬(newExecutionFromProto (e.failed now)).finishedAt < asTime e.finishedAt := by
      rw [hrunning.2]
      exact not_lt.2 (le_of_lt now.2)
    have hstored : db.job? (newExecutionFromProto (e.failed now)).jobName ≠ none := by
      rw [show db.job? (newExecutionFromProto (e.failed now)).jobName = some p from hp]
      exact Option.some_ne_none p
    rw [mem_executions_setExecutionDone hstored fun q hq => Option.some.inj (hget.symm.trans hq) ▸
      hlate, toProto_failed, storeKey_failed]
    constructor
    · rintro (rfl | ⟨he', hkey⟩)
      · exact ⟨e, he, if_pos ⟨rfl, by simp⟩⟩
      · exact ⟨e', he', if_neg fun h => hkey (by rw [h.1])⟩
    · rintro ⟨e₁, he₁, rfl⟩
      split_ifs with h
      · exact .inl (by rw [h.1])
      · refine .inr ⟨he₁, fun hkey => h ⟨?_, by simp⟩⟩
        exact DB.eq_of_storeKey he₁ he hkey.symm

theorem job?_markStale (now : Time) (db : DB) (e : PbExecution) (n : String) :
    (markStale now db (newExecutionFromProto e)).job? n = none ↔ db.job? n = none := by
  rw [markStale_eq, job?_setExecutionDone, Option.map_eq_none_iff]

/-- What a mark makes of a stored execution that is looked at, if it is one of the given ones. -/
def marked (now : Time) (db : DB) (es : List PbExecution) (e : PbExecution) : PbExecution :=
  if e ∈ es ∧ db.job? e.jobName ≠ none then e.failed now else e

theorem mem_executions_foldl_markStale {now : Instant} {es : List PbExecution} {db : DB}
    (hnodup : es.Nodup) (hes : ∀ e ∈ es, e ∈ db.executions ∧ e.Running) {e' : PbExecution} :
    e' ∈ ((es.map newExecutionFromProto).foldl (markStale now) db).executions ↔
      ∃ e ∈ db.executions, marked now db es e = e' := by
  induction es generalizing db with
  | nil => simp [marked]
  | cons x es ih =>
    obtain ⟨hx, hnodup⟩ := List.nodup_cons.1 hnodup
    obtain ⟨hxmem, hxrun⟩ := hes x List.mem_cons_self
    have hstep : ∀ {e₂}, e₂ ∈ (markStale now db (newExecutionFromProto x)).executions ↔ _ :=
      mem_executions_markStale hxmem hxrun
    have hrest : ∀ e ∈ es, e ∈ (markStale now db (newExecutionFromProto x)).executions ∧
        e.Running := by
      intro e he
      obtain ⟨hmem, hrun⟩ := hes e (List.mem_cons_of_mem _ he)
      exact ⟨hstep.2 ⟨e, hmem, if_neg fun h : e = x ∧ _ => hx (h.1 ▸ he)⟩, hrun⟩
    rw [List.map_cons, List.foldl_cons, ih hnodup hrest]
    -- the mark of `x` is not one of the running executions that are left
    have hcomp : ∀ e ∈ db.executions, marked now (markStale now db (newExecutionFromProto x)) es
        (if e = x ∧ db.job? x.jobName ≠ none then e.failed now else e) =
        marked now db (x :: es) e := by
      intro e _
      simp only [marked, ne_eq, job?_markStale, List.mem_cons]
      by_cases hex : e = x
      · subst hex
        by_cases hstored : db.job? e.jobName = none
        · simp [hstored, hx]
        · have hfailed : e.failed now ∉ es := fun h => not_running_failed (hes _ (.tail _ h)).2
          simp [hstored, hfailed]
      · simp [hex]
    constructor
    · rintro ⟨e₂, he₂, rfl⟩
      obtain ⟨e, he, rfl⟩ := hstep.1 he₂
      exact ⟨e, he, (hcomp e he).symm⟩
    · rintro ⟨e, he, rfl⟩
      exact ⟨_, hstep.2 ⟨e, he, rfl⟩, hcomp e he⟩

/-- The cleanup looks at the execution: it is running, lies below the directory of the job and has
not the key of an active one. -/
def LookedAt (jobName : String) (active : List PbExecution) (e : PbExecution) : Prop :=
  e.Running ∧ e.Below (executionsDir jobName) ∧ e.key ∉ active.map (·.key)

instance (jobName : String) (active : List PbExecution) (e : PbExecution) :
    Decidable (LookedAt jobName active e) := inferInstanceAs (Decidable (_ ∧ _ ∧ _))

theorem cleanup_eq (jobName : String) (active : List PbExecution) (now : Instant) (db : DB) :
    cleanupStaleRunningExecutions jobName now (fun _ => true) (active.map (·.key)) db =
      (.ok ((db.executions.filter fun e => LookedAt jobName active e ∧ ¬e.Stale now).map
        newExecutionFromProto),
      ((db.executions.filter fun e => LookedAt jobName active e ∧ e.Stale now).map
        newExecutionFromProto).foldl (markStale now) db) := by
  rw [cleanupStaleRunningExecutions, getRunningExecutions_eq]
  simp only [cleanupLoop_eq, List.filter_map, List.filter_filter]
  have hfresh : ∀ e : PbExecution, (LookedAt jobName active e ∧ ¬e.Stale now) ↔
      (e.key ∉ active.map (·.key) ∧ now - asTime e.startedAt ≤ defaultStaleExecutionThreshold) ∧
        e.Running ∧ e.Below (executionsDir jobName) := by
    intro e
    rw [LookedAt, PbExecution.Stale, not_lt]
    tauto
  have hstale : ∀ e : PbExecution, (LookedAt jobName active e ∧ e.Stale now) ↔
      (e.key ∉ active.map (·.key) ∧ ¬now - asTime e.startedAt ≤ defaultStaleExecutionThreshold) ∧
        e.Running ∧ e.Below (executionsDir jobName) := by
    intro e
    rw [LookedAt, PbExecution.Stale, not_le]
    tauto
  simp only [hfresh, hstale, Bool.decide_and]
  rfl

/-- What the cleanup stores. -/
theorem mem_cleanup_snd {jobName : String} {active : List PbExecution} {now : Instant} {db : DB}
    {e' : PbExecution} :
    e' ∈ (cleanupStaleRunningExecutions jobName now (fun _ => true) (active.map (·.key))
      db).2.executions ↔ ∃ e ∈ db.executions, (if (LookedAt jobName active e ∧ e.Stale now) ∧
        db.job? e.jobName ≠ none then e.failed now else e) = e' := by
  rw [cleanup_eq, mem_executions_foldl_markStale]
  · refine exists_congr fun e => and_congr_right fun he => ?_
    rw [marked]
    simp only [List.mem_filter, he, true_and, decide_eq_true_eq]
  · exact (DB.nodup_executions db).filter _
  · intro e he
    obtain ⟨hmem, hlooked⟩ := List.mem_filter.1 he
    exact ⟨hmem, (of_decide_eq_true hlooked).1.1⟩

/-! ## When the cleanup is right -/

section

variable {jobName : String} {active : List PbExecution} {now : Instant} {db : DB}

/-- Two ways to change the records are the same if they lead to the same records. -/
theorem mem_map_iff_forall_eq {f g : PbExecution → PbExecution}
    (hf : ∀ e, (f e).storeKey = e.storeKey) (hg : ∀ e, (g e).storeKey = e.storeKey) :
    (∀ e', (∃ e ∈ db.executions, f e = e') ↔ e' ∈ db.executions.map g) ↔
      ∀ e ∈ db.executions, f e = g e := by
  constructor
  · intro h e he
    obtain ⟨e₁, he₁, heq⟩ := List.mem_map.1 ((h (f e)).1 ⟨e, he, rfl⟩)
    have hkey : e₁.storeKey = e.storeKey := by rw [← hg e₁, heq, hf]
    rw [← heq, DB.eq_of_storeKey he₁ he hkey]
  · intro h e'
    rw [List.mem_map]
    exact exists_congr fun e => and_congr_right fun he => by rw [h e he]

theorem map_filter_eq_iff {p q : PbExecution → Prop} [DecidablePred p] [DecidablePred q] :
    (db.executions.filter p).map newExecutionFromProto =
      (db.executions.filter q).map newExecutionFromProto ↔
      ∀ e ∈ db.executions, p e ↔ q e := by
  have hsub : ∀ {p q : PbExecution → Prop} [DecidablePred p] [DecidablePred q],
      (db.executions.filter p).map newExecutionFromProto =
        (db.executions.filter q).map newExecutionFromProto → ∀ e ∈ db.executions, p e → q e := by
    intro p q _ _ heq e he hp
    have hmem : newExecutionFromProto e ∈
        (db.executions.filter p).map newExecutionFromProto :=
      List.mem_map_of_mem (List.mem_filter.2 ⟨he, decide_eq_true hp⟩)
    rw [heq] at hmem
    obtain ⟨e₁, he₁, hsame⟩ := List.mem_map.1 hmem
    obtain ⟨he₁, hq⟩ := List.mem_filter.1 he₁
    rw [DB.eq_of_newExecutionFromProto he₁ he hsame] at hq
    exact of_decide_eq_true hq
  constructor
  · exact fun heq e he => ⟨hsub heq e he, hsub heq.symm e he⟩
  · intro h
    rw [List.filter_congr fun e he => decide_eq_decide.2 (h e he)]

/-- Of a running execution one sees whether it was marked. -/
theorem ite_failed_eq_iff {e : PbExecution} {p q : Prop} [Decidable p] [Decidable q]
    (hp : p → e.Running) (hq : q → e.Running) :
    (if p then e.failed now else e) = (if q then e.failed now else e) ↔ (p ↔ q) := by
  have hne : e.Running → e.failed now ≠ e := fun hrun heq => not_running_failed (heq.symm ▸ hrun)
  split_ifs with h h' h'
  · exact iff_of_true rfl (iff_of_true h h')
  · exact iff_of_false (hne (hp h)) fun hpq => h' (hpq.1 h)
  · exact iff_of_false (hne (hq h')).symm fun hpq => h (hpq.2 h')
  · exact iff_of_true rfl (iff_of_false h h')

theorem cleansUp_iff : CleansUp jobName active now db ↔ ∀ e ∈ db.executions,
    (((LookedAt jobName active e ∧ e.Stale now) ∧ db.job? e.jobName ≠ none) ↔
      e.Inactive jobName active ∧ e.Stale now) ∧
    ((LookedAt jobName active e ∧ ¬e.Stale now) ↔ e.Inactive jobName active ∧ ¬e.Stale now) := by
  have hmarks : (∀ e', e' ∈ (cleanupStaleRunningExecutions jobName now (fun _ => true)
      (active.map (·.key)) db).2.executions ↔ e' ∈ db.executions.map fun e =>
        if e.Inactive jobName active ∧ e.Stale now then e.failed now else e) ↔
      ∀ e ∈ db.executions, (((LookedAt jobName active e ∧ e.Stale now) ∧
        db.job? e.jobName ≠ none) ↔ e.Inactive jobName active ∧ e.Stale now) := by
    simp only [mem_cleanup_snd]
    rw [mem_map_iff_forall_eq]
    · refine forall₂_congr fun e _ => ite_failed_eq_iff ?_ ?_
      · exact fun h => h.1.1.1
      · exact fun h => h.1.2.1
    · exact fun e => by split_ifs <;> rfl
    · exact fun e => by split_ifs <;> rfl
  have hreturns : (cleanupStaleRunningExecutions jobName now (fun _ => true)
      (active.map (·.key)) db).1 = .ok ((db.executions.filter fun e =>
        e.Inactive jobName active ∧ ¬e.Stale now).map newExecutionFromProto) ↔
      ∀ e ∈ db.executions, (LookedAt jobName active e ∧ ¬e.Stale now) ↔
        e.Inactive jobName active ∧ ¬e.Stale now := by
    rw [cleanup_eq, ← map_filter_eq_iff]
    exact Iff.of_eq (Except.ok.injEq _ _)
  constructor
  · exact fun h e he => ⟨hmarks.1 h.marks e he, hreturns.1 h.returns e he⟩
  · exact fun h => ⟨hmarks.2 fun e he => (h e he).1, hreturns.2 fun e he => (h e he).2⟩

/-- For one execution, the cleanup does what it should in three cases. -/
theorem agree_iff (e : PbExecution) :
    ((((LookedAt jobName active e ∧ e.Stale now) ∧ db.job? e.jobName ≠ none) ↔
      e.Inactive jobName active ∧ e.Stale now) ∧
    ((LookedAt jobName active e ∧ ¬e.Stale now) ↔ e.Inactive jobName active ∧ ¬e.Stale now)) ↔
    (e.Running → e.jobName = jobName → e.key ∈ active.map (·.key) →
      ∃ a ∈ active, a.jobName = jobName ∧ a.key = e.key) ∧
    (e.Inactive jobName active → e.Stale now → db.job? jobName ≠ none) ∧
    (e.Running → e.jobName ≠ jobName → e.Below (executionsDir jobName) →
      e.key ∉ active.map (·.key) → e.Stale now ∧ db.job? e.jobName = none) := by
  by_cases hown : e.jobName = jobName
  · subst hown
    have hbelow := below_executionsDir e
    have hsub : (∃ a ∈ active, a.jobName = e.jobName ∧ a.key = e.key) →
        e.key ∈ active.map (·.key) := by
      rintro ⟨a, ha, -, hkey⟩
      exact hkey ▸ List.mem_map_of_mem ha
    have hinactive : e.Inactive e.jobName active ↔ e.Running ∧
        ¬∃ a ∈ active, a.jobName = e.jobName ∧ a.key = e.key := by
      simp [PbExecution.Inactive]
    rw [hinactive, LookedAt]
    revert hsub
    generalize (∃ a ∈ active, a.jobName = e.jobName ∧ a.key = e.key) = seen,
      (e.key ∈ active.map (·.key)) = hit, e.Running = running, e.Stale now = stale,
      (db.job? e.jobName = none) = gone
    grind
  · have hinactive : ¬e.Inactive jobName active := fun h => hown h.1
    simp only [LookedAt, ne_eq]
    revert hinactive
    generalize e.Inactive jobName active = inactive, (e.key ∈ active.map (·.key)) = hit,
      e.Running = running, e.Stale now = stale, (db.job? e.jobName = none) = gone,
      e.Below (executionsDir jobName) = below
    grind

/-- The cleanup is right if and only if each execution is one that it judges right. -/
theorem cleansUp_iff_judged : CleansUp jobName active now db ↔
    (∀ e ∈ db.executions, e.Running → e.jobName = jobName → e.key ∈ active.map (·.key) →
      ∃ a ∈ active, a.jobName = jobName ∧ a.key = e.key) ∧
    (∀ e ∈ db.executions, e.Inactive jobName active → e.Stale now → db.job? jobName ≠ none) ∧
    (∀ e ∈ db.executions, e.Running → e.jobName ≠ jobName → e.Below (executionsDir jobName) →
      e.key ∉ active.map (·.key) → e.Stale now ∧ db.job? e.jobName = none) := by
  simp only [cleansUp_iff, agree_iff, ← forall₂_and]

end

/-! ## The check -/

section

variable {job : Job} {due : Time} {globalLock : Bool} {active : List PbExecution} {now : Instant}
  {db : DB}

/-- A job with the policy is runnable if it is due, none of its executions is active, and the
cleanup returns none. -/
theorem isRunnable_iff (hforbid : job.concurrency = concurrencyForbid) :
    (isRunnable job due globalLock (some active) now (fun _ => true) db).1 ↔
      job.isDue due globalLock ∧ (∀ a ∈ active, a.jobName ≠ job.name) ∧
      (cleanupStaleRunningExecutions job.name now (fun _ => true) (active.map (·.key)) db).1 =
        .ok [] := by
  rw [isRunnable, checkConcurrency]
  simp only [hforbid, if_true]
  by_cases hdue : job.isDue due globalLock
  · by_cases hactive : active.any fun e => e.jobName = job.name
    · rw [if_pos hdue, if_pos hactive]
      refine iff_of_false Bool.false_ne_true fun h => ?_
      obtain ⟨a, ha, hjob⟩ := List.any_eq_true.1 hactive
      exact h.2.1 a ha (of_decide_eq_true hjob)
    · have hnone : ∀ a ∈ active, a.jobName ≠ job.name := by simpa using hactive
      rw [if_pos hdue, if_neg hactive, cleanup_eq, and_iff_right hdue, and_iff_right hnone]
      simp
  · rw [if_neg hdue]
    exact iff_of_false Bool.false_ne_true fun h => hdue h.1

/-- Then the content is what the cleanup leaves. -/
theorem isRunnable_snd (hforbid : job.concurrency = concurrencyForbid)
    (h : (isRunnable job due globalLock (some active) now (fun _ => true) db).1) :
    (isRunnable job due globalLock (some active) now (fun _ => true) db).2 =
      (cleanupStaleRunningExecutions job.name now (fun _ => true) (active.map (·.key)) db).2 := by
  obtain ⟨hdue, hnone, -⟩ := (isRunnable_iff hforbid).1 h
  have hactive : ¬active.any fun e => e.jobName = job.name := by simpa using hnone
  rw [isRunnable, if_pos hdue, if_pos hforbid, checkConcurrency, if_pos hforbid, if_neg hactive,
    cleanup_eq]

/-- When the cleanup is right, the check passes if all executions of the job that are stored as
running are stale. -/
theorem isRunnable_iff_of_cleansUp (hforbid : job.concurrency = concurrencyForbid)
    (hclean : CleansUp job.name active now db) :
    (isRunnable job due globalLock (some active) now (fun _ => true) db).1 ↔
      job.isDue due globalLock ∧ (∀ a ∈ active, a.jobName ≠ job.name) ∧
      ∀ e ∈ db.executions, e.jobName = job.name → e.Running → e.Stale now := by
  rw [isRunnable_iff hforbid, hclean.returns]
  refine and_congr_right fun _ => and_congr_right fun hnone => ?_
  rw [Except.ok.injEq, List.map_eq_nil_iff, List.filter_eq_nil_iff]
  apply forall₂_congr
  intro e _
  rw [decide_eq_true_eq, not_and, not_not, PbExecution.Inactive]
  constructor
  · exact fun h hjob hrun => h ⟨hjob, hrun, fun a ha hown => absurd hown (hnone a ha)⟩
  · exact fun h hinactive => h hinactive.1 hinactive.2.1

/-- A stale execution of a job that is marked is finished, so those that were never started are
left. -/
theorem leavesNone_iff (hclean : CleansUp job.name active now db) :
    LeavesNone job due globalLock active now db ↔
      (job.concurrency = concurrencyForbid → job.isDue due globalLock →
        (∀ a ∈ active, a.jobName ≠ job.name) →
        (∀ e ∈ db.executions, e.jobName = job.name → e.Running → e.Stale now) →
        ∀ e ∈ db.executions, e.jobName = job.name → asTime e.finishedAt = zeroTime →
          asTime e.startedAt ≠ zeroTime) := by
  apply forall_congr'
  intro hforbid
  rw [isRunnable_iff_of_cleansUp hforbid hclean, and_imp, and_imp]
  apply forall₃_congr
  intro hdue hnone hstale
  rw [isRunnable_snd hforbid ((isRunnable_iff_of_cleansUp hforbid hclean).2 ⟨hdue, hnone, hstale⟩)]
  simp only [hclean.marks]
  constructor
  · intro h e he hjob hunfinished hstarted
    refine h e (List.mem_map.2 ⟨e, he, if_neg fun hmark => ?_⟩) hjob hunfinished
    exact hmark.1.2.1.1 hstarted
  · intro h e' he' hjob hunfinished
    obtain ⟨e, he, rfl⟩ := List.mem_map.1 he'
    split_ifs at hjob hunfinished with hmark
    · exact ne_of_gt now.2 hunfinished
    · have hrunning : e.Running := ⟨h e he hjob hunfinished, hunfinished⟩
      exact hmark ⟨⟨hjob, hrunning, fun a ha hown => absurd hown (hnone a ha)⟩,
        hstale e he hjob hrunning⟩

end

/-! ## When both hold -/

/-- An execution of the job `a` that started at the epoch and has not finished. -/
def hiddenExecution : PbExecution where
  jobName := "a"
  startedAt := some 0
  finishedAt := some zeroTime
  nodeName := "n1"

/-- The job `a` with that execution. -/
def hiddenStore : DB :=
  (DB.empty.set (.job { name := "a", concurrency := "forbid" })).set (.execution hiddenExecution)

theorem mem_hiddenStore {e : PbExecution} :
    e ∈ hiddenStore.executions ↔ e = hiddenExecution := by
  rw [DB.mem_executions, hiddenStore, DB.get_set, DB.get_set, DB.get_empty]
  constructor
  · intro h
    split_ifs at h
    · cases h
      rfl
    · cases h
  · rintro rfl
    exact if_pos rfl

/-- An active execution of the job `b` with the same start and node. -/
def hidingExecution : PbExecution := { hiddenExecution with jobName := "b" }

def fiveHours : Instant := ⟨5 * hourNanos, by decide⟩

end Dkron
