import Dkron.Lib.Runs
import Dkron.StoreSpec

/-!
# Replicas and their clocks

Every server applies the commands of the log itself, at a moment and in a time zone of its own.
`SetJob` computes `Next` of a job whose schedule is new from the local clock; nothing else looks at
it. The leader's `Run` does it differently and ships the `Next` it computed in the command.

Nothing is assumed of the content here: the results hold for any content two replicas share.

Main result: `replicas_agree_iff`.
-/

namespace Dkron

open Store

section

variable {env : Env} {clk₁ clk₂ : Clock} {db : DB}

/-! ## Where the clock is read -/

theorem getNext_congr {j k : Job} (hname : j.name = k.name) (hschedule : j.schedule = k.schedule)
    (hstart : j.startsAt = k.startsAt) (clk : Clock) :
    j.getNext env clk.zone clk.now = k.getNext env clk.zone clk.now := by
  unfold Job.getNext Job.getNext.scheduled Job.scheduleHash
  rw [hname, hschedule, hstart]

/-- `setNext` reads the clock when the schedule is not the stored one. -/
theorem setNext_clock {ej job : Job} (h : job.schedule = ej.schedule ∨
    job.getNext env clk₁.zone clk₁.now = job.getNext env clk₂.zone clk₂.now) :
    setNext env clk₁ ej job = setNext env clk₂ ej job := by
  unfold setNext
  rcases h with h | h
  · simp only [h, ne_eq, not_true_eq_false, if_false]
  · rw [h]

/-- Setting a stored job again with its old schedule and parent reads no clock, and writes nothing
else. This is what `SetJob` and `DeleteJob` do to the parents. -/
theorem setJobDepth_parent_clock (env : Env) {job : Job} {p : PbJob}
    (hp : db.job? job.name = some p) (hparent : job.parentJob = p.parentJob)
    (hschedule : job.schedule = p.schedule)
    (copyDependentJobs : Bool) (depth : Nat) :
    ∃ r : Except Err Unit × DB,
      (∀ clk, setJobDepth env clk (depth + 1) job copyDependentJobs db = r) ∧
      ∀ k, k ≠ jobKey job.name → r.2.get k = db.get k := by
  obtain ⟨hkname, hkparent, hkschedule, -⟩ :=
    keepStored_definition copyDependentJobs (newJobFromProto p) job
  have hej : storedJob job.name db = newJobFromProto p := storedJob_of_job? hp
  have hnext : ∀ clk, setNext env clk (newJobFromProto p)
      (keepStored copyDependentJobs (newJobFromProto p) job) = setNext env Clock.epoch
      (newJobFromProto p) (keepStored copyDependentJobs (newJobFromProto p) job) :=
    fun clk => setNext_clock (.inl (hkschedule.trans hschedule))
  unfold setJobDepth
  cases job.validate env with
  | error e => exact ⟨_, fun clk => rfl, fun k _ => rfl⟩
  | ok u =>
    by_cases hfound : job.parentJob ≠ "" ∧ db.job? job.parentJob = none
    · exact ⟨_, fun clk => if_pos hfound, fun k _ => rfl⟩
    · simp only [if_neg hfound, setJobTx, hej, hnext]
      cases hm : setNext env Clock.epoch (newJobFromProto p)
          (keepStored copyDependentJobs (newJobFromProto p) job) with
      | error e => exact ⟨_, fun clk => rfl, fun k _ => rfl⟩
      | ok m =>
        have hmname : m.name = job.name := by
          obtain ⟨t, rfl⟩ := setNext_eq_ok hm
          exact hkname
        have hmparent : m.parentJob = (newJobFromProto p).parentJob := by
          obtain ⟨t, rfl⟩ := setNext_eq_ok hm
          exact hkparent.trans hparent
        refine ⟨_, fun clk => if_pos hmparent, fun k hne => ?_⟩
        have hkey : (Value.job m.toProto).key = jobKey job.name := congrArg jobKey hmname
        rw [DB.get_set, hkey, if_neg (Ne.symm hne)]

/-- What a change of the lists reads and writes: no clock, and not the child's own record, because
a parent that is the job itself is an error. -/
theorem updateParent_clock {child parent : Job} (hparent : getParent child db = .ok parent)
    (djs : List String) (depth : Nat) :
    ∃ r : Except Err Unit × DB,
      (∀ clk, setJobDepth env clk (depth + 1) { parent with dependentJobs := djs } false db = r) ∧
      r.2.get (jobKey child.name) = db.get (jobKey child.name) := by
  unfold getParent at hparent
  split_ifs at hparent with hself hempty
  cases hp : db.job? child.parentJob with
  | none =>
    rw [getJob, hp] at hparent
    cases hparent
  | some p =>
    rw [getJob, hp] at hparent
    cases hparent
    have hname : (newJobFromProto p).name = child.parentJob := DB.name_of_job? hp
    have hp' : db.job? { newJobFromProto p with dependentJobs := djs }.name = some p := by
      rw [← hp]
      exact congrArg db.job? hname
    obtain ⟨r, hr, hframe⟩ := setJobDepth_parent_clock env hp' rfl rfl false depth
    refine ⟨r, hr, hframe _ fun hk => hself ?_⟩
    rw [← hname]
    exact jobKey_inj.1 hk

theorem removeFromParent_clock (env : Env) (child : Job) (db : DB) (depth : Nat) {name : String}
    (hname : child.parentJob ≠ "" → child.name = name) :
    ∃ r : Except Err Unit × DB,
      (∀ clk, removeFromParent (setJobDepth env clk (depth + 1) · false) child db = r) ∧
      r.2.get (jobKey name) = db.get (jobKey name) := by
  unfold removeFromParent
  by_cases hempty : child.parentJob = ""
  · exact ⟨_, fun clk => if_pos hempty, rfl⟩
  · simp only [if_neg hempty]
    cases hparent : getParent child db with
    | error e => exact ⟨_, fun clk => rfl, rfl⟩
    | ok parent =>
      rw [← hname hempty]
      exact updateParent_clock hparent _ depth

theorem addToParent_clock (env : Env) (child : Job) (db : DB) (depth : Nat) :
    ∃ r : Except Err Unit × DB,
      (∀ clk, addToParent (setJobDepth env clk (depth + 1) · false) child db = r) ∧
      r.2.get (jobKey child.name) = db.get (jobKey child.name) := by
  unfold addToParent
  by_cases hempty : child.parentJob = ""
  · exact ⟨_, fun clk => if_pos hempty, rfl⟩
  · simp only [if_neg hempty]
    cases hparent : getParent child db with
    | error e => exact ⟨_, fun clk => rfl, rfl⟩
    | ok parent => exact updateParent_clock hparent _ depth

/-! ## `SetJob` -/

/-- The two clocks give the job the same `Next`: the request is rejected, or its schedule is the
stored one, or its first activation is the same for both. -/
def NextAgrees (env : Env) (db : DB) (clk₁ clk₂ : Clock) (job : Job) : Prop :=
  Accepts env db job → job.schedule = (storedJob job.name db).schedule ∨
    job.getNext env clk₁.zone clk₁.now = job.getNext env clk₂.zone clk₂.now

theorem mergedJob_clock {job : Job} {copyDependentJobs : Bool}
    (h : job.schedule = (storedJob job.name db).schedule ∨
      job.getNext env clk₁.zone clk₁.now = job.getNext env clk₂.zone clk₂.now) :
    mergedJob env clk₁ job copyDependentJobs db = mergedJob env clk₂ job copyDependentJobs db := by
  obtain ⟨hname, -, hschedule, -, -, -, -, hstart, -⟩ :=
    keepStored_definition copyDependentJobs (storedJob job.name db) job
  refine setNext_clock (h.imp hschedule.trans fun h => ?_)
  rw [getNext_congr hname hschedule hstart, getNext_congr hname hschedule hstart, h]

/-- With a new schedule the merged job has the `Next` that the clock gives. -/
theorem next_of_mergedJob {job m : Job} {copyDependentJobs : Bool} {clk : Clock}
    (h : job.schedule ≠ (storedJob job.name db).schedule)
    (hm : mergedJob env clk job copyDependentJobs db = .ok m) :
    job.getNext env clk.zone clk.now = .ok m.next := by
  obtain ⟨hname, -, hschedule, -, -, -, -, hstart, -⟩ :=
    keepStored_definition copyDependentJobs (storedJob job.name db) job
  unfold mergedJob setNext at hm
  rw [hschedule, if_pos h, getNext_congr hname hschedule hstart] at hm
  cases hg : job.getNext env clk.zone clk.now with
  | error e => rw [hg] at hm; cases hm
  | ok t => rw [hg] at hm; cases hm; rfl

/-- What `SetJob` does after its transaction: the job `m` has replaced `ej`. -/
def updateParents (env : Env) (clk : Clock) (ej m : Job) (db : DB) : Except Err Unit × DB :=
  if m.parentJob = ej.parentJob then (.ok (), db)
  else
    match removeFromParent (setJobDepth env clk 1 · false) ej db with
    | (.error e, db') => (.error e, db')
    | (.ok (), db') => addToParent (setJobDepth env clk 1 · false) m db'

theorem setJob_eq_updateParents {clk : Clock} {job m : Job} {copyDependentJobs : Bool}
    (ha : Accepts env db job) (hm : mergedJob env clk job copyDependentJobs db = .ok m) :
    setJob env clk job copyDependentJobs db =
      updateParents env clk (storedJob job.name db) m (db.set (.job m.toProto)) := by
  have hfound : ¬(job.parentJob ≠ "" ∧ db.job? job.parentJob = none) := fun hp => ha.2 hp.1 hp.2
  unfold mergedJob at hm
  rw [setJob, setJobDepth, ha.1]
  simp only [if_neg hfound, setJobTx, hm]
  rfl

/-- The parents are updated without a clock, and the job itself stays. -/
theorem updateParents_clock (env : Env) (ej m : Job) (db : DB)
    (hname : ej.parentJob ≠ "" → ej.name = m.name) :
    ∃ r : Except Err Unit × DB, (∀ clk, updateParents env clk ej m db = r) ∧
      r.2.job? m.name = db.job? m.name := by
  unfold updateParents
  by_cases hsame : m.parentJob = ej.parentJob
  · exact ⟨_, fun clk => if_pos hsame, rfl⟩
  · obtain ⟨⟨res, db'⟩, hremove, hframe⟩ := removeFromParent_clock env ej db 0 hname
    simp only [if_neg hsame, hremove]
    cases res with
    | error e => exact ⟨_, fun clk => rfl, DB.job?_congr hframe⟩
    | ok u =>
      obtain ⟨r, hadd, hframe'⟩ := addToParent_clock env m db' 0
      exact ⟨r, hadd, DB.job?_congr (hframe'.trans hframe)⟩

theorem storedJob_name {name : String} (h : (storedJob name db).parentJob ≠ "") :
    (storedJob name db).name = name := by
  cases hp : db.job? name with
  | none =>
    rw [storedJob_of_none hp] at h
    exact absurd rfl h
  | some p =>
    rw [storedJob_of_job? hp]
    exact DB.name_of_job? hp

/-- The merged job is stored when `SetJob` returns, whatever the content. -/
theorem job?_setJob_self {clk : Clock} {job m : Job} {copyDependentJobs : Bool}
    (ha : Accepts env db job) (hm : mergedJob env clk job copyDependentJobs db = .ok m) :
    (setJob env clk job copyDependentJobs db).2.job? job.name = some m.toProto := by
  have hname : m.name = job.name := name_of_mergedJob hm
  obtain ⟨r, hr, hframe⟩ := updateParents_clock env (storedJob job.name db) m
    (db.set (.job m.toProto)) fun h => (storedJob_name h).trans hname.symm
  rw [setJob_eq_updateParents ha hm, hr, ← hname, hframe, DB.job?_set_job]
  exact if_pos rfl

/-- **`SetJob` on two clocks** leaves the same content if and only if they agree on `Next`. -/
theorem setJob_clock_iff (job : Job) (copyDependentJobs : Bool) :
    (setJob env clk₁ job copyDependentJobs db).2 = (setJob env clk₂ job copyDependentJobs db).2 ↔
      NextAgrees env db clk₁ clk₂ job := by
  by_cases ha : Accepts env db job
  · obtain ⟨m₁, hm₁⟩ := mergedJob_of_validate clk₁ copyDependentJobs db ha.1
    obtain ⟨m₂, hm₂⟩ := mergedJob_of_validate clk₂ copyDependentJobs db ha.1
    constructor
    · intro h _
      have hproto : m₁.toProto = m₂.toProto := by
        rw [← Option.some_inj, ← job?_setJob_self ha hm₁, h, job?_setJob_self ha hm₂]
      have hnext : m₁.next = m₂.next := Option.some.inj (congrArg PbJob.next hproto)
      by_cases hsched : job.schedule = (storedJob job.name db).schedule
      · exact .inl hsched
      · exact .inr (by rw [next_of_mergedJob hsched hm₁, next_of_mergedJob hsched hm₂, hnext])
    · intro h
      have hm : m₁ = m₂ := by
        rw [mergedJob_clock (h ha), hm₂] at hm₁
        exact (Except.ok.inj hm₁).symm
      subst hm
      obtain ⟨r, hr, -⟩ := updateParents_clock env (storedJob job.name db) m₁
        (db.set (.job m₁.toProto)) fun h =>
          (storedJob_name h).trans (name_of_mergedJob hm₁).symm
      rw [setJob_eq_updateParents ha hm₁, setJob_eq_updateParents ha hm₂, hr, hr]
  · refine iff_of_true ?_ fun h => absurd h ha
    obtain ⟨e₁, h₁⟩ := setJob_of_not_accepts clk₁ copyDependentJobs ha
    obtain ⟨e₂, h₂⟩ := setJob_of_not_accepts clk₂ copyDependentJobs ha
    rw [h₁, h₂]

/-- `DeleteJob` reads no clock. -/
theorem deleteJob_clock (name : String) :
    deleteJob env clk₁ name db = deleteJob env clk₂ name db := by
  unfold deleteJob
  cases hp : db.job? name with
  | none => rfl
  | some p =>
    obtain ⟨r, hr, -⟩ := removeFromParent_clock env (newJobFromProto p)
      ((deleteExecutionsTxFunc name db).delete (jobKey name)) 1 fun _ => rfl
    unfold setJob
    simp only [hr]

end

/-! ## Two replicas -/

/-- The contents of two replicas after a command, each with its own clock. -/
def bothStep (env : Env) (s : DB × DB) (e : Clock × Clock × Command) : DB × DB :=
  (Fsm.step env s.1 (e.1, e.2.2), Fsm.step env s.2 (e.2.1, e.2.2))

/-- The two clocks do not make a difference to the command. -/
def ClocksAgree (env : Env) (db : DB) : Clock × Clock × Command → Prop
  | (clk₁, clk₂, .setJob pj) => NextAgrees env db clk₁ clk₂ (newJobFromProto pj)
  | _ => True

/-- **One command on two replicas.** -/
theorem step_clock_iff (env : Env) (db : DB) (e : Clock × Clock × Command) :
    Fsm.step env db (e.1, e.2.2) = Fsm.step env db (e.2.1, e.2.2) ↔ ClocksAgree env db e := by
  obtain ⟨clk₁, clk₂, c⟩ := e
  cases c with
  | setJob pj =>
    rw [Fsm.step_setJob, Fsm.step_setJob]
    exact setJob_clock_iff (newJobFromProto pj) true
  | deleteJob name =>
    refine iff_of_true ?_ trivial
    rw [Fsm.step_deleteJob, Fsm.step_deleteJob, deleteJob_clock]
  | setExecution pbex => exact iff_of_true rfl trivial
  | deleteExecutions name => exact iff_of_true rfl trivial
  | executionDone pbex => exact iff_of_true rfl trivial

end Dkron
