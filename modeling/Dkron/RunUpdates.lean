import Dkron.Lib.Serial
import Dkron.Merge
import Dkron.ParentLinks

/-!
# Writing back a copy of a job

`Agent.Run` reads the job, puts the scheduler's next activation into its copy and applies a
`SetJob` with it, and the toggle handler does the same with `Disabled`. Nothing holds the job in
between: other commands may be applied, and the copy overwrites what they changed, but for the
results and the dependents that `SetJob` keeps.

A copy is *fresh* when the job is still stored with the settings of the copy and the stored side
wins the merge. `updates_serializable` says that the contents follow the order of the writes if and
only if all writes are fresh, and then every content is that of a serial order and a run changes
nothing but `Next`.
-/

namespace Dkron

open Store

/-! ## The two updates -/

/-- An update of a job by a copy that was read before: a run, with the next activation of the
scheduler's entry, or the toggle handler. The command is applied with the given clock. -/
inductive JobUpdate where
  | run (jobName : String) (next : Time) (clk : Clock)
  | toggle (jobName : String) (clk : Clock)

namespace JobUpdate

def jobName : JobUpdate → String
  | run jobName _ _ => jobName
  | toggle jobName _ => jobName

def clk : JobUpdate → Clock
  | run _ _ clk => clk
  | toggle _ clk => clk

/-- `GetJob`. There is nothing to write for a job that is not stored, and `Run` writes nothing for a
child job. A run that finds no entry in the scheduler ends after this. -/
def read (u : JobUpdate) (db : DB) : Option Job :=
  match getJob u.jobName db with
  | .error _ => none
  | .ok job =>
    match u with
    | run _ _ _ => if job.parentJob = "" then some job else none
    | toggle _ _ => some job

/-- The copy as it is sent. -/
def request (job : Job) : JobUpdate → Job
  | run _ next _ => { job with next := next }
  | toggle _ _ => { job with disabled := !job.disabled }

/-- `applySetJob` with the copy. -/
def write (env : Env) (u : JobUpdate) (job : Job) (db : DB) : DB :=
  Fsm.step env db (u.clk, .setJob (u.request job).toProto)

end JobUpdate

/-- The updates, among the commands of other clients. -/
def jobMachine (env : Env) : Serial.Machine DB Fsm.Entry JobUpdate Job where
  command := Fsm.step env
  read := JobUpdate.read
  write := JobUpdate.write env

/-- What the processes do to the jobs. -/
abbrev JobEvent := Serial.Event Fsm.Entry JobUpdate

/-- The content of the store, the copies read, and the finished operations. -/
abbrev JobState := Serial.State DB Fsm.Entry JobUpdate Job

/-! ## Copies -/

/-- A copy that an update may hold. -/
structure JobUpdate.Copy (env : Env) (u : JobUpdate) (job : Job) : Prop where
  name : job.name = u.jobName
  valid : job.validate env = .ok ()
  representable : job.Representable
  unparented : ∀ n t clk, u = .run n t clk → job.parentJob = ""

/-- Writing the copy back loses nothing: the settings are still the stored ones, the stored results
win the merge, and so does the stored `Next` unless the update is about it. A copy of a job that is
not stored must be rejected, for want of its parent. -/
def Fresh (db : DB) (u : JobUpdate) (job : Job) : Prop :=
  match db.job? u.jobName with
  | none => job.parentJob ≠ "" ∧ db.job? job.parentJob = none
  | some p =>
    job.settings = (newJobFromProto p).settings ∧ UpToDate (newJobFromProto p) job ∧
      match u with
      | .run _ _ _ => True
      | .toggle _ _ => job.next ≤ (newJobFromProto p).next

/-- The copy that is written back is fresh. -/
def FreshWrite (s : JobState) : JobEvent → Prop
  | .write i => ∀ u job, s.pending i = some (u, job) → Fresh s.shared u job
  | _ => True

section

variable {env : Env} {db : DB} {u : JobUpdate} {job : Job} {p : PbJob}

theorem request_settings_iff (u : JobUpdate) (j k : Job) :
    (u.request j).settings = (u.request k).settings ↔ j.settings = k.settings := by
  cases u with
  | run n t clk => exact Iff.rfl
  | toggle n clk =>
    constructor
    · intro h
      have hflip := congrArg (fun i : Job => { i with disabled := !i.disabled }) h
      simpa [JobUpdate.request, Job.settings] using hflip
    · intro h
      exact congrArg (fun i : Job => { i with disabled := !i.disabled }) h

theorem request_upToDate_iff (u : JobUpdate) (ej job : Job) :
    UpToDate ej (u.request job) ↔ UpToDate ej job := by
  cases u with
  | run n t clk => exact ⟨fun ⟨a, b, c, d, e, f⟩ => ⟨a, b, c, d, e, f⟩,
      fun ⟨a, b, c, d, e, f⟩ => ⟨a, b, c, d, e, f⟩⟩
  | toggle n clk => exact ⟨fun ⟨a, b, c, d, e, f⟩ => ⟨a, b, c, d, e, f⟩,
      fun ⟨a, b, c, d, e, f⟩ => ⟨a, b, c, d, e, f⟩⟩

@[simp] theorem request_name (u : JobUpdate) (job : Job) : (u.request job).name = job.name := by
  cases u <;> rfl

@[simp] theorem request_parentJob (u : JobUpdate) (job : Job) :
    (u.request job).parentJob = job.parentJob := by
  cases u <;> rfl

@[simp] theorem request_schedule (u : JobUpdate) (job : Job) :
    (u.request job).schedule = job.schedule := by
  cases u <;> rfl

theorem request_validate (env : Env) (u : JobUpdate) (job : Job) :
    (u.request job).validate env = job.validate env := by
  cases u <;> exact Job.validate_congr rfl rfl rfl rfl rfl rfl rfl

theorem Job.Representable.request (h : job.Representable) (u : JobUpdate) :
    (u.request job).Representable := by
  cases u <;> exact ⟨h.id, h.successCount, h.errorCount, h.retries⟩

/-- A request for a job that changes nothing in the stored one is a run's. -/
theorem eq_run_of_request_settings (h : (u.request job).settings = job.settings) :
    ∃ n t clk, u = .run n t clk := by
  cases u with
  | run n t clk => exact ⟨n, t, clk, rfl⟩
  | toggle n clk =>
    have hdisabled := congrArg Job.disabled h
    simp [JobUpdate.request, Job.settings] at hdisabled

/-- What is read from a sound content is a copy. -/
theorem copy_of_read (hs : Sound env db) (h : u.read db = some job) : u.Copy env job := by
  unfold JobUpdate.read getJob at h
  cases hp : db.job? u.jobName with
  | none =>
    rw [hp] at h
    cases h
  | some p =>
    rw [hp] at h
    have hname : (newJobFromProto p).name = u.jobName := DB.name_of_job? hp
    cases u with
    | run n t clk =>
      simp only at h
      split_ifs at h with hparent
      cases h
      exact ⟨hname, hs.valid _ p hp, representable_newJobFromProto p, fun _ _ _ _ => hparent⟩
    | toggle n clk =>
      cases h
      exact ⟨hname, hs.valid _ p hp, representable_newJobFromProto p, fun _ _ _ h => by cases h⟩

/-! ## What a write does -/

theorem write_eq (hc : u.Copy env job) (db : DB) :
    u.write env job db = (setJob env u.clk (u.request job) true db).2 := by
  rw [JobUpdate.write, Fsm.step_setJob, newJobFromProto_toProto (hc.representable.request u)]

theorem accepts_request_iff (hc : u.Copy env job) :
    Accepts env db (u.request job) ↔ (job.parentJob ≠ "" → db.job? job.parentJob ≠ none) := by
  rw [Accepts, request_validate, request_parentJob]
  exact and_iff_right hc.valid

/-- A copy of a stored job with its settings and older results: only the settings of the request and
the later `Next` are new. -/
theorem write_of_upToDate (hs : Sound env db) (hc : u.Copy env job)
    (hp : db.job? u.jobName = some p) (hsettings : job.settings = (newJobFromProto p).settings)
    (hup : UpToDate (newJobFromProto p) job) :
    u.write env job db = db.set (.job ((u.request job).withResults (newJobFromProto p)
      (max (u.request job).next (newJobFromProto p).next)).toProto) := by
  have hparent : job.parentJob = p.parentJob := field_of_settings Job.parentJob hsettings
  have hp' : db.job? (u.request job).name = some p := by
    rw [request_name, hc.name]
    exact hp
  have ha : Accepts env db (u.request job) := by
    rw [accepts_request_iff hc, hparent]
    exact hs.parent _ p hp
  have hne : (u.request job).name ≠ "" := (Job.names_of_validate ha.1).1
  have hschedule : (u.request job).schedule = (newJobFromProto p).schedule := by
    rw [request_schedule]
    exact field_of_settings Job.schedule hsettings
  obtain ⟨m, hm, heq⟩ := setJob_of_accepts u.clk true hs.toStorable ha
  rw [mergedJob_of_upToDate hp' hne hschedule ((request_upToDate_iff u _ job).2 hup)] at hm
  have hsame : (u.request job).parentJob = (storedJob (u.request job).name db).parentJob := by
    rw [storedJob_of_job? hp', request_parentJob]
    exact hparent
  rw [write_eq hc, heq, relink, if_pos hsame, ← Except.ok.inj hm]

/-- The stored job is a copy of itself, if the update reads it. -/
theorem read_eq (hp : db.job? u.jobName = some p) : u.read db = none ∧ p.parentJob ≠ "" ∧
    (∃ n t clk, u = .run n t clk) ∨ u.read db = some (newJobFromProto p) := by
  unfold JobUpdate.read getJob
  rw [hp]
  cases u with
  | run n t clk =>
    by_cases hparent : (newJobFromProto p).parentJob = ""
    · exact .inr (if_pos hparent)
    · exact .inl ⟨if_neg hparent, hparent, n, t, clk, rfl⟩
  | toggle n clk => exact .inr rfl

/-- A copy that does not read as the stored job cannot be written back without a change. -/
theorem write_ne_of_settings_ne (hs : Sound env db) (hc : u.Copy env job)
    (hp : db.job? u.jobName = some p) (ha : Accepts env db (u.request job))
    (hne : (u.request job).settings ≠ (newJobFromProto p).settings) : u.write env job db ≠ db := by
  rw [write_eq hc]
  intro h
  rcases (setJob_eq_self_iff hs.toStorable (hc.representable.request u)).1 h with
    hnot | ⟨q, hq, habs⟩
  · exact hnot ha
  · rw [request_name, hc.name, hp] at hq
    cases hq
    exact hne habs.settings

/-- The update of a job that is not stored changes nothing, and so must its write. -/
theorem write_eq_atomic_iff_of_none (hs : Sound env db) (hc : u.Copy env job)
    (hp : db.job? u.jobName = none) :
    u.write env job db = (jobMachine env).atomic u db ↔
      job.parentJob ≠ "" ∧ db.job? job.parentJob = none := by
  have hatomic : (jobMachine env).atomic u db = db := by
    have hread : u.read db = none := by
      rw [JobUpdate.read, getJob, hp]
    rw [Serial.Machine.atomic, show (jobMachine env).read u db = none from hread]
  rw [hatomic, write_eq hc, setJob_eq_self_iff hs.toStorable (hc.representable.request u),
    accepts_request_iff hc]
  constructor
  · rintro (hnot | ⟨q, hq, -⟩)
    · exact ⟨fun hroot => hnot fun h => absurd hroot h,
        by_contra fun hstored => hnot fun _ => hstored⟩
    · rw [request_name, hc.name, hp] at hq
      cases hq
  · rintro ⟨hparent, hnone⟩
    exact .inl fun h => h hparent hnone

/-- A run of a job that has become a child changes nothing; the write of an older copy does. -/
theorem write_ne_of_child (hs : Sound env db) (hc : u.Copy env job)
    (hp : db.job? u.jobName = some p) (hparent : p.parentJob ≠ "")
    (hrun : ∃ n t clk, u = .run n t clk) : u.write env job db ≠ db := by
  obtain ⟨n, t, clk, rfl⟩ := hrun
  have hroot : job.parentJob = "" := hc.unparented n t clk rfl
  refine write_ne_of_settings_ne hs hc hp ?_ fun h => hparent ?_
  · rw [accepts_request_iff hc]
    exact fun h => absurd hroot h
  · have hsame : job.parentJob = (newJobFromProto p).parentJob :=
      field_of_settings (j := { job with next := t }) Job.parentJob h
    exact hsame.symm.trans hroot

/-- What the write of the stored job itself stores: its request with its own results. -/
def JobUpdate.rewritten (u : JobUpdate) (ej : Job) : Job :=
  (u.request ej).withResults ej (max (u.request ej).next ej.next)

theorem write_stored (hs : Sound env db) (hself : u.Copy env (newJobFromProto p))
    (hp : db.job? u.jobName = some p) :
    u.write env (newJobFromProto p) db = db.set (.job (u.rewritten (newJobFromProto p)).toProto) :=
  write_of_upToDate hs hself hp rfl (UpToDate.refl _)

theorem representable_rewritten {ej : Job} (hej : ej.Representable) (u : JobUpdate) :
    (u.rewritten ej).Representable :=
  ⟨(hej.request u).id, hej.successCount, hej.errorCount, (hej.request u).retries⟩

theorem job?_write_stored (hs : Sound env db) (hself : u.Copy env (newJobFromProto p))
    (hp : db.job? u.jobName = some p) :
    (u.write env (newJobFromProto p) db).job? u.jobName =
      some (u.rewritten (newJobFromProto p)).toProto := by
  have hname : (u.rewritten (newJobFromProto p)).toProto.name = u.jobName :=
    (request_name u (newJobFromProto p)).trans hself.name
  rw [write_stored hs hself hp, DB.job?_set_job, if_pos hname]

/-- A copy whose write does what the write of the stored job does is accepted. -/
theorem accepts_of_write_eq (hs : Sound env db) (hc : u.Copy env job)
    (hp : db.job? u.jobName = some p) (hself : u.Copy env (newJobFromProto p))
    (h : u.write env job db = u.write env (newJobFromProto p) db) :
    Accepts env db (u.request job) := by
  by_contra hnot
  obtain ⟨e, heq⟩ := setJob_of_not_accepts u.clk true hnot
  have hstored := job?_write_stored hs hself hp
  rw [← h, write_eq hc, heq, hp] at hstored
  have hrewritten : u.rewritten (newJobFromProto p) = newJobFromProto p := by
    have hrep := representable_rewritten (representable_newJobFromProto p) u
    exact (newJobFromProto_toProto hrep).symm.trans
      (congrArg newJobFromProto (Option.some.inj hstored).symm)
  have hsettings : (u.request (newJobFromProto p)).settings = (newJobFromProto p).settings :=
    (settings_withResults (u.request (newJobFromProto p)) _ _).symm.trans
      (congrArg Job.settings hrewritten)
  obtain ⟨n, t, clk, rfl⟩ := eq_run_of_request_settings hsettings
  rw [accepts_request_iff hc] at hnot
  exact hnot fun hparent => absurd (hc.unparented n t clk rfl) hparent

/-- Such a copy is fresh. -/
theorem fresh_of_write_eq (hs : Sound env db) (hc : u.Copy env job)
    (hp : db.job? u.jobName = some p) (hself : u.Copy env (newJobFromProto p))
    (h : u.write env job db = u.write env (newJobFromProto p) db) : Fresh db u job := by
  have ha := accepts_of_write_eq hs hc hp hself h
  have hp' : db.job? (u.request job).name = some p := by
    rw [request_name, hc.name]
    exact hp
  have hne : (u.request job).name ≠ "" := (Job.names_of_validate ha.1).1
  obtain ⟨m, hm⟩ := mergedJob_of_validate u.clk true db ha.1
  have hmerged : m = u.rewritten (newJobFromProto p) := by
    have hstored := job?_setJob_self ha hm
    rw [← write_eq hc, request_name, hc.name, h, job?_write_stored hs hself hp] at hstored
    have hrep := (hc.representable.request u).mergedJob hm
    have hrep' := representable_rewritten (representable_newJobFromProto p) u
    rw [← newJobFromProto_toProto hrep, ← newJobFromProto_toProto hrep', Option.some.inj hstored]
  have hsettings : job.settings = (newJobFromProto p).settings := by
    rw [← request_settings_iff u, ← settings_of_mergedJob hm, hmerged]
    rfl
  have hup : UpToDate (newJobFromProto p) job := by
    rw [← request_upToDate_iff u]
    refine upToDate_of_mergedJob hp' hne hm ?_
    rw [hmerged]
    rfl
  have hschedule : (u.request job).schedule = (storedJob (u.request job).name db).schedule := by
    rw [storedJob_of_job? hp', request_schedule]
    exact field_of_settings Job.schedule hsettings
  have hnext := next_of_mergedJob_same hschedule hm
  rw [storedJob_of_job? hp', hmerged] at hnext
  unfold Fresh
  rw [hp]
  refine ⟨hsettings, hup, ?_⟩
  cases u with
  | run n t clk => trivial
  | toggle n clk =>
    have hmax : max (newJobFromProto p).next (newJobFromProto p).next =
        max job.next (newJobFromProto p).next := hnext
    rw [max_self] at hmax
    exact max_eq_right_iff.1 hmax.symm

/-- A fresh copy of a stored job is written as the stored job itself would be. -/
theorem write_eq_of_fresh (hs : Sound env db) (hc : u.Copy env job)
    (hp : db.job? u.jobName = some p) (h : Fresh db u job) :
    u.write env job db = db.set (.job (u.rewritten (newJobFromProto p)).toProto) := by
  unfold Fresh at h
  rw [hp] at h
  obtain ⟨hsettings, hup, hnext⟩ := h
  rw [write_of_upToDate hs hc hp hsettings hup,
    withResults_congr ((request_settings_iff u job _).2 hsettings)]
  cases u with
  | run n t clk => rfl
  | toggle n clk =>
    have hmax : max ((JobUpdate.toggle n clk).request job).next (newJobFromProto p).next =
        (newJobFromProto p).next := max_eq_right hnext
    have hself : max ((JobUpdate.toggle n clk).request (newJobFromProto p)).next
        (newJobFromProto p).next = (newJobFromProto p).next := max_self _
    rw [JobUpdate.rewritten, hmax, hself]

/-- **One write.** Writing a copy back does what the whole update would do at that moment if and
only if the copy is fresh. -/
theorem write_eq_atomic_iff (hs : Sound env db) (hc : u.Copy env job) :
    u.write env job db = (jobMachine env).atomic u db ↔ Fresh db u job := by
  cases hp : db.job? u.jobName with
  | none =>
    rw [write_eq_atomic_iff_of_none hs hc hp, Fresh, hp]
  | some p =>
    rcases read_eq hp with ⟨hread, hparent, hrun⟩ | hread
    · have hatomic : (jobMachine env).atomic u db = db := by
        rw [Serial.Machine.atomic, show (jobMachine env).read u db = none from hread]
      rw [hatomic]
      refine iff_of_false (write_ne_of_child hs hc hp hparent hrun) fun h => hparent ?_
      obtain ⟨n, t, clk, rfl⟩ := hrun
      unfold Fresh at h
      rw [hp] at h
      have hsame : job.parentJob = p.parentJob := field_of_settings Job.parentJob h.1
      rw [← hsame]
      exact hc.unparented n t clk rfl
    · have hatomic : (jobMachine env).atomic u db = u.write env (newJobFromProto p) db := by
        rw [Serial.Machine.atomic, show (jobMachine env).read u db = some _ from hread]
        rfl
      have hself : u.Copy env (newJobFromProto p) := copy_of_read hs hread
      rw [hatomic]
      constructor
      · exact fresh_of_write_eq hs hc hp hself
      · intro h
        rw [write_eq_of_fresh hs hc hp h, write_stored hs hself hp]

/-- What has just been read is fresh. -/
theorem fresh_of_read (h : u.read db = some job) : Fresh db u job := by
  unfold Fresh
  cases hp : db.job? u.jobName with
  | none =>
    rw [JobUpdate.read, getJob, hp] at h
    cases h
  | some p =>
    rcases read_eq hp with ⟨hread, -, -⟩ | hread
    · rw [hread] at h
      cases h
    · rw [hread] at h
      cases h
      refine ⟨rfl, UpToDate.refl _, ?_⟩
      cases u with
      | run n t clk => trivial
      | toggle n clk => exact le_rfl

/-- A run whose copy is fresh changes nothing but `Next`, which becomes the later one of the
scheduler's and the stored one. -/
theorem job?_run_of_fresh {name : String} {t : Time} {clk : Clock} (hs : Sound env db)
    (hc : JobUpdate.Copy env (.run name t clk) job) (h : Fresh db (.run name t clk) job)
    (n : String) :
    ((JobUpdate.run name t clk).write env job db).job? n = (db.job? n).map fun p =>
      if n = name then { p with next := some (max t (asTime p.next)) } else p := by
  cases hp : db.job? name with
  | none =>
    unfold Fresh at h
    rw [show db.job? (JobUpdate.run name t clk).jobName = none from hp] at h
    exact absurd (hc.unparented name t clk rfl) h.1
  | some p =>
    have hname : p.name = name := DB.name_of_job? hp
    have hproto : ((JobUpdate.run name t clk).rewritten (newJobFromProto p)).toProto =
        { p with next := some (max t (asTime p.next)) } := by
      have hnext : ((JobUpdate.run name t clk).rewritten (newJobFromProto p)).toProto =
          { (newJobFromProto p).toProto with next := some (max t (asTime p.next)) } := rfl
      rw [hnext, show (newJobFromProto p).toProto = p from hs.canonical name p hp]
    rw [write_eq_of_fresh hs hc hp h, hproto, DB.job?_set_job]
    simp only [hname]
    by_cases hn : n = name
    · rw [if_pos hn.symm, hn, hp, Option.map_some, if_pos rfl, hname]
    · rw [if_neg (Ne.symm hn)]
      simp only [if_neg hn, Option.map_id']

end

/-! ## Whole runs -/

/-- The content is sound and every copy that is held is one of a stored job. -/
def Holding (env : Env) (s : JobState) : Prop :=
  Sound env s.shared ∧ ∀ i u job, s.pending i = some (u, job) → u.Copy env job

theorem Holding.step {env : Env} {s : JobState} (h : Holding env s) (e : JobEvent) :
    Holding env ((jobMachine env).step s e) := by
  obtain ⟨hs, hcopies⟩ := h
  cases e with
  | command a => exact ⟨hs.step a, hcopies⟩
  | read i u =>
    rw [Serial.Machine.step]
    cases hread : (jobMachine env).read u s.shared with
    | none => exact ⟨hs, hcopies⟩
    | some job =>
      refine ⟨hs, ?_⟩
      intro i' u' job' hpending
      by_cases hi : i' = i
      · simp only [hi, Function.update_self, Option.some_inj] at hpending
        cases hpending
        exact copy_of_read hs hread
      · simp only [Function.update_of_ne hi] at hpending
        exact hcopies i' u' job' hpending
  | write i =>
    rw [Serial.Machine.step]
    rcases hpending : s.pending i with _ | ⟨u, job⟩
    · exact ⟨hs, hcopies⟩
    · refine ⟨hs.step _, ?_⟩
      intro i' u' job' hpending'
      by_cases hi : i' = i
      · simp [hi] at hpending'
      · simp only [Function.update_of_ne hi] at hpending'
        exact hcopies i' u' job' hpending'

theorem Holding.current_iff {env : Env} {s : JobState} (h : Holding env s) (e : JobEvent) :
    (jobMachine env).Current s e ↔ FreshWrite s e := by
  cases e with
  | command a => exact Iff.rfl
  | read i u => exact Iff.rfl
  | write i =>
    constructor
    · intro hcurrent u job hpending
      exact (write_eq_atomic_iff h.1 (h.2 i u job hpending)).1 (hcurrent u job hpending)
    · intro hfresh u job hpending
      exact (write_eq_atomic_iff h.1 (h.2 i u job hpending)).2 (hfresh u job hpending)

/-- What a run should do to the jobs: nothing but a later `Next` of its own job, if it is stored. -/
def ChangesNextOnly (env : Env) (s : JobState) : JobEvent → Prop
  | .write i => ∀ name t clk job, s.pending i = some (.run name t clk, job) →
    ∀ n, ((jobMachine env).step s (.write i)).shared.job? n = (s.shared.job? n).map fun p =>
      if n = name then { p with next := some (max t (asTime p.next)) } else p
  | _ => True

theorem Holding.changesNextOnly {env : Env} {s : JobState} (h : Holding env s) {e : JobEvent}
    (hfresh : FreshWrite s e) : ChangesNextOnly env s e := by
  cases e with
  | command a => trivial
  | read i u => trivial
  | write i =>
    intro name t clk job hpending n
    have hwrite : ((jobMachine env).step s (.write i)).shared =
        (JobUpdate.run name t clk).write env job s.shared := by
      rw [Serial.Machine.step, hpending]
      rfl
    rw [hwrite]
    exact job?_run_of_fresh h.1 (h.2 i _ job hpending) (hfresh _ job hpending) n

/-- An update that nothing comes in between of is fresh. -/
theorem freshWrite_undisturbed (env : Env) (db : DB) (i : ℕ) (u : JobUpdate) :
    Runs.Along (jobMachine env).step FreshWrite (.init db) [.read i u, .write i] := by
  refine ⟨trivial, ?_, trivial⟩
  intro u' job hpending
  rw [Serial.Machine.step] at hpending ⊢
  cases hread : (jobMachine env).read u (Serial.State.init db : JobState).shared with
  | none =>
    rw [hread] at hpending
    cases hpending
  | some job' =>
    simp only [hread, Function.update_self, Option.some_inj] at hpending
    cases hpending
    exact fresh_of_read hread

/-! ## A run and a client -/

/-- A client's request that gives the job `a` an owner. -/
def setOwner : Fsm.Entry :=
  (Clock.epoch, .setJob { name := "a", schedule := "@manually", owner := "ops" })

/-- A run of the job `a` that stores the given `Next`. -/
def runA (next : Time) : JobUpdate := .run "a" next Clock.epoch

/-- A run reads the job, a command is applied, and the run writes its copy back. -/
def runAround (c : Fsm.Entry) : List JobEvent := [.read 0 (runA 5), .command c, .write 0]

end Dkron
