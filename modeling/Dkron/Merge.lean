import Dkron.Replicas

/-!
# When a request changes nothing

`SetJob` merges the request with the stored job. The settings of the request win; of the results
of runs, the dependents and `Next`, one side or the other wins field by field. `UpToDate` says that
the stored side wins everywhere but in `Next`, and then the merged job is the stored one with the
settings of the request: `keepStored_eq_iff`.

A request that brings the stored settings as well changes nothing at all (`setJob_eq_self_iff`).
That decides whether a `SetJob` may be applied twice, and whether a copy of a job that was read
earlier may be written back.
-/

namespace Dkron

open Store

/-- The job without what `SetJob` merges. -/
def Job.settings (j : Job) : Job :=
  { j with
    successCount := 0
    errorCount := 0
    lastSuccess := none
    lastError := none
    dependentJobs := []
    status := ""
    next := zeroTime }

/-- In the merge of `job` with the stored job `ej` the stored results and dependents win. -/
structure UpToDate (ej job : Job) : Prop where
  lastError : NullableTime.after job.lastError ej.lastError = false
  lastSuccess : NullableTime.after job.lastSuccess ej.lastSuccess = false
  successCount : job.successCount ≤ ej.successCount
  errorCount : job.errorCount ≤ ej.errorCount
  dependentJobs : ej.dependentJobs ≠ [] ∨ job.dependentJobs = []
  status : ej.status ≠ "" ∨ job.status = ""

theorem UpToDate.refl (j : Job) : UpToDate j j where
  lastError := NullableTime.after_self _
  lastSuccess := NullableTime.after_self _
  successCount := le_rfl
  errorCount := le_rfl
  dependentJobs := (eq_or_ne j.dependentJobs []).symm
  status := (eq_or_ne j.status "").symm

/-- The job with the results, the dependents and the `Next` of another one. -/
def Job.withResults (j ej : Job) (next : Time) : Job :=
  { j with
    successCount := ej.successCount
    errorCount := ej.errorCount
    lastSuccess := ej.lastSuccess
    lastError := ej.lastError
    dependentJobs := ej.dependentJobs
    status := ej.status
    next := next }

@[simp] theorem settings_withResults (j ej : Job) (next : Time) :
    (j.withResults ej next).settings = j.settings := rfl

@[simp] theorem next_withResults (j ej : Job) (next : Time) : (j.withResults ej next).next = next :=
  rfl

@[simp] theorem schedule_withResults (j ej : Job) (next : Time) :
    (j.withResults ej next).schedule = j.schedule := rfl

/-- Jobs of the same settings agree on every field that is not merged. -/
theorem field_of_settings {α : Type} {j k : Job} (f : Job → α) (h : j.settings = k.settings)
    (hf : ∀ i : Job, f i.settings = f i := by intro; rfl) : f j = f k := by
  rw [← hf j, h, hf k]

theorem withResults_congr {j k : Job} (h : j.settings = k.settings) (ej : Job) (next : Time) :
    j.withResults ej next = k.withResults ej next :=
  congrArg (·.withResults ej next) h

theorem withResults_self (j : Job) : j.withResults j j.next = j := rfl

/-! ## The merge, field by field -/

theorem later_eq_left_iff {t u : NullableTime} :
    (if NullableTime.after t u then t else u) = t ↔ NullableTime.after u t = false := by
  cases t with
  | none => cases u <;> simp [NullableTime.after]
  | some t =>
    cases u with
    | none => simp [NullableTime.after]
    | some u =>
      simp only [NullableTime.after, decide_eq_true_eq, decide_eq_false_iff_not, not_lt]
      split_ifs with h
      · exact iff_of_true rfl h.le
      · rw [Option.some_inj]
        exact ⟨fun hut => hut.le, fun hut => le_antisymm hut (not_lt.1 h)⟩

theorem larger_eq_left_iff {m n : Int} : (if n < m then m else n) = m ↔ n ≤ m := by
  split_ifs <;> constructor <;> intro <;> omega

theorem nonempty_eq_left_iff {α : Type} [DecidableEq α] {x y e : α} :
    (if x ≠ e then x else y) = x ↔ x ≠ e ∨ y = e := by
  by_cases h : x = e
  · subst h
    simp
  · simp [h]

/-- **The stored side wins** in the merge exactly when it is up to date. -/
theorem keepStored_eq_iff {ej job : Job} (hname : ej.name ≠ "") :
    keepStored true ej job = job.withResults ej job.next ↔ UpToDate ej job := by
  rw [keepStored, if_neg hname]
  simp only [and_true]
  constructor
  · intro h
    exact ⟨later_eq_left_iff.1 (congrArg Job.lastError h),
      later_eq_left_iff.1 (congrArg Job.lastSuccess h),
      larger_eq_left_iff.1 (congrArg Job.successCount h),
      larger_eq_left_iff.1 (congrArg Job.errorCount h),
      nonempty_eq_left_iff.1 (congrArg Job.dependentJobs h),
      nonempty_eq_left_iff.1 (congrArg Job.status h)⟩
  · intro h
    rw [later_eq_left_iff.2 h.lastError, later_eq_left_iff.2 h.lastSuccess,
      larger_eq_left_iff.2 h.successCount, larger_eq_left_iff.2 h.errorCount,
      nonempty_eq_left_iff.2 h.dependentJobs, nonempty_eq_left_iff.2 h.status]
    rfl

/-! ## Round trips -/

/-- The job is one that a message can carry. -/
structure Job.Representable (j : Job) : Prop where
  id : j.id = j.name
  successCount : (Int32.ofInt j.successCount).toInt = j.successCount
  errorCount : (Int32.ofInt j.errorCount).toInt = j.errorCount
  retries : (UInt32.ofNat j.retries).toNat = j.retries

theorem newJobFromProto_toProto {j : Job} (h : j.Representable) :
    newJobFromProto j.toProto = j := by
  obtain ⟨hid, hsuccess, herror, hretries⟩ := h
  simp only [newJobFromProto, Job.toProto, hsuccess, herror, hretries, PbNullableTime.get_new,
    asTime_some]
  exact congrArg (fun i => { j with id := i }) hid.symm

theorem representable_newJobFromProto (p : PbJob) : (newJobFromProto p).Representable where
  id := rfl
  successCount := by simp [newJobFromProto]
  errorCount := by simp [newJobFromProto]
  retries := by simp [newJobFromProto]

theorem Job.Representable.keepStored {ej job : Job} (hej : ej.Representable)
    (hjob : job.Representable) (copyDependentJobs : Bool) :
    (keepStored copyDependentJobs ej job).Representable := by
  unfold Store.keepStored
  by_cases hname : ej.name = ""
  · rw [if_pos hname]
    exact hjob
  · rw [if_neg hname]
    refine ⟨hjob.id, ?_, ?_, hjob.retries⟩
    · by_cases h : job.successCount < ej.successCount
      · simp only [if_pos h, hej.successCount]
      · simp only [if_neg h, hjob.successCount]
    · by_cases h : job.errorCount < ej.errorCount
      · simp only [if_pos h, hej.errorCount]
      · simp only [if_neg h, hjob.errorCount]

section

variable {env : Env} {clk : Clock} {db : DB} {job m : Job} {p : PbJob}

theorem Job.Representable.mergedJob {copyDependentJobs : Bool} (hjob : job.Representable)
    (hm : mergedJob env clk job copyDependentJobs db = .ok m) : m.Representable := by
  have hej : (storedJob job.name db).Representable := representable_newJobFromProto _
  obtain ⟨t, rfl⟩ := setNext_eq_ok hm
  obtain ⟨hid, hsuccess, herror, hretries⟩ := hej.keepStored hjob copyDependentJobs
  exact ⟨hid, hsuccess, herror, hretries⟩

/-! ## The merged job -/

/-- The settings of the merged job are those of the request. -/
theorem settings_of_mergedJob {copyDependentJobs : Bool}
    (hm : mergedJob env clk job copyDependentJobs db = .ok m) : m.settings = job.settings := by
  obtain ⟨t, rfl⟩ := setNext_eq_ok hm
  unfold keepStored
  split_ifs <;> rfl

/-- With the stored schedule `Next` is the later one of the two. -/
theorem next_of_mergedJob_same {copyDependentJobs : Bool}
    (hschedule : job.schedule = (storedJob job.name db).schedule)
    (hm : mergedJob env clk job copyDependentJobs db = .ok m) :
    m.next = max job.next (storedJob job.name db).next := by
  obtain ⟨-, -, hkschedule, -, -, -, -, -, hknext⟩ :=
    keepStored_definition copyDependentJobs (storedJob job.name db) job
  unfold mergedJob setNext at hm
  rw [hkschedule, if_neg (not_not.2 hschedule), hknext] at hm
  split_ifs at hm with h
  · cases hm
    exact (max_eq_right h.le).symm
  · cases hm
    rw [max_eq_left (not_lt.1 h)]
    exact hknext

/-- The merged job when the stored side is up to date. -/
theorem mergedJob_of_upToDate (hp : db.job? job.name = some p) (hne : job.name ≠ "")
    (hschedule : job.schedule = (newJobFromProto p).schedule)
    (h : UpToDate (newJobFromProto p) job) :
    mergedJob env clk job true db =
      .ok (job.withResults (newJobFromProto p) (max job.next (newJobFromProto p).next)) := by
  have hname : (newJobFromProto p).name ≠ "" := by
    rw [show (newJobFromProto p).name = job.name from DB.name_of_job? hp]
    exact hne
  unfold mergedJob setNext
  rw [storedJob_of_job? hp, (keepStored_eq_iff hname).2 h]
  rw [schedule_withResults, if_neg (not_not.2 hschedule), next_withResults]
  split_ifs with hnext
  · rw [max_eq_right hnext.le]
    rfl
  · rw [max_eq_left (not_lt.1 hnext)]

/-- The stored side was up to date if the merged job has its results. -/
theorem upToDate_of_mergedJob (hp : db.job? job.name = some p) (hne : job.name ≠ "")
    (hm : mergedJob env clk job true db = .ok m)
    (hresults : m = m.withResults (newJobFromProto p) m.next) :
    UpToDate (newJobFromProto p) job := by
  have hname : (newJobFromProto p).name ≠ "" := by
    rw [show (newJobFromProto p).name = job.name from DB.name_of_job? hp]
    exact hne
  rw [← keepStored_eq_iff hname]
  have hsettings := settings_of_mergedJob hm
  have hknext := (keepStored_definition true (newJobFromProto p) job).2.2.2.2.2.2.2.2
  obtain ⟨t, ht⟩ := setNext_eq_ok hm
  rw [storedJob_of_job? hp] at ht
  have hkept : keepStored true (newJobFromProto p) job =
      m.withResults (newJobFromProto p) job.next := by
    have hk : keepStored true (newJobFromProto p) job = { m with next := job.next } := by
      rw [ht, ← hknext]
    rw [hk]
    exact congrArg (fun j : Job => { j with next := job.next }) hresults
  rw [hkept]
  exact withResults_congr hsettings _ _

/-- The request changes nothing: its settings are the stored ones, and the stored results and the
stored `Next` win. -/
structure Absorbs (ej job : Job) : Prop extends UpToDate ej job where
  settings : job.settings = ej.settings
  next : job.next ≤ ej.next

theorem mergedJob_eq_stored_iff (env : Env) (clk : Clock) (hp : db.job? job.name = some p)
    (hne : job.name ≠ "") :
    mergedJob env clk job true db = .ok (newJobFromProto p) ↔ Absorbs (newJobFromProto p) job := by
  constructor
  · intro hm
    have hsettings : job.settings = (newJobFromProto p).settings := (settings_of_mergedJob hm).symm
    refine ⟨upToDate_of_mergedJob hp hne hm rfl, hsettings, ?_⟩
    have hschedule : job.schedule = (storedJob job.name db).schedule := by
      rw [storedJob_of_job? hp]
      exact field_of_settings Job.schedule hsettings
    have hnext := next_of_mergedJob_same hschedule hm
    rw [storedJob_of_job? hp] at hnext
    exact max_eq_right_iff.1 hnext.symm
  · intro h
    rw [mergedJob_of_upToDate hp hne (field_of_settings Job.schedule h.settings) h.toUpToDate,
      max_eq_right h.next, withResults_congr h.settings, withResults_self]

/-- **A request that changes nothing**: it is rejected, or the stored job absorbs it. -/
theorem setJob_eq_self_iff (hs : Storable env db) (hjob : job.Representable) :
    (setJob env clk job true db).2 = db ↔
      ¬Accepts env db job ∨ ∃ p, db.job? job.name = some p ∧ Absorbs (newJobFromProto p) job := by
  by_cases ha : Accepts env db job
  · have hne := (Job.names_of_validate ha.1).1
    rw [or_iff_right (not_not.2 ha)]
    constructor
    · intro h
      obtain ⟨m, hm⟩ := mergedJob_of_validate clk true db ha.1
      have hp := job?_setJob_self ha hm
      rw [h] at hp
      refine ⟨_, hp, (mergedJob_eq_stored_iff env clk hp hne).1 ?_⟩
      rw [newJobFromProto_toProto (hjob.mergedJob hm)]
      exact hm
    · rintro ⟨p, hp, h⟩
      obtain ⟨m, hm, heq⟩ := setJob_of_accepts clk true hs ha
      rw [(mergedJob_eq_stored_iff env clk hp hne).2 h] at hm
      cases hm
      have hparent : job.parentJob = (storedJob job.name db).parentJob := by
        rw [storedJob_of_job? hp]
        exact field_of_settings Job.parentJob h.settings
      rw [heq, relink, if_pos hparent,
        show (newJobFromProto p).toProto = p from hs.canonical _ p hp]
      apply DB.set_eq_self
      rw [Value.key, DB.name_of_job? hp, ← DB.job?_eq_some]
      exact hp
  · obtain ⟨e, heq⟩ := setJob_of_not_accepts clk true ha
    rw [heq]
    exact iff_of_true rfl (.inl ha)

end

end Dkron
