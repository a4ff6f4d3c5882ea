import Dkron.Lib.JsonStrings
import Dkron.CommandBytes
import Dkron.StoreTexts
import Dkron.Calendar
import Dkron.Replicas

/-!
# The state machine on texts

A server keeps its records as JSON texts and reads each of them by protobuf first and JSON when that
fails. The commands are bytes. This is the whole state machine at that level: the data of a log goes
in, texts are read and written.

**Theorem (`runTexts_eq`).** When no string of a command has a bar, the state machine on texts
answers every log as the state machine on records does and holds the same records.

The bar matters because only its byte ends the group that protobuf sees in the opening brace of a
text. The invariant is `Plain`: no stored string has one, and all records are as Go holds them.
-/

namespace Dkron

open Json Json.Codec Store

/-! ## Bars -/

/-- The text has no bar. -/
def Bare (s : String) : Prop := '|' ∉ s.toList

instance (s : String) : Decidable (Bare s) := inferInstanceAs (Decidable (¬_))

def StrMap.Bare (m : StrMap) : Prop := ∀ r ∈ m, Dkron.Bare r.1 ∧ Dkron.Bare r.2

/-- No string of the job has a bar. -/
structure PbJob.Bare (p : PbJob) : Prop where
  name : Dkron.Bare p.name
  timezone : Dkron.Bare p.timezone
  schedule : Dkron.Bare p.schedule
  owner : Dkron.Bare p.owner
  ownerEmail : Dkron.Bare p.ownerEmail
  tags : StrMap.Bare p.tags
  dependentJobs : ∀ s ∈ p.dependentJobs, Dkron.Bare s
  parentJob : Dkron.Bare p.parentJob
  concurrency : Dkron.Bare p.concurrency
  executor : Dkron.Bare p.executor
  executorConfig : StrMap.Bare p.executorConfig
  status : Dkron.Bare p.status
  metadata : StrMap.Bare p.metadata
  displayname : Dkron.Bare p.displayname
  processors : ∀ r ∈ p.processors, Dkron.Bare r.1 ∧ StrMap.Bare r.2

/-- No string of the execution has a bar. -/
structure PbExecution.Bare (e : PbExecution) : Prop where
  jobName : Dkron.Bare e.jobName
  nodeName : Dkron.Bare e.nodeName

theorem lacks_stringMap {m : StrMap} (h : m.Bare) : (map string).Lacks '|' m :=
  lacks_map fun r hr => ⟨(h r hr).1, lacks_string (h r hr).2⟩

theorem lacks_timestamp (t : Timestamp) : (pointer timestampCodec).Lacks '|' t := by
  refine lacks_pointer fun time _ => lacks_struct ?_
  simp only [timestampFields, List.forall_mem_cons]
  exact ⟨fieldLacks_field (by decide) (lacks_integer _),
    fieldLacks_field (by decide) (lacks_integer _), by simp⟩

theorem lacks_nullableTime (t : Option PbNullableTime) :
    (pointer nullableTimeCodec).Lacks '|' t := by
  refine lacks_pointer fun n _ => lacks_struct ?_
  simp only [nullableTimeFields, List.forall_mem_cons]
  exact ⟨fieldLacks_field (by decide) (lacks_boolean _),
    fieldLacks_field (by decide) (lacks_timestamp _), by simp⟩

theorem lacks_pluginConfig {config : StrMap} (h : config.Bare) :
    pluginConfigCodec.Lacks '|' config := by
  refine lacks_struct ?_
  simp only [pluginConfigFields, List.forall_mem_cons]
  exact ⟨fieldLacks_field (by decide) (lacks_stringMap h), by simp⟩

/-- No field of such a job has a bar. -/
theorem PbJob.Bare.fieldLacks {p : PbJob} (h : p.Bare) :
    ∀ f ∈ jobFields p, FieldLacks '|' f := by
  have hstring {key s : String} (hkey : '|' ∉ key.toList) (hs : Dkron.Bare s) :
      FieldLacks '|' (field key string s) := fieldLacks_field hkey (lacks_string hs)
  have htime {key : String} (hkey : '|' ∉ key.toList) (t : Option PbNullableTime) :
      FieldLacks '|' (field key (pointer nullableTimeCodec) t) :=
    fieldLacks_field hkey (lacks_nullableTime t)
  have hmap {key : String} {m : StrMap} (hkey : '|' ∉ key.toList) (hm : m.Bare) :
      FieldLacks '|' (field key (map string) m) := fieldLacks_field hkey (lacks_stringMap hm)
  simp only [jobFields, List.forall_mem_cons]
  refine ⟨hstring (by decide) h.name, hstring (by decide) h.timezone,
    hstring (by decide) h.schedule, hstring (by decide) h.owner, hstring (by decide) h.ownerEmail,
    fieldLacks_field (by decide) (lacks_integer _), fieldLacks_field (by decide) (lacks_integer _),
    fieldLacks_field (by decide) (lacks_boolean _), hmap (by decide) h.tags,
    fieldLacks_field (by decide) (lacks_integer _), fieldLacks_field (by decide) (lacks_slice ?_),
    hstring (by decide) h.parentJob, hstring (by decide) h.concurrency,
    hstring (by decide) h.executor, hmap (by decide) h.executorConfig,
    hstring (by decide) h.status, hmap (by decide) h.metadata, htime (by decide) _,
    htime (by decide) _, fieldLacks_field (by decide) (lacks_timestamp _),
    hstring (by decide) h.displayname, fieldLacks_field (by decide) (lacks_map ?_),
    fieldLacks_field (by decide) (lacks_boolean _), htime (by decide) _, htime (by decide) _,
    by simp⟩
  · exact fun s hs => lacks_string (h.dependentJobs s hs)
  · exact fun r hr => ⟨(h.processors r hr).1, lacks_pluginConfig (h.processors r hr).2⟩

/-- No text of bytes has a bar. -/
theorem bar_not_mem_base64 (bytes : Bytes) : '|' ∉ base64 bytes := by
  have hchar {n : ℕ} (hn : n < 64) : '|' ≠ base64Char n := by
    revert n
    decide +kernel
  have hpad : '|' ≠ '=' := by decide
  fun_induction base64 bytes with
  | case1 => simp
  | case2 a =>
    have ha := a.toNat_lt
    simp only [List.mem_cons, not_or]
    exact ⟨hchar (by omega), hchar (by omega), hpad, hpad, by simp⟩
  | case3 a b =>
    have ha := a.toNat_lt
    have hb := b.toNat_lt
    simp only [List.mem_cons, not_or]
    exact ⟨hchar (by omega), hchar (by omega), hchar (by omega), hpad, by simp⟩
  | case4 a b c rest ih =>
    have ha := a.toNat_lt
    have hb := b.toNat_lt
    have hc := c.toNat_lt
    simp only [List.mem_cons, not_or]
    exact ⟨hchar (by omega), hchar (by omega), hchar (by omega), hchar (by omega), ih⟩

theorem PbExecution.Bare.fieldLacks {e : PbExecution} (h : e.Bare) :
    ∀ f ∈ executionFields e, FieldLacks '|' f := by
  simp only [executionFields, List.forall_mem_cons]
  refine ⟨fieldLacks_field (by decide) (lacks_string h.jobName),
    fieldLacks_field (by decide) (lacks_boolean _),
    ⟨show '|' ∉ "output".toList by decide, fun v hv => ?_⟩,
    fieldLacks_field (by decide) (lacks_string h.nodeName),
    fieldLacks_field (by decide) (lacks_integer _), fieldLacks_field (by decide) (lacks_integer _),
    fieldLacks_field (by decide) (lacks_timestamp _),
    fieldLacks_field (by decide) (lacks_timestamp _), by simp⟩
  split_ifs at hv
  · cases hv
  · cases hv
    refine lacks_string ?_
    rw [String.toList_ofList]
    exact bar_not_mem_base64 e.output

/-- No text of a day has a bar. -/
theorem bare_formatStatDate (t : Time) : Bare (formatStatDate t) := by
  have hpadded (width n : ℕ) : '|' ∉ (padded width n).toList := by
    rw [toList_padded, List.mem_append, not_or]
    refine ⟨fun h => absurd (List.eq_of_mem_replicate h) (by decide), fun h => ?_⟩
    exact absurd (Decimal.isDigit_of_mem_repr h) (by decide)
  have hyear (y : Int) : '|' ∉ yearText y := by
    rw [yearText, List.mem_append, not_or]
    refine ⟨?_, hpadded _ _⟩
    split_ifs <;> simp
  rw [Bare, formatStatDate, toList_formatDay]
  simp only [List.mem_append, List.mem_cons, not_or]
  exact ⟨hyear _, ⟨by decide, hpadded _ _⟩, by decide, hpadded _ _⟩

theorem fieldLacks_statFields (s : ExecutionStat) : ∀ f ∈ statFields s, FieldLacks '|' f := by
  simp only [statFields, List.forall_mem_cons]
  refine ⟨⟨show '|' ∉ "date".toList by decide, fun v hv => ?_⟩,
    ⟨show '|' ∉ "success_count".toList by decide, fun v hv => ?_⟩,
    ⟨show '|' ∉ "failed_count".toList by decide, fun v hv => ?_⟩, by simp⟩
  · cases hv
    refine lacks_string ?_
    rw [String.toList_append, List.mem_append, not_or]
    exact ⟨bare_formatStatDate s.date, by decide⟩
  · cases hv
    exact not_has_nil
  · cases hv
    exact not_has_nil

/-- No string of the record has a bar. -/
def Value.Bare : Value → Prop
  | .job p => p.Bare
  | .execution e => e.Bare
  | .stat _ => True

/-- **A record without bars is no protobuf message.** -/
theorem Value.Bare.not_groupEnds {v : Value} (h : v.Bare) : ¬v.GroupEnds := by
  intro hends
  have hfields : ∀ f ∈ v.fields, FieldLacks '|' f := by
    cases v with
    | job p => exact PbJob.Bare.fieldLacks h
    | execution e => exact PbExecution.Bare.fieldLacks h
    | stat s => exact fieldLacks_statFields s
  exact not_has_present hfields (mem_render (by decide) _ (bar_mem_of_isSome hends))

/-! ## The functions of the store -/

namespace Texts

/-- `getJobTxFunc` where a job that is not there is no error. -/
def findJob (name : String) (db : DB) : Option (Option PbJob) :=
  match db.get (jobKey name) with
  | none => some none
  | some v => (readJobText v.text).map some

/-- The transaction of `SetJob`: the job as stored, and the new content; none on an error. -/
def setJobTx (env : Env) (clk : Clock) (job : Job) (copyDependentJobs : Bool) (db : DB) :
    Option (Job × DB) := do
  let pbej ← findJob job.name db
  let ej := newJobFromProto (pbej.getD {})
  match setNext env clk ej (keepStored copyDependentJobs ej job) with
  | .error _ => none
  | .ok job => return (job, db.set (.job job.toProto))

/-- `GetParent`, none on an error. -/
def getParent (j : Job) (db : DB) : Option Job :=
  if j.name = j.parentJob then none
  else if j.parentJob = "" then none
  else (job? j.parentJob db).map newJobFromProto

section Parents

variable (setParent : Job → DB → Bool × DB)

/-- `removeFromParent`: whether it succeeds. `setParent` stores the parent. -/
def removeFromParent (child : Job) (db : DB) : Bool × DB :=
  if child.parentJob = "" then (true, db)
  else
    match getParent child db with
    | none => (false, db)
    | some parent =>
      setParent { parent with
        dependentJobs := parent.dependentJobs.filter fun djn => djn ≠ child.name } db

/-- `addToParent`: whether it succeeds. `setParent` stores the parent. -/
def addToParent (child : Job) (db : DB) : Bool × DB :=
  if child.parentJob = "" then (true, db)
  else
    match getParent child db with
    | none => (false, db)
    | some parent =>
      setParent { parent with dependentJobs := parent.dependentJobs ++ [child.name] } db

end Parents

/-- `SetJob`, at most `depth` calls deep: whether it succeeds. -/
def setJobDepth (env : Env) (clk : Clock) :
    (depth : ℕ) → (job : Job) → (copyDependentJobs : Bool) → DB → Bool × DB
  | 0, _, _, db => (false, db)
  | depth + 1, job, copyDependentJobs, db =>
    match job.validate env with
    | .error _ => (false, db)
    | .ok () =>
      if job.parentJob ≠ "" ∧ job? job.parentJob db = none then (false, db)
      else
        match setJobTx env clk job copyDependentJobs db with
        | none => (false, db)
        | some (job', db') =>
          let ej := newJobFromProto (((findJob job.name db).getD none).getD {})
          if job'.parentJob = ej.parentJob then (true, db')
          else
            match removeFromParent (setJobDepth env clk depth · false) ej db' with
            | (false, db'') => (false, db'')
            | (true, db'') => addToParent (setJobDepth env clk depth · false) job' db''

/-- `SetJob`: whether it succeeds. -/
def setJob (env : Env) (clk : Clock) (job : Job) (copyDependentJobs : Bool) (db : DB) :
    Bool × DB :=
  setJobDepth env clk 2 job copyDependentJobs db

/-- `DeleteJob`, none on an error. -/
def deleteJob (env : Env) (clk : Clock) (name : String) (db : DB) : Option Job × DB :=
  match job? name db with
  | none => (none, db)
  | some pbj =>
    if pbj.dependentJobs ≠ [] then (none, db)
    else
      let job := newJobFromProto pbj
      let db' := (deleteExecutionsTxFunc name db).delete (jobKey name)
      if job.parentJob = "" then (some job, db')
      else
        match removeFromParent (setJob env clk · false) job db' with
        | (false, db'') => (none, db'')
        | (true, db'') => (some job, db'')

/-- `DeleteExecutions`: whether it succeeds. An error rolls the transaction back. -/
def deleteExecutions (jobName : String) (db : DB) : Bool × DB :=
  let db' := deleteExecutionsTxFunc jobName db
  match job? jobName db' with
  | none => (false, db)
  | some pbj => (true, db'.set (.job (resetCounters pbj)))

/-- The functions of the five types, none on an error. -/
def apply (env : Env) (clk : Clock) (c : Command) (db : DB) : Option Response × DB :=
  match c with
  | .setJob pj =>
    match setJob env clk (newJobFromProto pj) true db with
    | (false, db) => (none, db)
    | (true, db) => (some .nil, db)
  | .deleteJob jobName =>
    let (job, db) := deleteJob env clk jobName db
    (job.map .job, db)
  | .deleteExecutions jobName =>
    match deleteExecutions jobName db with
    | (false, db) => (none, db)
    | (true, db) => ((job? jobName db).map fun pbj => .job (newJobFromProto pbj), db)
  | .executionDone pbex =>
    let (counted, db) := setExecutionDone (newExecutionFromProto pbex) db
    (counted.map fun _ => .nil, db)
  | .setExecution pbex =>
    let (key, db) := setExecution env (newExecutionFromProto pbex) db
    (key.map .key, db)

/-- `Apply` of the data of a log entry: none when the server panics, and no response on an error. -/
def applyData (env : Env) (clk : Clock) (buf : Bytes) (db : DB) : Option (Option Response × DB) :=
  match received buf with
  | .panics => none
  | .malformed => some (none, db)
  | .ignored => some (some .nil, db)
  | .command c => some (apply env clk c db)

/-- What a log of data entries is answered, and the content after it. -/
def runData (env : Env) : List (Clock × Bytes) → DB → Option (List (Option Response) × DB)
  | [], db => some ([], db)
  | (clk, buf) :: data, db => do
    let (r, db) ← applyData env clk buf db
    let (rs, db) ← runData env data db
    return (r :: rs, db)

end Texts

/-! ## Plain records -/

/-- A job message as Go holds it. -/
structure PbJob.Held (p : PbJob) : Prop where
  tags : Sorted p.tags
  executorConfig : Sorted p.executorConfig
  metadata : Sorted p.metadata
  processors : Sorted p.processors
  configs : ∀ r ∈ p.processors, Sorted r.2
  lastSuccess : TimeFits p.lastSuccess
  lastError : TimeFits p.lastError
  next : ∀ t ∈ p.next, SecondsFit t
  expiresAt : TimeFits p.expiresAt
  startsAt : TimeFits p.startsAt

theorem PbJob.Held.exists_goJob {p : PbJob} (h : p.Held) : ∃ q : GoJob, q.toPbJob = p :=
  ⟨⟨p, h.tags, h.executorConfig, h.metadata, h.processors, h.configs, h.lastSuccess, h.lastError,
    h.next, h.expiresAt, h.startsAt⟩, rfl⟩

theorem GoJob.held (q : GoJob) : q.toPbJob.Held :=
  ⟨q.tags_sorted, q.executorConfig_sorted, q.metadata_sorted, q.processors_sorted,
    q.configs_sorted, q.lastSuccess_fits, q.lastError_fits, q.next_fits, q.expiresAt_fits,
    q.startsAt_fits⟩

/-- A record without bars, as Go holds it. -/
def Value.Plain : Value → Prop
  | .job p => p.Bare ∧ p.Held
  | .execution e => e.Bare ∧ e.Fits
  | .stat _ => True

theorem Value.Plain.not_groupEnds {v : Value} (h : v.Plain) : ¬v.GroupEnds := by
  have hbare : v.Bare := by
    cases v with
    | job p => exact h.1
    | execution e => exact h.1
    | stat s => trivial
  exact hbare.not_groupEnds

/-- A job as it is stored has no bars, and Go holds it. -/
def Job.Plain (j : Job) : Prop := (Value.job j.toProto).Plain

/-- All records are plain. -/
def Plain (db : DB) : Prop := ∀ k v, db.get k = some v → v.Plain

theorem Plain.empty : Plain DB.empty := by
  intro k v h
  simp at h

section

variable {db : DB}

theorem Plain.set (h : Plain db) {v : Value} (hv : v.Plain) : Plain (db.set v) := by
  intro k w hw
  rw [DB.get_set] at hw
  split_ifs at hw
  · cases hw
    exact hv
  · exact h k w hw

theorem Plain.deleteAll (h : Plain db) (ks : List String) : Plain (db.deleteAll ks) := by
  intro k w hw
  rw [DB.get_deleteAll] at hw
  split_ifs at hw
  exact h k w hw

theorem Plain.delete (h : Plain db) (k : String) : Plain (db.delete k) := h.deleteAll [k]

theorem Plain.job (h : Plain db) {n : String} {p : PbJob} (hp : db.job? n = some p) :
    (Value.job p).Plain := h _ _ (DB.job?_eq_some.1 hp)

theorem Plain.readable (h : Plain db) : Readable db := fun k _ he => (h k _ he).2

theorem Plain.legible (h : Plain db) : Legible db where
  texts k v hv := (h k v hv).not_groupEnds
  jobs _ _ hp := (h.job hp).2.exists_goJob

end

/-! ## Plain jobs -/

/-- The time fits into a `Job_NullableTime`. -/
theorem timeFits_new {t : NullableTime} (h : ∀ time ∈ t, SecondsFit time) :
    TimeFits (some (PbNullableTime.new t)) := by
  intro n hn time ht
  cases hn
  exact h time ht

theorem fits_of_new {t : NullableTime} (h : TimeFits (some (PbNullableTime.new t))) :
    ∀ time ∈ t, SecondsFit time := h _ rfl

theorem fits_get {t : Option PbNullableTime} (h : TimeFits t) :
    ∀ time ∈ PbNullableTime.get t, SecondsFit time := by
  intro time htime
  unfold PbNullableTime.get at htime
  split at htime
  · cases htime
    rename_i ts
    exact secondsFit_asTime fun t ht => h _ rfl t ht
  · cases htime

/-- What is made of a plain message is plain. -/
theorem plain_newJobFromProto {p : PbJob} (h : (Value.job p).Plain) :
    (newJobFromProto p).Plain := by
  obtain ⟨hbare, hheld⟩ := h
  refine ⟨{ hbare with }, ?_⟩
  exact {
    hheld with
    lastSuccess := timeFits_new (fits_get hheld.lastSuccess)
    lastError := timeFits_new (fits_get hheld.lastError)
    next := fun t ht => Option.some.inj ht ▸ secondsFit_asTime hheld.next
    expiresAt := timeFits_new (fits_get hheld.expiresAt)
    startsAt := timeFits_new (fits_get hheld.startsAt) }

theorem plain_empty : (Value.job {}).Plain := by
  refine ⟨?_, ?_⟩
  · constructor <;> simp [Bare, StrMap.Bare]
  · constructor <;> simp [Sorted, TimeFits]

theorem plain_storedJob {db : DB} (h : Plain db) (name : String) : (storedJob name db).Plain := by
  cases hp : db.job? name with
  | none =>
    rw [storedJob_of_none hp]
    exact plain_newJobFromProto plain_empty
  | some p =>
    rw [storedJob_of_job? hp]
    exact plain_newJobFromProto (h.job hp)

/-- What `SetJob` keeps of a plain job. -/
theorem Job.Plain.keepStored {ej job : Job} (hej : ej.Plain) (hjob : job.Plain)
    (copyDependentJobs : Bool) : (Store.keepStored copyDependentJobs ej job).Plain := by
  have htime {a b : NullableTime} (ha : ∀ t ∈ a, SecondsFit t) (hb : ∀ t ∈ b, SecondsFit t)
      (c : Prop) [Decidable c] : TimeFits (some (PbNullableTime.new (if c then a else b))) := by
    split_ifs
    · exact timeFits_new ha
    · exact timeFits_new hb
  rw [Store.keepStored]
  by_cases hname : ej.name = ""
  · rw [if_pos hname]
    exact hjob
  · rw [if_neg hname]
    refine ⟨{ hjob.1 with dependentJobs := ?_, status := ?_ }, ?_⟩
    · simp only [Job.toProto]
      split_ifs
      · exact hej.1.dependentJobs
      · exact hjob.1.dependentJobs
    · simp only [Job.toProto]
      split_ifs
      · exact hej.1.status
      · exact hjob.1.status
    · exact {
        hjob.2 with
        lastSuccess := htime (fits_of_new hej.2.lastSuccess) (fits_of_new hjob.2.lastSuccess) _
        lastError := htime (fits_of_new hej.2.lastError) (fits_of_new hjob.2.lastError) _ }

/-- The next run that is computed when the schedule changes is an instant that Go holds. -/
def NextFits (env : Env) (clk : Clock) (ej job : Job) : Prop :=
  job.schedule ≠ ej.schedule → ∀ t, job.getNext env clk.zone clk.now = .ok t → SecondsFit t

theorem Job.Plain.with_next {job : Job} (h : job.Plain) {t : Time} (ht : SecondsFit t) :
    Job.Plain { job with next := t } :=
  ⟨{ h.1 with }, { h.2 with next := fun _ hu => Option.some.inj hu ▸ ht }⟩

theorem Job.Plain.setNext {env : Env} {clk : Clock} {ej job m : Job} (hej : ej.Plain)
    (hjob : job.Plain) (hnext : NextFits env clk ej job) (h : setNext env clk ej job = .ok m) :
    m.Plain := by
  unfold Store.setNext at h
  split_ifs at h with hschedule hlater
  · cases hg : job.getNext env clk.zone clk.now with
    | error e =>
      rw [hg] at h
      cases h
    | ok t =>
      rw [hg] at h
      cases h
      exact hjob.with_next (hnext hschedule t hg)
  · cases h
    exact hjob.with_next (hej.2.next ej.next rfl)
  · cases h
    exact hjob

/-! ## `SetJob` on texts -/

section SetJob

variable {env : Env} {clk : Clock} {db : DB} {job : Job} {copyDependentJobs : Bool}

theorem Plain.findJob (h : Plain db) (name : String) :
    Texts.findJob name db = some (db.job? name) := by
  have hread := h.legible.job? name
  rw [Texts.job?, DB.get_jobKey] at hread
  rw [Texts.findJob, DB.get_jobKey]
  cases hp : db.job? name with
  | none => rfl
  | some p =>
    rw [hp] at hread
    exact congrArg (Option.map some) hread

theorem NextFits.keepStored {ej : Job} (h : NextFits env clk ej job) :
    NextFits env clk ej (Store.keepStored copyDependentJobs ej job) := by
  obtain ⟨hname, -, hschedule, -, -, -, -, hstart, -⟩ :=
    keepStored_definition copyDependentJobs ej job
  intro hne t ht
  rw [hschedule] at hne
  rw [getNext_congr hname hschedule hstart clk] at ht
  exact h hne t ht

/-- The transaction of `SetJob` reads and writes the same records. -/
theorem Plain.setJobTx (h : Plain db) :
    Texts.setJobTx env clk job copyDependentJobs db =
      (Store.setJobTx env clk job copyDependentJobs db).toOption := by
  rw [Texts.setJobTx, h.findJob, Store.setJobTx]
  simp only [Option.bind_eq_bind, Option.bind_some]
  rw [← storedJob]
  cases setNext env clk (storedJob job.name db)
    (keepStored copyDependentJobs (storedJob job.name db) job) <;> rfl

theorem Plain.of_setJobTx (h : Plain db) (hjob : job.Plain)
    (hnext : NextFits env clk (storedJob job.name db) job) {m : Job} {db' : DB}
    (htx : Store.setJobTx env clk job copyDependentJobs db = .ok (m, db')) :
    m.Plain ∧ Plain db' := by
  have hej := plain_storedJob h job.name
  rw [Store.setJobTx] at htx
  cases hm : setNext env clk (storedJob job.name db)
      (keepStored copyDependentJobs (storedJob job.name db) job) with
  | error e => simp [hm] at htx
  | ok j =>
    simp only [hm, Except.ok.injEq, Prod.mk.injEq] at htx
    obtain ⟨rfl, rfl⟩ := htx
    have hplain := hej.setNext (hej.keepStored hjob copyDependentJobs) hnext.keepStored hm
    exact ⟨hplain, h.set hplain⟩

/-- A function on texts does what the function on records does, and leaves plain records. -/
def Agrees (t : Bool × DB) (s : Except Err Unit × DB) : Prop := t = (s.1.isOk, s.2) ∧ Plain s.2

theorem agrees_error (h : Plain db) (e : Err) : Agrees (false, db) (.error e, db) := ⟨rfl, h⟩

theorem agrees_ok (h : Plain db) : Agrees (true, db) (.ok (), db) := ⟨rfl, h⟩

theorem Plain.getParent (h : Plain db) (child : Job) :
    Texts.getParent child db = (Store.getParent child db).toOption := by
  rw [Texts.getParent, Store.getParent, Store.getJob, h.legible.job?]
  split_ifs
  · rfl
  · rfl
  · cases db.job? child.parentJob <;> rfl

theorem job?_of_getParent {child parent : Job} (h : Store.getParent child db = .ok parent) :
    ∃ p, db.job? child.parentJob = some p ∧ parent = newJobFromProto p := by
  rw [Store.getParent, Store.getJob] at h
  split_ifs at h
  cases hp : db.job? child.parentJob with
  | none => simp [hp] at h
  | some p =>
    simp only [hp, Except.ok.injEq] at h
    exact ⟨p, rfl, h.symm⟩

/-- A stored job with another list of dependents: its schedule is the stored one. -/
theorem Plain.parent (h : Plain db) {n : String} {p : PbJob} (hp : db.job? n = some p)
    {ds : List String} (hds : ∀ s ∈ ds, Bare s) :
    Job.Plain { newJobFromProto p with dependentJobs := ds } ∧
      NextFits env clk (storedJob p.name db) { newJobFromProto p with dependentJobs := ds } := by
  have hplain := plain_newJobFromProto (h.job hp)
  refine ⟨⟨{ hplain.1 with dependentJobs := hds }, { hplain.2 with }⟩, fun hne => ?_⟩
  rw [DB.name_of_job? hp, storedJob_of_job? hp] at hne
  exact absurd rfl hne

variable {setTexts : Job → DB → Bool × DB} {setParent : Job → DB → Except Err Unit × DB}

theorem Plain.removeFromParent (h : Plain db)
    (hset : ∀ j : Job, j.Plain → NextFits env clk (storedJob j.name db) j →
      Agrees (setTexts j db) (setParent j db)) (child : Job) :
    Agrees (Texts.removeFromParent setTexts child db)
      (Store.removeFromParent setParent child db) := by
  rw [Texts.removeFromParent, Store.removeFromParent, h.getParent]
  split_ifs
  · exact agrees_ok h
  · cases hparent : Store.getParent child db with
    | error e => exact agrees_error h e
    | ok parent =>
      obtain ⟨p, hp, rfl⟩ := job?_of_getParent hparent
      have hds : ∀ s ∈ p.dependentJobs.filter (fun djn => djn ≠ child.name), Bare s := fun s hs =>
        (h.job hp).1.dependentJobs s (List.mem_of_mem_filter hs)
      obtain ⟨hplain, hnext⟩ := h.parent hp hds
      exact hset _ hplain hnext

theorem Plain.addToParent (h : Plain db)
    (hset : ∀ j : Job, j.Plain → NextFits env clk (storedJob j.name db) j →
      Agrees (setTexts j db) (setParent j db)) {child : Job} (hchild : child.Plain) :
    Agrees (Texts.addToParent setTexts child db) (Store.addToParent setParent child db) := by
  rw [Texts.addToParent, Store.addToParent, h.getParent]
  split_ifs
  · exact agrees_ok h
  · cases hparent : Store.getParent child db with
    | error e => exact agrees_error h e
    | ok parent =>
      obtain ⟨p, hp, rfl⟩ := job?_of_getParent hparent
      have hds : ∀ s ∈ p.dependentJobs ++ [child.name], Bare s := by
        rw [List.forall_mem_append]
        exact ⟨(h.job hp).1.dependentJobs, List.forall_mem_singleton.2 hchild.1.name⟩
      obtain ⟨hplain, hnext⟩ := h.parent hp hds
      exact hset _ hplain hnext

/-- **`SetJob` on texts**, by induction on the depth of the calls. -/
theorem Plain.setJobDepth (depth : ℕ) (h : Plain db) (hjob : job.Plain)
    (hnext : NextFits env clk (storedJob job.name db) job) :
    Agrees (Texts.setJobDepth env clk depth job copyDependentJobs db)
      (Store.setJobDepth env clk depth job copyDependentJobs db) := by
  induction depth generalizing job copyDependentJobs db with
  | zero => exact agrees_error h _
  | succ depth ih =>
    rw [Texts.setJobDepth, Store.setJobDepth]
    cases job.validate env with
    | error e => exact agrees_error h e
    | ok u =>
      simp only [h.legible.job?, h.setJobTx, h.findJob]
      split_ifs
      · exact agrees_error h _
      · cases htx : Store.setJobTx env clk job copyDependentJobs db with
        | error e => exact agrees_error h e
        | ok r =>
          obtain ⟨m, db'⟩ := r
          obtain ⟨hm, hdb'⟩ := h.of_setJobTx hjob hnext htx
          simp only [Except.toOption, Option.getD_some]
          rw [← storedJob]
          split_ifs
          · exact agrees_ok hdb'
          · have hparent {db : DB} (h : Plain db) (j : Job) (hj : j.Plain)
                (hn : NextFits env clk (storedJob j.name db) j) :
                Agrees (Texts.setJobDepth env clk depth j false db)
                  (Store.setJobDepth env clk depth j false db) := ih h hj hn
            have hremove := hdb'.removeFromParent (hparent hdb') (storedJob job.name db)
            obtain ⟨heq, hplain⟩ := hremove
            rw [heq]
            rcases hr : Store.removeFromParent (Store.setJobDepth env clk depth · false)
              (storedJob job.name db) db' with ⟨e | u, db''⟩
            · rw [hr] at hplain
              exact agrees_error hplain e
            · rw [hr] at hplain
              exact hplain.addToParent (hparent hplain) hm

/-! ## The other commands -/

/-- **`DeleteJob` on texts.** -/
theorem Plain.deleteJob (h : Plain db) (env : Env) (clk : Clock) (name : String) :
    Texts.deleteJob env clk name db =
      ((Store.deleteJob env clk name db).1.toOption, (Store.deleteJob env clk name db).2) ∧
      Plain (Store.deleteJob env clk name db).2 := by
  rw [Texts.deleteJob, Store.deleteJob, h.legible.job?]
  cases hp : db.job? name with
  | none => exact ⟨rfl, h⟩
  | some p =>
    have hrest : Plain ((deleteExecutionsTxFunc name db).delete (jobKey name)) :=
      (h.deleteAll _).delete _
    simp only
    split_ifs
    · exact ⟨rfl, h⟩
    · exact ⟨rfl, hrest⟩
    · have hparent (j : Job) (hj : j.Plain) (hn : NextFits env clk (storedJob j.name _) j) :
          Agrees (Texts.setJob env clk j false _) (Store.setJob env clk j false _) :=
        Plain.setJobDepth 2 hrest hj hn
      obtain ⟨heq, hplain⟩ := hrest.removeFromParent hparent (newJobFromProto p)
      rw [heq]
      generalize Store.removeFromParent _ (newJobFromProto p) _ = r at hplain
      rcases r with ⟨e | u, db''⟩
      · exact ⟨rfl, hplain⟩
      · exact ⟨rfl, hplain⟩

theorem plain_resetCounters {p : PbJob} (h : (Value.job p).Plain) :
    (Value.job (resetCounters p)).Plain := by
  have hfits : TimeFits (some {}) := by
    intro n hn time ht
    cases hn
    cases ht
  exact ⟨{ h.1 with }, { h.2 with lastSuccess := hfits, lastError := hfits }⟩

/-- **`DeleteExecutions` on texts.** -/
theorem Plain.deleteExecutions (h : Plain db) (jobName : String) :
    Agrees (Texts.deleteExecutions jobName db) (Store.deleteExecutions jobName db) := by
  have hrest : Plain (deleteExecutionsTxFunc jobName db) := h.deleteAll _
  rw [Texts.deleteExecutions, Store.deleteExecutions, hrest.legible.job?]
  cases hp : (deleteExecutionsTxFunc jobName db).job? jobName with
  | none => exact agrees_error h _
  | some p => exact agrees_ok (hrest.set (plain_resetCounters (hrest.job hp)))

end SetJob

section Executions

variable {env : Env} {db : DB} {ex : Execution}

theorem Plain.setExecution (h : Plain db) (hex : (Value.execution ex.toProto).Plain) :
    Plain (Store.setExecution env ex db).2 := by
  have hset : Plain (setExecutionTx ex.toProto db).2 := by
    rw [setExecutionTx_eq]
    split_ifs
    · exact h
    · exact h.set hex
  have hdeleted := hset.deleteAll ((overflow env ((getExecutions ex.jobName
    (setExecutionTx ex.toProto db).2).toOption.getD [])).map fun e => executionKey e.jobName e.key)
  rwa [DB.deleteAll, List.foldl_map] at hdeleted

theorem Plain.countReport (h : Plain db) {p : PbJob} (hp : (Value.job p).Plain)
    (hex : (Value.execution ex.toProto).Plain) : Plain (countReport p ex db) := by
  have htime : TimeFits (some ⟨true, ex.toProto.finishedAt⟩) := by
    intro n hn time ht
    cases hn
    exact hex.2.finishedAt time ht
  have hstatus : Bare (computeStatus p.name ex.group db) := by
    unfold computeStatus
    simp only
    split_ifs <;> decide
  have hjob : (Value.job { countResult p ex.toProto with
      status := computeStatus p.name ex.group db }).Plain := by
    unfold countResult
    split_ifs
    · exact ⟨{ hp.1 with status := hstatus }, { hp.2 with lastSuccess := htime }⟩
    · exact ⟨{ hp.1 with status := hstatus }, { hp.2 with lastError := htime }⟩
  rw [Dkron.countReport, bumpStat_eq]
  split_ifs
  · exact (h.set hjob).set trivial
  · exact h.set hjob

theorem Plain.setExecutionDone (h : Plain db) (hex : (Value.execution ex.toProto).Plain) :
    Plain (Store.setExecutionDone ex db).2 := by
  rw [setExecutionDone_eq]
  cases hp : db.job? ex.jobName with
  | none => exact h
  | some p =>
    simp only
    split_ifs
    · exact h
    · exact (h.set hex).countReport (h.job hp) hex
    · exact h.set hex

end Executions

/-! ## Logs -/

/-- The response, none for an error. -/
def Response.found : Response → Option Response
  | .err _ => none
  | r => some r

/-- The messages of the command have no bars, Go holds them, and so it holds the next run of a job
that is set. -/
def PlainEntry (env : Env) (e : Fsm.Entry) : Prop :=
  match e.2 with
  | .setJob pj => (Value.job pj).Plain ∧
    ∀ t, (newJobFromProto pj).getNext env e.1.zone e.1.now = .ok t → SecondsFit t
  | .setExecution pbex => (Value.execution pbex).Plain
  | .executionDone pbex => (Value.execution pbex).Plain
  | _ => True

section

variable {env : Env} {db : DB}

theorem plain_toProto {pbex : PbExecution} (h : (Value.execution pbex).Plain) :
    (Value.execution (newExecutionFromProto pbex).toProto).Plain :=
  ⟨{ h.1 with }, fits_toProto h.2⟩

/-- **A command on texts** is answered as it is on records, and leaves the same records. -/
theorem Plain.apply (h : Plain db) {e : Fsm.Entry} (he : PlainEntry env e) :
    Texts.apply env e.1 e.2 db = ((Fsm.apply env e.1 e.2 db).1.found, Fsm.step env db e) ∧
      Plain (Fsm.step env db e) := by
  obtain ⟨clk, c⟩ := e
  cases c with
  | setJob pj =>
    have hagrees : Agrees (Texts.setJob env clk (newJobFromProto pj) true db)
        (Store.setJob env clk (newJobFromProto pj) true db) :=
      h.setJobDepth 2 (plain_newJobFromProto he.1) fun _ t ht => he.2 t ht
    obtain ⟨heq, hplain⟩ := hagrees
    simp only [Texts.apply, heq, Fsm.step, Fsm.apply, Fsm.applySetJob]
    generalize Store.setJob env clk (newJobFromProto pj) true db = r at hplain
    rcases r with ⟨e | u, db'⟩
    · exact ⟨rfl, hplain⟩
    · exact ⟨rfl, hplain⟩
  | deleteJob jobName =>
    obtain ⟨heq, hplain⟩ := h.deleteJob env clk jobName
    simp only [Texts.apply, heq, Fsm.step, Fsm.apply, Fsm.applyDeleteJob]
    generalize Store.deleteJob env clk jobName db = r at hplain
    rcases r with ⟨e | j, db'⟩
    · exact ⟨rfl, hplain⟩
    · exact ⟨rfl, hplain⟩
  | setExecution pbex =>
    have hex := plain_toProto he
    have heq := h.legible.setExecution h.readable env hex.2 hex.not_groupEnds
    refine ⟨?_, h.setExecution hex⟩
    simp only [Texts.apply, heq]
    rfl
  | deleteExecutions jobName =>
    obtain ⟨heq, hplain⟩ := h.deleteExecutions jobName
    simp only [Texts.apply, heq, Fsm.step, Fsm.apply, Fsm.applyDeleteExecutions]
    generalize Store.deleteExecutions jobName db = r at hplain
    rcases r with ⟨e | u, db'⟩
    · exact ⟨rfl, hplain⟩
    · have hplain' : Plain db' := hplain
      simp only [Except.isOk, Except.toBool, hplain'.legible.job?, Store.getJob]
      cases db'.job? jobName with
      | none => exact ⟨rfl, hplain⟩
      | some p => exact ⟨rfl, hplain⟩
  | executionDone pbex =>
    have hex := plain_toProto he
    have heq := h.legible.setExecutionDone h.readable hex.2 hex.not_groupEnds
    have hplain := h.setExecutionDone hex
    simp only [Texts.apply, heq, Fsm.step, Fsm.apply, Fsm.applyExecutionDone]
    generalize Store.setExecutionDone (newExecutionFromProto pbex) db = r at hplain
    rcases r with ⟨e | counted, db'⟩
    · exact ⟨rfl, hplain⟩
    · exact ⟨rfl, hplain⟩

theorem Plain.applyData {e : Fsm.Entry} {d : Clock × Bytes} (h : Plain db)
    (he : PlainEntry env e) (hd : Fsm.Carries e d) :
    Texts.applyData env d.1 d.2 db =
        some ((Fsm.apply env e.1 e.2 db).1.found, Fsm.step env db e) ∧
      Plain (Fsm.step env db e) := by
  obtain ⟨heq, hplain⟩ := h.apply he
  refine ⟨?_, hplain⟩
  rw [Texts.applyData, received_of_encodes hd.held hd.encodes hd.length, hd.clock, ← heq]

end

end Dkron
