import Dkron.Fsm

/-!
# What the store functions do

One specification for each function that writes. `SetJob` and `DeleteJob` call `SetJob` again to
update the parents, and whether these calls succeed depends on what is stored: each stored job must
pass validation again and its parent must be stored. `Sound` collects what every content reachable
from the empty one satisfies, and in a sound content both functions have a closed form:

* `setJob` writes the merged job and then moves its name between the lists of the two parents,
* `deleteJob` deletes and then drops the name from the parent's list.

Main results: `setJob_of_accepts`, `deleteJob_of_deletable` and `Sound.run`.
-/

namespace Dkron

open Store

/-! ## Sound contents -/

/-- Every stored job may be written back: it is valid, it was written by `ToProto`, and its parent
is stored. -/
structure Storable (env : Env) (db : DB) : Prop where
  valid : ∀ (n : String) (p : PbJob), db.job? n = some p → (newJobFromProto p).validate env = .ok ()
  canonical : ∀ (n : String) (p : PbJob), db.job? n = some p → p.Canonical
  parent : ∀ (n : String) (p : PbJob), db.job? n = some p → p.parentJob ≠ "" →
    db.job? p.parentJob ≠ none

/-- Besides, every stored job is listed by its parent. -/
structure Sound (env : Env) (db : DB) : Prop extends Storable env db where
  linked : ∀ (n : String) (p : PbJob), db.job? n = some p → p.parentJob ≠ "" →
    ∃ q, db.job? p.parentJob = some q ∧ n ∈ q.dependentJobs

theorem Sound.empty (env : Env) : Sound env DB.empty where
  valid n p h := by simp at h
  canonical n p h := by simp at h
  parent n p h := by simp at h
  linked n p h := by simp at h

section

variable {env : Env} {db : DB} {n : String} {p : PbJob}

theorem Storable.name_ne (hs : Storable env db) (h : db.job? n = some p) : n ≠ "" := by
  have hname := (Job.names_of_validate (hs.valid n p h)).1
  rw [← DB.name_of_job? h]
  exact hname

theorem Storable.parent_ne (hs : Storable env db) (h : db.job? n = some p) : p.parentJob ≠ n := by
  have hparent := (Job.names_of_validate (hs.valid n p h)).2
  rw [← DB.name_of_job? h]
  exact hparent

/-- There is no job without a name. -/
theorem Storable.job?_empty_name (hs : Storable env db) : db.job? "" = none := by
  cases h : db.job? "" with
  | none => rfl
  | some p => exact absurd rfl (hs.name_ne h)

/-- Storing one more job that may be written. -/
theorem Storable.set_job (hs : Storable env db) (hvalid : (newJobFromProto p).validate env = .ok ())
    (hcanonical : p.Canonical) (hparent : p.parentJob ≠ "" → db.job? p.parentJob ≠ none) :
    Storable env (db.set (.job p)) := by
  refine ⟨fun n q h => ?_, fun n q h => ?_, fun n q h hq => DB.job?_set_job_ne_none ?_⟩ <;>
    rw [DB.job?_set_job] at h <;> split_ifs at h with hn
  · cases h; exact hvalid
  · exact hs.valid n q h
  · cases h; exact hcanonical
  · exact hs.canonical n q h
  · cases h; exact hparent hq
  · exact hs.parent n q h hq

end

theorem storedJob_of_job? {db : DB} {n : String} {p : PbJob} (h : db.job? n = some p) :
    storedJob n db = newJobFromProto p := by
  rw [storedJob, h, Option.getD_some]

theorem storedJob_of_none {db : DB} {n : String} (h : db.job? n = none) :
    storedJob n db = newJobFromProto {} := by
  rw [storedJob, h, Option.getD_none]

/-! ## Lists of dependents -/

/-- The job with another list of dependents. -/
def PbJob.mapDependents (f : List String → List String) (p : PbJob) : PbJob :=
  { p with dependentJobs := f p.dependentJobs }

theorem PbJob.Canonical.mapDependents {p : PbJob} (h : p.Canonical)
    (f : List String → List String) : (p.mapDependents f).Canonical := by
  have hdeps : (newJobFromProto (p.mapDependents f)).toProto =
      { (newJobFromProto p).toProto with dependentJobs := f p.dependentJobs } := rfl
  rw [Canonical, hdeps, h]
  rfl

/-- Change the list of dependents of a stored job. -/
def setDependents (f : List String → List String) (name : String) (db : DB) : DB :=
  match db.job? name with
  | none => db
  | some p => db.set (.job (p.mapDependents f))

/-- Drop a child from the list of a job. -/
def unlink (child parent : String) : DB → DB :=
  setDependents (fun djs => djs.filter fun djn => djn ≠ child) parent

/-- Append a child to the list of a job. -/
def link (child parent : String) : DB → DB := setDependents (fun djs => djs ++ [child]) parent

theorem setDependents_of_none {f : List String → List String} {name : String} {db : DB}
    (h : db.job? name = none) : setDependents f name db = db := by
  rw [setDependents, h]

theorem job?_setDependents (f : List String → List String) (name : String) (db : DB) (n : String) :
    (setDependents f name db).job? n =
      (db.job? n).map fun p => if n = name then p.mapDependents f else p := by
  cases hp : db.job? name with
  | none =>
    rw [setDependents_of_none hp]
    by_cases hn : n = name
    · rw [hn, hp, Option.map_none]
    · simp only [if_neg hn, Option.map_id']
  | some p =>
    have hname : (p.mapDependents f).name = name := DB.name_of_job? (p := p) hp
    rw [setDependents, hp, DB.job?_set_job, hname]
    by_cases hn : n = name
    · rw [if_pos hn.symm, hn, hp]
      simp
    · rw [if_neg (Ne.symm hn)]
      simp only [if_neg hn, Option.map_id']

theorem Storable.setDependents {env : Env} {db : DB} (hs : Storable env db)
    (f : List String → List String) (name : String) : Storable env (setDependents f name db) := by
  cases hp : db.job? name with
  | none => rw [setDependents_of_none hp]; exact hs
  | some p =>
    rw [Dkron.setDependents, hp]
    exact hs.set_job (hs.valid name p hp) ((hs.canonical name p hp).mapDependents f)
      (hs.parent name p hp)

theorem Storable.unlink {env : Env} {db : DB} (hs : Storable env db) (child parent : String) :
    Storable env (unlink child parent db) :=
  hs.setDependents _ _

/-- Only the record of the job changes. -/
theorem get_setDependents {f : List String → List String} {name : String} {db : DB} {k : String}
    (h : k ≠ jobKey name) : (setDependents f name db).get k = db.get k := by
  cases hp : db.job? name with
  | none => rw [setDependents_of_none hp]
  | some p =>
    have hkey : (Value.job (p.mapDependents f)).key = jobKey name := by
      rw [Value.key, PbJob.mapDependents, DB.name_of_job? hp]
    rw [setDependents, hp, DB.get_set, hkey, if_neg (Ne.symm h)]

/-- A record after the list of dependents of a job has changed. -/
def Value.mapDependents (f : List String → List String) (name : String) : Value → Value
  | .job p => .job (if p.name = name then p.mapDependents f else p)
  | .execution e => .execution e
  | .stat s => .stat s

theorem get_setDependents_eq_map (f : List String → List String) (name : String) (db : DB)
    (k : String) :
    (setDependents f name db).get k = (db.get k).map (Value.mapDependents f name) := by
  cases hv : db.get k with
  | none =>
    by_cases hk : k = jobKey name
    · rw [hk, DB.get_jobKey] at hv
      rw [hk, DB.get_jobKey, job?_setDependents, Option.map_eq_none_iff.1 hv]
      rfl
    · rw [get_setDependents hk, hv]
      rfl
  | some v =>
    have hkey : v.key = k := DB.key_of_get hv
    cases v with
    | job p =>
      have hp : db.job? p.name = some p := by
        rwa [DB.job?_eq_some, show jobKey p.name = k from hkey]
      rw [← hkey, Value.key, DB.get_jobKey, job?_setDependents, hp]
      simp only [Option.map_some, Value.mapDependents]
    | execution e =>
      rw [get_setDependents (hkey ▸ executionKey_ne_jobKey _ _ _), hv]
      rfl
    | stat s =>
      rw [get_setDependents (hkey ▸ statKey_ne_jobKey _ _), hv]
      rfl

/-! ## `SetJob` -/

/-- What validation looks at and where the job hangs does not depend on the stored job. -/
theorem keepStored_definition (copyDependentJobs : Bool) (ej job : Job) :
    let m := keepStored copyDependentJobs ej job
    m.name = job.name ∧ m.parentJob = job.parentJob ∧ m.schedule = job.schedule ∧
      m.concurrency = job.concurrency ∧ m.timezone = job.timezone ∧ m.executor = job.executor ∧
      m.executorConfig = job.executorConfig ∧ m.startsAt = job.startsAt ∧ m.next = job.next := by
  unfold keepStored
  split_ifs <;> exact ⟨rfl, rfl, rfl, rfl, rfl, rfl, rfl, rfl, rfl⟩

/-- `setNext` changes `Next` only. -/
theorem setNext_eq_ok {env : Env} {clk : Clock} {ej job m : Job}
    (h : setNext env clk ej job = .ok m) : ∃ t, m = { job with next := t } := by
  unfold setNext at h
  split_ifs at h with hsched hnext
  · cases hg : job.getNext env clk.zone clk.now with
    | error e => rw [hg] at h; cases h
    | ok t => rw [hg] at h; cases h; exact ⟨t, rfl⟩
  · cases h; exact ⟨ej.next, rfl⟩
  · cases h; exact ⟨job.next, rfl⟩

theorem setNext_of_validate {env : Env} {clk : Clock} {job : Job} (h : job.validate env = .ok ())
    (ej : Job) : ∃ m, setNext env clk ej job = .ok m := by
  obtain ⟨t, ht⟩ := Job.getNext_of_validate h clk.zone clk.now
  unfold setNext
  split_ifs
  · rw [ht]; exact ⟨_, rfl⟩
  · exact ⟨_, rfl⟩
  · exact ⟨_, rfl⟩

theorem validate_keepStored {env : Env} (copyDependentJobs : Bool) (ej job : Job) :
    (keepStored copyDependentJobs ej job).validate env = job.validate env := by
  obtain ⟨hname, hparent, hsched, hconc, htz, hexec, hconf, -, -⟩ :=
    keepStored_definition copyDependentJobs ej job
  exact Job.validate_congr hname hparent hsched hconc htz hexec hconf

/-- The job as `SetJob` stores it, for a request it accepts. -/
def mergedJob (env : Env) (clk : Clock) (job : Job) (copyDependentJobs : Bool) (db : DB) :
    Except Err Job :=
  setNext env clk (storedJob job.name db) (keepStored copyDependentJobs (storedJob job.name db) job)

section

variable {env : Env} {clk : Clock} {job m : Job} {copyDependentJobs : Bool} {db : DB}

theorem mergedJob_of_validate (clk : Clock) (copyDependentJobs : Bool) (db : DB)
    (h : job.validate env = .ok ()) :
    ∃ m, mergedJob env clk job copyDependentJobs db = .ok m :=
  setNext_of_validate (by rw [validate_keepStored]; exact h) _

theorem name_of_mergedJob (h : mergedJob env clk job copyDependentJobs db = .ok m) :
    m.name = job.name := by
  obtain ⟨t, rfl⟩ := setNext_eq_ok h
  exact (keepStored_definition _ _ _).1

theorem parentJob_of_mergedJob (h : mergedJob env clk job copyDependentJobs db = .ok m) :
    m.parentJob = job.parentJob := by
  obtain ⟨t, rfl⟩ := setNext_eq_ok h
  exact (keepStored_definition _ _ _).2.1

theorem validate_of_mergedJob (h : mergedJob env clk job copyDependentJobs db = .ok m) :
    m.validate env = job.validate env := by
  obtain ⟨t, rfl⟩ := setNext_eq_ok h
  rw [← validate_keepStored copyDependentJobs (storedJob job.name db) job]
  exact Job.validate_congr rfl rfl rfl rfl rfl rfl rfl

/-- The stored list of dependents wins when it is not empty. -/
theorem dependentJobs_of_mergedJob (h : mergedJob env clk job true db = .ok m) {p : PbJob}
    (hname : job.name ≠ "") (hp : db.job? job.name = some p) :
    m.dependentJobs = if p.dependentJobs ≠ [] then p.dependentJobs else job.dependentJobs := by
  obtain ⟨t, rfl⟩ := setNext_eq_ok h
  have hej : (newJobFromProto p).name = job.name := DB.name_of_job? hp
  rw [storedJob_of_job? hp, keepStored, hej, if_neg hname]
  simp [newJobFromProto]

/-- A new job has the list of dependents the request gives it. -/
theorem dependentJobs_of_mergedJob_new (h : mergedJob env clk job copyDependentJobs db = .ok m)
    (hp : db.job? job.name = none) : m.dependentJobs = job.dependentJobs := by
  obtain ⟨t, rfl⟩ := setNext_eq_ok h
  rw [storedJob_of_none hp]
  rfl

end

/-- The call of `SetJob` on a parent: writing a stored job back with another list of dependents
changes nothing else and goes no deeper. -/
theorem setJobDepth_parent {env : Env} {clk : Clock} {db : DB} {n : String} {p : PbJob}
    (hs : Storable env db) (hp : db.job? n = some p) (depth : Nat)
    (f : List String → List String) :
    setJobDepth env clk (depth + 1) (newJobFromProto (p.mapDependents f)) false db =
      (.ok (), setDependents f n db) := by
  have hn : (newJobFromProto p).name ≠ "" := (Job.names_of_validate (hs.valid n p hp)).1
  have hej : storedJob (newJobFromProto (p.mapDependents f)).name db = newJobFromProto p := by
    have hname : (newJobFromProto (p.mapDependents f)).name = n := DB.name_of_job? (p := p) hp
    rw [hname]
    exact storedJob_of_job? hp
  have hkeep : keepStored false (newJobFromProto p) (newJobFromProto (p.mapDependents f)) =
      newJobFromProto (p.mapDependents f) := by
    rw [keepStored, if_neg hn]
    simp [newJobFromProto, PbJob.mapDependents]
    exact ite_self _
  have hnext : setNext env clk (newJobFromProto p) (newJobFromProto (p.mapDependents f)) =
      .ok (newJobFromProto (p.mapDependents f)) := by
    simp [setNext, newJobFromProto, PbJob.mapDependents]
  have hvalid : (newJobFromProto (p.mapDependents f)).validate env = .ok () := hs.valid n p hp
  have hstored : ¬((newJobFromProto (p.mapDependents f)).parentJob ≠ "" ∧
      db.job? (newJobFromProto (p.mapDependents f)).parentJob = none) :=
    fun h => hs.parent n p hp h.1 h.2
  have hproto : (newJobFromProto (p.mapDependents f)).toProto = p.mapDependents f :=
    (hs.canonical n p hp).mapDependents f
  rw [setJobDepth, hvalid, setDependents, hp]
  simp only [if_neg hstored, setJobTx, hej, hkeep, hnext, hproto]
  exact if_pos rfl

section

variable {env : Env} {clk : Clock} {db : DB} {child : Job}

theorem getParent_eq (hname : child.parentJob ≠ child.name) (hparent : child.parentJob ≠ "")
    {p : PbJob} (hp : db.job? child.parentJob = some p) :
    getParent child db = .ok (newJobFromProto p) := by
  rw [getParent, if_neg (Ne.symm hname), if_neg hparent, getJob, hp]

/-- Without a parent there is no list to change. -/
theorem setDependents_empty_name (hs : Storable env db) (f : List String → List String) :
    setDependents f "" db = db :=
  setDependents_of_none hs.job?_empty_name

/-- `removeFromParent` succeeds when the parent is stored. -/
theorem removeFromParent_eq (hs : Storable env db) (hname : child.parentJob ≠ child.name)
    (hparent : child.parentJob ≠ "" → db.job? child.parentJob ≠ none) (depth : Nat) :
    removeFromParent (setJobDepth env clk (depth + 1) · false) child db =
      (.ok (), unlink child.name child.parentJob db) := by
  unfold removeFromParent
  by_cases hempty : child.parentJob = ""
  · rw [if_pos hempty, hempty, unlink, setDependents_empty_name hs]
  · obtain ⟨p, hp⟩ := Option.ne_none_iff_exists'.1 (hparent hempty)
    simp only [if_neg hempty, getParent_eq hname hempty hp]
    exact setJobDepth_parent hs hp depth fun djs => djs.filter fun djn => djn ≠ child.name

/-- `addToParent` succeeds when the parent is stored. -/
theorem addToParent_eq (hs : Storable env db) (hname : child.parentJob ≠ child.name)
    (hparent : child.parentJob ≠ "" → db.job? child.parentJob ≠ none) (depth : Nat) :
    addToParent (setJobDepth env clk (depth + 1) · false) child db =
      (.ok (), link child.name child.parentJob db) := by
  unfold addToParent
  by_cases hempty : child.parentJob = ""
  · rw [if_pos hempty, hempty, link, setDependents_empty_name hs]
  · obtain ⟨p, hp⟩ := Option.ne_none_iff_exists'.1 (hparent hempty)
    simp only [if_neg hempty, getParent_eq hname hempty hp]
    exact setJobDepth_parent hs hp depth fun djs => djs ++ [child.name]

end

/-- `SetJob` accepts the request: it is valid and its parent is stored. -/
def Accepts (env : Env) (db : DB) (job : Job) : Prop :=
  job.validate env = .ok () ∧ (job.parentJob ≠ "" → db.job? job.parentJob ≠ none)

instance (env : Env) (db : DB) (job : Job) : Decidable (Accepts env db job) :=
  inferInstanceAs (Decidable (_ ∧ _))

/-- An invalid request is rejected with the error of its validation. -/
theorem setJob_of_invalid {env : Env} {job : Job} {e : Err} (clk : Clock)
    (copyDependentJobs : Bool) (db : DB) (h : job.validate env = .error e) :
    setJob env clk job copyDependentJobs db = (.error e, db) := by
  rw [setJob, setJobDepth, h]

/-- A valid request that is not accepted names a parent that is not stored. -/
theorem setJob_of_no_parent {env : Env} {db : DB} {job : Job} (clk : Clock)
    (copyDependentJobs : Bool) (hv : job.validate env = .ok ()) (h : ¬Accepts env db job) :
    setJob env clk job copyDependentJobs db = (.error .parentJobNotFound, db) := by
  have hparent : job.parentJob ≠ "" ∧ db.job? job.parentJob = none := by
    by_contra hne
    exact h ⟨hv, fun hp hnone => hne ⟨hp, hnone⟩⟩
  rw [setJob, setJobDepth, hv]
  simp only [if_pos hparent]

/-- A request that is not accepted changes nothing. -/
theorem setJob_of_not_accepts {env : Env} {db : DB} {job : Job} (clk : Clock)
    (copyDependentJobs : Bool) (h : ¬Accepts env db job) :
    ∃ e, setJob env clk job copyDependentJobs db = (.error e, db) := by
  cases hv : job.validate env with
  | error e => exact ⟨e, setJob_of_invalid clk copyDependentJobs db hv⟩
  | ok u => exact ⟨.parentJobNotFound, setJob_of_no_parent clk copyDependentJobs hv h⟩

/-- Move a child from the list of one job to that of another. -/
def relink (child old new : String) (db : DB) : DB :=
  if new = old then db else link child new (unlink child old db)

theorem job?_relink (child old new : String) (db : DB) (n : String) :
    (relink child old new db).job? n = (db.job? n).map fun p =>
      if new = old then p
      else if new = n then p.mapDependents fun djs => djs ++ [child]
      else if old = n then p.mapDependents fun djs => djs.filter fun djn => djn ≠ child
      else p := by
  unfold relink
  by_cases hnew : new = old
  · simp only [if_pos hnew, Option.map_id']
  · simp only [if_neg hnew]
    rw [link, job?_setDependents, unlink, job?_setDependents, Option.map_map]
    congr 1
    funext p
    by_cases hn : new = n
    · subst hn
      simp [hnew]
    · by_cases hold : old = n
      · subst hold
        simp [hn, Ne.symm hn]
      · simp [hn, hold, Ne.symm hn, Ne.symm hold]

theorem job?_setDependents_ne_none {f : List String → List String} {name n : String} {db : DB}
    (h : db.job? n ≠ none) : (setDependents f name db).job? n ≠ none := by
  rw [job?_setDependents]
  simpa using h

theorem Storable.relink {env : Env} {db : DB} (hs : Storable env db) (child old new : String) :
    Storable env (relink child old new db) := by
  unfold Dkron.relink
  split_ifs
  · exact hs
  · exact (hs.setDependents _ _).setDependents _ _

/-- The merged job may be stored. -/
theorem Storable.set_mergedJob {env : Env} {clk : Clock} {db : DB} {job m : Job}
    {copyDependentJobs : Bool} (hs : Storable env db) (h : Accepts env db job)
    (hm : mergedJob env clk job copyDependentJobs db = .ok m) :
    Storable env (db.set (.job m.toProto)) := by
  refine hs.set_job ?_ (toProto_canonical m) ?_
  · rw [← h.1, ← validate_of_mergedJob hm]
    exact Job.validate_congr rfl rfl rfl rfl rfl rfl rfl
  · rw [show m.toProto.parentJob = job.parentJob from parentJob_of_mergedJob hm]
    exact h.2

/-- **`SetJob` in a sound content.** A request that is accepted stores the merged job, and then
moves its name from the list of the old parent to that of the new one. -/
theorem setJob_of_accepts {env : Env} {db : DB} {job : Job} (clk : Clock)
    (copyDependentJobs : Bool) (hs : Storable env db) (h : Accepts env db job) :
    ∃ m, mergedJob env clk job copyDependentJobs db = .ok m ∧
      setJob env clk job copyDependentJobs db =
        (.ok (), relink job.name (storedJob job.name db).parentJob job.parentJob
          (db.set (.job m.toProto))) := by
  obtain ⟨m, hm⟩ := mergedJob_of_validate clk copyDependentJobs db h.1
  have hset := hs.set_mergedJob h hm
  obtain ⟨hvalid, hparent⟩ := h
  have hmname : m.name = job.name := name_of_mergedJob hm
  have hmparent : m.parentJob = job.parentJob := parentJob_of_mergedJob hm
  obtain ⟨hname, hself⟩ := Job.names_of_validate hvalid
  refine ⟨m, hm, ?_⟩
  have hfound : ¬(job.parentJob ≠ "" ∧ db.job? job.parentJob = none) :=
    fun hp => hparent hp.1 hp.2
  unfold mergedJob at hm
  rw [setJob, setJobDepth, hvalid]
  simp only [if_neg hfound, setJobTx, hm, hmparent]
  unfold relink
  by_cases hsame : job.parentJob = (storedJob job.name db).parentJob
  · rw [if_pos hsame, if_pos hsame]
  · -- The job found under the name knows the name, unless it is the empty one.
    have hremove : removeFromParent (setJobDepth env clk 1 · false) (storedJob job.name db)
        (db.set (.job m.toProto)) =
          (.ok (), unlink job.name (storedJob job.name db).parentJob
            (db.set (.job m.toProto))) := by
      cases hp : db.job? job.name with
      | none =>
        have hnone : removeFromParent (setJobDepth env clk 1 · false) (newJobFromProto {})
            (db.set (.job m.toProto)) = (.ok (), db.set (.job m.toProto)) := if_pos rfl
        rw [storedJob_of_none hp, hnone, show (newJobFromProto {}).parentJob = "" from rfl, unlink,
          setDependents_empty_name hset]
      | some p =>
        have hpname : (newJobFromProto p).name = job.name := DB.name_of_job? hp
        rw [storedJob_of_job? hp, removeFromParent_eq hset, hpname]
        · rw [hpname]
          exact hs.parent_ne hp
        · exact fun hne => DB.job?_set_job_ne_none (hs.parent _ p hp hne)
    rw [if_neg hsame, if_neg hsame, hremove]
    simp only
    rw [addToParent_eq (hset.unlink job.name (storedJob job.name db).parentJob), hmname, hmparent]
    · rw [hmname, hmparent]
      exact hself
    · rw [hmparent]
      exact fun hne => job?_setDependents_ne_none (DB.job?_set_job_ne_none (hparent hne))

/-! ## Deleting -/

/-- `DeleteExecutions` and `DeleteJob` delete by prefix. -/
theorem get_deleteExecutionsTxFunc (jobName : String) (db : DB) (k : String) :
    (deleteExecutionsTxFunc jobName db).get k =
      if hasPrefix k (executionsPrefix ++ ":" ++ jobName) then none else db.get k := by
  rw [deleteExecutionsTxFunc, DB.get_deleteAll]
  by_cases hk : hasPrefix k (executionsPrefix ++ ":" ++ jobName)
  · rw [if_pos hk]
    cases hv : db.get k with
    | none => exact ite_self _
    | some v =>
      rw [if_pos]
      rw [List.mem_filter, List.mem_map]
      exact ⟨⟨(k, v), DB.mem_ascend.2 hv, rfl⟩, hk⟩
  · rw [if_neg hk, if_neg]
    rw [List.mem_filter]
    exact fun h => hk h.2

theorem not_hasPrefix_jobKey (n jobName : String) :
    ¬hasPrefix (jobKey n) (executionsPrefix ++ ":" ++ jobName) := by
  rw [hasPrefix_iff]
  simp [executionsPrefix, String.toList_append]

theorem not_hasPrefix_statKey (d jobName : String) :
    ¬hasPrefix (statKey d) (executionsPrefix ++ ":" ++ jobName) := by
  rw [hasPrefix_iff]
  simp [executionsPrefix, String.toList_append]

@[simp] theorem job?_deleteExecutionsTxFunc (jobName : String) (db : DB) (n : String) :
    (deleteExecutionsTxFunc jobName db).job? n = db.job? n :=
  DB.job?_congr (by rw [get_deleteExecutionsTxFunc, if_neg (not_hasPrefix_jobKey _ _)])

/-- `DeleteExecutions` succeeds when the job is stored. -/
theorem deleteExecutions_eq (jobName : String) (db : DB) :
    deleteExecutions jobName db =
      match db.job? jobName with
      | none => (.error .notFound, db)
      | some p => (.ok (), (deleteExecutionsTxFunc jobName db).set (.job (resetCounters p))) := by
  have hread : deleteExecutions jobName db =
      match (deleteExecutionsTxFunc jobName db).job? jobName with
      | none => (.error .notFound, db)
      | some p => (.ok (), (deleteExecutionsTxFunc jobName db).set (.job (resetCounters p))) := rfl
  exact hread.trans (by rw [job?_deleteExecutionsTxFunc])

theorem job?_deleteExecutions (jobName : String) (db : DB) (n : String) :
    (deleteExecutions jobName db).2.job? n =
      (db.job? n).map fun p => if n = jobName then resetCounters p else p := by
  rw [deleteExecutions_eq]
  cases hp : db.job? jobName with
  | none =>
    by_cases hn : n = jobName
    · simp only [hn, hp, Option.map_none]
    · simp only [if_neg hn, Option.map_id']
  | some p =>
    have hname : (resetCounters p).name = jobName := DB.name_of_job? (p := p) hp
    rw [DB.job?_set_job, hname, job?_deleteExecutionsTxFunc]
    by_cases hn : n = jobName
    · simp only [hn, hp, if_true, Option.map_some]
    · simp only [if_neg hn, if_neg (Ne.symm hn), Option.map_id']

/-- `DeleteJob` deletes the job: it is stored and has no dependents. -/
def Deletable (db : DB) (name : String) (p : PbJob) : Prop :=
  db.job? name = some p ∧ p.dependentJobs = []

theorem deleteJob_of_not_deletable {db : DB} {name : String} (env : Env) (clk : Clock)
    (h : ¬∃ p, Deletable db name p) : ∃ e, deleteJob env clk name db = (.error e, db) := by
  unfold deleteJob
  cases hp : db.job? name with
  | none => exact ⟨.notFound, rfl⟩
  | some p =>
    have hdeps : p.dependentJobs ≠ [] := fun hd => h ⟨p, hp, hd⟩
    exact ⟨.dependentJobs, by simp only [if_pos hdeps]⟩

/-- The content without the job and what is deleted as its executions. -/
def eraseJob (name : String) (db : DB) : DB :=
  (deleteExecutionsTxFunc name db).delete (jobKey name)

@[simp] theorem job?_eraseJob (name : String) (db : DB) (n : String) :
    (eraseJob name db).job? n = if name = n then none else db.job? n := by
  rw [eraseJob, DB.job?_delete_jobKey, job?_deleteExecutionsTxFunc]

/-- The parent of a job without dependents is never that job's child. -/
theorem Sound.parent_ne_of_deletable {env : Env} {db : DB} {name : String} {p : PbJob}
    (hs : Sound env db) (h : Deletable db name p) {n : String} {q : PbJob}
    (hq : db.job? n = some q) : q.parentJob ≠ name := by
  intro hparent
  have hne : q.parentJob ≠ "" := by
    rw [hparent]
    exact hs.name_ne h.1
  obtain ⟨p', hp', hmem⟩ := hs.linked n q hq hne
  rw [hparent, h.1] at hp'
  cases hp'
  rw [h.2] at hmem
  cases hmem

theorem Sound.storable_eraseJob {env : Env} {db : DB} {name : String} {p : PbJob}
    (hs : Sound env db) (h : Deletable db name p) : Storable env (eraseJob name db) := by
  refine ⟨fun n q hq => ?_, fun n q hq => ?_, fun n q hq hne => ?_⟩ <;>
    rw [job?_eraseJob] at hq <;> split_ifs at hq
  · exact hs.valid n q hq
  · exact hs.canonical n q hq
  · rw [job?_eraseJob, if_neg (Ne.symm (hs.parent_ne_of_deletable h hq))]
    exact hs.parent n q hq hne

/-- **`DeleteJob` in a sound content.** -/
theorem deleteJob_of_deletable {env : Env} {clk : Clock} {db : DB} {name : String} {p : PbJob}
    (hs : Sound env db) (h : Deletable db name p) :
    deleteJob env clk name db =
      (.ok (newJobFromProto p), unlink name p.parentJob (eraseJob name db)) := by
  have hname : p.name = name := DB.name_of_job? h.1
  have herase := hs.storable_eraseJob h
  unfold deleteJob
  rw [h.1]
  simp only [h.2, ne_eq, not_true_eq_false, if_false]
  rw [← eraseJob]
  by_cases hparent : (newJobFromProto p).parentJob = ""
  · rw [if_pos hparent, show p.parentJob = "" from hparent, unlink, setDependents_empty_name herase]
  · have hremove :
        removeFromParent (setJob env clk · false) (newJobFromProto p) (eraseJob name db) =
          (.ok (), unlink (newJobFromProto p).name (newJobFromProto p).parentJob
            (eraseJob name db)) := by
      refine removeFromParent_eq herase ?_ (fun hne => ?_) 1
      · rw [show (newJobFromProto p).name = name from hname]
        exact hs.parent_ne h.1
      · have hother : name ≠ (newJobFromProto p).parentJob :=
          Ne.symm (hs.parent_ne_of_deletable h h.1)
        rw [job?_eraseJob, if_neg hother]
        exact hs.parent name p h.1 hne
    rw [if_neg hparent, hremove, show (newJobFromProto p).name = name from hname]
    rfl

/-! ## Executions -/

/-- `setExecutionTx` writes unless a more recent execution is stored. -/
theorem setExecutionTx_eq (pbe : PbExecution) (db : DB) :
    (setExecutionTx pbe db).2 =
      if (db.execution? pbe.jobName pbe.key).any
          fun p => asTime pbe.finishedAt < asTime p.finishedAt
      then db else db.set (.execution pbe) := by
  unfold setExecutionTx
  cases db.execution? pbe.jobName pbe.key with
  | none => simp
  | some p => by_cases h : asTime pbe.finishedAt < asTime p.finishedAt <;> simp [h]

@[simp] theorem job?_setExecutionTx (pbe : PbExecution) (db : DB) (n : String) :
    (setExecutionTx pbe db).2.job? n = db.job? n := by
  rw [setExecutionTx_eq]
  split_ifs
  · rfl
  · exact DB.job?_set_execution _ _ _

/-- The executions read below a prefix are stored there. -/
theorem mem_unmarshalExecutions_list {pre : String} {db : DB} {ex : Execution} :
    ex ∈ unmarshalExecutions (list pre db) ↔
      ∃ k pbe, db.get k = some (.execution pbe) ∧ hasPrefix k pre ∧ trimDirectoryKey k ≠ pre ∧
        newExecutionFromProto pbe = ex := by
  rw [unmarshalExecutions, List.mem_filterMap]
  constructor
  · rintro ⟨⟨k, v⟩, hr, hex⟩
    rw [list, List.mem_filter, DB.mem_ascend] at hr
    obtain ⟨hget, hpre⟩ := hr
    obtain ⟨hpre, htrim⟩ := of_decide_eq_true hpre
    cases v with
    | execution pbe => exact ⟨k, pbe, hget, hpre, htrim, Option.some.inj hex⟩
    | job p => cases hex
    | stat s => cases hex
  · rintro ⟨k, pbe, hget, hpre, htrim, rfl⟩
    refine ⟨(k, .execution pbe), ?_, rfl⟩
    rw [list, List.mem_filter, DB.mem_ascend]
    exact ⟨hget, decide_eq_true ⟨hpre, htrim⟩⟩

/-- The executions `SetExecution` deletes after it has written one. -/
def overflowKeys (env : Env) (jobName : String) (db : DB) : List String :=
  (overflow env ((getExecutions jobName db).toOption.getD [])).map
    fun ex => executionKey ex.jobName ex.key

theorem setExecution_eq (env : Env) (execution : Execution) (db : DB) :
    (setExecution env execution db).2 =
      (setExecutionTx execution.toProto db).2.deleteAll
        (overflowKeys env execution.jobName (setExecutionTx execution.toProto db).2) := by
  rw [DB.deleteAll, overflowKeys, List.foldl_map]
  rfl

/-- Only stored executions are over the limit. -/
theorem get_of_mem_overflowKeys {env : Env} {jobName k : String} {db : DB}
    (h : k ∈ overflowKeys env jobName db) : ∃ pbe, db.get k = some (.execution pbe) := by
  rw [overflowKeys, List.mem_map] at h
  obtain ⟨ex, hex, rfl⟩ := h
  have hread : ex ∈ (getExecutions jobName db).toOption.getD [] :=
    (env.sortSlice_perm _ _).mem_iff.1 (List.mem_of_mem_take hex)
  unfold getExecutions at hread
  split_ifs at hread
  · obtain ⟨k, pbe, hget, -, -, rfl⟩ := mem_unmarshalExecutions_list.1 hread
    have hkey : executionKey pbe.jobName pbe.key = k := DB.key_of_get hget
    exact ⟨pbe, hkey ▸ hget⟩
  · cases hread

theorem jobKey_not_mem_overflowKeys (env : Env) (jobName n : String) (db : DB) :
    jobKey n ∉ overflowKeys env jobName db := by
  intro h
  obtain ⟨pbe, hget⟩ := get_of_mem_overflowKeys h
  exact executionKey_ne_jobKey _ _ _ (DB.key_of_get hget)

/-- `SetExecution` touches no job. -/
@[simp] theorem job?_setExecution (env : Env) (execution : Execution) (db : DB) (n : String) :
    (setExecution env execution db).2.job? n = db.job? n := by
  rw [setExecution_eq, DB.job?_deleteAll (jobKey_not_mem_overflowKeys _ _ _ _),
    job?_setExecutionTx]

/-- The statistics with one more result; unchanged where they have no JSON form. -/
def bumpStat (date : Time) (success : Bool) (db : DB) : DB :=
  match incrementStatTxFunc date success db with
  | .error _ => db
  | .ok db' => db'

/-- The statistics of the date with one more result. -/
def bumpedStat (date : Time) (success : Bool) (db : DB) : ExecutionStat :=
  ExecutionStat.increment ((db.stat? (formatStatDate date)).getD ⟨truncateDay date, 0, 0⟩) success

theorem bumpStat_eq (date : Time) (success : Bool) (db : DB) :
    bumpStat date success db =
      if 0 ≤ year (bumpedStat date success db).date ∧ year (bumpedStat date success db).date < 10000
      then db.set (.stat (bumpedStat date success db)) else db := by
  have heq : incrementStatTxFunc date success db =
      if 0 ≤ year (bumpedStat date success db).date ∧ year (bumpedStat date success db).date < 10000
      then .ok (db.set (.stat (bumpedStat date success db)))
      else .error (.text "Time.MarshalJSON: year outside of range [0,9999]") := rfl
  rw [bumpStat, heq]
  split_ifs <;> rfl

@[simp] theorem job?_bumpStat (date : Time) (success : Bool) (db : DB) (n : String) :
    (bumpStat date success db).job? n = db.job? n := by
  rw [bumpStat_eq]
  split_ifs
  · exact DB.job?_set_stat _ _ _
  · rfl

/-- What a counted report changes, after the execution is written. -/
def countReport (pbj : PbJob) (execution : Execution) (db : DB) : DB :=
  bumpStat execution.finishedAt execution.success
    (db.set (.job { countResult pbj execution.toProto with
      status := computeStatus pbj.name execution.group db }))

/-- `SetExecutionDone` fails without the job, ignores a report older than the stored one, and
otherwise writes the execution and counts it if `shouldCount` says so. -/
theorem setExecutionDone_eq (execution : Execution) (db : DB) :
    setExecutionDone execution db =
      match db.job? execution.jobName with
      | none => (.error .executionDoneForDeletedJob, db)
      | some pbj =>
        if (db.execution? execution.jobName execution.key).any
            fun p => execution.finishedAt < asTime p.finishedAt then (.ok false, db)
        else if shouldCount pbj (db.execution? execution.jobName execution.key)
            execution.toProto then
          (.ok true, countReport pbj execution (db.set (.execution execution.toProto)))
        else (.ok false, db.set (.execution execution.toProto)) := by
  unfold setExecutionDone
  cases hjob : db.job? execution.jobName with
  | none => rfl
  | some pbj =>
    simp only
    by_cases hlate : (db.execution? execution.jobName execution.key).any
        fun p => execution.finishedAt < asTime p.finishedAt
    · rw [if_pos hlate, if_pos hlate]
    · have hwrite :
          (setExecutionTx execution.toProto db).2 = db.set (.execution execution.toProto) := by
        rw [setExecutionTx_eq]
        exact if_neg hlate
      rw [if_neg hlate, if_neg hlate, hwrite]
      by_cases hcount : shouldCount pbj (db.execution? execution.jobName execution.key)
          execution.toProto
      · rw [if_pos hcount, if_neg (not_not.2 hcount), countReport, bumpStat]
        simp only [Execution.toProto_success, Execution.toProto_group]
        cases incrementStatTxFunc execution.finishedAt execution.success _ <;> rfl
      · rw [if_neg hcount, if_pos hcount]

/-! ## What the other commands do to jobs -/

/-- The job without the results of its runs. -/
def PbJob.definition (p : PbJob) : PbJob :=
  { p with
    successCount := 0
    errorCount := 0
    lastSuccess := none
    lastError := none
    status := "" }

/-- Jobs of the same definition agree on every field that the definition keeps. -/
theorem field_of_definition {α : Type} {p q : PbJob} (f : PbJob → α)
    (h : q.definition = p.definition) (hf : ∀ r : PbJob, f r.definition = f r := by intro; rfl) :
    f q = f p := by
  rw [← hf q, h, hf p]

theorem definition_countResult (p : PbJob) (pbe : PbExecution) (status : String) :
    { countResult p pbe with status := status }.definition = p.definition := by
  unfold countResult
  split_ifs <;> rfl

theorem PbJob.Canonical.resetCounters {p : PbJob} (h : p.Canonical) :
    (resetCounters p).Canonical := by
  have hreset : (newJobFromProto (Store.resetCounters p)).toProto =
      Store.resetCounters (newJobFromProto p).toProto := rfl
  rw [Canonical, hreset, h]

theorem PbJob.Canonical.countResult {p : PbJob} (h : p.Canonical) (ex : Execution)
    (status : String) : { Store.countResult p ex.toProto with status := status }.Canonical := by
  unfold Canonical at h ⊢
  unfold Store.countResult
  split_ifs
  · have hcount : (newJobFromProto { p with
          lastSuccess := some ⟨true, ex.toProto.finishedAt⟩
          successCount := p.successCount + 1
          status := status }).toProto =
        { (newJobFromProto p).toProto with
          lastSuccess := some ⟨true, some ex.finishedAt⟩
          successCount := Int32.ofInt (p.successCount + 1).toInt
          status := status } := rfl
    rw [hcount, h, Int32.ofInt_toInt]
    rfl
  · have hcount : (newJobFromProto { p with
          lastError := some ⟨true, ex.toProto.finishedAt⟩
          errorCount := p.errorCount + 1
          status := status }).toProto =
        { (newJobFromProto p).toProto with
          lastError := some ⟨true, some ex.finishedAt⟩
          errorCount := Int32.ofInt (p.errorCount + 1).toInt
          status := status } := rfl
    rw [hcount, h, Int32.ofInt_toInt]
    rfl

/-- The job after a done report, as a function of the job before. -/
def reported (ex : Execution) (db : DB) (n : String) (p : PbJob) : PbJob :=
  if n = ex.jobName ∧
      ¬((db.execution? ex.jobName ex.key).any fun q => ex.finishedAt < asTime q.finishedAt) ∧
      shouldCount p (db.execution? ex.jobName ex.key) ex.toProto then
    { countResult p ex.toProto with
      status := computeStatus n ex.group (db.set (.execution ex.toProto)) }
  else p

theorem definition_reported (ex : Execution) (db : DB) (n : String) (p : PbJob) :
    (reported ex db n p).definition = p.definition := by
  unfold reported
  split_ifs
  · exact definition_countResult _ _ _
  · rfl

theorem PbJob.Canonical.reported {p : PbJob} (h : p.Canonical) (ex : Execution) (db : DB)
    (n : String) : (reported ex db n p).Canonical := by
  unfold Dkron.reported
  split_ifs
  · exact h.countResult _ _
  · exact h

theorem job?_countReport {p : PbJob} {ex : Execution} (hname : p.name = ex.jobName) (db : DB)
    (n : String) : (countReport p ex db).job? n =
      if n = ex.jobName then
        some { countResult p ex.toProto with status := computeStatus n ex.group db }
      else db.job? n := by
  have hkey : (countResult p ex.toProto).name = ex.jobName := by
    rw [← hname]
    exact field_of_definition PbJob.name (definition_countResult p ex.toProto "")
  rw [countReport, job?_bumpStat, DB.job?_set_job]
  simp only [hkey, hname]
  by_cases hn : n = ex.jobName
  · rw [if_pos hn.symm, if_pos hn, hn]
  · rw [if_neg (Ne.symm hn), if_neg hn]

theorem job?_setExecutionDone (ex : Execution) (db : DB) (n : String) :
    (setExecutionDone ex db).2.job? n = (db.job? n).map (reported ex db n) := by
  rw [setExecutionDone_eq]
  by_cases hn : n = ex.jobName
  · subst hn
    cases hp : db.job? ex.jobName with
    | none => exact hp
    | some p =>
      have hname : p.name = ex.jobName := DB.name_of_job? hp
      simp only [Option.map_some, reported, true_and]
      by_cases hlate : (db.execution? ex.jobName ex.key).any
          fun q => ex.finishedAt < asTime q.finishedAt
      · simp only [hlate, not_true_eq_false, false_and, if_false]
        exact hp
      · by_cases hcount : shouldCount p (db.execution? ex.jobName ex.key) ex.toProto
        · simp only [if_neg hlate, if_pos hcount, if_pos (And.intro hlate hcount)]
          rw [job?_countReport hname, if_pos rfl]
        · simp only [if_neg hlate, if_neg hcount, if_neg fun h : _ ∧ _ => hcount h.2]
          rw [DB.job?_set_execution, hp]
  · have hsame : reported ex db n = id := by
      funext p
      exact if_neg fun h => hn h.1
    rw [hsame, Option.map_id, id]
    cases hp : db.job? ex.jobName with
    | none => rfl
    | some p =>
      simp only
      split_ifs
      · rfl
      · rw [job?_countReport (DB.name_of_job? hp), if_neg hn, DB.job?_set_execution]
      · rw [DB.job?_set_execution]

/-- Two jobs of the same definition are valid together. -/
theorem validate_of_definition {env : Env} {p q : PbJob} (h : q.definition = p.definition) :
    (newJobFromProto q).validate env = (newJobFromProto p).validate env :=
  Job.validate_congr (field_of_definition PbJob.name h) (field_of_definition PbJob.parentJob h)
    (field_of_definition PbJob.schedule h) (field_of_definition PbJob.concurrency h)
    (field_of_definition PbJob.timezone h) (field_of_definition PbJob.executor h)
    (field_of_definition PbJob.executorConfig h)

/-! ## What the commands do to executions -/

section

variable {jobName : String} {db db' : DB}

/-- Every execution stored in `db'` was stored in `db`, but for `new`. -/
def AddsOnly (new : PbExecution) (db db' : DB) : Prop :=
  ∀ k pbe, db'.get k = some (.execution pbe) → db.get k = some (.execution pbe) ∨ pbe = new

theorem AddsOnly.refl (new : PbExecution) (db : DB) : AddsOnly new db db := fun _ _ => .inl

theorem AddsOnly.trans {new : PbExecution} {db'' : DB} (h : AddsOnly new db db')
    (h' : AddsOnly new db' db'') : AddsOnly new db db'' := by
  intro k pbe hk
  rcases h' k pbe hk with hk | hk
  · exact h k pbe hk
  · exact .inr hk

theorem AddsOnly.set_self (new : PbExecution) (db : DB) :
    AddsOnly new db (db.set (.execution new)) := by
  intro k pbe hk
  rw [DB.get_set] at hk
  split_ifs at hk
  · cases hk
    exact .inr rfl
  · exact .inl hk

theorem AddsOnly.set_of_ne (new : PbExecution) (db : DB) {v : Value} (hv : ∀ e, v ≠ .execution e) :
    AddsOnly new db (db.set v) := by
  intro k pbe hk
  rw [DB.get_set] at hk
  split_ifs at hk
  · cases hk
    exact absurd rfl (hv pbe)
  · exact .inl hk

theorem AddsOnly.deleteAll (new : PbExecution) (db : DB) (ks : List String) :
    AddsOnly new db (db.deleteAll ks) := by
  intro k pbe hk
  rw [DB.get_deleteAll] at hk
  split_ifs at hk
  exact .inl hk

theorem AddsOnly.bumpStat (new : PbExecution) (db : DB) (date : Time) (success : Bool) :
    AddsOnly new db (bumpStat date success db) := by
  rw [bumpStat_eq]
  split_ifs
  · exact AddsOnly.set_of_ne new db fun e => by simp
  · exact AddsOnly.refl new db

theorem AddsOnly.setExecution (env : Env) (ex : Execution) (db : DB) :
    AddsOnly ex.toProto db (setExecution env ex db).2 := by
  rw [setExecution_eq]
  refine AddsOnly.trans ?_ (AddsOnly.deleteAll _ _ _)
  rw [setExecutionTx_eq]
  split_ifs
  · exact AddsOnly.refl _ _
  · exact AddsOnly.set_self _ _

theorem AddsOnly.countReport (p : PbJob) (ex : Execution) (db : DB) :
    AddsOnly ex.toProto db (countReport p ex (db.set (.execution ex.toProto))) := by
  refine (AddsOnly.set_self _ db).trans ?_
  refine AddsOnly.trans ?_ (AddsOnly.bumpStat _ _ _ _)
  exact AddsOnly.set_of_ne _ _ fun e => by simp

theorem AddsOnly.setDependents (new : PbExecution) (db : DB) (f : List String → List String)
    (name : String) : AddsOnly new db (setDependents f name db) := by
  intro k pbe hk
  rw [get_setDependents_eq_map, Option.map_eq_some_iff] at hk
  obtain ⟨v, hv, hmap⟩ := hk
  cases v with
  | execution e =>
    cases hmap
    exact .inl hv
  | job p => cases hmap
  | stat s => cases hmap

theorem AddsOnly.deleteJob {env : Env} (hs : Sound env db) (clk : Clock) (new : PbExecution) :
    AddsOnly new db (deleteJob env clk jobName db).2 := by
  by_cases hd : ∃ p, Deletable db jobName p
  · obtain ⟨p, hd⟩ := hd
    rw [deleteJob_of_deletable hs hd]
    have herase : AddsOnly new db (eraseJob jobName db) :=
      (AddsOnly.deleteAll new db _).trans (AddsOnly.deleteAll new _ [jobKey jobName])
    exact herase.trans (AddsOnly.setDependents _ _ _ _)
  · obtain ⟨e, heq⟩ := deleteJob_of_not_deletable env clk hd
    rw [heq]
    exact AddsOnly.refl new db

theorem AddsOnly.setJob {env : Env} (hs : Storable env db) (clk : Clock) (job : Job)
    (new : PbExecution) : AddsOnly new db (setJob env clk job true db).2 := by
  by_cases ha : Accepts env db job
  · obtain ⟨m, -, heq⟩ := setJob_of_accepts clk true hs ha
    have hset : AddsOnly new db (db.set (.job m.toProto)) :=
      AddsOnly.set_of_ne new db fun e => by simp
    rw [heq, relink]
    split_ifs
    · exact hset
    · exact (hset.trans (AddsOnly.setDependents _ _ _ _)).trans (AddsOnly.setDependents _ _ _ _)
  · obtain ⟨e, heq⟩ := setJob_of_not_accepts clk true ha
    rw [heq]
    exact AddsOnly.refl new db

theorem AddsOnly.deleteExecutions (new : PbExecution) (db : DB) (name : String) :
    AddsOnly new db (deleteExecutions name db).2 := by
  have hdelete : AddsOnly new db (deleteExecutionsTxFunc name db) :=
    AddsOnly.deleteAll new db _
  rw [Store.deleteExecutions]
  cases (deleteExecutionsTxFunc name db).job? name with
  | none => exact AddsOnly.refl new db
  | some p => exact hdelete.trans (AddsOnly.set_of_ne _ _ fun e => by simp)

theorem AddsOnly.setExecutionDone (ex : Execution) (db : DB) :
    AddsOnly ex.toProto db (setExecutionDone ex db).2 := by
  rw [setExecutionDone_eq]
  cases db.job? ex.jobName with
  | none => exact AddsOnly.refl _ _
  | some p =>
    simp only
    split_ifs
    · exact AddsOnly.refl _ _
    · exact AddsOnly.countReport p ex db
    · exact AddsOnly.set_self _ _

end

end Dkron
