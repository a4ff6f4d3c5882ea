import Dkron.Lib.Scanning
import Dkron.ParentLinks
import Dkron.CronParser
import Dkron.RecordText

/-!
# Listing jobs

`GetJobs` reads what a scan over the store visits as jobs and returns those that pass its filters.
With an empty sort option the scan visits all records, and with the name of an index the records
that the index covers. A record that cannot be read ends the scan.

Executions and daily stats are read as jobs without a name, so a scan over all records returns them
too, and the analytics handler counts them: it passes empty options.

**Theorem (`getJobs_iff`).** `GetJobs` returns the stored jobs that pass the filters, if and only if
each of them is read from its own record before the scan ends, and no other record is read as a job
that passes.
-/

namespace Dkron

open Store

/-! ## BuntDB -/

/-- The indexes of `NewStore`, each with the prefix of the keys in its pattern. -/
def storeIndexes : List (String × String) :=
  [("name", jobsPrefix), ("started_at", executionsPrefix), ("finished_at", executionsPrefix),
    ("attempt", executionsPrefix), ("displayname", jobsPrefix), ("schedule", jobsPrefix),
    ("success_count", jobsPrefix), ("error_count", jobsPrefix), ("last_success", jobsPrefix),
    ("last_error", jobsPrefix), ("next", jobsPrefix)]

/-- The indexes of the jobs. -/
def jobIndexes : List String := (storeIndexes.filter fun r => r.2 = jobsPrefix).map Prod.fst

/-- The records with keys in the pattern `"%s:*"` of a prefix. -/
def matching (pre : String) (db : DB) : List (String × Value) :=
  db.ascend.filter fun r => hasPrefix r.1 (pre ++ ":")

/-- `Ascend` and `Descend` of BuntDB: the values in the order they are visited in, none on an error.
The empty index visits all keys, and an index the keys in its pattern. -/
structure BuntDB where
  scan : (descend : Bool) → (index : String) → DB → Option (List Value)
  all : ∀ descend db, ∃ vs, scan descend "" db = some vs ∧ vs.Perm (db.ascend.map Prod.snd)
  matched : ∀ descend db, ∀ r ∈ storeIndexes, ∃ vs,
    scan descend r.1 db = some vs ∧ vs.Perm ((matching r.2 db).map Prod.snd)

/-- A database in which the order of an index is that of the keys. -/
def BuntDB.byKey : BuntDB where
  scan descend index db :=
    let found := if index = "" then some db.ascend
      else (storeIndexes.lookup index).map fun pre => matching pre db
    found.map fun rs => (if descend then rs.reverse else rs).map Prod.snd
  all descend db := by
    refine ⟨_, rfl, ?_⟩
    split_ifs
    · exact (List.reverse_perm _).map _
    · rfl
  matched descend db r hr := by
    have hlookup : ∀ r ∈ storeIndexes, r.1 ≠ "" ∧ storeIndexes.lookup r.1 = some r.2 := by decide
    obtain ⟨hne, hlookup⟩ := hlookup r hr
    simp only [if_neg hne, hlookup, Option.map_some]
    refine ⟨_, rfl, ?_⟩
    split_ifs
    · exact (List.reverse_perm _).map _
    · rfl

/-! ## The filters -/

/-- `JobOptions`. -/
structure JobOptions where
  metadata : StrMap := []
  sort : String := ""
  order : String := ""
  query : String := ""
  status : String := ""
  disabled : String := ""
deriving DecidableEq, Repr

/-- `jobHasMetadata`. -/
def jobHasMetadata (job : Job) (metadata : StrMap) : Bool :=
  if job.metadata = [] then false
  else metadata.all fun r => job.metadata.lookup r.1 = some r.2

/-- `strconv.FormatBool`. -/
def formatBool (b : Bool) : String := if b then "true" else "false"

/-- The job passes the filters. -/
def JobOptions.Accepts (options : JobOptions) (job : Job) : Prop :=
  (options.metadata = [] ∨ jobHasMetadata job options.metadata) ∧
    (options.query = "" ∨ containsText job.name options.query ∨
      containsText job.displayName options.query) ∧
    (options.disabled = "" ∨ formatBool job.disabled = options.disabled) ∧
    (options.status = "untriggered" ∧ job.status = "" ∨
      (options.status = "" ∨ job.status = options.status))

instance (options : JobOptions) (job : Job) : Decidable (options.Accepts job) := by
  unfold JobOptions.Accepts
  infer_instance

/-! ## Listing -/

/-- The options that are used when none are given. -/
def jobOptions (options : Option JobOptions) : JobOptions := options.getD { sort := "name" }

namespace BuntDB

/-- What the scan of `GetJobs` visits. -/
def visited (bunt : BuntDB) (options : JobOptions) (db : DB) : Option (List Value) :=
  bunt.scan (options.order = "DESC") options.sort db

/-- `GetJobs`. -/
def getJobs (bunt : BuntDB) (options : Option JobOptions) (db : DB) : Option (List Job) :=
  let options := jobOptions options
  (bunt.visited options db).map fun items =>
    Scanning.scan Value.readAsJob (fun job => options.Accepts job) items []

/-- The number of jobs that `analyticsHandler` reports. -/
def totalJobs (bunt : BuntDB) (db : DB) : Option ℕ := (bunt.getJobs (some {}) db).map List.length

end BuntDB

/-- The sort option is empty or an index of the jobs. -/
def JobOptions.Sortable (options : JobOptions) : Prop :=
  options.sort = "" ∨ options.sort ∈ jobIndexes

instance (options : JobOptions) : Decidable options.Sortable :=
  inferInstanceAs (Decidable (_ ∨ _))

/-- Each stored job that passes the filters is returned once, and nothing else. -/
def ListsJobs (bunt : BuntDB) (options : Option JobOptions) (db : DB) : Prop :=
  ∃ jobs, bunt.getJobs options db = some jobs ∧
    jobs.Perm ((getJobs db).filter fun job => (jobOptions options).Accepts job)

/-- The job that a record stores. -/
def Value.job? : Value → Option Job
  | .job pbj => some (newJobFromProto pbj)
  | _ => none

/-- Every stored job that passes the filters is visited before the scan ends and read as it is
stored, and no other visited record is read as a job that passes. -/
def ListsRight (bunt : BuntDB) (options : Option JobOptions) (db : DB) : Prop :=
  ∀ items ∈ bunt.visited (jobOptions options) db,
    Scanning.Right Value.readAsJob Value.job? (fun job => (jobOptions options).Accepts job) items

/-- Daily stats with a success count that a job cannot have. -/
def Value.Overfull : Value → Prop
  | .stat s => ¬FitsInt32 s.successCount
  | _ => False

instance (v : Value) : Decidable v.Overfull := by
  unfold Value.Overfull
  cases v <;> infer_instance

/-- Every stored job that passes the filters is visited before overfull stats, and if a job without
fields passes, nothing but jobs is. -/
def OnlyJobsPass (bunt : BuntDB) (options : Option JobOptions) (db : DB) : Prop :=
  ∀ items ∈ bunt.visited (jobOptions options) db,
    (∀ v ∈ items, ∀ job, v.job? = some job → (jobOptions options).Accepts job →
      v ∈ items.takeWhile fun v => ¬v.Overfull) ∧
    ((jobOptions options).Accepts (newJobFromProto {}) →
      ∀ v ∈ items.takeWhile fun v => ¬v.Overfull, v.job? ≠ none)

/-- No text is a protobuf message, and the jobs are messages that Go can hold. -/
structure Legible (db : DB) : Prop where
  texts : ∀ k v, db.get k = some v → ¬v.GroupEnds
  jobs : ∀ n p, db.job? n = some p → ∃ q : GoJob, q.toPbJob = p

/-! ## What is visited -/

theorem getJobs_eq (db : DB) : getJobs db = (db.ascend.map Prod.snd).filterMap Value.job? := by
  rw [getJobs, List.filterMap_map]
  apply List.filterMap_congr
  rintro ⟨k, v⟩ -
  cases v <;> rfl

/-- No record is stored twice. -/
theorem nodup_values (db : DB) : (db.ascend.map Prod.snd).Nodup :=
  List.pairwise_map.2 (db.ascend_pairwise_key.imp fun hne heq => hne (congrArg Value.key heq))

theorem get_of_mem_values {db : DB} {v : Value} (hv : v ∈ db.ascend.map Prod.snd) :
    db.get v.key = some v := by
  obtain ⟨r, hr, rfl⟩ := List.mem_map.1 hv
  rw [DB.key_of_mem_ascend hr]
  exact DB.mem_ascend.1 hr

/-- The records of an index of the jobs include all jobs. -/
theorem filterMap_matching_jobs (db : DB) :
    ((matching jobsPrefix db).map Prod.snd).filterMap Value.job? = getJobs db := by
  rw [getJobs_eq, List.filterMap_map, List.filterMap_map, matching, List.filterMap_filter]
  apply List.filterMap_congr
  rintro ⟨k, v⟩ hr
  have hkey : v.key = k := DB.key_of_mem_ascend hr
  cases v with
  | job p =>
    have hprefix : hasPrefix k (jobsPrefix ++ ":") := by
      rw [← hkey, hasPrefix_iff]
      exact ⟨p.name.toList, String.toList_append.symm⟩
    rw [if_pos hprefix]
  | execution e => exact ite_self _
  | stat s => exact ite_self _

/-- **Scans.** A scan visits stored records, none of them twice, and all jobs. -/
theorem visited_spec (bunt : BuntDB) {options : JobOptions} (hsort : options.Sortable) (db : DB) :
    ∃ items, bunt.visited options db = some items ∧ items.Nodup ∧
      (∀ v ∈ items, db.get v.key = some v) ∧ (items.filterMap Value.job?).Perm (getJobs db) := by
  obtain ⟨rs, items, hitems, hperm, hsub, hjobs⟩ :
      ∃ (rs : List (String × Value)) (items : List Value),
        bunt.visited options db = some items ∧ items.Perm (rs.map Prod.snd) ∧
        rs.Sublist db.ascend ∧ (rs.map Prod.snd).filterMap Value.job? = getJobs db := by
    rcases hsort with hempty | hindex
    · obtain ⟨items, hitems, hperm⟩ := bunt.all (options.order = "DESC") db
      rw [← hempty] at hitems
      exact ⟨db.ascend, items, hitems, hperm, List.Sublist.refl _, (getJobs_eq db).symm⟩
    · obtain ⟨r, hr, hsort⟩ := List.mem_map.1 hindex
      obtain ⟨hr, hpre⟩ := List.mem_filter.1 hr
      obtain ⟨items, hitems, hperm⟩ := bunt.matched (options.order = "DESC") db r hr
      rw [hsort] at hitems
      rw [of_decide_eq_true hpre] at hperm
      exact ⟨matching jobsPrefix db, items, hitems, hperm, List.filter_sublist,
        filterMap_matching_jobs db⟩
  have hvalues : (rs.map Prod.snd).Sublist (db.ascend.map Prod.snd) := hsub.map Prod.snd
  refine ⟨items, hitems, hperm.nodup_iff.2 ((nodup_values db).sublist hvalues), ?_, ?_⟩
  · intro v hv
    exact get_of_mem_values (hvalues.subset (hperm.subset hv))
  · rw [← hjobs]
    exact hperm.filterMap Value.job?

/-! ## Legible stores -/

variable {db : DB}

/-- What is read from a record of a legible store. -/
theorem Legible.readAsJob (hlegible : Legible db) {v : Value} (hv : db.get v.key = some v) :
    v.readAsJob =
      match v with
      | .job p => some (newJobFromProto p)
      | .execution _ => some (newJobFromProto {})
      | .stat s =>
        if FitsInt32 s.successCount then
          some (newJobFromProto { successCount := Int32.ofInt s.successCount })
        else none := by
  have htext := hlegible.texts _ v hv
  cases v with
  | job p =>
    obtain ⟨q, rfl⟩ := hlegible.jobs p.name p (DB.job?_eq_some.2 hv)
    exact readAsJob_job htext
  | execution e => exact readAsJob_execution htext
  | stat s => exact readAsJob_stat htext

/-- Only overfull stats cannot be read. -/
theorem Legible.readable (hlegible : Legible db) {items : List Value}
    (hitems : ∀ v ∈ items, db.get v.key = some v) :
    Scanning.readable Value.readAsJob items = items.takeWhile fun v => ¬v.Overfull := by
  apply Scanning.readable_eq_takeWhile
  intro v hv
  rw [hlegible.readAsJob (hitems v hv)]
  cases v with
  | job p => simp [Value.Overfull]
  | execution e => simp [Value.Overfull]
  | stat s => by_cases hfits : FitsInt32 s.successCount <;> simp [Value.Overfull, hfits]

/-- A record is read as the job it stores, or as a job that passes the filters that a job without
fields passes: they do not look at the success count. -/
theorem Legible.accepts_iff (hlegible : Legible db) {v : Value} (hv : db.get v.key = some v)
    {job : Job} (hread : v.readAsJob = some job) :
    v.job? = some job ∨ v.job? = none ∧
      ∀ options : JobOptions, options.Accepts job ↔ options.Accepts (newJobFromProto {}) := by
  rw [hlegible.readAsJob hv] at hread
  cases v with
  | job p => exact .inl hread
  | execution e =>
    cases hread
    exact .inr ⟨rfl, fun options => Iff.rfl⟩
  | stat s =>
    simp only at hread
    split_ifs at hread
    cases hread
    exact .inr ⟨rfl, fun options => Iff.rfl⟩

/-- The records of a legible store are read right if only jobs pass. -/
theorem Legible.listsRight_iff (hlegible : Legible db) (bunt : BuntDB)
    {options : Option JobOptions} (hsort : (jobOptions options).Sortable) :
    ListsRight bunt options db ↔ OnlyJobsPass bunt options db := by
  obtain ⟨items, hitems, -, hstored, -⟩ := visited_spec bunt hsort db
  have hreadable := hlegible.readable hstored
  simp only [ListsRight, OnlyJobsPass, hitems, Option.mem_some_iff, forall_eq', ← hreadable]
  constructor
  · intro h
    refine ⟨fun v hv job hjob haccepts => ?_, fun haccepts v hv hnone => ?_⟩
    · exact (h.found v hv job hjob (decide_eq_true haccepts)).1
    · obtain ⟨job, hread⟩ := Option.isSome_iff_exists.1 (Scanning.isSome_of_mem_readable hv)
      rcases hlegible.accepts_iff (hstored v (List.takeWhile_subset _ hv)) hread with
        hjob | ⟨-, haccepts'⟩
      · rw [hnone] at hjob
        cases hjob
      · have hjob := h.only v hv job hread (decide_eq_true ((haccepts' _).2 haccepts))
        rw [hnone] at hjob
        cases hjob
  · rintro ⟨hjobs, hothers⟩
    constructor
    · intro v hv job hjob haccepts
      refine ⟨hjobs v hv job hjob (of_decide_eq_true haccepts), ?_⟩
      rw [hlegible.readAsJob (hstored v hv), ← hjob]
      cases v with
      | job p => rfl
      | execution e => cases hjob
      | stat s => cases hjob
    · intro v hv job hread haccepts
      rcases hlegible.accepts_iff (hstored v (List.takeWhile_subset _ hv)) hread with
        hjob | ⟨hnone, haccepts'⟩
      · exact hjob
      · exact absurd hnone (hothers ((haccepts' _).1 (of_decide_eq_true haccepts)) v hv)

/-- **The reported total** counts all records of a legible store, unless stats are overfull. -/
theorem Legible.totalJobs (hlegible : Legible db) (bunt : BuntDB)
    (hfull : ∀ k v, db.get k = some v → ¬v.Overfull) :
    bunt.totalJobs db = some db.ascend.length := by
  obtain ⟨items, hitems, hperm⟩ := bunt.all false db
  have hstored : ∀ v ∈ items, db.get v.key = some v := fun v hv =>
    get_of_mem_values (hperm.subset hv)
  have hreadable : Scanning.readable Value.readAsJob items = items := by
    rw [hlegible.readable hstored]
    exact List.takeWhile_eq_self_iff.2 fun v hv => decide_eq_true (hfull _ v (hstored v hv))
  have hall : ∀ job : Job, decide ((jobOptions (some {})).Accepts job) = true := by
    intro job
    simp [jobOptions, JobOptions.Accepts]
  have hvisited : bunt.visited (jobOptions (some {})) db = some items := hitems
  rw [BuntDB.totalJobs, BuntDB.getJobs, hvisited]
  simp only [Option.map_some, Option.some.injEq]
  rw [Scanning.length_scan hall, hreadable, hperm.length_eq, List.length_map]

/-! ## The theorem -/

/-- A record that is read as a stored job is the record of that job. -/
theorem eq_of_readAsJob {env : Env} {db : DB} (hs : Storable env db) {v w : Value} {job : Job}
    (hv : db.get v.key = some v) (hw : db.get w.key = some w) (hread : v.readAsJob = some job)
    (hjob : w.job? = some job) : v = w := by
  cases w with
  | job p =>
    cases hjob
    have hp : db.job? p.name = some p := DB.job?_eq_some.2 hw
    rcases name_of_readAsJob hread with hnone | ⟨q, rfl, hname⟩
    · exact absurd hnone (hs.name_ne hp)
    · have hq : db.job? q.name = some q := DB.job?_eq_some.2 hv
      rw [show q.name = p.name from hname.symm, hp] at hq
      cases hq
      rfl
  | execution e => cases hjob
  | stat s => cases hjob

/-- **Listing jobs.** In every reachable store `GetJobs` returns each stored job that passes the
filters once, and nothing else, if and only if the records are read right. In a legible store that
means that only jobs pass. Then the analytics report the number of stored jobs. -/
theorem getJobs_iff (bunt : BuntDB) (options : Option JobOptions) {env : Env} {db : DB}
    (hdb : Fsm.Reachable env db) (hsort : (jobOptions options).Sortable) :
    (ListsJobs bunt options db ↔ ListsRight bunt options db) ∧
      (Legible db → (ListsRight bunt options db ↔ OnlyJobsPass bunt options db)) ∧
      (ListsJobs bunt (some {}) db → bunt.totalJobs db = some (getJobs db).length) := by
  have hs := (Sound.of_reachable hdb).toStorable
  refine ⟨?_, fun hlegible => hlegible.listsRight_iff bunt hsort, ?_⟩
  · obtain ⟨items, hitems, hnodup, hstored, hjobs⟩ := visited_spec bunt hsort db
    have hown : ∀ v ∈ items, ∀ w ∈ items, ∀ job, v.readAsJob = some job → w.job? = some job →
        v = w := fun v hv w hw job => eq_of_readAsJob hs (hstored v hv) (hstored w hw)
    let accepts : Job → Bool := fun job => (jobOptions options).Accepts job
    have hlist : bunt.getJobs options db =
        some (Scanning.scan Value.readAsJob accepts items []) := by
      rw [BuntDB.getJobs, hitems]
      rfl
    have hperm : ((items.filterMap Value.job?).filter accepts).Perm
        ((getJobs db).filter accepts) := hjobs.filter accepts
    calc ListsJobs bunt options db
        ↔ (Scanning.scan Value.readAsJob accepts items []).Perm ((getJobs db).filter accepts) := by
          simp [ListsJobs, hlist, accepts]
      _ ↔ (Scanning.scan Value.readAsJob accepts items []).Perm
          ((items.filterMap Value.job?).filter accepts) :=
        ⟨fun h => h.trans hperm.symm, fun h => h.trans hperm⟩
      _ ↔ Scanning.Right Value.readAsJob Value.job? accepts items :=
        Scanning.scan_perm_iff hnodup hown
      _ ↔ ListsRight bunt options db := by simp [ListsRight, hitems, accepts]
  · rintro ⟨jobs, hlist, hperm⟩
    have hall : (getJobs db).filter (fun job => (jobOptions (some {})).Accepts job) = getJobs db :=
      List.filter_eq_self.2 fun job _ => by simp [jobOptions, JobOptions.Accepts]
    rw [hall] at hperm
    rw [BuntDB.totalJobs, hlist, Option.map_some, hperm.length_eq]

/-- A job and the report of one execution of it. -/
def oneReport : List Fsm.Entry :=
  Fsm.setA ++ [(Clock.epoch,
    .executionDone { jobName := "a", success := true, startedAt := some 0, finishedAt := some 1 })]

/-- In the order of the names the scan meets nothing but jobs. -/
theorem listed_by_name :
    ListsJobs BuntDB.byKey none (Fsm.run Env.small DB.empty oneReport) ∧
      ListsRight BuntDB.byKey none (Fsm.run Env.small DB.empty oneReport) := by
  have hlists : ListsJobs BuntDB.byKey none (Fsm.run Env.small DB.empty oneReport) :=
    ⟨_, rfl, by decide +kernel⟩
  exact ⟨hlists, (getJobs_iff BuntDB.byKey none ⟨oneReport, rfl⟩ (by decide)).1.1 hlists⟩

/-- **Records that are counted as jobs.** With empty options the execution and the stats of its day
are listed with the only job. -/
theorem report_counted_as_jobs :
    (getJobs (Fsm.run Env.small DB.empty oneReport)).length = 1 ∧
      BuntDB.byKey.totalJobs (Fsm.run Env.small DB.empty oneReport) = some 3 ∧
      ¬ListsJobs BuntDB.byKey (some {}) (Fsm.run Env.small DB.empty oneReport) := by
  have htotal : BuntDB.byKey.totalJobs (Fsm.run Env.small DB.empty oneReport) = some 3 := by
    decide +kernel
  refine ⟨by decide, htotal, ?_⟩
  rintro ⟨jobs, hlist, hperm⟩
  have hlength : jobs.length = 3 := by
    rw [BuntDB.totalJobs, hlist] at htotal
    exact Option.some.inj htotal
  have hle := List.length_filter_le (fun job => decide ((jobOptions (some {})).Accepts job))
    (getJobs (Fsm.run Env.small DB.empty oneReport))
  have hone : (getJobs (Fsm.run Env.small DB.empty oneReport)).length = 1 := by decide
  rw [← hperm.length_eq, hlength, hone] at hle
  omega

end Dkron
