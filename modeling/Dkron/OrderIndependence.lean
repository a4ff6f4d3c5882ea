import Dkron.Calendar
import Dkron.Lib.Register
import Dkron.Status

/-!
# Reports in any order

The nodes of a run finish in any order, and so their reports arrive. Each report writes a record of
its own, and the statistics of the days add up. But the latest success and the latest error of a job
are those of the reports applied last, not of those that finished last, and whether a repeated
report is counted depends on them.

Main result: `orderIndependent_iff`.
-/

namespace Dkron

open Store

/-! ## What a report is -/

/-- What `SetExecutionDone` makes of a report, by the record under its key: nothing if that finished
later, and a repeated report if it has the same result and time. -/
def report? (db : DB) (ex : Execution) : Option (Register.Report Bool Time) :=
  match db.execution? ex.jobName ex.key with
  | none => some ⟨ex.success, ex.finishedAt, false⟩
  | some q =>
    if ex.finishedAt < asTime q.finishedAt then none
    else some ⟨ex.success, ex.finishedAt,
      asTime q.finishedAt = ex.finishedAt ∧ q.success = ex.success⟩

/-- The latest success and the latest error of a job. -/
def lastResults (p : PbJob) (success : Bool) : NullableTime :=
  PbNullableTime.get (if success then p.lastSuccess else p.lastError)

/-- The counter of an outcome. -/
def resultCount (p : PbJob) (success : Bool) : Int32 :=
  if success then p.successCount else p.errorCount

/-- Reports applied one after the other. -/
def applyDone (db : DB) (exs : List Execution) : DB :=
  exs.foldl (fun db ex => (setExecutionDone ex db).2) db

section

variable {db : DB} {p : PbJob} {ex : Execution} {r : Register.Report Bool Time}

theorem applyDone_cons (db : DB) (ex : Execution) (exs : List Execution) :
    applyDone db (ex :: exs) = applyDone (setExecutionDone ex db).2 exs := rfl

theorem outcome_of_report (h : report? db ex = some r) :
    r.outcome = ex.success ∧ r.time = ex.finishedAt := by
  unfold report? at h
  split at h
  · cases h
    exact ⟨rfl, rfl⟩
  · split_ifs at h
    cases h
    exact ⟨rfl, rfl⟩

/-- The three ways of a report. -/
theorem setExecutionDone_report (hp : db.job? ex.jobName = some p) :
    (report? db ex = none ∧ (setExecutionDone ex db).2 = db) ∨
    (∃ r, report? db ex = some r ∧ Register.Known (lastResults p) r ∧
      (setExecutionDone ex db).2 = db.set (.execution ex.toProto)) ∨
    (∃ r, report? db ex = some r ∧ ¬Register.Known (lastResults p) r ∧
      (setExecutionDone ex db).2 = countReport p ex (db.set (.execution ex.toProto))) := by
  rw [setExecutionDone_eq, hp]
  simp only
  cases hq : db.execution? ex.jobName ex.key with
  | none =>
    refine Or.inr (Or.inr ⟨⟨ex.success, ex.finishedAt, false⟩, ?_, ?_, rfl⟩)
    · rw [report?, hq]
    · simp [Register.Known]
  | some q =>
    simp only [Option.any_some, decide_eq_true_eq]
    by_cases hlate : ex.finishedAt < asTime q.finishedAt
    · rw [if_pos hlate]
      refine Or.inl ⟨?_, rfl⟩
      rw [report?, hq]
      exact if_pos hlate
    · rw [if_neg hlate]
      apply Or.inr
      have hreport : report? db ex = some ⟨ex.success, ex.finishedAt,
          asTime q.finishedAt = ex.finishedAt ∧ q.success = ex.success⟩ := by
        rw [report?, hq]
        exact if_neg hlate
      have hknown : Register.Known (lastResults p) ⟨ex.success, ex.finishedAt,
          asTime q.finishedAt = ex.finishedAt ∧ q.success = ex.success⟩ ↔
          shouldCount p (some q) ex.toProto = false := by
        rw [shouldCount_eq_false_iff]
        simp [Register.Known, lastResults, and_assoc]
      by_cases hcount : shouldCount p (some q) ex.toProto
      · rw [if_pos hcount]
        exact Or.inr ⟨_, hreport, fun hk => by simp [hknown.1 hk] at hcount, rfl⟩
      · rw [if_neg hcount]
        exact Or.inl ⟨_, hreport, hknown.2 (Bool.eq_false_of_not_eq_true hcount), rfl⟩

/-! ## What a report changes -/

theorem lastResults_countResult (p : PbJob) (ex : Execution) (status : String) :
    lastResults { countResult p ex.toProto with status := status } =
      Function.update (lastResults p) ex.success (some ex.finishedAt) := by
  funext b
  cases hs : ex.success <;> cases b <;>
    simp [lastResults, countResult, hs, PbNullableTime.get, Function.update]

theorem resultCount_countResult (p : PbJob) (ex : Execution) (status : String) (b : Bool) :
    resultCount { countResult p ex.toProto with status := status } b =
      if ex.success = b then resultCount p b + 1 else resultCount p b := by
  cases hs : ex.success <;> cases b <;> simp [resultCount, countResult, hs]

/-- The job after a counted report. -/
theorem exists_job_countReport (hp : db.job? ex.jobName = some p) :
    ∃ q, (countReport p ex (db.set (.execution ex.toProto))).job? ex.jobName = some q ∧
      lastResults q = Function.update (lastResults p) ex.success (some ex.finishedAt) ∧
      ∀ b, resultCount q b = if ex.success = b then resultCount p b + 1 else resultCount p b := by
  rw [job?_countReport (DB.name_of_job? hp), if_pos rfl]
  exact ⟨_, rfl, lastResults_countResult p ex _, resultCount_countResult p ex _⟩

/-- The statistics of a day with one more result. -/
def bumpDay (date : Time) (success : Bool) (stat : Option ExecutionStat) : Option ExecutionStat :=
  let bumped := ExecutionStat.increment (stat.getD ⟨truncateDay date, 0, 0⟩) success
  if 0 ≤ year bumped.date ∧ year bumped.date < 10000 then some bumped else stat

/-- The statistics of all days with one more result. -/
def bumpDays (stats : String → Option ExecutionStat) (c : Bool × Time) :
    String → Option ExecutionStat :=
  Function.update stats (formatStatDate c.2) (bumpDay c.2 c.1 (stats (formatStatDate c.2)))

theorem formatStatDate_bumpedStat (date : Time) (success : Bool) (db : DB) :
    formatStatDate (bumpedStat date success db).date = formatStatDate date := by
  cases h : db.stat? (formatStatDate date) with
  | none => rw [bumpedStat_of_none success h, increment_date, formatStatDate_truncateDay]
  | some s => rw [bumpedStat_of_some success h, increment_date, DB.date_of_stat? h]

theorem stat?_set_stat (db : DB) (s : ExecutionStat) (d : String) :
    (db.set (.stat s)).stat? d = if formatStatDate s.date = d then some s else db.stat? d := by
  have hkey : (Value.stat s).key = statKey d ↔ formatStatDate s.date = d :=
    ⟨append_left_cancel, fun h => congrArg statKey h⟩
  unfold DB.stat?
  rw [DB.get_set]
  simp only [hkey]
  split_ifs <;> rfl

theorem stat?_bumpStat (date : Time) (success : Bool) (db : DB) :
    (bumpStat date success db).stat? = bumpDays db.stat? (success, date) := by
  funext d
  rw [bumpStat_eq]
  by_cases hyear : 0 ≤ year (bumpedStat date success db).date ∧
      year (bumpedStat date success db).date < 10000
  · have hbump : bumpDay date success (db.stat? (formatStatDate date)) =
        some (bumpedStat date success db) := if_pos hyear
    rw [if_pos hyear, bumpDays, hbump, stat?_set_stat, formatStatDate_bumpedStat]
    by_cases hd : d = formatStatDate date
    · rw [if_pos hd.symm, hd, Function.update_self]
    · rw [if_neg (Ne.symm hd), Function.update_of_ne hd]
  · have hbump : bumpDay date success (db.stat? (formatStatDate date)) =
        db.stat? (formatStatDate date) := if_neg hyear
    rw [if_neg hyear, bumpDays, hbump, Function.update_eq_self]

theorem stat?_countReport (p : PbJob) (ex : Execution) (db : DB) :
    (countReport p ex (db.set (.execution ex.toProto))).stat? =
      bumpDays db.stat? (ex.success, ex.finishedAt) := by
  have hkept : ∀ q, ((db.set (.execution ex.toProto)).set (.job q)).stat? = db.stat? := by
    intro q
    funext d
    rw [DB.stat?_set_job, DB.stat?_set_execution]
  rw [countReport, stat?_bumpStat, hkept]

/-- Two results of a day may be added in either order. -/
theorem bumpDay_comm {t u : Time} (h : truncateDay t = truncateDay u) (b b' : Bool)
    (stat : Option ExecutionStat) :
    bumpDay u b' (bumpDay t b stat) = bumpDay t b (bumpDay u b' stat) := by
  have hdate : ∀ (s : ExecutionStat) b, (ExecutionStat.increment s b).date = s.date :=
    fun s b => increment_date s b
  have hcomm : ∀ s : ExecutionStat, ExecutionStat.increment (ExecutionStat.increment s b) b' =
      ExecutionStat.increment (ExecutionStat.increment s b') b := by
    intro s
    cases b <;> cases b' <;> rfl
  unfold bumpDay
  rw [h]
  simp only [hdate]
  by_cases hyear : 0 ≤ year (stat.getD ⟨truncateDay u, 0, 0⟩).date ∧
      year (stat.getD ⟨truncateDay u, 0, 0⟩).date < 10000
  · simp only [if_pos hyear, Option.getD_some, hdate, hcomm]
  · simp only [if_neg hyear]

/-- Two results may be added to the statistics in either order. -/
theorem bumpDays_comm (stats : String → Option ExecutionStat) (c c' : Bool × Time) :
    bumpDays (bumpDays stats c) c' = bumpDays (bumpDays stats c') c := by
  unfold bumpDays
  by_cases hday : formatStatDate c.2 = formatStatDate c'.2
  · simp only [hday, Function.update_self, Function.update_idem,
      bumpDay_comm (formatStatDate_inj hday)]
  · rw [Function.update_of_ne (Ne.symm hday), Function.update_of_ne hday,
      Function.update_comm hday]

end

/-! ## Reports applied one after the other -/

/-- The reports that are not older than the record under their key. -/
def reports (db : DB) (exs : List Execution) : List (Register.Report Bool Time) :=
  exs.filterMap (report? db)

section

variable {db : DB} {jobName : String} {p : PbJob} {exs exs' : List Execution} {ex : Execution}

/-- A report that is not too old is stored under its key, and nothing else changes. -/
theorem get_setExecutionDone_execution (hp : db.job? ex.jobName = some p) {k : String}
    {e : PbExecution} :
    (setExecutionDone ex db).2.get k = some (.execution e) ↔
      if (report? db ex).isSome ∧ ex.toProto.storeKey = k then ex.toProto = e
      else db.get k = some (.execution e) := by
  have hset : (db.set (.execution ex.toProto)).get k = some (.execution e) ↔
      if ex.toProto.storeKey = k then ex.toProto = e else db.get k = some (.execution e) := by
    rw [DB.get_set]
    show (if ex.toProto.storeKey = k then _ else _) = _ ↔ _
    split_ifs
    · simp
    · exact Iff.rfl
  rcases setExecutionDone_report hp with ⟨hr, heq⟩ | ⟨r, hr, -, heq⟩ | ⟨r, hr, -, heq⟩
  · simp [heq, hr]
  · simp [heq, hr, hset]
  · simp [heq, hr, get_countReport_execution, hset]

/-- A report leaves the records under other keys alone. -/
theorem report?_setExecutionDone {ex' : Execution} (hp : db.job? ex.jobName = some p)
    (hne : ex.toProto.storeKey ≠ ex'.toProto.storeKey) :
    report? (setExecutionDone ex db).2 ex' = report? db ex' := by
  have hexec : (setExecutionDone ex db).2.execution? ex'.jobName ex'.key =
      db.execution? ex'.jobName ex'.key := by
    apply Option.ext
    intro e
    have hget := get_setExecutionDone_execution hp (k := ex'.toProto.storeKey) (e := e)
    rw [if_neg fun h => hne h.2] at hget
    exact DB.execution?_eq_some.trans (hget.trans DB.execution?_eq_some.symm)
  rw [report?, hexec, report?]

theorem storeKey_inj {ex' : Execution} (hjob : ex.jobName = ex'.jobName)
    (h : ex.toProto.storeKey = ex'.toProto.storeKey) : ex.key = ex'.key := by
  simp only [PbExecution.storeKey, executionKey, Execution.toProto_jobName, hjob] at h
  exact append_left_cancel h

/-- The job and the other reports after the first one. -/
theorem reports_setExecutionDone (hp : db.job? ex.jobName = some p)
    (hjob : ∀ ex' ∈ exs, ex'.jobName = ex.jobName) (hnew : ex.key ∉ exs.map Execution.key) :
    reports (setExecutionDone ex db).2 exs = reports db exs := by
  refine List.filterMap_congr fun ex' hex' => report?_setExecutionDone hp fun h => hnew ?_
  rw [storeKey_inj (hjob ex' hex').symm h]
  exact List.mem_map_of_mem hex'

/-- What the job and the statistics come to. -/
theorem applyDone_spec (hp : db.job? jobName = some p) (hjob : ∀ ex ∈ exs, ex.jobName = jobName)
    (hkeys : (exs.map Execution.key).Nodup) :
    ∃ q, (applyDone db exs).job? jobName = some q ∧
      lastResults q = Register.final (lastResults p) (reports db exs) ∧
      (∀ b, resultCount q b = (· + 1)^[Register.tally b
        (Register.counted (lastResults p) (reports db exs))] (resultCount p b)) ∧
      (applyDone db exs).stat? =
        (Register.counted (lastResults p) (reports db exs)).foldl bumpDays db.stat? := by
  induction exs generalizing db p with
  | nil => exact ⟨p, hp, rfl, fun b => rfl, rfl⟩
  | cons ex exs ih =>
    rw [List.forall_mem_cons] at hjob
    rw [List.map_cons, List.nodup_cons] at hkeys
    obtain ⟨rfl, hrest⟩ := hjob
    have hreports := reports_setExecutionDone hp hrest hkeys.1
    rw [applyDone_cons]
    rcases setExecutionDone_report hp with ⟨hr, heq⟩ | ⟨r, hr, hk, heq⟩ | ⟨r, hr, hk, heq⟩
    · rw [reports, List.filterMap_cons_none hr, heq]
      exact ih hp hrest hkeys.2
    · rw [reports, List.filterMap_cons_some hr, Register.counted_cons_of_known hk,
        Register.final_cons, Register.next_of_known hk, heq]
      have hp' : (db.set (.execution ex.toProto)).job? ex.jobName = some p := by
        rw [DB.job?_set_execution, hp]
      have hstats : (db.set (.execution ex.toProto)).stat? = db.stat? :=
        funext fun d => DB.stat?_set_execution _ _ _
      have hih := ih hp' hrest hkeys.2
      rw [heq] at hreports
      rwa [hreports, hstats] at hih
    · obtain ⟨p', hp', hlast', hcount'⟩ := exists_job_countReport hp
      obtain ⟨houtcome, htime⟩ := outcome_of_report hr
      have hnext : Register.next (lastResults p) r = lastResults p' := by
        rw [Register.next, houtcome, htime, hlast']
      rw [reports, List.filterMap_cons_some hr, Register.counted_cons_of_not_known hk,
        Register.final_cons, hnext, houtcome, htime, heq]
      obtain ⟨q, hq, hlast, hcount, hstats⟩ := ih hp' hrest hkeys.2
      rw [heq] at hreports
      rw [hreports] at hlast hcount hstats
      rw [stat?_countReport] at hstats
      refine ⟨q, hq, hlast, fun b => ?_, hstats⟩
      rw [hcount b, hcount' b]
      by_cases hb : ex.success = b
      · rw [if_pos hb, hb, Register.tally_cons_self]
        rfl
      · rw [if_neg hb, Register.tally_cons_of_ne hb]
        rfl

/-- The records are those of the reports, and those under the other keys. -/
theorem get_applyDone_execution (hp : db.job? jobName = some p)
    (hjob : ∀ ex ∈ exs, ex.jobName = jobName) (hkeys : (exs.map Execution.key).Nodup) {k : String}
    {e : PbExecution} :
    (applyDone db exs).get k = some (.execution e) ↔
      (∃ ex ∈ exs, (report? db ex).isSome ∧ ex.toProto.storeKey = k ∧ ex.toProto = e) ∨
      (∀ ex ∈ exs, (report? db ex).isSome → ex.toProto.storeKey ≠ k) ∧
        db.get k = some (.execution e) := by
  induction exs generalizing db p with
  | nil => simp [applyDone]
  | cons ex exs ih =>
    rw [List.forall_mem_cons] at hjob
    rw [List.map_cons, List.nodup_cons] at hkeys
    obtain ⟨rfl, hrest⟩ := hjob
    obtain ⟨p', hp'⟩ : ∃ p', (setExecutionDone ex db).2.job? ex.jobName = some p' := by
      rw [job?_setExecutionDone, hp]
      exact ⟨_, rfl⟩
    have hne : ∀ ex' ∈ exs, ex.toProto.storeKey ≠ ex'.toProto.storeKey := by
      intro ex' hex' h
      apply hkeys.1
      rw [storeKey_inj (hrest ex' hex').symm h]
      exact List.mem_map_of_mem hex'
    have hreport : ∀ ex' ∈ exs, report? (setExecutionDone ex db).2 ex' = report? db ex' :=
      fun ex' hex' => report?_setExecutionDone hp (hne ex' hex')
    have hsome : (∃ ex' ∈ exs, (report? (setExecutionDone ex db).2 ex').isSome ∧
          ex'.toProto.storeKey = k ∧ ex'.toProto = e) ↔
        ∃ ex' ∈ exs, (report? db ex').isSome ∧ ex'.toProto.storeKey = k ∧ ex'.toProto = e :=
      exists_congr fun ex' => and_congr_right fun hex' => by rw [hreport ex' hex']
    have hall : (∀ ex' ∈ exs, (report? (setExecutionDone ex db).2 ex').isSome →
          ex'.toProto.storeKey ≠ k) ↔
        ∀ ex' ∈ exs, (report? db ex').isSome → ex'.toProto.storeKey ≠ k :=
      forall₂_congr fun ex' hex' => by rw [hreport ex' hex']
    rw [applyDone_cons, ih hp' hrest hkeys.2, get_setExecutionDone_execution hp, hsome, hall,
      List.exists_mem_cons_iff, List.forall_mem_cons]
    by_cases hk : ex.toProto.storeKey = k
    · -- the other reports have other keys
      have hnone : ¬∃ ex' ∈ exs, (report? db ex').isSome ∧ ex'.toProto.storeKey = k ∧
          ex'.toProto = e := fun ⟨ex', hex', _, hk', _⟩ => hne ex' hex' (hk.trans hk'.symm)
      have hother : ∀ ex' ∈ exs, (report? db ex').isSome → ex'.toProto.storeKey ≠ k :=
        fun ex' hex' _ hk' => hne ex' hex' (hk.trans hk'.symm)
      by_cases hr : (report? db ex).isSome
      · simp only [hk, hr, hnone, true_and, and_true, if_true, false_or, or_false,
          not_true_eq_false, ne_eq, true_imp_iff, false_and]
        exact ⟨And.right, fun he => ⟨hother, he⟩⟩
      · simp [hk, hr, hnone]
    · simp [hk]

end

/-! ## Order independence -/

/-- The contents agree in what the job counted, its latest results, the statistics and the records
of executions. -/
structure SameResults (jobName : String) (db db' : DB) : Prop where
  counts : (db.job? jobName).map resultCount = (db'.job? jobName).map resultCount
  last : (db.job? jobName).map lastResults = (db'.job? jobName).map lastResults
  stats : ∀ d, db.stat? d = db'.stat? d
  records : ∀ k e, db.get k = some (.execution e) ↔ db'.get k = some (.execution e)

/-- The latest of the given time and those at which reports of the outcome finished. -/
def latestFinish (last : NullableTime) (success : Bool) (exs : List Execution) : NullableTime :=
  (last.toList ++ (exs.filter (·.success = success)).map (·.finishedAt)).max?

/-- All orders of the reports have the same results, and the latest success and error of the job are
the latest ones. -/
structure OrderIndependent (jobName : String) (p : PbJob) (db : DB) (exs : List Execution) :
    Prop where
  same : ∀ exs', exs'.Perm exs → SameResults jobName (applyDone db exs') (applyDone db exs)
  latest : ∀ q, (applyDone db exs).job? jobName = some q →
    ∀ b, lastResults q b = latestFinish (lastResults p b) b exs

/-- Of the reports of an outcome, those that are not older than the stored record all finished at
the latest time; without any, the job has the latest time already; and if some of them repeat the
stored record and others do not, the job has it, too. -/
structure OneFinish (p : PbJob) (db : DB) (exs : List Execution) (b : Bool) : Prop where
  newest : ∀ r ∈ reports db exs, r.outcome = b →
    some r.time = latestFinish (lastResults p b) b exs
  ignored : (∀ r ∈ reports db exs, r.outcome ≠ b) →
    lastResults p b = latestFinish (lastResults p b) b exs
  alike : ∀ r ∈ reports db exs, r.outcome = b → ∀ r' ∈ reports db exs, r'.outcome = b →
    r.again = r'.again ∨ lastResults p b = latestFinish (lastResults p b) b exs

instance (p : PbJob) (db : DB) (exs : List Execution) (b : Bool) :
    Decidable (OneFinish p db exs b) :=
  decidable_of_iff
    ((∀ r ∈ reports db exs, r.outcome = b → some r.time = latestFinish (lastResults p b) b exs) ∧
      ((∀ r ∈ reports db exs, r.outcome ≠ b) →
        lastResults p b = latestFinish (lastResults p b) b exs) ∧
      ∀ r ∈ reports db exs, r.outcome = b → ∀ r' ∈ reports db exs, r'.outcome = b →
        r.again = r'.again ∨ lastResults p b = latestFinish (lastResults p b) b exs)
    ⟨fun h => ⟨h.1, h.2.1, h.2.2⟩, fun h => ⟨h.newest, h.ignored, h.alike⟩⟩

theorem iterate_add_one_ne (x : Int32) (n : ℕ) : (· + 1)^[n + 1] x ≠ (· + 1)^[n] x := by
  rw [Function.iterate_succ_apply', ne_eq, Int32.add_eq_left]
  decide

section

variable {db : DB} {jobName : String} {p : PbJob} {exs : List Execution}

/-- Any other order consists of the same reports. -/
theorem perm_reports {exs' : List Execution} (hperm : exs'.Perm exs)
    (hjob : ∀ ex ∈ exs, ex.jobName = jobName) (hkeys : (exs.map Execution.key).Nodup) :
    (∀ ex ∈ exs', ex.jobName = jobName) ∧ (exs'.map Execution.key).Nodup :=
  ⟨fun ex hex => hjob ex (hperm.mem_iff.1 hex), (hperm.map _).nodup_iff.2 hkeys⟩

/-- If all orders have the same results, the reports are settled. -/
theorem settled_of_sameResults (hp : db.job? jobName = some p)
    (hjob : ∀ ex ∈ exs, ex.jobName = jobName) (hkeys : (exs.map Execution.key).Nodup)
    (h : ∀ exs', exs'.Perm exs → SameResults jobName (applyDone db exs') (applyDone db exs))
    (b : Bool) : Register.Settled (lastResults p) (reports db exs) b := by
  obtain ⟨q, hq, hlast, hcount, -⟩ := applyDone_spec hp hjob hkeys
  refine (Register.order_independent_iff (fun b n => (· + 1)^[n] (resultCount p b))
    fun b n => iterate_add_one_ne _ n).1 (fun rs hrs => ?_) b
  obtain ⟨exs', hperm, hrs'⟩ := Register.exists_perm_filterMap hrs
  obtain ⟨hjob', hkeys'⟩ := perm_reports hperm hjob hkeys
  obtain ⟨q', hq', hlast', hcount', -⟩ := applyDone_spec hp hjob' hkeys'
  have hsame := h exs' hperm
  rw [show reports db exs' = rs from hrs'] at hlast' hcount'
  have hl : lastResults q' = lastResults q :=
    Option.some.inj (by simpa only [hq, hq', Option.map_some] using hsame.last)
  have hc : resultCount q' = resultCount q :=
    Option.some.inj (by simpa only [hq, hq', Option.map_some] using hsame.counts)
  exact ⟨by rw [← hlast', ← hlast, hl], fun b => by rw [← hcount' b, ← hcount b, hc]⟩

/-- If the reports are settled, all orders have the same results. -/
theorem sameResults_of_settled (hp : db.job? jobName = some p)
    (hjob : ∀ ex ∈ exs, ex.jobName = jobName) (hkeys : (exs.map Execution.key).Nodup)
    (h : ∀ b, Register.Settled (lastResults p) (reports db exs) b) {exs' : List Execution}
    (hperm : exs'.Perm exs) : SameResults jobName (applyDone db exs') (applyDone db exs) := by
  obtain ⟨hjob', hkeys'⟩ := perm_reports hperm hjob hkeys
  obtain ⟨q, hq, hlast, hcount, hstats⟩ := applyDone_spec hp hjob hkeys
  obtain ⟨q', hq', hlast', hcount', hstats'⟩ := applyDone_spec hp hjob' hkeys'
  obtain ⟨hf, hc⟩ := Register.Settled.run_perm h (hperm.filterMap (report? db)).symm
  refine ⟨?_, ?_, fun d => ?_, fun k e => ?_⟩
  · rw [hq, hq']
    apply congrArg some
    funext b
    rw [hcount b, hcount' b]
    exact congrArg (fun n => (· + 1)^[n] (resultCount p b)) (hc.countP_eq _).symm
  · rw [hq, hq']
    exact congrArg some (hlast'.trans (hf.symm.trans hlast.symm))
  · rw [hstats, hstats']
    exact congrFun (hc.symm.foldl_eq' (fun c _ c' _ stats => bumpDays_comm stats c c') _) d
  · rw [get_applyDone_execution hp hjob' hkeys', get_applyDone_execution hp hjob hkeys]
    simp only [hperm.mem_iff]

theorem settled_of_oneFinish (h : ∀ b, OneFinish p db exs b) (b : Bool) :
    Register.Settled (lastResults p) (reports db exs) b := by
  intro r hr ho r' hr' ho'
  have hr₁ := (h b).newest r hr ho
  have hr₂ := (h b).newest r' hr' ho'
  refine ⟨Option.some.inj (hr₁.trans hr₂.symm), ?_⟩
  rw [hr₁]
  exact (h b).alike r hr ho r' hr' ho'

end

end Dkron
