import Dkron.OrderIndependence
import Dkron.Pagination

/-!
# What the statistics count

`SetExecutionDone` counts a report twice over: in its job, and in the day on which the execution
finished. The counters of a job are merged, reset and deleted with it; the days only grow. Both are
told here from one list, the reports that a log counts.

* `statsHandler_run`: the statistics of the last days are, day by day, the tallies of the reports.
* `ledger_run`: the counters and the latest results of every job are those of a ledger that adds the
  counted reports up, merges what requests bring, and is reset when a client says so.
-/

namespace Dkron

open Store

/-! ## Counted reports -/

/-- The report that a command counts. -/
def counted (db : DB) : Command → Option Execution
  | .executionDone pbex =>
    match (setExecutionDone (newExecutionFromProto pbex) db).1 with
    | .ok true => some (newExecutionFromProto pbex)
    | _ => none
  | _ => none

/-- The reports that a log counts. -/
def countedReports (env : Env) : List Fsm.Entry → DB → List Execution
  | [], _ => []
  | e :: log, db => (counted db e.2).toList ++ countedReports env log (Fsm.step env db e)

/-! ## The handler -/

/-- `GetExecutionStats`. A day without a record is one without executions. -/
def getExecutionStats (now : Time) (days : Int) (db : DB) : List ExecutionStat :=
  let days := if days ≤ 0 then 30 else days
  let maxDays := 365
  let days := if days > maxDays then maxDays else days
  let today := truncateDay now
  (List.range days.toNat).reverse.map fun i : ℕ =>
    let date := today - i * dayNanos
    (db.stat? (formatStatDate date)).getD ⟨date, 0, 0⟩

/-- `statsHandler`: the parameter `days` is 30 if it is absent or no number. -/
def statsHandler (now : Time) (days : Option String) (db : DB) : List ExecutionStat :=
  getExecutionStats now ((parseInt (days.getD "30")).getD 30) db

/-- The reports of a day with an outcome, of those that statistics can be stored for. -/
def tally (reports : List Execution) (day : Time) (success : Bool) : ℕ :=
  reports.countP fun ex => truncateDay ex.finishedAt = day ∧ ex.success = success ∧
    0 ≤ year ex.finishedAt ∧ year ex.finishedAt < 10000

/-! ## The statistics of the days -/

section

variable {env : Env} {db : DB}

/-- The cases of a report. -/
theorem counted_executionDone (pbex : PbExecution) (db : DB) :
    (counted db (.executionDone pbex) = none ∧
      (setExecutionDone (newExecutionFromProto pbex) db).2.stat? = db.stat? ∧
      (setExecutionDone (newExecutionFromProto pbex) db).2.job? = db.job?) ∨
    ∃ p, db.job? pbex.jobName = some p ∧
      counted db (.executionDone pbex) = some (newExecutionFromProto pbex) ∧
      (setExecutionDone (newExecutionFromProto pbex) db).2 =
        countReport p (newExecutionFromProto pbex)
          (db.set (.execution (newExecutionFromProto pbex).toProto)) := by
  rw [counted, setExecutionDone_eq]
  have hname : (newExecutionFromProto pbex).jobName = pbex.jobName := rfl
  rw [hname]
  cases hp : db.job? pbex.jobName with
  | none => exact .inl ⟨rfl, rfl, rfl⟩
  | some p =>
    simp only
    split_ifs
    · exact .inl ⟨rfl, rfl, rfl⟩
    · exact .inr ⟨p, rfl, rfl, rfl⟩
    · refine .inl ⟨rfl, ?_, ?_⟩
      · funext d
        exact DB.stat?_set_execution _ _ _
      · funext n
        exact DB.job?_set_execution _ _ _

theorem stat?_deleteAll {ks : List String} (h : ∀ d, statKey d ∉ ks) (db : DB) :
    (db.deleteAll ks).stat? = db.stat? := by
  funext d
  exact DB.stat?_congr (by rw [DB.get_deleteAll, if_neg (h d)])

theorem stat?_deleteExecutionsTxFunc (jobName : String) (db : DB) :
    (deleteExecutionsTxFunc jobName db).stat? = db.stat? := by
  funext d
  exact DB.stat?_congr (by rw [get_deleteExecutionsTxFunc, if_neg (not_hasPrefix_statKey _ _)])

theorem stat?_setDependents (f : List String → List String) (name : String) (db : DB) :
    (setDependents f name db).stat? = db.stat? := by
  funext d
  exact DB.stat?_congr (get_setDependents (statKey_ne_jobKey _ _))

theorem stat?_relink (child old new : String) (db : DB) :
    (relink child old new db).stat? = db.stat? := by
  unfold relink
  split_ifs
  · rfl
  · rw [link, stat?_setDependents, unlink, stat?_setDependents]

theorem stat?_setExecution (env : Env) (ex : Execution) (db : DB) :
    (setExecution env ex db).2.stat? = db.stat? := by
  rw [setExecution_eq, stat?_deleteAll]
  · rw [setExecutionTx_eq]
    split_ifs
    · rfl
    · funext d
      exact DB.stat?_set_execution _ _ _
  · intro d hd
    obtain ⟨pbe, hpbe⟩ := get_of_mem_overflowKeys hd
    rw [DB.get_statKey] at hpbe
    obtain ⟨s, -, hs⟩ := Option.map_eq_some_iff.1 hpbe
    cases hs

/-- **One command on the statistics.** They gain the report that is counted, and nothing else. -/
theorem stat?_step (hs : Sound env db) (e : Fsm.Entry) :
    (Fsm.step env db e).stat? = (counted db e.2).toList.foldl
      (fun stats ex => bumpDays stats (ex.success, ex.finishedAt)) db.stat? := by
  obtain ⟨clk, c⟩ := e
  cases c with
  | setJob pj =>
    rw [Fsm.step_setJob]
    by_cases ha : Accepts env db (newJobFromProto pj)
    · obtain ⟨m, -, heq⟩ := setJob_of_accepts clk true hs.toStorable ha
      rw [heq, stat?_relink]
      funext d
      exact DB.stat?_set_job _ _ _
    · obtain ⟨err, heq⟩ := setJob_of_not_accepts clk true ha
      rw [heq]
      rfl
  | deleteJob jobName =>
    rw [Fsm.step_deleteJob]
    by_cases hd : ∃ p, Deletable db jobName p
    · obtain ⟨p, hd⟩ := hd
      rw [deleteJob_of_deletable hs hd, unlink, stat?_setDependents, eraseJob]
      have hget (d : String) : ((deleteExecutionsTxFunc jobName db).delete (jobKey jobName)).get
          (statKey d) = (deleteExecutionsTxFunc jobName db).get (statKey d) := by
        rw [DB.get_delete, if_neg (statKey_ne_jobKey _ _).symm]
      funext d
      rw [DB.stat?_congr (hget d), stat?_deleteExecutionsTxFunc]
      rfl
    · obtain ⟨err, heq⟩ := deleteJob_of_not_deletable env clk hd
      rw [heq]
      rfl
  | setExecution pbex => exact stat?_setExecution env _ db
  | deleteExecutions jobName =>
    rw [Fsm.step_deleteExecutions, deleteExecutions_eq]
    cases db.job? jobName with
    | none => rfl
    | some p =>
      funext d
      rw [DB.stat?_set_job, stat?_deleteExecutionsTxFunc]
      rfl
  | executionDone pbex =>
    rw [Fsm.step_executionDone]
    rcases counted_executionDone pbex db with ⟨hnone, hstat, -⟩ | ⟨p, -, hsome, heq⟩
    · rw [hnone, hstat]
      rfl
    · rw [hsome, heq, stat?_countReport]
      rfl

theorem stat?_run (hs : Sound env db) (log : List Fsm.Entry) :
    (Fsm.run env db log).stat? = (countedReports env log db).foldl
      (fun stats ex => bumpDays stats (ex.success, ex.finishedAt)) db.stat? := by
  induction log generalizing db with
  | nil => rfl
  | cons e log ih =>
    rw [Fsm.run, List.foldl_cons, ← Fsm.run, ih (hs.step e), stat?_step hs, countedReports,
      List.foldl_append]

end

/-- The record of a day by the reports that are counted. -/
def dayOf (reports : List Execution) (day : Time) : ExecutionStat :=
  ⟨day, tally reports day true, tally reports day false⟩

section

variable {reports : List Execution}

theorem tally_append (ex : Execution) (day : Time) (b : Bool) :
    tally (reports ++ [ex]) day b = tally reports day b + if truncateDay ex.finishedAt = day ∧
      ex.success = b ∧ 0 ≤ year ex.finishedAt ∧ year ex.finishedAt < 10000 then 1 else 0 := by
  simp [tally, List.countP_append, List.countP_singleton]

/-- A report more on its day. -/
theorem increment_dayOf {ex : Execution}
    (hyear : 0 ≤ year ex.finishedAt ∧ year ex.finishedAt < 10000) :
    ExecutionStat.increment (dayOf reports (truncateDay ex.finishedAt)) ex.success =
      dayOf (reports ++ [ex]) (truncateDay ex.finishedAt) := by
  cases hs : ex.success <;>
    simp [ExecutionStat.increment, dayOf, tally_append, hs, hyear]

theorem dayOf_append {ex : Execution} {day : Time} (h : truncateDay ex.finishedAt = day →
    ¬(0 ≤ year ex.finishedAt ∧ year ex.finishedAt < 10000)) :
    dayOf (reports ++ [ex]) day = dayOf reports day := by
  have hnot (b : Bool) : ¬(truncateDay ex.finishedAt = day ∧ ex.success = b ∧
      0 ≤ year ex.finishedAt ∧ year ex.finishedAt < 10000) := fun hex => h hex.1 hex.2.2
  simp only [dayOf, tally_append, if_neg (hnot _), add_zero]

/-- **The days.** After any reports, what is stored for a day, or nothing where there is no record,
is the tally of the day. -/
theorem foldl_bumpDays (reports : List Execution) (t : Time) :
    ((reports.foldl (fun stats ex => bumpDays stats (ex.success, ex.finishedAt)) fun _ => none)
      (formatStatDate t)).getD ⟨truncateDay t, 0, 0⟩ = dayOf reports (truncateDay t) := by
  induction reports using List.reverseRecOn with
  | nil => rfl
  | append_singleton reports ex ih =>
    rw [List.foldl_append, List.foldl_cons, List.foldl_nil, bumpDays, Function.update_apply]
    split_ifs with hkey
    · -- The report is one of the day: its year decides.
      have hday : truncateDay t = truncateDay ex.finishedAt := formatStatDate_inj hkey
      rw [hkey, hday] at ih
      rw [hday, bumpDay, ih]
      have hdate : (ExecutionStat.increment (dayOf reports (truncateDay ex.finishedAt))
          ex.success).date = truncateDay ex.finishedAt := increment_date _ _
      simp only [hdate, year_truncateDay]
      split_ifs with hyear
      · rw [Option.getD_some, increment_dayOf hyear]
      · rw [ih, dayOf_append fun _ => hyear]
    · rw [ih, dayOf_append]
      intro hday
      refine absurd ?_ hkey
      rw [← formatStatDate_truncateDay t, ← hday, formatStatDate_truncateDay]

theorem truncateDay_sub (t : Time) (i : ℕ) :
    truncateDay (truncateDay t - i * dayNanos) = truncateDay t - i * dayNanos := by
  rw [truncateDay, truncateDay, ← sub_mul, Int.mul_ediv_cancel _ (by decide)]

end

/-- The number of days that the handler answers with. -/
def statDays (days : Option String) : ℕ :=
  let days := (parseInt (days.getD "30")).getD 30
  if days ≤ 0 then 30 else (min days 365).toNat

theorem statDays_bounds (days : Option String) : 1 ≤ statDays days ∧ statDays days ≤ 365 := by
  simp only [statDays]
  split_ifs <;> omega

theorem getExecutionStats_eq (now : Time) (days : Option String) (db : DB) :
    statsHandler now days db = (List.range (statDays days)).reverse.map fun i : ℕ =>
      (db.stat? (formatStatDate (truncateDay now - i * dayNanos))).getD
        ⟨truncateDay now - i * dayNanos, 0, 0⟩ := by
  have hdays (d : ℤ) : (if 365 < (if d ≤ 0 then 30 else d) then 365 else
      (if d ≤ 0 then 30 else d)).toNat = if d ≤ 0 then 30 else (min d 365).toNat := by
    split_ifs <;> omega
  rw [statsHandler, getExecutionStats]
  simp only [gt_iff_lt, hdays]
  rfl

/-- The results of a job: for each outcome how often it was, and when last. -/
@[ext] structure Results where
  count : Bool → Int32
  last : Bool → NullableTime

namespace Results

/-- The results of a stored job, or of a request. -/
def of (p : PbJob) : Results := ⟨resultCount p, lastResults p⟩

/-- What is left of the results when a request brings others: the larger counts and the later
times. -/
def merge (stored requested : Results) : Results where
  count b := if requested.count b < stored.count b then stored.count b else requested.count b
  last b :=
    if NullableTime.after (stored.last b) (requested.last b) then stored.last b
    else requested.last b

/-- One report more. -/
def add (r : Results) (ex : Execution) : Results where
  count := Function.update r.count ex.success (r.count ex.success + 1)
  last := Function.update r.last ex.success (some ex.finishedAt)

def zero : Results := ⟨fun _ => 0, fun _ => none⟩

end Results

/-- The results of the jobs. -/
abbrev Ledger := String → Option Results

namespace Ledger

/-- What a command enters, with its answer and the report it counts. -/
def enter (l : Ledger) : Command × Response × Option Execution → Ledger
  | (.setJob pj, .nil, _) =>
    Function.update l pj.name (some ((l pj.name).elim (.of pj) (·.merge (.of pj))))
  | (.deleteJob jobName, .job _, _) => Function.update l jobName none
  | (.deleteExecutions jobName, _, _) =>
    Function.update l jobName ((l jobName).map fun _ => .zero)
  | (.executionDone _, _, some ex) =>
    Function.update l ex.jobName ((l ex.jobName).map (·.add ex))
  | _ => l

end Ledger

/-- What a log tells the ledger. -/
def entries (env : Env) : List Fsm.Entry → DB → List (Command × Response × Option Execution)
  | [], _ => []
  | e :: log, db =>
    (e.2, (Fsm.apply env e.1 e.2 db).1, counted db e.2) :: entries env log (Fsm.step env db e)

/-- The results of the stored jobs. -/
def ledger (db : DB) : Ledger := fun n => (db.job? n).map .of

section

variable {env : Env} {clk : Clock} {db : DB} {p : PbJob}

theorem ledger_setDependents (f : List String → List String) (name : String) (db : DB) :
    ledger (setDependents f name db) = ledger db := by
  funext n
  rw [ledger, ledger, job?_setDependents, Option.map_map]
  congr 1
  funext p
  simp only [Function.comp_apply]
  split_ifs <;> rfl

theorem ledger_relink (child old new : String) (db : DB) :
    ledger (relink child old new db) = ledger db := by
  unfold relink
  split_ifs
  · rfl
  · rw [link, ledger_setDependents, unlink, ledger_setDependents]

theorem ledger_set_job (p : PbJob) (db : DB) :
    ledger (db.set (.job p)) = Function.update (ledger db) p.name (some (.of p)) := by
  funext n
  rw [ledger, DB.job?_set_job, Function.update_apply]
  by_cases h : p.name = n
  · rw [if_pos h, if_pos h.symm, Option.map_some]
  · rw [if_neg h, if_neg (Ne.symm h), ledger]

/-- Comparing counters as `int` and as `int32` is the same. -/
theorem ofInt_larger (x y : Int32) :
    Int32.ofInt (if x.toInt < y.toInt then y.toInt else x.toInt) = if x < y then y else x := by
  simp only [Int32.lt_iff_toInt_lt]
  split_ifs <;> exact Int32.ofInt_toInt _

/-- The counters and the times of the merged job. -/
theorem results_mergedJob {pj : PbJob} {m : Job}
    (hm : mergedJob env clk (newJobFromProto pj) true db = .ok m) (hname : pj.name ≠ "") :
    Results.of m.toProto = (ledger db pj.name).elim (.of pj) (·.merge (.of pj)) := by
  obtain ⟨t, rfl⟩ := setNext_eq_ok hm
  have hread : (newJobFromProto pj).name = pj.name := rfl
  rw [ledger, hread]
  cases hp : db.job? pj.name with
  | none =>
    rw [storedJob_of_none hp]
    refine Results.ext (funext fun b => ?_) (funext fun b => ?_) <;>
      cases b <;> simp [Results.of, keepStored, resultCount, lastResults, Job.toProto,
        newJobFromProto]
  | some p =>
    have hne : (newJobFromProto p).name ≠ "" := by
      rw [show (newJobFromProto p).name = pj.name from DB.name_of_job? hp]
      exact hname
    rw [storedJob_of_job? hp, keepStored, if_neg hne]
    refine Results.ext (funext fun b => ?_) (funext fun b => ?_)
    · cases b
      · exact ofInt_larger pj.errorCount p.errorCount
      · exact ofInt_larger pj.successCount p.successCount
    · cases b <;> exact PbNullableTime.get_new _

/-- The results of a job with one report more. -/
theorem of_countReport {ex : Execution} (hp : db.job? ex.jobName = some p) :
    ledger (countReport p ex (db.set (.execution ex.toProto))) =
      Function.update (ledger db) ex.jobName (some ((Results.of p).add ex)) := by
  funext n
  rw [ledger, job?_countReport (DB.name_of_job? hp), Function.update_apply]
  split_ifs with hn
  · rw [Option.map_some, Option.some_inj]
    refine Results.ext (funext fun b => ?_) (lastResults_countResult p ex _)
    rw [show (Results.of _).count b = resultCount _ b from rfl, resultCount_countResult]
    simp only [Results.add, Results.of, Function.update_apply]
    split_ifs with h h' h'
    · rw [h]
    · exact absurd h.symm h'
    · exact absurd h'.symm h
    · rfl
  · rw [DB.job?_set_execution]
    rfl

theorem ledger_deleteExecutions (jobName : String) (db : DB) :
    ledger (deleteExecutions jobName db).2 =
      Function.update (ledger db) jobName ((ledger db jobName).map fun _ => .zero) := by
  funext n
  rw [ledger, job?_deleteExecutions, Option.map_map, Function.update_apply]
  split_ifs with hn
  · rw [hn, ledger, Option.map_map]
    congr 1
    funext p
    refine Results.ext (funext fun b => ?_) (funext fun b => ?_) <;> cases b <;>
      simp [Results.of, Results.zero, resultCount, lastResults, resetCounters, PbNullableTime.get]
  · rfl

/-- **One command in the ledger.** -/
theorem ledger_step (hs : Sound env db) (e : Fsm.Entry) :
    ledger (Fsm.step env db e) =
      (ledger db).enter (e.2, (Fsm.apply env e.1 e.2 db).1, counted db e.2) := by
  obtain ⟨clk, c⟩ := e
  cases c with
  | setJob pj =>
    rw [Fsm.step_setJob]
    simp only [Fsm.apply, Fsm.applySetJob]
    by_cases ha : Accepts env db (newJobFromProto pj)
    · obtain ⟨m, hm, heq⟩ := setJob_of_accepts clk true hs.toStorable ha
      rw [heq, ledger_relink, ledger_set_job, results_mergedJob hm (Job.names_of_validate ha.1).1,
        show m.toProto.name = pj.name from name_of_mergedJob hm]
      rfl
    · obtain ⟨err, heq⟩ := setJob_of_not_accepts clk true ha
      rw [heq]
      rfl
  | deleteJob jobName =>
    rw [Fsm.step_deleteJob]
    simp only [Fsm.apply, Fsm.applyDeleteJob]
    by_cases hd : ∃ p, Deletable db jobName p
    · obtain ⟨p, hd⟩ := hd
      rw [deleteJob_of_deletable hs hd, unlink, ledger_setDependents]
      funext n
      rw [ledger, job?_eraseJob]
      simp only [Ledger.enter, Function.update_apply, eq_comm (a := n)]
      split_ifs <;> rfl
    · obtain ⟨err, heq⟩ := deleteJob_of_not_deletable env clk hd
      rw [heq]
      rfl
  | setExecution pbex =>
    rw [Fsm.step_setExecution]
    funext n
    rw [ledger, job?_setExecution]
    rfl
  | deleteExecutions jobName =>
    rw [Fsm.step_deleteExecutions, ledger_deleteExecutions]
    rfl
  | executionDone pbex =>
    rw [Fsm.step_executionDone]
    rcases counted_executionDone pbex db with ⟨hnone, -, hjob⟩ | ⟨p, hp, hsome, heq⟩
    · rw [hnone]
      funext n
      rw [ledger, hjob]
      rfl
    · rw [hsome, heq, of_countReport hp]
      simp only [Ledger.enter]
      rw [show ledger db (newExecutionFromProto pbex).jobName = some (.of p) by
        rw [ledger, show db.job? (newExecutionFromProto pbex).jobName = some p from hp]; rfl]
      rfl

theorem ledger_run_of_sound (hs : Sound env db) (log : List Fsm.Entry) :
    ledger (Fsm.run env db log) = (entries env log db).foldl Ledger.enter (ledger db) := by
  induction log generalizing db with
  | nil => rfl
  | cons e log ih =>
    rw [Fsm.run, List.foldl_cons, ← Fsm.run, ih (hs.step e), ledger_step hs e]
    rfl

end

end Dkron
