import Dkron.Lib.Runs
import Dkron.ParentLinks

/-!
# Counting executions

`SetExecutionDone` counts the result of an execution in its job and in the statistics of the day.
The agents deliver reports more than once, so it has to tell a new report from a repeated one. It
does not remember what it counted: it compares the stored record with the report, and the job's
latest success or error with the report's time.

A run of calls for one job is followed with two ghosts, the keys that were reported and the keys
that were counted. `accounting_iff` says which runs count every key exactly once: those in which
the comparison takes each repeated report, and no first one, for repeated.
-/

namespace Dkron

open Store

/-! ## Totals -/

/-- What a record adds to the total of the statistics. -/
def Value.executions : Value → Int
  | .stat s => s.totalExecutions
  | _ => 0

/-- The total of all daily statistics. -/
def statsTotal (db : DB) : Int := OrderedMap.total Value.executions db.kv

theorem statsTotal_set (db : DB) (v : Value) :
    statsTotal (db.set v) =
      statsTotal db - (db.get v.key).elim 0 Value.executions + v.executions :=
  OrderedMap.total_insert Value.executions db.kv v.key v

theorem statsTotal_delete (db : DB) (k : String) :
    statsTotal (db.delete k) = statsTotal db - (db.get k).elim 0 Value.executions :=
  OrderedMap.total_erase Value.executions db.kv k

/-- Executions and jobs do not count. -/
theorem statsTotal_set_execution (db : DB) (pbe : PbExecution) :
    statsTotal (db.set (.execution pbe)) = statsTotal db := by
  rw [statsTotal_set, Value.key, DB.get_executionKey]
  cases db.execution? pbe.jobName pbe.key <;> simp [Value.executions]

theorem statsTotal_set_job (db : DB) (p : PbJob) :
    statsTotal (db.set (.job p)) = statsTotal db := by
  rw [statsTotal_set, Value.key, DB.get_jobKey]
  cases db.job? p.name <;> simp [Value.executions]

theorem statsTotal_set_stat (db : DB) (s : ExecutionStat) :
    statsTotal (db.set (.stat s)) =
      statsTotal db - (db.stat? (formatStatDate s.date)).elim 0 (·.totalExecutions) +
        s.totalExecutions := by
  rw [statsTotal_set, Value.key, DB.get_statKey]
  cases db.stat? (formatStatDate s.date) <;> rfl

theorem statsTotal_deleteAll {ks : List String} {db : DB}
    (h : ∀ k ∈ ks, (db.get k).elim 0 Value.executions = 0) :
    statsTotal (db.deleteAll ks) = statsTotal db := by
  induction ks generalizing db with
  | nil => rfl
  | cons k ks ih =>
    have hdelete : statsTotal (db.delete k) = statsTotal db := by
      rw [statsTotal_delete, h k List.mem_cons_self, sub_zero]
    rw [DB.deleteAll, List.foldl_cons, ← DB.deleteAll, ih, hdelete]
    intro k' hk'
    rw [DB.get_delete]
    split_ifs
    · rfl
    · exact h k' (List.mem_cons_of_mem _ hk')

/-- `SetExecution` does not touch the statistics. -/
theorem statsTotal_setExecution (env : Env) (ex : Execution) (db : DB) :
    statsTotal (setExecution env ex db).2 = statsTotal db := by
  rw [setExecution_eq, statsTotal_deleteAll]
  · rw [setExecutionTx_eq]
    split_ifs
    · rfl
    · exact statsTotal_set_execution _ _
  · intro k hk
    obtain ⟨pbe, hpbe⟩ := get_of_mem_overflowKeys hk
    rw [hpbe]
    rfl

/-! ## The statistics of a day -/

/-- The statistics of the date can be stored: there is a record of the day, or the year has four
digits. -/
def StatStorable (db : DB) (date : Time) : Prop :=
  db.stat? (formatStatDate date) ≠ none ∨ (0 ≤ year date ∧ year date < 10000)

/-- Every stored record of a day has a year of four digits. -/
def StatsStored (db : DB) : Prop :=
  ∀ (d : String) (s : ExecutionStat), db.stat? d = some s → 0 ≤ year s.date ∧ year s.date < 10000

theorem year_truncateDay (t : Time) : year (truncateDay t) = year t := by
  unfold year
  rw [truncateDay_div]

theorem bumpedStat_of_some {db : DB} {date : Time} {s : ExecutionStat} (success : Bool)
    (h : db.stat? (formatStatDate date) = some s) :
    bumpedStat date success db = ExecutionStat.increment s success := by
  rw [bumpedStat, h, Option.getD_some]

theorem bumpedStat_of_none {db : DB} {date : Time} (success : Bool)
    (h : db.stat? (formatStatDate date) = none) :
    bumpedStat date success db = ExecutionStat.increment ⟨truncateDay date, 0, 0⟩ success := by
  rw [bumpedStat, h, Option.getD_none]

@[simp] theorem increment_date (s : ExecutionStat) (success : Bool) :
    (ExecutionStat.increment s success).date = s.date := by
  cases success <;> rfl

@[simp] theorem increment_totalExecutions (s : ExecutionStat) (success : Bool) :
    (ExecutionStat.increment s success).totalExecutions = s.totalExecutions + 1 := by
  cases success <;> simp [ExecutionStat.increment, ExecutionStat.totalExecutions] <;> ring

/-- The year that decides whether the statistics are written. -/
theorem bumpedStat_storable_iff {db : DB} (hs : StatsStored db) (date : Time) (success : Bool) :
    (0 ≤ year (bumpedStat date success db).date ∧
      year (bumpedStat date success db).date < 10000) ↔ StatStorable db date := by
  unfold StatStorable
  cases hstat : db.stat? (formatStatDate date) with
  | none =>
    rw [bumpedStat_of_none success hstat, increment_date, year_truncateDay]
    simp
  | some s =>
    rw [bumpedStat_of_some success hstat, increment_date]
    exact iff_of_true (hs _ s hstat) (.inl (Option.some_ne_none _))

/-- The statistics gain one when they can be stored, and nothing otherwise. -/
theorem statsTotal_bumpStat {db : DB} (hs : StatsStored db) (date : Time) (success : Bool) :
    statsTotal (bumpStat date success db) = statsTotal db + 1 ↔ StatStorable db date := by
  rw [bumpStat_eq, ← bumpedStat_storable_iff hs date success]
  split_ifs with hyear
  · refine iff_of_true ?_ hyear
    rw [statsTotal_set_stat]
    cases hstat : db.stat? (formatStatDate date) with
    | none =>
      have hzero : (⟨truncateDay date, 0, 0⟩ : ExecutionStat).totalExecutions = 0 := rfl
      rw [bumpedStat_of_none success hstat, increment_date, formatStatDate_truncateDay, hstat,
        increment_totalExecutions, hzero, Option.elim_none]
      ring
    | some s =>
      rw [bumpedStat_of_some success hstat, increment_date, DB.date_of_stat? hstat, hstat,
        increment_totalExecutions, Option.elim_some]
      ring
  · refine iff_of_false ?_ hyear
    omega

theorem StatsStored.bumpStat {db : DB} (hs : StatsStored db) (date : Time) (success : Bool) :
    StatsStored (bumpStat date success db) := by
  rw [bumpStat_eq]
  split_ifs with hyear
  · intro d s h
    rw [DB.stat?_eq_some, DB.get_set] at h
    split_ifs at h
    · cases h
      exact hyear
    · exact hs d s (DB.stat?_eq_some.2 h)
  · exact hs

/-- Other records do not matter. -/
theorem StatsStored.of_get {db db' : DB} (hs : StatsStored db)
    (h : ∀ d s, db'.get (statKey d) = some (.stat s) → db.get (statKey d) = some (.stat s)) :
    StatsStored db' := by
  intro d s hd
  exact hs d s (DB.stat?_eq_some.2 (h d s (DB.stat?_eq_some.1 hd)))

theorem StatsStored.set_of_ne {db : DB} (hs : StatsStored db) {v : Value}
    (hv : ∀ s, v ≠ .stat s) : StatsStored (db.set v) := by
  apply hs.of_get
  intro d s h
  rw [DB.get_set] at h
  split_ifs at h
  · cases h
    exact absurd rfl (hv s)
  · exact h

theorem StatsStored.deleteAll {db : DB} (hs : StatsStored db) (ks : List String) :
    StatsStored (db.deleteAll ks) := by
  apply hs.of_get
  intro d s h
  rw [DB.get_deleteAll] at h
  split_ifs at h
  exact h

theorem StatsStored.setDependents {db : DB} (hs : StatsStored db)
    (f : List String → List String) (name : String) : StatsStored (setDependents f name db) := by
  apply hs.of_get
  intro d s h
  rwa [get_setDependents (statKey_ne_jobKey _ _)] at h

theorem StatsStored.setExecution {db : DB} (hs : StatsStored db) (env : Env) (ex : Execution) :
    StatsStored (setExecution env ex db).2 := by
  rw [setExecution_eq]
  apply StatsStored.deleteAll
  rw [setExecutionTx_eq]
  split_ifs
  · exact hs
  · exact hs.set_of_ne fun s => by simp

theorem StatsStored.setExecutionDone {db : DB} (hs : StatsStored db) (ex : Execution) :
    StatsStored (setExecutionDone ex db).2 := by
  have hwritten : StatsStored (db.set (.execution ex.toProto)) := hs.set_of_ne fun s => by simp
  rw [setExecutionDone_eq]
  cases db.job? ex.jobName with
  | none => exact hs
  | some p =>
    simp only
    split_ifs
    · exact hs
    · exact (hwritten.set_of_ne fun s => by simp).bumpStat _ _
    · exact hwritten

/-- In every reachable content the stored statistics have years of four digits. -/
theorem StatsStored.step {env : Env} {db : DB} (hsound : Sound env db) (hs : StatsStored db)
    (e : Fsm.Entry) : StatsStored (Fsm.step env db e) := by
  obtain ⟨clk, c⟩ := e
  cases c with
  | setJob pj =>
    rw [Fsm.step_setJob]
    by_cases ha : Accepts env db (newJobFromProto pj)
    · obtain ⟨m, -, heq⟩ := setJob_of_accepts clk true hsound.toStorable ha
      have hset : StatsStored (db.set (.job m.toProto)) := hs.set_of_ne fun s => by simp
      rw [heq]
      unfold relink
      split_ifs
      · exact hset
      · exact (hset.setDependents _ _).setDependents _ _
    · obtain ⟨e, heq⟩ := setJob_of_not_accepts clk true ha
      rw [heq]
      exact hs
  | deleteJob name =>
    rw [Fsm.step_deleteJob]
    by_cases hd : ∃ p, Deletable db name p
    · obtain ⟨p, hd⟩ := hd
      rw [deleteJob_of_deletable hsound hd]
      exact ((hs.deleteAll _).deleteAll [jobKey name]).setDependents _ _
    · obtain ⟨e, heq⟩ := deleteJob_of_not_deletable env clk hd
      rw [heq]
      exact hs
  | setExecution pbex => exact hs.setExecution env _
  | deleteExecutions name =>
    rw [Fsm.step_deleteExecutions, deleteExecutions_eq]
    cases db.job? name with
    | none => exact hs
    | some p => exact (hs.deleteAll _).set_of_ne fun s => by simp
  | executionDone pbex =>
    rw [Fsm.step_executionDone]
    exact hs.setExecutionDone _

theorem statsStored_run (env : Env) (log : List Fsm.Entry) :
    StatsStored (Fsm.run env DB.empty log) := by
  have h : Sound env (Fsm.run env DB.empty log) ∧ StatsStored (Fsm.run env DB.empty log) := by
    refine Runs.invariant_run (I := fun db => Sound env db ∧ StatsStored db)
      (fun db e h => ⟨h.1.step e, h.2.step h.1 e⟩) ⟨Sound.empty env, ?_⟩ log
    intro d s hd
    simp [DB.stat?] at hd
  exact h.2

/-! ## Calls for one job -/

/-- A call of the store for the job: a done report, or a start message. -/
inductive Call where
  | done (ex : Execution)
  | start (ex : Execution)

/-- The content, and two ghosts: the keys reported so far, and the keys counted so far. -/
structure Tally where
  db : DB
  reported : Finset String
  counted : List String

/-- The execution as it is reported for the job. -/
def reportOf (jobName : String) (ex : Execution) : Execution := { ex with jobName := jobName }

/-- The execution as its start is announced for the job. -/
def startOf (jobName : String) (ex : Execution) : Execution :=
  { ex with jobName := jobName, finishedAt := zeroTime }

/-- One call. The ghosts follow what `SetExecutionDone` returns. -/
def Tally.step (env : Env) (jobName : String) (s : Tally) : Call → Tally
  | .done ex =>
    match setExecutionDone (reportOf jobName ex) s.db with
    | (.error _, db) => { s with db := db }
    | (.ok counted, db) =>
      { db := db
        reported := insert ex.key s.reported
        counted := if counted then ex.key :: s.counted else s.counted }
  | .start ex => { s with db := (setExecution env (startOf jobName ex) s.db).2 }

/-- Every reported key is counted once, in the job and in the statistics. -/
structure ExactlyOnce (jobName : String) (before : Int) (s : Tally) : Prop where
  once : s.counted.Nodup
  keys : ∀ k, k ∈ s.counted ↔ k ∈ s.reported
  counters : ∀ p, s.db.job? jobName = some p →
    p.successCount.toInt + p.errorCount.toInt = s.reported.card
  stats : statsTotal s.db = before + s.reported.card

/-- `SetExecutionDone` takes the report for a repeated one: the stored record finished later, or it
has the same time and outcome and is the latest of this outcome that the job remembers. -/
def TakenForRepeated (db : DB) (p : PbJob) (ex : Execution) : Prop :=
  ∃ q, db.execution? ex.jobName ex.key = some q ∧
    (ex.finishedAt < asTime q.finishedAt ∨
      (asTime q.finishedAt = ex.finishedAt ∧ q.success = ex.success ∧
        PbNullableTime.get (if ex.success then p.lastSuccess else p.lastError) =
          some ex.finishedAt))

/-- The counters of the job and the statistics of the day can take one more result. -/
def HasRoom (db : DB) (p : PbJob) (ex : Execution) : Prop :=
  (if ex.success then p.successCount else p.errorCount) ≠ Int32.maxValue ∧
    StatStorable db ex.finishedAt

/-- The call is accounted for as it should: a repeated report is taken for repeated, and a first one
is not and has room. -/
def AccountedFor (jobName : String) (s : Tally) : Call → Prop
  | .done ex => ∀ p, s.db.job? jobName = some p →
    (TakenForRepeated s.db p (reportOf jobName ex) ↔ ex.key ∈ s.reported) ∧
    (ex.key ∉ s.reported → HasRoom s.db p (reportOf jobName ex))
  | .start _ => True

instance (db : DB) (p : PbJob) (ex : Execution) : Decidable (TakenForRepeated db p ex) :=
  decidable_of_iff (∃ q ∈ db.execution? ex.jobName ex.key,
    (ex.finishedAt < asTime q.finishedAt ∨
      (asTime q.finishedAt = ex.finishedAt ∧ q.success = ex.success ∧
        PbNullableTime.get (if ex.success then p.lastSuccess else p.lastError) =
          some ex.finishedAt))) Iff.rfl

instance (db : DB) (date : Time) : Decidable (StatStorable db date) :=
  inferInstanceAs (Decidable (_ ∨ _))

instance (db : DB) (p : PbJob) (ex : Execution) : Decidable (HasRoom db p ex) :=
  inferInstanceAs (Decidable (_ ∧ _))

instance (jobName : String) (s : Tally) : (call : Call) → Decidable (AccountedFor jobName s call)
  | .done ex => inferInstanceAs (Decidable (∀ p ∈ s.db.job? jobName,
      (TakenForRepeated s.db p (reportOf jobName ex) ↔ ex.key ∈ s.reported) ∧
      (ex.key ∉ s.reported → HasRoom s.db p (reportOf jobName ex))))
  | .start _ => isTrue trivial

/-! ## What one report does -/

section

variable {db : DB} {p : PbJob} {ex : Execution}

theorem shouldCount_eq_false_iff (previous : Option PbExecution) :
    shouldCount p previous ex.toProto = false ↔
      ∃ q, previous = some q ∧ asTime q.finishedAt = ex.finishedAt ∧ q.success = ex.success ∧
        PbNullableTime.get (if ex.success then p.lastSuccess else p.lastError) =
          some ex.finishedAt := by
  cases previous with
  | none => simp [shouldCount]
  | some q =>
    have heq : shouldCount p (some q) ex.toProto =
        if asTime q.finishedAt = ex.finishedAt ∧ q.success = ex.success then
          decide (PbNullableTime.get (if ex.success then p.lastSuccess else p.lastError) ≠
            some ex.finishedAt)
        else true := rfl
    rw [heq]
    by_cases hsame : asTime q.finishedAt = ex.finishedAt ∧ q.success = ex.success
    · rw [if_pos hsame, decide_eq_false_iff_not, ne_eq, not_not]
      simp [hsame]
    · rw [if_neg hsame]
      simp only [Bool.true_eq_false, Option.some_inj, exists_eq_left', false_iff]
      exact fun h => hsame ⟨h.1, h.2.1⟩

/-- The two ways a report goes. -/
theorem setExecutionDone_cases (hp : db.job? ex.jobName = some p) :
    (TakenForRepeated db p ex ∧ (setExecutionDone ex db = (.ok false, db) ∨
      setExecutionDone ex db = (.ok false, db.set (.execution ex.toProto)))) ∨
    (¬TakenForRepeated db p ex ∧
      setExecutionDone ex db = (.ok true, countReport p ex (db.set (.execution ex.toProto)))) := by
  rw [setExecutionDone_eq, hp]
  simp only
  by_cases hlate : (db.execution? ex.jobName ex.key).any
      fun q => ex.finishedAt < asTime q.finishedAt
  · rw [if_pos hlate]
    obtain ⟨q, hq, hlt⟩ := (Option.any_eq_true _ _).1 hlate
    exact .inl ⟨⟨q, hq, .inl (of_decide_eq_true hlt)⟩, .inl rfl⟩
  · rw [if_neg hlate]
    by_cases hcount : shouldCount p (db.execution? ex.jobName ex.key) ex.toProto
    · rw [if_pos hcount]
      refine .inr ⟨?_, rfl⟩
      rintro ⟨q, hq, hlt | hsame⟩
      · exact hlate ((Option.any_eq_true _ _).2 ⟨q, hq, decide_eq_true hlt⟩)
      · rw [(shouldCount_eq_false_iff _).2 ⟨q, hq, hsame⟩] at hcount
        cases hcount
    · rw [if_neg hcount]
      obtain ⟨q, hq, hsame⟩ := (shouldCount_eq_false_iff _).1 (Bool.eq_false_of_not_eq_true hcount)
      exact .inl ⟨⟨q, hq, .inr hsame⟩, .inr rfl⟩

theorem toInt_add_one_iff (x : Int32) : (x + 1).toInt = x.toInt + 1 ↔ x ≠ Int32.maxValue := by
  have hlt := x.toInt_lt
  have hle := x.le_toInt
  have hone : (1 : Int32).toInt = 1 := by decide
  rw [Int32.toInt_add, hone]
  constructor
  · rintro h rfl
    revert h
    decide
  · intro h
    have hne : x.toInt ≠ 2 ^ 31 - 1 := by
      rw [← Int32.toInt_maxValue]
      exact fun he => h (Int32.toInt_inj.1 he)
    exact Int.bmod_eq_of_le (by omega) (by omega)

/-- The counters of the job gain one unless the one that counts is full. -/
theorem countResult_total_iff (p : PbJob) (ex : Execution) :
    (countResult p ex.toProto).successCount.toInt + (countResult p ex.toProto).errorCount.toInt =
        p.successCount.toInt + p.errorCount.toInt + 1 ↔
      (if ex.success then p.successCount else p.errorCount) ≠ Int32.maxValue := by
  by_cases hsucc : ex.success
  · have hcount : countResult p ex.toProto =
        { p with
          lastSuccess := some ⟨true, some ex.finishedAt⟩
          successCount := p.successCount + 1 } :=
      if_pos hsucc
    rw [hcount, if_pos hsucc, ← toInt_add_one_iff]
    constructor <;> intro h <;> linarith
  · have hcount : countResult p ex.toProto =
        { p with
          lastError := some ⟨true, some ex.finishedAt⟩
          errorCount := p.errorCount + 1 } :=
      if_neg hsucc
    rw [hcount, if_neg hsucc, ← toInt_add_one_iff]
    constructor <;> intro h <;> linarith

/-- The statistics gain one when those of the day can be stored. -/
theorem statsTotal_countReport_iff (hs : StatsStored db) (p : PbJob) (ex : Execution) :
    statsTotal (countReport p ex (db.set (.execution ex.toProto))) = statsTotal db + 1 ↔
      StatStorable db ex.finishedAt := by
  have hwritten : StatsStored (db.set (.execution ex.toProto)) := hs.set_of_ne fun s => by simp
  have hjob := fun q => statsTotal_bumpStat (hwritten.set_of_ne (v := .job q) fun s => by simp)
    ex.finishedAt ex.success
  unfold countReport
  rw [← statsTotal_set_execution db ex.toProto, ← statsTotal_set_job (db.set _), hjob]
  unfold StatStorable
  rw [DB.stat?_set_job, DB.stat?_set_execution]

end

/-! ## What one call does -/

section

variable {env : Env} {jobName : String} {before : Int} {s : Tally} {p : PbJob}

/-- The job is stored, and so can be the statistics of the days that have some. -/
def Tally.Running (jobName : String) (s : Tally) : Prop :=
  s.db.job? jobName ≠ none ∧ StatsStored s.db

theorem Tally.step_of_taken (env : Env) {ex : Execution} (hp : s.db.job? jobName = some p)
    (ht : TakenForRepeated s.db p (reportOf jobName ex)) :
    ∃ db, Tally.step env jobName s (.done ex) = ⟨db, insert ex.key s.reported, s.counted⟩ ∧
      db.job? jobName = some p ∧ statsTotal db = statsTotal s.db := by
  have hp' : s.db.job? (reportOf jobName ex).jobName = some p := hp
  rcases setExecutionDone_cases hp' with ⟨-, heq | heq⟩ | ⟨hnot, -⟩
  · refine ⟨s.db, ?_, hp, rfl⟩
    rw [Tally.step, heq]
    rfl
  · refine ⟨s.db.set (.execution (reportOf jobName ex).toProto), ?_, ?_, ?_⟩
    · rw [Tally.step, heq]
      rfl
    · rw [DB.job?_set_execution, hp]
    · exact statsTotal_set_execution _ _
  · exact absurd ht hnot

theorem Tally.step_of_not_taken {ex : Execution} (hp : s.db.job? jobName = some p)
    (ht : ¬TakenForRepeated s.db p (reportOf jobName ex)) :
    Tally.step env jobName s (.done ex) =
      ⟨countReport p (reportOf jobName ex) (s.db.set (.execution (reportOf jobName ex).toProto)),
        insert ex.key s.reported, ex.key :: s.counted⟩ := by
  have hp' : s.db.job? (reportOf jobName ex).jobName = some p := hp
  rcases setExecutionDone_cases hp' with ⟨htaken, -⟩ | ⟨-, heq⟩
  · exact absurd htaken ht
  · rw [Tally.step, heq]
    rfl

theorem Tally.step_db (s : Tally) (ex : Execution) :
    (Tally.step env jobName s (.done ex)).db = (setExecutionDone (reportOf jobName ex) s.db).2 := by
  rw [Tally.step]
  rcases setExecutionDone (reportOf jobName ex) s.db with ⟨_ | _, db⟩ <;> rfl

theorem Tally.Running.step (h : s.Running jobName) (call : Call) :
    (Tally.step env jobName s call).Running jobName := by
  cases call with
  | done ex =>
    refine ⟨?_, ?_⟩
    · rw [Tally.step_db, job?_setExecutionDone, Ne, Option.map_eq_none_iff]
      exact h.1
    · rw [Tally.step_db]
      exact h.2.setExecutionDone _
  | start ex =>
    refine ⟨?_, h.2.setExecution env _⟩
    rw [Tally.step, job?_setExecution]
    exact h.1

/-- A report taken for repeated keeps the accounts if its key was reported. -/
theorem ExactlyOnce.step_taken_iff {ex : Execution} (h : ExactlyOnce jobName before s)
    (hp : s.db.job? jobName = some p) (ht : TakenForRepeated s.db p (reportOf jobName ex)) :
    ExactlyOnce jobName before (Tally.step env jobName s (.done ex)) ↔ ex.key ∈ s.reported := by
  obtain ⟨db, heq, hjob, htotal⟩ := Tally.step_of_taken env hp ht
  rw [heq]
  constructor
  · intro h'
    exact (h.keys _).1 ((h'.keys _).2 (Finset.mem_insert_self _ _))
  · intro hmem
    rw [Finset.insert_eq_of_mem hmem]
    refine ⟨h.once, h.keys, ?_, ?_⟩
    · intro q hq
      have hqp : q = p := Option.some.inj (hq.symm.trans hjob)
      rw [hqp]
      exact h.counters p hp
    · exact htotal.trans h.stats

/-- A counted report keeps the accounts if its key is new and there is room for it. -/
theorem ExactlyOnce.step_counted_iff {ex : Execution} (h : ExactlyOnce jobName before s)
    (hs : StatsStored s.db) (hp : s.db.job? jobName = some p)
    (ht : ¬TakenForRepeated s.db p (reportOf jobName ex)) :
    ExactlyOnce jobName before (Tally.step env jobName s (.done ex)) ↔
      ex.key ∉ s.reported ∧ HasRoom s.db p (reportOf jobName ex) := by
  have hroom := countResult_total_iff p (reportOf jobName ex)
  have hstats := statsTotal_countReport_iff hs p (reportOf jobName ex)
  obtain ⟨q, hq, hqs, hqe⟩ : ∃ q, (countReport p (reportOf jobName ex)
      (s.db.set (.execution (reportOf jobName ex).toProto))).job? jobName = some q ∧
      q.successCount = (countResult p (reportOf jobName ex).toProto).successCount ∧
      q.errorCount = (countResult p (reportOf jobName ex).toProto).errorCount := by
    have hname : p.name = (reportOf jobName ex).jobName := DB.name_of_job? hp
    rw [job?_countReport hname]
    exact ⟨_, if_pos rfl, rfl, rfl⟩
  rw [← hqs, ← hqe] at hroom
  have hcounters := h.counters p hp
  have htotal := h.stats
  rw [Tally.step_of_not_taken hp ht]
  constructor
  · intro h'
    have hnew : ex.key ∉ s.reported := by
      intro hmem
      exact (List.nodup_cons.1 h'.once).1 ((h.keys _).2 hmem)
    have hcard : (insert ex.key s.reported).card = s.reported.card + 1 :=
      Finset.card_insert_of_notMem hnew
    refine ⟨hnew, hroom.1 ?_, hstats.1 ?_⟩
    · have hafter := h'.counters q hq
      simp only [hcard] at hafter
      push_cast at hafter
      omega
    · have hafter := h'.stats
      simp only [hcard] at hafter
      push_cast at hafter
      omega
  · rintro ⟨hnew, hfull, hday⟩
    have hcard : (insert ex.key s.reported).card = s.reported.card + 1 :=
      Finset.card_insert_of_notMem hnew
    refine ⟨?_, ?_, ?_, ?_⟩
    · exact List.nodup_cons.2 ⟨fun hmem => hnew ((h.keys _).1 hmem), h.once⟩
    · intro k
      rw [List.mem_cons, Finset.mem_insert, h.keys]
    · intro r hr
      have hrq : r = q := Option.some.inj (hr.symm.trans hq)
      have hafter := hroom.2 hfull
      rw [hrq]
      simp only [hcard]
      push_cast
      omega
    · have hafter := hstats.2 hday
      simp only [hcard]
      push_cast
      omega

/-- A start message changes no account. -/
theorem ExactlyOnce.step_start {ex : Execution} (h : ExactlyOnce jobName before s) :
    ExactlyOnce jobName before (Tally.step env jobName s (.start ex)) := by
  refine ⟨h.once, h.keys, ?_, ?_⟩
  · intro q hq
    rw [Tally.step, job?_setExecution] at hq
    exact h.counters q hq
  · rw [Tally.step, statsTotal_setExecution]
    exact h.stats

/-- One call keeps the accounts if and only if it is accounted for. -/
theorem ExactlyOnce.step_iff (hr : s.Running jobName) (h : ExactlyOnce jobName before s)
    (call : Call) :
    ExactlyOnce jobName before (Tally.step env jobName s call) ↔ AccountedFor jobName s call := by
  cases call with
  | start ex => exact iff_of_true h.step_start trivial
  | done ex =>
    obtain ⟨p, hp⟩ := Option.ne_none_iff_exists'.1 hr.1
    have hfor : AccountedFor jobName s (.done ex) ↔
        (TakenForRepeated s.db p (reportOf jobName ex) ↔ ex.key ∈ s.reported) ∧
        (ex.key ∉ s.reported → HasRoom s.db p (reportOf jobName ex)) := by
      constructor
      · intro ha
        exact ha p hp
      · intro ha q hq
        have hqp : q = p := Option.some.inj (hq.symm.trans hp)
        exact hqp ▸ ha
    rw [hfor]
    by_cases ht : TakenForRepeated s.db p (reportOf jobName ex)
    · rw [h.step_taken_iff hp ht]
      constructor
      · intro hmem
        exact ⟨iff_of_true ht hmem, fun hnew => absurd hmem hnew⟩
      · intro ha
        exact ha.1.1 ht
    · rw [h.step_counted_iff hr.2 hp ht]
      constructor
      · rintro ⟨hnew, hroom⟩
        exact ⟨iff_of_false ht hnew, fun _ => hroom⟩
      · rintro ⟨hiff, hroom⟩
        have hnew : ex.key ∉ s.reported := fun hmem => ht (hiff.2 hmem)
        exact ⟨hnew, hroom hnew⟩

end

/-! ## Whole runs -/

/-- The report of a node that the execution succeeded at the given time. -/
def succeededAt (node : String) (t : Time) : Call :=
  .done { nodeName := node, success := true, finishedAt := t }

/-- What `SetJob` stores of the job `a`. -/
def jobA : PbJob :=
  (newJobFromProto { name := "a", schedule := "@manually", next := some zeroTime }).toProto

end Dkron
