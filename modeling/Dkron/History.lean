import Dkron.ExecutionRecords
import Dkron.Lib.Decimal
import Dkron.Lib.Pruning
import Dkron.Lib.Runs

/-!
# The history of a job

`SetExecution` keeps the executions below the directory of its job to a fixed number: after it has
written the execution it deletes the oldest ones that are too many. `SetExecutionDone` writes an
execution too, of which no start may have been stored, and deletes none. And below the directory of
a job are the executions of jobs whose name continues with a colon, which no stored job's does.

**Theorem (`history_iff`).** In every content of a run of commands each job has at most that many
executions, if and only if no done report adds one to a job that has them already. A pruning deletes
the oldest executions of its job and no others, if for each execution of another job below the
directory as many older ones lie there as have to go.
-/

namespace Dkron

open Store

/-- The number of stored executions of the job. -/
def historyLength (jobName : String) (db : DB) : ℕ :=
  (db.executions.filter fun e => e.jobName = jobName).length

/-- No job has too many stored executions. -/
def BoundedHistory (db : DB) : Prop := ∀ n, historyLength n db ≤ maxExecutions

/-- The content between the two parts of `SetExecution`. -/
def afterWrite (pbex : PbExecution) (db : DB) : DB :=
  (setExecutionTx (newExecutionFromProto pbex).toProto db).2

/-- `SetExecution` deletes only executions of its job, and none that started later than a kept one
of the job. -/
def PrunesOldest (env : Env) (db : DB) (e : Fsm.Entry) : Prop :=
  ∀ pbex, e.2 = .setExecution pbex → ∀ r ∈ (afterWrite pbex db).executions,
    r ∉ (Fsm.step env db e).executions → r.jobName = pbex.jobName ∧
      ∀ k ∈ (Fsm.step env db e).executions, k.jobName = pbex.jobName →
        asTime r.startedAt ≤ asTime k.startedAt

/-- A done report that is stored finds room in the history of its job. -/
def FindsRoom (db : DB) (e : Fsm.Entry) : Prop :=
  ∀ pbex, e.2 = .executionDone pbex → db.job? pbex.jobName ≠ none →
    (∀ q, db.execution? pbex.jobName pbex.key = some q →
      ¬asTime pbex.finishedAt < asTime q.finishedAt) →
    (db.executions.filter fun e =>
      e.jobName = pbex.jobName ∧ e.storeKey ≠ pbex.storeKey).length < maxExecutions

/-- If executions below the directory have to go, as many of them are older than one of another
job. -/
def SparesOthers (db : DB) (e : Fsm.Entry) : Prop :=
  ∀ pbex, e.2 = .setExecution pbex →
    let below := (afterWrite pbex db).executions.filter fun e =>
      e.Below (executionsDir pbex.jobName)
    ∀ e ∈ below, e.jobName ≠ pbex.jobName → below.length - maxExecutions ≤
      below.countP fun e' => asTime e'.startedAt < asTime e.startedAt

/-! ## Done reports -/

section

variable {env : Env} {db db' : DB} {n : String}

theorem historyLength_le (h : ∀ e ∈ db'.executions, e.jobName = n → e ∈ db.executions) :
    historyLength n db' ≤ historyLength n db :=
  DB.length_filter_executions_le h

theorem BoundedHistory.of_addsOnly (h : BoundedHistory db) (hadds : ∀ new, AddsOnly new db db') :
    BoundedHistory db' := fun n =>
  (historyLength_le fun _ he _ =>
    DB.mem_executions.2 (get_of_addsOnly hadds (DB.mem_executions.1 he))).trans (h n)

/-- A report that is stored adds an execution to its job, or replaces one. -/
theorem historyLength_setExecutionDone {ex : Execution} (hjob : db.job? ex.jobName ≠ none)
    (hlate : ∀ q, db.execution? ex.jobName ex.key = some q →
      ¬ex.finishedAt < asTime q.finishedAt) :
    historyLength ex.jobName (setExecutionDone ex db).2 =
      (db.executions.filter fun e =>
        e.jobName = ex.jobName ∧ e.storeKey ≠ ex.toProto.storeKey).length + 1 := by
  have hperm : ((setExecutionDone ex db).2.executions.filter fun e => e.jobName = ex.jobName).Perm
      (ex.toProto :: db.executions.filter fun e =>
        e.jobName = ex.jobName ∧ e.storeKey ≠ ex.toProto.storeKey) := by
    rw [List.perm_ext_iff_of_nodup (DB.nodup_executions _ |>.filter _)]
    · intro e
      simp only [List.mem_filter, mem_executions_setExecutionDone hjob hlate, List.mem_cons,
        decide_eq_true_eq]
      constructor
      · rintro ⟨rfl | ⟨he, hkey⟩, hname⟩
        · exact .inl rfl
        · exact .inr ⟨he, hname, hkey.symm⟩
      · rintro (rfl | ⟨he, hname, hkey⟩)
        · exact ⟨.inl rfl, rfl⟩
        · exact ⟨.inr ⟨he, hkey.symm⟩, hname⟩
    · refine List.nodup_cons.2 ⟨fun hmem => ?_, db.nodup_executions.filter _⟩
      exact (of_decide_eq_true (List.mem_filter.1 hmem).2).2 rfl
  rw [historyLength, hperm.length_eq, List.length_cons]

theorem boundedHistory_setExecutionDone_iff (h : BoundedHistory db) (ex : Execution) :
    BoundedHistory (setExecutionDone ex db).2 ↔
      (db.job? ex.jobName ≠ none → (∀ q, db.execution? ex.jobName ex.key = some q →
        ¬ex.finishedAt < asTime q.finishedAt) → (db.executions.filter fun e =>
          e.jobName = ex.jobName ∧ e.storeKey ≠ ex.toProto.storeKey).length < maxExecutions) := by
  by_cases hjob : db.job? ex.jobName = none
  · rw [setExecutionDone_eq, hjob]
    exact iff_of_true h fun hstored => absurd rfl hstored
  by_cases hlate : ∀ q, db.execution? ex.jobName ex.key = some q →
      ¬ex.finishedAt < asTime q.finishedAt
  · rw [forall_prop_of_true hjob, forall_prop_of_true hlate]
    have hlength := historyLength_setExecutionDone hjob hlate
    constructor
    · intro h'
      have hbound := h' ex.jobName
      rw [hlength] at hbound
      exact hbound
    · intro hroom n
      by_cases hn : n = ex.jobName
      · rw [hn, hlength]
        exact hroom
      · refine (historyLength_le fun e he hname => ?_).trans (h n)
        obtain rfl | ⟨hold, -⟩ := (mem_executions_setExecutionDone hjob hlate).1 he
        · exact absurd hname.symm hn
        · exact hold
  · refine iff_of_true ?_ fun _ hnew => absurd hnew hlate
    push Not at hlate
    obtain ⟨q, hq, hlt⟩ := hlate
    obtain ⟨p, hp⟩ := Option.ne_none_iff_exists'.1 hjob
    rw [setExecutionDone_eq, hp, hq]
    simpa [hlt] using h

/-! ## Pruning -/

/-- The executions that `SetExecution` sorts. -/
def sortedBelow (env : Env) (jobName : String) (db : DB) : List Execution :=
  env.sortSlice (·.startedAt) ((db.executions.filter fun e =>
    e.Below (executionsDir jobName)).map newExecutionFromProto)

theorem mem_sortedBelow {jobName : String} {ex : Execution} :
    ex ∈ sortedBelow env jobName db ↔
      ∃ e, (e ∈ db.executions ∧ e.Below (executionsDir jobName)) ∧
        newExecutionFromProto e = ex := by
  rw [sortedBelow, (env.sortSlice_perm _ _).mem_iff, List.mem_map]
  simp only [List.mem_filter, decide_eq_true_eq]

theorem mem_setExecution_executions {pbex e : PbExecution} :
    e ∈ (setExecution env (newExecutionFromProto pbex) db).2.executions ↔
      e ∈ (afterWrite pbex db).executions ∧ newExecutionFromProto e ∉
        (sortedBelow env pbex.jobName (afterWrite pbex db)).take
          ((sortedBelow env pbex.jobName (afterWrite pbex db)).length - maxExecutions) := by
  rw [setExecution_eq, DB.mem_executions_deleteAll]
  refine and_congr_right fun he => not_congr ?_
  have hover : overflowKeys env pbex.jobName (afterWrite pbex db) =
      ((sortedBelow env pbex.jobName (afterWrite pbex db)).take
        ((sortedBelow env pbex.jobName (afterWrite pbex db)).length - maxExecutions)).map
          fun ex => executionKey ex.jobName ex.key := by
    rw [overflowKeys, getExecutions_getD, overflow, sortedBelow,
      (env.sortSlice_perm _ _).length_eq]
  show e.storeKey ∈ overflowKeys env pbex.jobName (afterWrite pbex db) ↔ _
  rw [hover, List.mem_map]
  constructor
  · rintro ⟨ex, hex, hkey⟩
    obtain ⟨e', he', rfl⟩ := mem_sortedBelow.1 (List.mem_of_mem_take hex)
    rwa [← DB.eq_of_storeKey he'.1 he hkey]
  · exact fun hex => ⟨_, hex, rfl⟩

theorem mem_kept {pbex e : PbExecution}
    (he : e ∈ (setExecution env (newExecutionFromProto pbex) db).2.executions)
    (hname : e.jobName = pbex.jobName) :
    newExecutionFromProto e ∈ (sortedBelow env pbex.jobName (afterWrite pbex db)).drop
      ((sortedBelow env pbex.jobName (afterWrite pbex db)).length - maxExecutions) := by
  obtain ⟨hwritten, hnot⟩ := mem_setExecution_executions.1 he
  have hmem : newExecutionFromProto e ∈ sortedBelow env pbex.jobName (afterWrite pbex db) :=
    mem_sortedBelow.2 ⟨e, ⟨hwritten, hname ▸ below_executionsDir e⟩, rfl⟩
  rw [← List.take_append_drop ((sortedBelow env pbex.jobName (afterWrite pbex db)).length -
    maxExecutions) (sortedBelow env pbex.jobName (afterWrite pbex db)), List.mem_append] at hmem
  exact hmem.resolve_left hnot

theorem sortedBelow_sorted (env : Env) (jobName : String) (db : DB) :
    (sortedBelow env jobName db).Pairwise fun ex ex' => ex.startedAt ≤ ex'.startedAt :=
  env.sortSlice_sorted _ _

theorem sortedBelow_perm (env : Env) (jobName : String) (db : DB) :
    (sortedBelow env jobName db).Perm ((db.executions.filter fun e =>
      e.Below (executionsDir jobName)).map newExecutionFromProto) :=
  env.sortSlice_perm _ _

/-- What stays of the executions of the job was not over the limit. -/
theorem historyLength_setExecution_le (pbex : PbExecution) :
    historyLength pbex.jobName (setExecution env (newExecutionFromProto pbex) db).2 ≤
      maxExecutions := by
  have hnodup : (((setExecution env (newExecutionFromProto pbex) db).2.executions.filter
      fun e => e.jobName = pbex.jobName).map newExecutionFromProto).Nodup := by
    refine List.Nodup.map_on ?_ ((DB.nodup_executions _).filter _)
    exact fun e he e' he' => DB.eq_of_newExecutionFromProto (List.mem_filter.1 he).1
      (List.mem_filter.1 he').1
  have hkept : ∀ ex ∈ ((setExecution env (newExecutionFromProto pbex) db).2.executions.filter
      fun e => e.jobName = pbex.jobName).map newExecutionFromProto,
      ex ∈ (sortedBelow env pbex.jobName (afterWrite pbex db)).drop
        ((sortedBelow env pbex.jobName (afterWrite pbex db)).length - maxExecutions) := by
    intro ex hex
    obtain ⟨e, he, rfl⟩ := List.mem_map.1 hex
    obtain ⟨hafter, hname⟩ := List.mem_filter.1 he
    exact mem_kept hafter (of_decide_eq_true hname)
  have hlen := (hnodup.subperm hkept).length_le
  rw [List.length_map] at hlen
  exact hlen.trans (Pruning.length_kept_le _ _)

theorem BoundedHistory.setExecution (h : BoundedHistory db) (pbex : PbExecution) :
    BoundedHistory (setExecution env (newExecutionFromProto pbex) db).2 := by
  intro n
  by_cases hn : n = pbex.jobName
  · rw [hn]
    exact historyLength_setExecution_le pbex
  · refine (historyLength_le fun e he hname => DB.mem_executions.2 ?_).trans (h n)
    rcases AddsOnly.setExecution env _ db _ _ (DB.mem_executions.1 he) with hold | rfl
    · exact hold
    · exact absurd hname.symm hn

/-- A pruning deletes the oldest, and spares the executions of other jobs that are not among
them. -/
theorem prunesOldest_of_sparesOthers {e : Fsm.Entry} (h : SparesOthers db e) :
    PrunesOldest env db e := by
  obtain ⟨clk, c⟩ := e
  rintro pbex ⟨⟩ r hr hgone
  rw [Fsm.step_setExecution, mem_setExecution_executions, and_iff_right hr, not_not] at hgone
  have hbelow : r.Below (executionsDir pbex.jobName) := by
    obtain ⟨e, ⟨he, hbelow⟩, heq⟩ := mem_sortedBelow.1 (List.mem_of_mem_take hgone)
    exact DB.eq_of_newExecutionFromProto he hr heq ▸ hbelow
  have hperm := sortedBelow_perm env pbex.jobName (afterWrite pbex db)
  have hsorted := sortedBelow_sorted env pbex.jobName (afterWrite pbex db)
  refine ⟨?_, fun k hk hname => ?_⟩
  rotate_left
  · show (newExecutionFromProto r).startedAt ≤ (newExecutionFromProto k).startedAt
    exact Pruning.dropped_le_kept hsorted hgone (mem_kept hk hname)
  by_contra hname
  have hspared := h pbex rfl r (List.mem_filter.2 ⟨hr, decide_eq_true hbelow⟩) hname
  have hfew := Pruning.countP_lt_of_dropped hsorted hgone
  rw [hperm.countP_eq, hperm.length_eq, List.countP_map, List.length_map] at hfew
  exact absurd hfew (not_lt.2 hspared)

/-! ## Steps -/

theorem boundedHistory_step_iff (hs : Sound env db) (h : BoundedHistory db) (e : Fsm.Entry) :
    BoundedHistory (Fsm.step env db e) ↔ FindsRoom db e := by
  obtain ⟨clk, c⟩ := e
  cases c with
  | setJob pj =>
    rw [Fsm.step_setJob]
    exact iff_of_true (h.of_addsOnly (AddsOnly.setJob hs.toStorable clk _))
      (fun pbex heq => by cases heq)
  | deleteJob name =>
    rw [Fsm.step_deleteJob]
    exact iff_of_true (h.of_addsOnly (AddsOnly.deleteJob hs clk)) (fun pbex heq => by cases heq)
  | deleteExecutions name =>
    rw [Fsm.step_deleteExecutions]
    exact iff_of_true (h.of_addsOnly fun new => AddsOnly.deleteExecutions new db name)
      (fun pbex heq => by cases heq)
  | setExecution pbex =>
    rw [Fsm.step_setExecution]
    exact iff_of_true (h.setExecution pbex) (fun pbex heq => by cases heq)
  | executionDone pbex =>
    rw [Fsm.step_executionDone, boundedHistory_setExecutionDone_iff h, storeKey_toProto]
    constructor
    · rintro hroom _ ⟨⟩
      exact hroom
    · exact fun hroom => hroom pbex rfl

end

/-! ## Whole runs -/

/-- The report of a node on an execution of the job `a`. -/
def nodeReport (i : ℕ) : PbExecution where
  jobName := "a"
  nodeName := Nat.repr i
  startedAt := some 0
  finishedAt := some 1

/-- The job `a` is set, and the given number of nodes report. -/
def nodeReports (k : ℕ) : List Fsm.Entry :=
  Fsm.setA ++ (List.range k).map fun i => (Clock.epoch, .executionDone (nodeReport i))

theorem storeKey_nodeReport_inj {i j : ℕ}
    (h : (nodeReport i).storeKey = (nodeReport j).storeKey) : i = j := by
  have hkey : executionId 0 (Nat.repr i) = executionId 0 (Nat.repr j) := append_left_cancel h
  exact Decimal.repr_toList_inj (congrArg String.toList (append_left_cancel hkey))

/-- A node that has not reported adds an execution. -/
theorem setExecutionDone_nodeReport {db : DB} {k : ℕ} (hjob : db.job? "a" ≠ none)
    (hold : ∀ e ∈ db.executions, ∃ i < k, e = nodeReport i) :
    (∀ e ∈ (setExecutionDone (newExecutionFromProto (nodeReport k)) db).2.executions,
      ∃ i < k + 1, e = nodeReport i) ∧
    historyLength "a" (setExecutionDone (newExecutionFromProto (nodeReport k)) db).2 =
      historyLength "a" db + 1 := by
  have hfresh : ∀ e ∈ db.executions, e.storeKey ≠ (nodeReport k).storeKey := by
    intro e he hkey
    obtain ⟨i, hi, rfl⟩ := hold e he
    exact absurd (storeKey_nodeReport_inj hkey) (ne_of_lt hi)
  have hlate : ∀ q, db.execution? (newExecutionFromProto (nodeReport k)).jobName
      (newExecutionFromProto (nodeReport k)).key = some q →
      ¬(newExecutionFromProto (nodeReport k)).finishedAt < asTime q.finishedAt := by
    intro q hq
    have hget := DB.execution?_eq_some.1 hq
    exact absurd (DB.key_of_get hget) (hfresh q (DB.get_of_mem_executions hget))
  constructor
  · intro e he
    obtain rfl | ⟨hmem, -⟩ := (mem_executions_setExecutionDone hjob hlate).1 he
    · exact ⟨k, Nat.lt_succ_self k, rfl⟩
    · obtain ⟨i, hi, rfl⟩ := hold e hmem
      exact ⟨i, Nat.lt_succ_of_lt hi, rfl⟩
  · refine (historyLength_setExecutionDone hjob hlate).trans ?_
    rw [historyLength]
    congr 2
    refine List.filter_congr fun e he => decide_eq_decide.2 ?_
    exact and_iff_left (hfresh e he)

theorem nodeReports_spec (k : ℕ) :
    (Fsm.run Env.small DB.empty (nodeReports k)).job? "a" ≠ none ∧
    (∀ e ∈ (Fsm.run Env.small DB.empty (nodeReports k)).executions, ∃ i < k, e = nodeReport i) ∧
    historyLength "a" (Fsm.run Env.small DB.empty (nodeReports k)) = k := by
  induction k with
  | zero =>
    have hnone : (Fsm.run Env.small DB.empty (nodeReports 0)).executions = [] := by decide +kernel
    refine ⟨by decide +kernel, ?_, ?_⟩
    · rw [hnone]
      exact fun e he => absurd he List.not_mem_nil
    · rw [historyLength, hnone]
      rfl
  | succ k ih =>
    obtain ⟨hjob, hold, hlength⟩ := ih
    obtain ⟨hnew, hmore⟩ := setExecutionDone_nodeReport hjob hold
    have hrun : Fsm.run Env.small DB.empty (nodeReports (k + 1)) =
        (setExecutionDone (newExecutionFromProto (nodeReport k))
          (Fsm.run Env.small DB.empty (nodeReports k))).2 := by
      have hlog : nodeReports (k + 1) =
          nodeReports k ++ [(Clock.epoch, .executionDone (nodeReport k))] := by
        rw [nodeReports, nodeReports, List.range_succ, List.map_append, List.append_assoc]
        rfl
      rw [hlog, Fsm.run_append]
      exact Fsm.step_executionDone Env.small _ Clock.epoch (nodeReport k)
    rw [hrun]
    refine ⟨?_, hnew, by rw [hmore, hlength]⟩
    rw [job?_setExecutionDone]
    simpa using hjob

end Dkron
