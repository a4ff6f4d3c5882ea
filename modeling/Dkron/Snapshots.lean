import Dkron.Merge
import Dkron.ParentLinks

/-!
# Snapshots

`Persist` writes one record per live key and `Restore` sets the records it reads on top of what the
store holds. Two things follow from how the two are built:

* nothing clears the store before a restore, so what is not in the snapshot stays
  (`restore_snapshot_iff`),
* `Snapshot` takes no copy. The image is what the store holds when `Persist` runs, commands that
  were applied in between are in it already, and raft applies them again after the restore. This
  goes well when they are settled: `step_eq_self_iff` says for each command when applying it
  changes nothing, and `snapshot_replay` what follows for whole logs.
-/

namespace Dkron

open Store

/-! ## Restoring -/

theorem kv_foldl_set (rs : List (String × Value)) (h : ∀ r ∈ rs, r.2.key = r.1) (db : DB) :
    ((rs.map (·.2)).foldl DB.set db).kv = OrderedMap.load db.kv rs := by
  induction rs generalizing db with
  | nil => rfl
  | cons r rs ih =>
    have hr : (db.set r.2).kv = db.kv.insert r.1 r.2 := by
      rw [← h r List.mem_cons_self]
      rfl
    rw [List.map_cons, List.foldl_cons, ih fun r' hr' => h r' (List.mem_cons_of_mem _ hr'), hr]
    rfl

/-- Restoring loads the saved records on top of the content. -/
theorem kv_restore_snapshot (S T : DB) :
    (restore (snapshot T) S).kv = OrderedMap.load S.kv T.kv.toList :=
  kv_foldl_set T.ascend (fun _ hr => DB.key_of_mem_ascend hr) S

/-- **Restore replaces the content** if and only if every key it held is in the snapshot. -/
theorem restore_snapshot_iff (S T : DB) :
    restore (snapshot T) S = T ↔ ∀ k, S.get k ≠ none → T.get k ≠ none := by
  have hkv : restore (snapshot T) S = T ↔ OrderedMap.load S.kv T.kv.toList = T.kv := by
    rw [← kv_restore_snapshot]
    refine ⟨congrArg DB.kv, fun h => DB.ext fun k => ?_⟩
    rw [DB.get, h]
    rfl
  rw [hkv, OrderedMap.load_toList_eq_iff]
  simp only [DB.get, Option.isSome_iff_ne_none]

/-- A new store holds nothing that could stay. -/
theorem restore_snapshot_empty (T : DB) : restore (snapshot T) DB.empty = T :=
  (restore_snapshot_iff _ _).2 fun k h => absurd (DB.get_empty k) h

/-- A follower that holds a job restores the snapshot of an empty store: the job survives. -/
theorem restore_not_replaced :
    restore (snapshot (Fsm.run Env.small DB.empty []))
      (Fsm.run Env.small DB.empty
        [(Clock.epoch, .setJob { name := "a", schedule := "@manually" })]) ≠
      Fsm.run Env.small DB.empty [] := by
  intro h
  have hjob := congrArg (fun db => (db.job? "a").isSome) h
  revert hjob
  decide

/-! ## Commands that change nothing -/

theorem set_eq_self_iff {db : DB} {v : Value} : db.set v = db ↔ db.get v.key = some v := by
  refine ⟨fun h => ?_, DB.set_eq_self⟩
  rw [← h, DB.get_set, if_pos rfl]

section

variable {env : Env} {clk : Clock} {db : DB}

theorem deleteJob_eq_self_iff (hs : Sound env db) (name : String) :
    (deleteJob env clk name db).2 = db ↔ ¬∃ p, Deletable db name p := by
  constructor
  · rintro h ⟨p, hd⟩
    have hgone : (deleteJob env clk name db).2.job? name = none := by
      rw [deleteJob_of_deletable hs hd, unlink, job?_setDependents, job?_eraseJob, if_pos rfl]
      rfl
    rw [h, hd.1] at hgone
    cases hgone
  · intro h
    obtain ⟨e, heq⟩ := deleteJob_of_not_deletable env clk h
    rw [heq]

/-- The job has no executions that could be deleted, and no results that could be reset. -/
def NothingToDelete (db : DB) (jobName : String) : Prop :=
  ∀ p, db.job? jobName = some p → resetCounters p = p ∧
    ∀ k, hasPrefix k (executionsPrefix ++ ":" ++ jobName) → db.get k = none

theorem deleteExecutions_eq_self_iff (jobName : String) :
    (deleteExecutions jobName db).2 = db ↔ NothingToDelete db jobName := by
  rw [deleteExecutions_eq]
  cases hp : db.job? jobName with
  | none =>
    refine iff_of_true rfl fun p h => ?_
    rw [hp] at h
    cases h
  | some p =>
    have hkey : (Value.job (resetCounters p)).key = jobKey jobName :=
      congrArg jobKey (DB.name_of_job? (p := p) hp)
    have hstored := DB.job?_eq_some.1 hp
    constructor
    · intro h q hq
      rw [hp] at hq
      cases hq
      constructor
      · have hjob := DB.get_set (deleteExecutionsTxFunc jobName db) (.job (resetCounters p))
          (jobKey jobName)
        simp only at h
        rw [h, if_pos hkey, hstored] at hjob
        exact (Value.job.inj (Option.some.inj hjob)).symm
      · intro k hk
        have hne : jobKey jobName ≠ k := by
          rintro rfl
          exact not_hasPrefix_jobKey _ _ hk
        have hget := DB.get_set (deleteExecutionsTxFunc jobName db) (.job (resetCounters p)) k
        simp only at h
        rw [h, hkey, if_neg hne, get_deleteExecutionsTxFunc, if_pos hk] at hget
        exact hget
    · intro h
      obtain ⟨hreset, hnone⟩ := h p hp
      ext1 k
      simp only [DB.get_set, hkey]
      split_ifs with hk
      · rw [← hk, hstored, hreset]
      · rw [get_deleteExecutionsTxFunc]
        split_ifs with hpre
        · exact (hnone k hpre).symm
        · rfl

/-- The report is in the store: a later one is, or this one is and it is the latest of its outcome
that the job remembers. -/
def Reported (db : DB) (ex : Execution) : Prop :=
  ∀ p, db.job? ex.jobName = some p →
    (∃ q, db.execution? ex.jobName ex.key = some q ∧ ex.finishedAt < asTime q.finishedAt) ∨
    (db.execution? ex.jobName ex.key = some ex.toProto ∧
      PbNullableTime.get (if ex.success then p.lastSuccess else p.lastError) = some ex.finishedAt)

theorem countResult_ne (p : PbJob) (pbe : PbExecution) (status : String) :
    { countResult p pbe with status := status } ≠ p := by
  intro h
  have hsuccess := congrArg PbJob.successCount h
  have herror := congrArg PbJob.errorCount h
  unfold countResult at hsuccess herror
  split_ifs at hsuccess herror
  · simp at hsuccess
  · simp at herror

/-- A report that is stored as it is counts unless the job remembers it. -/
theorem shouldCount_same (p : PbJob) (pbe : PbExecution) :
    shouldCount p (some pbe) pbe = decide
      (PbNullableTime.get (if pbe.success then p.lastSuccess else p.lastError) ≠
        some (asTime pbe.finishedAt)) := by
  simp only [shouldCount, and_self, if_true]

theorem set_execution_eq_self_iff (pbe : PbExecution) :
    db.set (.execution pbe) = db ↔ db.execution? pbe.jobName pbe.key = some pbe := by
  rw [set_eq_self_iff, DB.execution?_eq_some]
  rfl

theorem setExecutionDone_eq_self_iff (ex : Execution) :
    (setExecutionDone ex db).2 = db ↔ Reported db ex := by
  unfold Reported
  rw [setExecutionDone_eq]
  cases hp : db.job? ex.jobName with
  | none => exact iff_of_true rfl fun p h => by cases h
  | some p =>
    simp only [Option.some_inj, forall_eq']
    have hlater : (db.execution? ex.jobName ex.key).any
          (fun q => ex.finishedAt < asTime q.finishedAt) ↔
        ∃ q, db.execution? ex.jobName ex.key = some q ∧ ex.finishedAt < asTime q.finishedAt := by
      rw [Option.any_eq_true]
      exact exists_congr fun q => and_congr_right' decide_eq_true_iff
    by_cases hlate : (db.execution? ex.jobName ex.key).any
        fun q => ex.finishedAt < asTime q.finishedAt
    · rw [if_pos hlate]
      exact iff_of_true rfl (.inl (hlater.1 hlate))
    · rw [if_neg hlate, or_iff_right (mt hlater.2 hlate)]
      by_cases hcount : shouldCount p (db.execution? ex.jobName ex.key) ex.toProto
      · rw [if_pos hcount]
        refine iff_of_false (fun h => ?_) fun h => ?_
        · have hjob := job?_countReport (DB.name_of_job? hp) (db.set (.execution ex.toProto))
            ex.jobName
          simp only at h
          rw [h, if_pos rfl, hp] at hjob
          exact countResult_ne _ _ _ (Option.some.inj hjob).symm
        · rw [h.1, shouldCount_same] at hcount
          exact of_decide_eq_true hcount h.2
      · rw [if_neg hcount]
        refine (set_execution_eq_self_iff ex.toProto).trans ⟨fun h => ⟨h, ?_⟩, And.left⟩
        rw [show db.execution? ex.jobName ex.key = some ex.toProto from h,
          shouldCount_same] at hcount
        by_contra hne
        exact hcount (decide_eq_true hne)

/-- Nothing changes when the execution is set: a later one or the same is stored and none is over
the limit, or it is not stored and would be the only one over the limit. -/
def Retained (env : Env) (db : DB) (pbe : PbExecution) : Prop :=
  ((∃ q, db.execution? pbe.jobName pbe.key = some q ∧
      (asTime pbe.finishedAt < asTime q.finishedAt ∨ q = pbe)) ∧
    overflowKeys env pbe.jobName db = []) ∨
  (db.execution? pbe.jobName pbe.key = none ∧
    overflowKeys env pbe.jobName (db.set (.execution pbe)) ≠ [] ∧
    ∀ k ∈ overflowKeys env pbe.jobName (db.set (.execution pbe)),
      k = executionKey pbe.jobName pbe.key)

theorem deleteAll_eq_self_iff {ks : List String} (h : ∀ k ∈ ks, db.get k ≠ none) :
    db.deleteAll ks = db ↔ ks = [] := by
  constructor
  · intro heq
    rw [List.eq_nil_iff_forall_not_mem]
    intro k hk
    have hget := DB.get_deleteAll db ks k
    rw [heq, if_pos hk] at hget
    exact h k hk hget
  · rintro rfl
    rfl

/-- Writing an execution and deleting those over the limit changes nothing. -/
theorem set_deleteAll_eq_self_iff (pbe : PbExecution) :
    (db.set (.execution pbe)).deleteAll
        (overflowKeys env pbe.jobName (db.set (.execution pbe))) = db ↔
      (db.execution? pbe.jobName pbe.key = some pbe ∧ overflowKeys env pbe.jobName db = []) ∨
      (db.execution? pbe.jobName pbe.key = none ∧
        overflowKeys env pbe.jobName (db.set (.execution pbe)) ≠ [] ∧
        ∀ k ∈ overflowKeys env pbe.jobName (db.set (.execution pbe)),
          k = executionKey pbe.jobName pbe.key) := by
  generalize hks : overflowKeys env pbe.jobName (db.set (.execution pbe)) = ks
  have hnone : db.execution? pbe.jobName pbe.key = none ↔
      db.get (executionKey pbe.jobName pbe.key) = none := by
    rw [DB.get_executionKey, Option.map_eq_none_iff]
  constructor
  · intro h
    by_cases hempty : ks = []
    · rw [hempty, DB.deleteAll, List.foldl_nil] at h
      rw [h] at hks
      exact .inl ⟨(set_execution_eq_self_iff pbe).1 h, hks.trans hempty⟩
    · -- A deleted key is not in the content, so it is that of the new execution.
      have hkey : ∀ k ∈ ks, db.get k = none ∧ k = executionKey pbe.jobName pbe.key := by
        intro k hk
        have hget : db.get k = none := by rw [← h, DB.get_deleteAll, if_pos hk]
        obtain ⟨q, hq⟩ := get_of_mem_overflowKeys (hks ▸ hk)
        rw [DB.get_set, hget] at hq
        split_ifs at hq with hk'
        exact ⟨hget, hk'.symm⟩
      obtain ⟨k, hk⟩ := List.exists_mem_of_ne_nil ks hempty
      exact .inr ⟨hnone.2 ((hkey k hk).2 ▸ (hkey k hk).1), hempty, fun k hk => (hkey k hk).2⟩
  · rintro (⟨hstored, hover⟩ | ⟨hnew, hne, hall⟩)
    · rw [(set_execution_eq_self_iff pbe).2 hstored] at hks ⊢
      rw [← hks, hover]
      rfl
    · obtain ⟨k₀, hk₀⟩ := List.exists_mem_of_ne_nil ks hne
      have hmem : executionKey pbe.jobName pbe.key ∈ ks := hall k₀ hk₀ ▸ hk₀
      ext1 k
      rw [DB.get_deleteAll]
      split_ifs with hk
      · rw [hall k hk, hnone.1 hnew]
      · rw [DB.get_set, if_neg]
        rintro rfl
        exact hk hmem

theorem setExecution_eq_self_iff (ex : Execution) :
    (setExecution env ex db).2 = db ↔ Retained env db ex.toProto := by
  rw [setExecution_eq, setExecutionTx_eq, Retained]
  by_cases hlate : (db.execution? ex.toProto.jobName ex.toProto.key).any
      fun q => asTime ex.toProto.finishedAt < asTime q.finishedAt
  · obtain ⟨q, hq, hlt⟩ := (Option.any_eq_true _ _).1 hlate
    have hstored : ∀ k ∈ overflowKeys env ex.jobName db, db.get k ≠ none := by
      intro k hk
      obtain ⟨pbe, hget⟩ := get_of_mem_overflowKeys hk
      rw [hget]
      exact Option.some_ne_none _
    rw [if_pos hlate, deleteAll_eq_self_iff hstored, or_iff_left]
    · exact ⟨fun h => ⟨⟨q, hq, .inl (of_decide_eq_true hlt)⟩, h⟩, And.right⟩
    · rintro ⟨hnone, -⟩
      rw [hq] at hnone
      cases hnone
  · rw [if_neg hlate]
    refine (set_deleteAll_eq_self_iff ex.toProto).trans (or_congr_left ?_)
    have hsame : (∃ q, db.execution? ex.toProto.jobName ex.toProto.key = some q ∧
          (asTime ex.toProto.finishedAt < asTime q.finishedAt ∨ q = ex.toProto)) ↔
        db.execution? ex.toProto.jobName ex.toProto.key = some ex.toProto := by
      constructor
      · rintro ⟨q, hq, hlt | rfl⟩
        · exact absurd ((Option.any_eq_true _ _).2 ⟨q, hq, decide_eq_true hlt⟩) hlate
        · exact hq
      · exact fun h => ⟨_, h, .inr rfl⟩
    rw [hsame]

end

/-- Applying the command changes nothing. -/
def Settled (env : Env) (db : DB) : Command → Prop
  | .setJob pj => ¬Accepts env db (newJobFromProto pj) ∨
      ∃ p, db.job? pj.name = some p ∧ Absorbs (newJobFromProto p) (newJobFromProto pj)
  | .deleteJob jobName => ¬∃ p, Deletable db jobName p
  | .setExecution pbex => Retained env db (newExecutionFromProto pbex).toProto
  | .deleteExecutions jobName => NothingToDelete db jobName
  | .executionDone pbex => Reported db (newExecutionFromProto pbex)

/-- **The commands that change nothing**, in a sound content. -/
theorem step_eq_self_iff {env : Env} {db : DB} (hs : Sound env db) (e : Fsm.Entry) :
    Fsm.step env db e = db ↔ Settled env db e.2 := by
  obtain ⟨clk, c⟩ := e
  cases c with
  | setJob pj =>
    rw [Fsm.step_setJob]
    exact setJob_eq_self_iff hs.toStorable (representable_newJobFromProto pj)
  | deleteJob jobName =>
    rw [Fsm.step_deleteJob]
    exact deleteJob_eq_self_iff hs jobName
  | setExecution pbex => exact setExecution_eq_self_iff (newExecutionFromProto pbex)
  | deleteExecutions jobName =>
    rw [Fsm.step_deleteExecutions]
    exact deleteExecutions_eq_self_iff jobName
  | executionDone pbex =>
    rw [Fsm.step_executionDone]
    exact setExecutionDone_eq_self_iff (newExecutionFromProto pbex)

/-! ## Replaying the log on a late image -/

/-- A log entry that is applied twice, each time with the clock of the moment. -/
abbrev TwiceApplied := Clock × Clock × Command

/-- The entry as it was applied when it was committed. -/
def TwiceApplied.first (e : TwiceApplied) : Fsm.Entry := (e.1, e.2.2)

/-- The entry as it is applied after the restore. -/
def TwiceApplied.again (e : TwiceApplied) : Fsm.Entry := (e.2.1, e.2.2)

/-- Replaying entries gives what the first application gave, when the clocks agree. -/
theorem run_again_eq {env : Env} {db : DB} {log : List TwiceApplied}
    (h : Runs.Along (fun db e => Fsm.step env db (TwiceApplied.first e)) (ClocksAgree env) db log) :
    Fsm.run env db (log.map TwiceApplied.again) = Fsm.run env db (log.map TwiceApplied.first) := by
  rw [Fsm.run, Fsm.run, List.foldl_map, List.foldl_map]
  exact (Runs.run_eq_of_along (fun s e he => (step_clock_iff env s e).2 he) h).symm

/-- What a snapshot holds that was taken after the log `pre`, when the entries `mid` were applied
between `Snapshot` and `Persist`. -/
def image (env : Env) (pre : List Fsm.Entry) (mid : List TwiceApplied) : DB :=
  Fsm.run env DB.empty (pre ++ mid.map TwiceApplied.first)

/-- The content of a new server that restored the snapshot and applied the given entries. -/
def restored (env : Env) (pre : List Fsm.Entry) (mid log : List TwiceApplied) : DB :=
  Fsm.run env (restore (snapshot (image env pre mid)) DB.empty) (log.map TwiceApplied.again)

/-- A successful execution of job `a` on a node, finished at the given time. -/
def doneAt (node : String) (t : Time) : TwiceApplied :=
  (Clock.epoch, Clock.epoch,
    .executionDone { jobName := "a", nodeName := node, success := true, finishedAt := some t })

end Dkron
