import Dkron.Chaining
import Dkron.Lib.Latest
import Dkron.RunningAttempts

/-!
# The status of a job

`computeStatus` counts the stored executions of a group by their `Success` flags. A node that is
tried again leaves one execution for each attempt, and an execution that is still running is stored
without success, so what is counted is not what the latest attempts of the nodes came to.

Main result: `statusLaw_iff`.
-/

namespace Dkron

open Store Latest

/-! ## The latest attempts -/

/-- The stored executions of a group that belong to the job. -/
def attempts (jobName : String) (group : Int) (db : DB) : List Execution :=
  (storedGroup jobName group db).filter fun ex => ex.jobName = jobName

/-- The latest attempt of each node: the one of the greatest number, and then the one that started
last. -/
def latestAttempts (jobName : String) (group : Int) (db : DB) : List Execution :=
  latest Execution.nodeName (fun ex => toLex (ex.attempt, ex.startedAt)) (attempts jobName group db)

/-- What became of an attempt. -/
inductive AttemptOutcome where
  | unfinished
  | succeeded
  | failed
deriving DecidableEq

def Execution.outcome (ex : Execution) : AttemptOutcome :=
  if ex.finishedAt = zeroTime then .unfinished else if ex.success then .succeeded else .failed

/-- Some node's latest attempt has the outcome. -/
def SomeLatest (jobName : String) (group : Int) (db : DB) (o : AttemptOutcome) : Prop :=
  ∃ ex ∈ latestAttempts jobName group db, ex.outcome = o

/-- Some stored execution of the group has the flag. -/
def SomeStored (jobName : String) (group : Int) (db : DB) (success : Bool) : Prop :=
  ∃ ex ∈ storedGroup jobName group db, ex.success = success

instance (jobName : String) (group : Int) (db : DB) :
    DecidablePred (SomeLatest jobName group db) :=
  fun _ => inferInstanceAs (Decidable (∃ _ ∈ _, _))

/-- The status says what the latest attempts of the nodes came to. -/
structure StatusLaw (jobName : String) (group : Int) (db : DB) (status : String) : Prop where
  success : status = statusSuccess ↔
    ∀ ex ∈ latestAttempts jobName group db, ex.outcome = .succeeded
  failed : status = statusFailed ↔
    ∀ ex ∈ latestAttempts jobName group db, ex.outcome = .failed
  partiallyFailed : status = statusPartiallyFailed ↔
    SomeLatest jobName group db .succeeded ∧ SomeLatest jobName group db .failed

/-- The latest attempts decide: some node's latest attempt succeeded if any execution did, some
node's failed if any execution is without success, and where a node's latest attempt is running
there are nodes of both kinds. -/
structure LatestDecide (jobName : String) (group : Int) (db : DB) : Prop where
  succeeded : SomeStored jobName group db true → SomeLatest jobName group db .succeeded
  failed : SomeStored jobName group db false → SomeLatest jobName group db .failed
  unfinished : SomeLatest jobName group db .unfinished →
    SomeLatest jobName group db .succeeded ∧ SomeLatest jobName group db .failed

instance (jobName : String) (group : Int) (db : DB) : Decidable (LatestDecide jobName group db) :=
  haveI : DecidablePred (SomeStored jobName group db) :=
    fun _ => inferInstanceAs (Decidable (∃ _ ∈ _, _))
  decidable_of_iff
    ((SomeStored jobName group db true → SomeLatest jobName group db .succeeded) ∧
      (SomeStored jobName group db false → SomeLatest jobName group db .failed) ∧
      (SomeLatest jobName group db .unfinished →
        SomeLatest jobName group db .succeeded ∧ SomeLatest jobName group db .failed))
    ⟨fun h => ⟨h.1, h.2.1, h.2.2⟩, fun h => ⟨h.succeeded, h.failed, h.unfinished⟩⟩

section

variable {jobName : String} {group : Int} {db db' : DB} {ex : Execution}

theorem mem_storedGroup : ex ∈ storedGroup jobName group db ↔
    ex ∈ storedExecutions jobName db ∧ ex.group = group := by
  rw [storedGroup, List.mem_filter, decide_eq_true_eq]

theorem mem_attempts : ex ∈ attempts jobName group db ↔
    ex ∈ storedGroup jobName group db ∧ ex.jobName = jobName := by
  rw [attempts, List.mem_filter, decide_eq_true_eq]

theorem storedGroup_of_latest (h : ex ∈ latestAttempts jobName group db) :
    ex ∈ storedGroup jobName group db :=
  (mem_attempts.1 (latest_subset h)).1

/-- A node has one latest attempt: node and start make the key. -/
theorem latestAttempts_unique {ex' : Execution} (h : ex ∈ latestAttempts jobName group db)
    (h' : ex' ∈ latestAttempts jobName group db) (hnode : ex.nodeName = ex'.nodeName) :
    ex = ex' := by
  refine latest_unique (fun a ha b hb hkey hrank => ?_) h h' hnode
  obtain ⟨ha, hja⟩ := mem_attempts.1 ha
  obtain ⟨hb, hjb⟩ := mem_attempts.1 hb
  obtain ⟨k, p, hk, -, -, rfl⟩ := mem_unmarshalExecutions_list.1 (mem_storedGroup.1 ha).1
  obtain ⟨l, q, hl, -, -, rfl⟩ := mem_unmarshalExecutions_list.1 (mem_storedGroup.1 hb).1
  have hstart := congrArg (fun r => (ofLex r).2) hrank
  have hp : p.storeKey = k := DB.key_of_get hk
  have hq : q.storeKey = l := DB.key_of_get hl
  have hkl : k = l := by
    rw [← hp, ← hq, PbExecution.storeKey, PbExecution.storeKey, PbExecution.key, PbExecution.key]
    rw [show p.jobName = q.jobName from hja.trans hjb.symm, show p.nodeName = q.nodeName from hkey,
      show asTime p.startedAt = asTime q.startedAt from hstart]
  rw [hkl, hl] at hk
  cases hk
  rfl

/-! ## What is counted -/

theorem countP_success_eq_zero_iff (jobName : String) (group : Int) (db : DB) (success : Bool) :
    (storedGroup jobName group db).countP (fun ex => ex.success == success) = 0 ↔
      ¬SomeStored jobName group db success := by
  rw [List.countP_eq_zero, SomeStored]
  simp

/-- The status says which flags there are. -/
theorem computeStatus_iff (jobName : String) (group : Int) (db : DB) :
    (computeStatus jobName group db = statusSuccess ↔ ¬SomeStored jobName group db false) ∧
    (computeStatus jobName group db = statusFailed ↔
      SomeStored jobName group db false ∧ ¬SomeStored jobName group db true) ∧
    (computeStatus jobName group db = statusPartiallyFailed ↔
      SomeStored jobName group db false ∧ SomeStored jobName group db true) := by
  have heq : computeStatus jobName group db =
      if (storedGroup jobName group db).countP (fun ex => ex.success == false) = 0 then
        statusSuccess
      else if (storedGroup jobName group db).countP (fun ex => ex.success == true) = 0 then
        statusFailed
      else statusPartiallyFailed := by
    simp only [beq_true, beq_false]
    rfl
  have hf := countP_success_eq_zero_iff jobName group db false
  have hs := countP_success_eq_zero_iff jobName group db true
  by_cases h₁ : SomeStored jobName group db false
  · rw [heq, if_neg fun h => hf.1 h h₁]
    by_cases h₂ : SomeStored jobName group db true
    · rw [if_neg fun h => hs.1 h h₂]
      simp [h₁, h₂, statusSuccess, statusFailed, statusPartiallyFailed]
    · rw [if_pos (hs.2 h₂)]
      simp [h₁, h₂, statusSuccess, statusFailed, statusPartiallyFailed]
  · rw [heq, if_pos (hf.2 h₁)]
    simp [h₁, statusSuccess, statusFailed, statusPartiallyFailed]

/-- All latest attempts have an outcome when none has another one. -/
theorem forall_outcome_iff (o : AttemptOutcome) :
    (∀ ex ∈ latestAttempts jobName group db, ex.outcome = o) ↔
      ∀ o' ≠ o, ¬SomeLatest jobName group db o' := by
  refine ⟨fun h o' hne ⟨ex, hex, ho⟩ => hne (ho.symm.trans (h ex hex)), fun h ex hex => ?_⟩
  by_contra hne
  exact h _ hne ⟨ex, hex, rfl⟩

theorem success_of_outcome (h : ex.outcome = .succeeded) : ex.success := by
  unfold Execution.outcome at h
  split_ifs at h with hfin hsucc
  exact hsucc

theorem not_success_of_outcome (h : ex.outcome = .failed) : ex.success = false := by
  unfold Execution.outcome at h
  split_ifs at h with hfin hsucc
  exact Bool.eq_false_of_not_eq_true hsucc

theorem statusLaw_iff (status : String) : StatusLaw jobName group db status ↔
    (status = statusSuccess ↔
      ¬SomeLatest jobName group db .failed ∧ ¬SomeLatest jobName group db .unfinished) ∧
    (status = statusFailed ↔
      ¬SomeLatest jobName group db .succeeded ∧ ¬SomeLatest jobName group db .unfinished) ∧
    (status = statusPartiallyFailed ↔
      SomeLatest jobName group db .succeeded ∧ SomeLatest jobName group db .failed) := by
  have hsucceeded : (∀ ex ∈ latestAttempts jobName group db, ex.outcome = .succeeded) ↔
      ¬SomeLatest jobName group db .failed ∧ ¬SomeLatest jobName group db .unfinished := by
    rw [forall_outcome_iff]
    exact ⟨fun h => ⟨h _ (by decide), h _ (by decide)⟩, fun h o ho => by cases o <;> simp_all⟩
  have hfailed : (∀ ex ∈ latestAttempts jobName group db, ex.outcome = .failed) ↔
      ¬SomeLatest jobName group db .succeeded ∧ ¬SomeLatest jobName group db .unfinished := by
    rw [forall_outcome_iff]
    exact ⟨fun h => ⟨h _ (by decide), h _ (by decide)⟩, fun h o ho => by cases o <;> simp_all⟩
  rw [← hsucceeded, ← hfailed]
  exact ⟨fun h => ⟨h.success, h.failed, h.partiallyFailed⟩, fun h => ⟨h.1, h.2.1, h.2.2⟩⟩

/-- What the flags say and what the latest attempts say agree in these cases. -/
theorem flags_agree_iff {S F LS LF LU : Prop} (hs : LS → S) (hf : LF → F)
    (hany : LS ∨ LF ∨ LU) :
    ((¬F ↔ ¬LF ∧ ¬LU) ∧ (F ∧ ¬S ↔ ¬LS ∧ ¬LU) ∧ (F ∧ S ↔ LS ∧ LF)) ↔
      (S → LS) ∧ (F → LF) ∧ (LU → LS ∧ LF) := by
  grind

/-- **The status law**: in a group with an attempt, what is counted says what the latest attempts
came to if and only if the latest attempts decide. -/
theorem computeStatus_law_iff (hne : ∃ ex, ex ∈ attempts jobName group db) :
    StatusLaw jobName group db (computeStatus jobName group db) ↔
      LatestDecide jobName group db := by
  have hs : SomeLatest jobName group db .succeeded → SomeStored jobName group db true :=
    fun ⟨ex, hex, ho⟩ => ⟨ex, storedGroup_of_latest hex, success_of_outcome ho⟩
  have hf : SomeLatest jobName group db .failed → SomeStored jobName group db false :=
    fun ⟨ex, hex, ho⟩ => ⟨ex, storedGroup_of_latest hex, not_success_of_outcome ho⟩
  have hany : SomeLatest jobName group db .succeeded ∨ SomeLatest jobName group db .failed ∨
      SomeLatest jobName group db .unfinished := by
    obtain ⟨ex, hex⟩ := hne
    obtain ⟨last, hlast, -⟩ : ∃ last ∈ latestAttempts jobName group db,
        last.nodeName = ex.nodeName := exists_latest hex
    cases ho : last.outcome with
    | unfinished => exact Or.inr (Or.inr ⟨last, hlast, ho⟩)
    | succeeded => exact Or.inl ⟨last, hlast, ho⟩
    | failed => exact Or.inr (Or.inl ⟨last, hlast, ho⟩)
  obtain ⟨h₁, h₂, h₃⟩ := computeStatus_iff jobName group db
  rw [statusLaw_iff, h₁, h₂, h₃, flags_agree_iff hs hf hany]
  exact ⟨fun h => ⟨h.1, h.2.1, h.2.2⟩, fun h => ⟨h.succeeded, h.failed, h.unfinished⟩⟩

/-! ## After a counted report -/

/-- A record that is no execution leaves the executions as they are. -/
theorem get_set_of_no_execution (db : DB) {v : Value} (hv : ∀ e, v ≠ .execution e) {k : String}
    {e : PbExecution} :
    (db.set v).get k = some (.execution e) ↔ db.get k = some (.execution e) := by
  rw [DB.get_set]
  by_cases hk : v.key = k
  · rw [if_pos hk]
    refine iff_of_false (fun h => hv e (Option.some.inj h)) fun h => ?_
    have hkey := hk.trans (DB.key_of_get h).symm
    cases v with
    | job q => exact executionKey_ne_jobKey _ _ _ hkey.symm
    | execution e => exact hv e rfl
    | stat s => exact statKey_ne_executionKey _ _ _ hkey
  · rw [if_neg hk]

/-- A counted report changes no other record of an execution. -/
theorem get_countReport_execution {p : PbJob} {k : String} {e : PbExecution} :
    (countReport p ex db).get k = some (.execution e) ↔ db.get k = some (.execution e) := by
  rw [countReport, bumpStat_eq]
  split_ifs
  · rw [get_set_of_no_execution _ (by simp), get_set_of_no_execution _ (by simp)]
  · rw [get_set_of_no_execution _ (by simp)]

theorem mem_storedGroup_congr (h : ∀ k e, db.get k = some (.execution e) ↔
    db'.get k = some (.execution e)) :
    ex ∈ storedGroup jobName group db ↔ ex ∈ storedGroup jobName group db' := by
  simp only [mem_storedGroup, storedExecutions, mem_unmarshalExecutions_list, h]

theorem mem_latestAttempts_congr (h : ∀ k e, db.get k = some (.execution e) ↔
    db'.get k = some (.execution e)) :
    ex ∈ latestAttempts jobName group db ↔ ex ∈ latestAttempts jobName group db' :=
  mem_latest_congr fun y => by rw [mem_attempts, mem_attempts, mem_storedGroup_congr h]

theorem StatusLaw.congr (h : ∀ k e, db.get k = some (.execution e) ↔
    db'.get k = some (.execution e)) {status : String} :
    StatusLaw jobName group db status ↔ StatusLaw jobName group db' status := by
  simp only [statusLaw_iff, SomeLatest, mem_latestAttempts_congr h]

/-- The report itself is an attempt of its group. -/
theorem report_mem_attempts (ex : Execution) (db : DB) :
    newExecutionFromProto ex.toProto ∈
      attempts ex.jobName ex.group (db.set (.execution ex.toProto)) := by
  have hget : (db.set (.execution ex.toProto)).get ex.toProto.storeKey =
      some (.execution ex.toProto) := by
    rw [DB.get_set]
    exact if_pos rfl
  refine mem_attempts.2 ⟨mem_storedGroup.2 ⟨mem_unmarshalExecutions_list.2
    ⟨_, _, hget, ?_, trimDirectoryKey_executionKey_ne ex.toProto, rfl⟩, rfl⟩, rfl⟩
  rw [hasPrefix_iff, PbExecution.storeKey, toList_executionKey]
  exact List.prefix_append _ _

end

/-- A success of the first attempt. -/
def firstSuccess : Execution :=
  { jobName := "a", nodeName := "n", startedAt := 1, finishedAt := 2, success := true, group := 1,
    attempt := 1 }

/-- The content after a first attempt that failed. -/
def retried : DB :=
  Fsm.run Env.small DB.empty (Fsm.setA ++ [(Clock.epoch, .executionDone
    { jobName := "a", nodeName := "n", startedAt := some 1, finishedAt := some 2, group := 1,
      attempt := 1 })])

end Dkron
