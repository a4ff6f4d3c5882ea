import Dkron.OrderIndependence

/-!
# The stored executions

The store has no table of executions: a scan goes over all records and takes those under a prefix.
`DB.executions` are the executions in the order of their keys, and what the scans return is read off
from it.
-/

namespace Dkron

open Store

/-- The execution in a record. -/
def Value.execution? : Value → Option PbExecution
  | .execution pbe => some pbe
  | _ => none

/-- All stored executions, in the order of their keys. -/
def DB.executions (db : DB) : List PbExecution := db.ascend.filterMap fun r => r.2.execution?

/-- A scan below the prefix returns the execution. -/
def PbExecution.Below (e : PbExecution) (pre : String) : Prop :=
  hasPrefix e.storeKey pre ∧ trimDirectoryKey e.storeKey ≠ pre

instance (e : PbExecution) (pre : String) : Decidable (e.Below pre) :=
  inferInstanceAs (Decidable (_ ∧ _))

instance (e : PbExecution) : Decidable e.Running := inferInstanceAs (Decidable (_ ∧ _))

variable {db : DB} {e e' : PbExecution}

@[simp] theorem Value.execution?_execution (e : PbExecution) :
    (Value.execution e).execution? = some e := rfl

theorem Value.execution?_eq_some {v : Value} : v.execution? = some e ↔ v = .execution e := by
  cases v <;> simp [execution?]

/-- An execution is stored under its own key only. -/
theorem DB.mem_executions : e ∈ db.executions ↔ db.get e.storeKey = some (.execution e) := by
  rw [executions, List.mem_filterMap]
  constructor
  · rintro ⟨⟨k, v⟩, hr, hv⟩
    obtain rfl := Value.execution?_eq_some.1 hv
    have hget := mem_ascend.1 hr
    rwa [show e.storeKey = k from key_of_get hget]
  · intro hget
    exact ⟨(e.storeKey, .execution e), mem_ascend.2 hget, rfl⟩

theorem DB.get_of_mem_executions {k : String} (h : db.get k = some (.execution e)) :
    e ∈ db.executions := by
  rw [mem_executions]
  rwa [show e.storeKey = k from key_of_get h]

theorem DB.mem_executions_set :
    e ∈ (db.set (.execution e')).executions ↔
      e = e' ∨ e ∈ db.executions ∧ e'.storeKey ≠ e.storeKey := by
  rw [mem_executions, mem_executions, get_set]
  show (if e'.storeKey = e.storeKey then _ else _) = _ ↔ _
  split_ifs with hkey
  · simp [hkey, eq_comm]
  · have hne : e ≠ e' := fun heq => hkey (by rw [heq])
    simp [hkey, hne]

/-- No two of them have one key. -/
theorem DB.executions_pairwise (db : DB) :
    db.executions.Pairwise fun e e' => e.storeKey ≠ e'.storeKey := by
  rw [executions, List.pairwise_filterMap]
  apply db.ascend_pairwise_key.imp
  rintro ⟨k, v⟩ ⟨k', v'⟩ hne e hv e' hv'
  obtain rfl := Value.execution?_eq_some.1 hv
  obtain rfl := Value.execution?_eq_some.1 hv'
  exact hne

theorem DB.eq_of_storeKey (he : e ∈ db.executions) (he' : e' ∈ db.executions)
    (h : e.storeKey = e'.storeKey) : e = e' := by
  rw [mem_executions] at he he'
  rw [h, he'] at he
  cases he
  rfl

theorem DB.nodup_executions (db : DB) : db.executions.Nodup :=
  db.executions_pairwise.imp fun hne heq => hne (congrArg PbExecution.storeKey heq)

/-- The records below a prefix hold the executions below it. -/
theorem unmarshalExecutions_filter {rs : List (String × Value)} (pre : String)
    (hrs : ∀ r ∈ rs, r.2.key = r.1) :
    unmarshalExecutions (rs.filter fun r => hasPrefix r.1 pre ∧ trimDirectoryKey r.1 ≠ pre) =
      ((rs.filterMap fun r => r.2.execution?).filter fun e => e.Below pre).map
        newExecutionFromProto := by
  induction rs with
  | nil => rfl
  | cons r rs ih =>
    have hrest := ih fun r' hr' => hrs r' (List.mem_cons_of_mem _ hr')
    obtain ⟨k, v⟩ := r
    cases v with
    | execution e =>
      have hkey : e.storeKey = k := hrs _ List.mem_cons_self
      simp only [List.filterMap_cons, Value.execution?_execution]
      by_cases hbelow : e.Below pre
      · rw [List.filter_cons_of_pos (by simpa [hkey, PbExecution.Below] using hbelow),
          List.filter_cons_of_pos (by simpa using hbelow), List.map_cons, ← hrest]
        rfl
      · rw [List.filter_cons_of_neg (by simpa [hkey, PbExecution.Below] using hbelow),
          List.filter_cons_of_neg (by simpa using hbelow), hrest]
    | job p =>
      rw [List.filterMap_cons_none rfl, ← hrest, List.filter_cons]
      split_ifs <;> rfl
    | stat s =>
      rw [List.filterMap_cons_none rfl, ← hrest, List.filter_cons]
      split_ifs <;> rfl

/-- What a scan returns. -/
theorem unmarshalExecutions_list (pre : String) (db : DB) :
    unmarshalExecutions (list pre db) =
      (db.executions.filter fun e => e.Below pre).map newExecutionFromProto :=
  unmarshalExecutions_filter pre fun _ hr => DB.key_of_mem_ascend hr

/-- `GetExecutions` fails only if there are no executions to return. -/
theorem getExecutions_cases (jobName : String) (db : DB) :
    getExecutions jobName db = .ok ((db.executions.filter fun e =>
      e.Below (executionsDir jobName)).map newExecutionFromProto) ∨
    getExecutions jobName db = .error .notFound ∧
      ∀ e ∈ db.executions, ¬e.Below (executionsDir jobName) := by
  rw [getExecutions, unmarshalExecutions_list]
  split_ifs with hany
  · exact .inl rfl
  · refine .inr ⟨rfl, fun e he hbelow => hany ?_⟩
    exact List.any_eq_true.2 ⟨(e.storeKey, .execution e),
      DB.mem_ascend.2 (DB.mem_executions.1 he), hbelow.1⟩

theorem getExecutions_getD (jobName : String) (db : DB) :
    (getExecutions jobName db).toOption.getD [] =
      (db.executions.filter fun e => e.Below (executionsDir jobName)).map
        newExecutionFromProto := by
  obtain heq | ⟨heq, hnone⟩ := getExecutions_cases jobName db
  · rw [heq]
    rfl
  · rw [heq, List.filter_eq_nil_iff.2 fun e he => by simpa using hnone e he]
    rfl

theorem getRunningExecutions_eq (jobName : String) (db : DB) :
    getRunningExecutions jobName db = .ok ((db.executions.filter fun e =>
      e.Running ∧ e.Below (executionsDir jobName)).map newExecutionFromProto) := by
  obtain heq | ⟨heq, hnone⟩ := getExecutions_cases jobName db
  · rw [getRunningExecutions, heq]
    simp only [List.filter_map, List.filter_filter]
    refine congrArg (fun l => Except.ok (List.map newExecutionFromProto l)) ?_
    apply List.filter_congr
    intro e _
    rw [Bool.decide_and]
    rfl
  · rw [getRunningExecutions, heq, List.filter_eq_nil_iff.2 fun e he => by
      simpa using fun _ => hnone e he]
    rfl

theorem storeKey_toProto (e : PbExecution) :
    (newExecutionFromProto e).toProto.storeKey = e.storeKey := by
  rw [PbExecution.storeKey, Execution.toProto_jobName, Execution.toProto_key,
    newExecutionFromProto_key]
  rfl

/-- An execution that is read like a stored one is that one. -/
theorem DB.eq_of_newExecutionFromProto (he : e ∈ db.executions) (he' : e' ∈ db.executions)
    (h : newExecutionFromProto e = newExecutionFromProto e') : e = e' :=
  eq_of_storeKey he he' (by rw [← storeKey_toProto e, h, storeKey_toProto])

/-! ## After a command -/

theorem DB.mem_executions_deleteAll {ks : List String} :
    e ∈ (db.deleteAll ks).executions ↔ e ∈ db.executions ∧ e.storeKey ∉ ks := by
  rw [mem_executions, mem_executions, get_deleteAll]
  split_ifs with hk <;> simp [hk]

/-- A report that is not older than the stored one replaces it, and the other executions stay. -/
theorem mem_executions_setExecutionDone {ex : Execution} (hjob : db.job? ex.jobName ≠ none)
    (hlate : ∀ q, db.execution? ex.jobName ex.key = some q →
      ¬ex.finishedAt < asTime q.finishedAt) :
    e ∈ (setExecutionDone ex db).2.executions ↔
      e = ex.toProto ∨ e ∈ db.executions ∧ ex.toProto.storeKey ≠ e.storeKey := by
  obtain ⟨p, hp⟩ := Option.ne_none_iff_exists'.1 hjob
  have hcounts : (report? db ex).isSome := by
    rw [report?]
    cases hq : db.execution? ex.jobName ex.key with
    | none => rfl
    | some q =>
      simp only
      rw [if_neg (hlate q hq)]
      rfl
  rw [DB.mem_executions, get_setExecutionDone_execution hp, ← DB.mem_executions]
  simp only [hcounts, true_and]
  split_ifs with hkey
  · simp [hkey, eq_comm]
  · have hne : e ≠ ex.toProto := fun heq => hkey (by rw [heq])
    simp [hkey, hne]

/-- The executions of one of two contents are among those of the other. -/
theorem DB.length_filter_executions_le {db' : DB} {p : PbExecution → Prop} [DecidablePred p]
    (h : ∀ e ∈ db'.executions, p e → e ∈ db.executions) :
    (db'.executions.filter p).length ≤ (db.executions.filter p).length := by
  refine ((db'.nodup_executions.filter _).subperm fun e he => ?_).length_le
  obtain ⟨he, hp⟩ := List.mem_filter.1 he
  exact List.mem_filter.2 ⟨h e he (of_decide_eq_true hp), hp⟩

/-! ## Directories -/

/-- The executions of a job lie below its directory. -/
theorem below_executionsDir (e : PbExecution) : e.Below (executionsDir e.jobName) := by
  refine ⟨?_, trimDirectoryKey_executionKey_ne e⟩
  rw [hasPrefix_iff, PbExecution.storeKey, toList_executionKey]
  exact List.prefix_append _ _

/-- The part of a job's name before the first colon. Names of stored jobs have no colon. -/
def baseName (jobName : String) : String := String.ofList (jobName.toList.takeWhile (· ≠ ':'))

theorem toList_baseName (jobName : String) :
    (baseName jobName).toList = jobName.toList.takeWhile (· ≠ ':') := String.toList_ofList

theorem baseName_of_notMem {jobName : String} (h : ':' ∉ jobName.toList) :
    baseName jobName = jobName := by
  rw [baseName, List.takeWhile_eq_self_iff.2 fun c hc => by simpa using ne_of_mem_of_not_mem hc h,
    String.ofList_toList]

theorem takeWhile_append_colon (xs ys : List Char) :
    (xs ++ ':' :: ys).takeWhile (· ≠ ':') = xs.takeWhile (· ≠ ':') := by
  induction xs with
  | nil => rfl
  | cons c xs ih =>
    rw [List.cons_append, List.takeWhile_cons, List.takeWhile_cons, ih]

/-- A directory that an execution lies below has the base name of its job. -/
theorem baseName_of_below {jobName : String} (h : e.Below (executionsDir jobName)) :
    baseName e.jobName = baseName jobName := by
  obtain ⟨t, ht⟩ := hasPrefix_iff.1 h.1
  rw [PbExecution.storeKey, toList_executionKey, toList_executionsDir, toList_executionsDir] at ht
  simp only [List.append_assoc, List.append_cancel_left_eq, List.cons_append, List.nil_append] at ht
  have hbase := congrArg (List.takeWhile (· ≠ ':')) ht
  rw [takeWhile_append_colon, takeWhile_append_colon] at hbase
  rw [baseName, baseName, hbase]

/-- An execution lies below the directory of a stored job if that has the base name of its job. -/
theorem below_iff_baseName {jobName : String} (hcolon : ':' ∉ jobName.toList) :
    e.Below (executionsDir jobName) ↔ baseName e.jobName = jobName := by
  constructor
  · exact fun h => (baseName_of_below h).trans (baseName_of_notMem hcolon)
  · intro h
    have hname := congrArg String.toList h
    rw [toList_baseName] at hname
    have hsplit := (List.takeWhile_append_dropWhile (p := (· ≠ ':')) (l := e.jobName.toList)).symm
    rw [hname] at hsplit
    -- after the base name comes a colon, if not in the job's name then in front of the key
    have hkey : ∃ rest, e.storeKey.toList = (executionsDir jobName).toList ++ rest ∧
        '-' ∈ rest := by
      rw [PbExecution.storeKey, toList_executionKey, toList_executionsDir, toList_executionsDir,
        hsplit]
      cases hrest : e.jobName.toList.dropWhile (· ≠ ':') with
      | nil => exact ⟨e.key.toList, by simp, hyphen_mem_key e⟩
      | cons c rest =>
        have hhead := List.head?_dropWhile_not (· ≠ ':') e.jobName.toList
        rw [hrest] at hhead
        have hc : c = ':' := by simpa using hhead
        refine ⟨rest ++ ':' :: e.key.toList, by simp [hc], ?_⟩
        exact List.mem_append_right _ (List.mem_cons_of_mem _ (hyphen_mem_key e))
    obtain ⟨rest, hkey, hhyphen⟩ := hkey
    exact ⟨hasPrefix_iff.2 ⟨rest, hkey.symm⟩, trimDirectoryKey_ne hkey hhyphen⟩

end Dkron
