import Dkron.Lib.OrderedMap
import Dkron.Job

/-!
# The flat key space

BuntDB is one ordered map from keys to records. Jobs, executions and daily stats of all jobs share
it and are told apart by the text of their keys:

* `jobs:<name>`,
* `executions:<job>:<start>-<node>`,
* `stats:<date>`.

The server writes every record under a key made from the record itself, so a `DB` in which some
record lies under another key cannot be built. Records are stored as JSON text and read back by a
decoder; here they are stored as the decoded messages.
-/

namespace Dkron

open Std

def jobsPrefix : String := "jobs"
def executionsPrefix : String := "executions"
def statsPrefix : String := "stats"

/-- `"%s:%s"` of the jobs prefix and a name. -/
def jobKey (name : String) : String := jobsPrefix ++ ":" ++ name

/-- `"%s:%s:"` of the executions prefix and a job name: where the executions of a job lie. -/
def executionsDir (jobName : String) : String := executionsPrefix ++ ":" ++ jobName ++ ":"

/-- `"%s:%s:%s"` of the executions prefix, a job name and the key of an execution. -/
def executionKey (jobName id : String) : String := executionsDir jobName ++ id

/-- `"%s:%s"` of the stats prefix and a date. -/
def statKey (date : String) : String := statsPrefix ++ ":" ++ date

/-- A stored record. -/
inductive Value where
  | job (pbj : PbJob)
  | execution (pbe : PbExecution)
  | stat (s : ExecutionStat)
deriving DecidableEq, Repr

/-- The key a record is stored under. -/
def Value.key : Value → String
  | .job pbj => jobKey pbj.name
  | .execution pbe => executionKey pbe.jobName pbe.key
  | .stat s => statKey (formatStatDate s.date)

/-- The content of the store: records, each under its own key. -/
structure DB where
  kv : ExtTreeMap String Value
  keyed : ∀ (k : String) (v : Value), kv[k]? = some v → v.key = k

namespace DB

/-- A new store. -/
def empty : DB := ⟨∅, by simp⟩

/-- `tx.Get`. -/
def get (db : DB) (k : String) : Option Value := db.kv[k]?

/-- `tx.Set`. -/
def set (db : DB) (v : Value) : DB where
  kv := db.kv.insert v.key v
  keyed k w h := by
    rw [OrderedMap.getElem?_insert_eq] at h
    split_ifs at h with hk
    · rw [← Option.some.inj h]
      exact hk
    · exact db.keyed k w h

/-- `tx.Delete`. -/
def delete (db : DB) (k : String) : DB where
  kv := db.kv.erase k
  keyed a v h := by
    rw [OrderedMap.getElem?_erase_eq] at h
    split_ifs at h
    exact db.keyed a v h

/-- `tx.Ascend("", …)`: all records in the order of their keys. -/
def ascend (db : DB) : List (String × Value) := db.kv.toList

/-- The listed keys deleted one after the other. -/
def deleteAll (db : DB) (ks : List String) : DB := ks.foldl delete db

@[ext] theorem ext {db db' : DB} (h : ∀ k, db.get k = db'.get k) : db = db' := by
  obtain ⟨kv, _⟩ := db
  obtain ⟨kv', _⟩ := db'
  have hkv : kv = kv' := ExtTreeMap.ext_getElem? h
  subst hkv
  rfl

@[simp] theorem get_empty (k : String) : empty.get k = none := by simp [empty, get]

theorem key_of_get {db : DB} {k : String} {v : Value} (h : db.get k = some v) : v.key = k :=
  db.keyed k v h

theorem get_set (db : DB) (v : Value) (k : String) :
    (db.set v).get k = if v.key = k then some v else db.get k :=
  OrderedMap.getElem?_insert_eq

theorem get_delete (db : DB) (k a : String) :
    (db.delete k).get a = if k = a then none else db.get a :=
  OrderedMap.getElem?_erase_eq

theorem kv_deleteAll (db : DB) (ks : List String) :
    (db.deleteAll ks).kv = OrderedMap.eraseAll db.kv ks := by
  induction ks generalizing db with
  | nil => rfl
  | cons k ks ih => exact ih (db.delete k)

theorem get_deleteAll (db : DB) (ks : List String) (a : String) :
    (db.deleteAll ks).get a = if a ∈ ks then none else db.get a := by
  rw [get, kv_deleteAll, OrderedMap.getElem?_eraseAll]
  rfl

theorem mem_ascend {db : DB} {k : String} {v : Value} :
    (k, v) ∈ db.ascend ↔ db.get k = some v :=
  ExtTreeMap.mem_toList_iff_getElem?_eq_some

theorem key_of_mem_ascend {db : DB} {r : String × Value} (h : r ∈ db.ascend) : r.2.key = r.1 :=
  key_of_get (mem_ascend.1 h)

/-- No two records have one key. -/
theorem ascend_pairwise_key (db : DB) : db.ascend.Pairwise fun r s => r.2.key ≠ s.2.key := by
  refine (OrderedMap.toList_pairwise_ne db.kv).imp_of_mem ?_
  intro r s hr hs hne
  rw [key_of_mem_ascend hr, key_of_mem_ascend hs]
  exact hne

/-- Writing the record that is stored changes nothing. -/
theorem set_eq_self {db : DB} {v : Value} (h : db.get v.key = some v) : db.set v = db := by
  ext1 k
  rw [get_set]
  split_ifs with hk
  · rw [← hk, h]
  · rfl

end DB

/-! ## The three kinds of keys -/

@[simp] theorem toList_jobKey (n : String) :
    (jobKey n).toList = 'j' :: 'o' :: 'b' :: 's' :: ':' :: n.toList := by
  simp [jobKey, jobsPrefix, String.toList_append]

@[simp] theorem toList_executionsDir (n : String) :
    (executionsDir n).toList = "executions:".toList ++ n.toList ++ [':'] := by
  simp [executionsDir, executionsPrefix, String.toList_append]

@[simp] theorem toList_statKey (d : String) :
    (statKey d).toList = 's' :: 't' :: 'a' :: 't' :: 's' :: ':' :: d.toList := by
  simp [statKey, statsPrefix, String.toList_append]

theorem toList_executionKey (n i : String) :
    (executionKey n i).toList = (executionsDir n).toList ++ i.toList := by
  rw [executionKey, String.toList_append]

@[simp] theorem jobKey_inj {m n : String} : jobKey m = jobKey n ↔ m = n :=
  ⟨append_left_cancel, fun h => by rw [h]⟩

theorem executionKey_ne_jobKey (n i m : String) : executionKey n i ≠ jobKey m := by
  intro h
  have hl := congrArg String.toList h
  simp [toList_executionKey] at hl

theorem statKey_ne_jobKey (d m : String) : statKey d ≠ jobKey m := by
  intro h
  have hl := congrArg String.toList h
  simp at hl

theorem statKey_ne_executionKey (d n i : String) : statKey d ≠ executionKey n i := by
  intro h
  have hl := congrArg String.toList h
  simp [toList_executionKey] at hl

/-! ## Typed reads -/

namespace DB

/-- The stored job of the given name. -/
def job? (db : DB) (name : String) : Option PbJob :=
  match db.get (jobKey name) with
  | some (.job pbj) => some pbj
  | _ => none

/-- The stored execution of the given job and key. -/
def execution? (db : DB) (jobName id : String) : Option PbExecution :=
  match db.get (executionKey jobName id) with
  | some (.execution pbe) => some pbe
  | _ => none

/-- The stored statistics of the given date. -/
def stat? (db : DB) (date : String) : Option ExecutionStat :=
  match db.get (statKey date) with
  | some (.stat s) => some s
  | _ => none

/-- Only a job lies under a job's key. -/
theorem get_jobKey (db : DB) (n : String) : db.get (jobKey n) = (db.job? n).map .job := by
  unfold job?
  cases hv : db.get (jobKey n) with
  | none => rfl
  | some v =>
    have hk := key_of_get hv
    cases v with
    | job p => rfl
    | execution e => exact absurd hk (executionKey_ne_jobKey _ _ _)
    | stat s => exact absurd hk (statKey_ne_jobKey _ _)

/-- Only an execution lies under an execution's key. -/
theorem get_executionKey (db : DB) (n i : String) :
    db.get (executionKey n i) = (db.execution? n i).map .execution := by
  unfold execution?
  cases hv : db.get (executionKey n i) with
  | none => rfl
  | some v =>
    have hk := key_of_get hv
    cases v with
    | job p => exact absurd hk.symm (executionKey_ne_jobKey _ _ _)
    | execution e => rfl
    | stat s => exact absurd hk (statKey_ne_executionKey _ _ _)

/-- Only statistics lie under a date's key. -/
theorem get_statKey (db : DB) (d : String) : db.get (statKey d) = (db.stat? d).map .stat := by
  unfold stat?
  cases hv : db.get (statKey d) with
  | none => rfl
  | some v =>
    have hk := key_of_get hv
    cases v with
    | job p => exact absurd hk.symm (statKey_ne_jobKey _ _)
    | execution e => exact absurd hk.symm (statKey_ne_executionKey _ _ _)
    | stat s => rfl

theorem job?_eq_some {db : DB} {n : String} {p : PbJob} :
    db.job? n = some p ↔ db.get (jobKey n) = some (.job p) := by
  rw [get_jobKey]
  cases db.job? n <;> simp

theorem execution?_eq_some {db : DB} {n i : String} {e : PbExecution} :
    db.execution? n i = some e ↔ db.get (executionKey n i) = some (.execution e) := by
  rw [get_executionKey]
  cases db.execution? n i <;> simp

/-- A stored job has the name it is stored under. -/
theorem name_of_job? {db : DB} {n : String} {p : PbJob} (h : db.job? n = some p) : p.name = n :=
  jobKey_inj.1 (key_of_get (job?_eq_some.1 h))

theorem stat?_eq_some {db : DB} {d : String} {s : ExecutionStat} :
    db.stat? d = some s ↔ db.get (statKey d) = some (.stat s) := by
  rw [get_statKey]
  cases db.stat? d <;> simp

/-- Stored statistics have the date they are stored under. -/
theorem date_of_stat? {db : DB} {d : String} {s : ExecutionStat} (h : db.stat? d = some s) :
    formatStatDate s.date = d :=
  append_left_cancel (key_of_get (stat?_eq_some.1 h))

/-- Reads by name see only what lies under the job's key. -/
theorem job?_congr {db db' : DB} {n : String} (h : db.get (jobKey n) = db'.get (jobKey n)) :
    db.job? n = db'.job? n := by
  unfold job?
  rw [h]

@[simp] theorem job?_empty (n : String) : empty.job? n = none := by simp [job?]

theorem job?_set_job (db : DB) (p : PbJob) (n : String) :
    (db.set (.job p)).job? n = if p.name = n then some p else db.job? n := by
  unfold job?
  rw [get_set]
  simp only [Value.key, jobKey_inj]
  split_ifs <;> rfl

/-- A write deletes no job. -/
theorem job?_set_job_ne_none {db : DB} {p : PbJob} {n : String} (h : db.job? n ≠ none) :
    (db.set (.job p)).job? n ≠ none := by
  rw [job?_set_job]
  split_ifs
  · simp
  · exact h

@[simp] theorem job?_set_execution (db : DB) (e : PbExecution) (n : String) :
    (db.set (.execution e)).job? n = db.job? n :=
  job?_congr (by rw [get_set, Value.key, if_neg (executionKey_ne_jobKey _ _ _)])

@[simp] theorem job?_set_stat (db : DB) (s : ExecutionStat) (n : String) :
    (db.set (.stat s)).job? n = db.job? n :=
  job?_congr (by rw [get_set, Value.key, if_neg (statKey_ne_jobKey _ _)])

theorem stat?_congr {db db' : DB} {d : String} (h : db.get (statKey d) = db'.get (statKey d)) :
    db.stat? d = db'.stat? d := by
  unfold stat?
  rw [h]

@[simp] theorem stat?_set_job (db : DB) (p : PbJob) (d : String) :
    (db.set (.job p)).stat? d = db.stat? d :=
  stat?_congr (by rw [get_set, Value.key, if_neg (statKey_ne_jobKey _ _).symm])

@[simp] theorem stat?_set_execution (db : DB) (e : PbExecution) (d : String) :
    (db.set (.execution e)).stat? d = db.stat? d :=
  stat?_congr (by rw [get_set, Value.key, if_neg (statKey_ne_executionKey _ _ _).symm])

theorem job?_deleteAll {db : DB} {ks : List String} {n : String} (h : jobKey n ∉ ks) :
    (db.deleteAll ks).job? n = db.job? n :=
  job?_congr (by rw [get_deleteAll, if_neg h])

theorem job?_delete_jobKey (db : DB) (m n : String) :
    (db.delete (jobKey m)).job? n = if m = n then none else db.job? n := by
  unfold job?
  rw [get_delete]
  simp only [jobKey_inj]
  split_ifs <;> rfl

end DB

end Dkron
