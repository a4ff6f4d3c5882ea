import Dkron.ExecutionText
import Dkron.JobListing
import Dkron.Status

/-!
# The store and its texts

The functions that write executions, as they read the records of the store: from their texts, by
protobuf first and then JSON. Where no text is a protobuf message they are the functions of `Store`
(`Legible.setExecution`, `Legible.setExecutionDone`). In general they write a record unless what is
read of the one that is there finished later (`written`).
-/

namespace Dkron

open Store

/-! ## The store as it reads its texts -/

namespace Texts

/-- `getJobTxFunc`, none on an error. -/
def job? (name : String) (db : DB) : Option PbJob :=
  (db.get (jobKey name)).bind fun v => readJobText v.text

/-- `unmarshalExecutions`, none on an error. -/
def unmarshalExecutions (items : List (String × Value)) : Option (List Execution) :=
  items.mapM fun r => (readExecutionText r.2.text).map newExecutionFromProto

/-- `GetExecutions`, none on an error. -/
def getExecutions (jobName : String) (db : DB) : Option (List Execution) :=
  if db.ascend.any fun r => hasPrefix r.1 (executionsDir jobName) then
    unmarshalExecutions (list (executionsDir jobName) db)
  else none

/-- `computeStatus`, none on an error. -/
def computeStatus (jobName : String) (exGroup : Int) (db : DB) : Option String :=
  (unmarshalExecutions (list (executionsDir jobName) db)).map fun execs =>
    let executions : List Execution := execs.filter fun ex => ex.group = exGroup
    let success : ℕ := executions.countP fun ex => ex.success
    let failed : ℕ := executions.countP fun ex => !ex.success
    if failed = 0 then statusSuccess
    else if success = 0 then statusFailed
    else statusPartiallyFailed

/-- The execution under the key of another one, if there is one; none on an error. -/
def previous (pbe : PbExecution) (db : DB) : Option (Option PbExecution) :=
  match db.get pbe.storeKey with
  | none => some none
  | some v => (readExecutionText v.text).map some

/-- `setExecutionTx`: whether it has written the record; none on an error. -/
def setExecutionTx (pbe : PbExecution) (db : DB) : Option (Bool × DB) := do
  let p ← previous pbe db
  if p.any fun p => asTime pbe.finishedAt < asTime p.finishedAt then return (false, db)
  return (true, db.set (.execution pbe))

/-- `SetExecution`: the key of the saved execution, none on an error. -/
def setExecution (env : Env) (execution : Execution) (db : DB) : Option String × DB :=
  match setExecutionTx execution.toProto db with
  | none => (none, db)
  | some (_, db') =>
    let execs := (getExecutions execution.jobName db').getD []
    (some (executionKey execution.jobName execution.key),
      (overflow env execs).foldl (fun db ex => db.delete (executionKey ex.jobName ex.key)) db')

/-- The end of the transaction of `SetExecutionDone`: the job and the statistics of the day with one
more result. -/
def countTx (pbj : PbJob) (execution : Execution) (db : DB) : Option (Bool × DB) := do
  let pbe := execution.toProto
  let status ← computeStatus pbj.name pbe.group db
  let db' := db.set (.job { countResult pbj pbe with status := status })
  -- A failed update of the statistics does not fail the whole operation.
  match incrementStatTxFunc execution.finishedAt pbe.success db' with
  | .error _ => return (true, db')
  | .ok db'' => return (true, db'')

/-- The transaction of `SetExecutionDone`: whether the execution was counted; none on an error. -/
def setExecutionDoneTx (execution : Execution) (db : DB) : Option (Bool × DB) := do
  let pbj ← job? execution.jobName db
  let pbe := execution.toProto
  let previous ← previous pbe db
  if previous.any fun p => execution.finishedAt < asTime p.finishedAt then return (false, db)
  let (_, db') ← setExecutionTx pbe db
  if ¬shouldCount pbj previous pbe then return (false, db')
  countTx pbj execution db'

/-- `SetExecutionDone`: an error rolls the transaction back. -/
def setExecutionDone (execution : Execution) (db : DB) : Option Bool × DB :=
  match setExecutionDoneTx execution db with
  | none => (none, db)
  | some (counted, db') => (some counted, db')

end Texts

/-! ## What they write -/

/-- The stored executions are as Go holds them. -/
def Readable (db : DB) : Prop := ∀ k e, db.get k = some (.execution e) → e.Fits

section

variable {db : DB} {pbe : PbExecution} {k : String}

/-- The content after a message: the record is left alone if what is read of it finished later. -/
def written (pbe : PbExecution) (db : DB) : DB :=
  if (db.execution? pbe.jobName pbe.key).any fun p => asTime pbe.finishedAt < p.readFinish then db
  else db.set (.execution pbe)

theorem Readable.set (h : Readable db) (hpbe : pbe.Fits) :
    Readable (db.set (.execution pbe)) := by
  intro k e he
  rw [DB.get_set] at he
  split_ifs at he
  · cases he
    exact hpbe
  · exact h k e he

theorem Readable.written (h : Readable db) (hpbe : pbe.Fits) : Readable (written pbe db) := by
  unfold Dkron.written
  split_ifs
  · exact h
  · exact h.set hpbe

/-- The record under the key of an execution, read from its text. -/
theorem readPrevious (h : Readable db) (pbe : PbExecution) :
    (db.execution? pbe.jobName pbe.key = none ∧ db.get pbe.storeKey = none ∧
      Texts.previous pbe db = some none) ∨
    ∃ q p, db.execution? pbe.jobName pbe.key = some q ∧
      db.get pbe.storeKey = some (.execution q) ∧ Texts.previous pbe db = some (some p) ∧
      asTime p.finishedAt = q.readFinish := by
  have hget : db.get pbe.storeKey = (db.execution? pbe.jobName pbe.key).map .execution :=
    DB.get_executionKey db pbe.jobName pbe.key
  unfold Texts.previous
  cases hq : db.execution? pbe.jobName pbe.key with
  | none =>
    rw [hq] at hget
    rw [hget]
    exact .inl ⟨rfl, rfl, rfl⟩
  | some q =>
    rw [hq] at hget
    obtain ⟨p, hp, hfinish⟩ := finishedAt_readExecutionText (h _ q hget)
    rw [hget]
    refine .inr ⟨q, p, rfl, rfl, ?_, hfinish⟩
    exact congrArg (Option.map some) hp

theorem setExecutionTx_texts (h : Readable db) (pbe : PbExecution) :
    ∃ b, Texts.setExecutionTx pbe db = some (b, written pbe db) := by
  unfold Texts.setExecutionTx written
  rcases readPrevious h pbe with ⟨hnone, -, hprevious⟩ | ⟨q, p, hq, -, hprevious, hfinish⟩
  · rw [hnone, hprevious]
    exact ⟨true, rfl⟩
  · rw [hq, hprevious]
    simp only [Option.bind_eq_bind, Option.bind_some, Option.any_some, hfinish, decide_eq_true_eq]
    split_ifs
    · exact ⟨false, rfl⟩
    · exact ⟨true, rfl⟩

/-! ### Statuses -/

theorem isSome_mapM {α β : Type} {f : α → Option β} {xs : List α} (h : ∀ x ∈ xs, (f x).isSome) :
    (xs.mapM f).isSome := by
  induction xs with
  | nil => rfl
  | cons x xs ih =>
    rw [List.forall_mem_cons] at h
    obtain ⟨y, hy⟩ := Option.isSome_iff_exists.1 h.1
    obtain ⟨ys, hys⟩ := Option.isSome_iff_exists.1 (ih h.2)
    rw [List.mapM_cons, hy, hys]
    rfl

/-- Below the directory of a job there are executions only. -/
theorem exists_execution_of_list {jobName : String} {r : String × Value}
    (hr : r ∈ list (executionsDir jobName) db) :
    ∃ e, r.2 = .execution e ∧ db.get r.1 = some (.execution e) := by
  obtain ⟨k, v⟩ := r
  rw [list, List.mem_filter, DB.mem_ascend] at hr
  obtain ⟨hget, hpre⟩ := hr
  have hprefix : hasPrefix k (executionsPrefix ++ ":" ++ (jobName ++ ":")) := by
    rw [← String.append_assoc]
    exact (of_decide_eq_true hpre).1
  rw [← DB.key_of_get hget] at hprefix
  cases v with
  | job p => exact absurd hprefix (not_hasPrefix_jobKey _ _)
  | execution e => exact ⟨e, rfl, hget⟩
  | stat s => exact absurd hprefix (not_hasPrefix_statKey _ _)

/-- A status can be computed. -/
theorem exists_computeStatus (h : Readable db) (jobName : String) (group : Int) :
    ∃ status, Texts.computeStatus jobName group db = some status := by
  have hread : (Texts.unmarshalExecutions (list (executionsDir jobName) db)).isSome := by
    apply isSome_mapM
    intro r hr
    obtain ⟨e, hv, hget⟩ := exists_execution_of_list hr
    obtain ⟨p, hp, -⟩ := finishedAt_readExecutionText (h _ e hget)
    rw [hv, hp]
    rfl
  obtain ⟨execs, hexecs⟩ := Option.isSome_iff_exists.1 hread
  rw [Texts.computeStatus, hexecs]
  exact ⟨_, rfl⟩

/-! ### Done reports -/

/-- The statistics leave the executions as they are. -/
theorem get_incrementStatTxFunc {date : Time} {success : Bool} {db' : DB}
    (h : incrementStatTxFunc date success db = .ok db') {e : PbExecution} :
    db'.get k = some (.execution e) ↔ db.get k = some (.execution e) := by
  unfold incrementStatTxFunc at h
  simp only at h
  split_ifs at h
  cases h
  exact get_set_of_no_execution db (by simp)

/-- Counting leaves the executions as they are, and does not fail. -/
theorem exists_countTx (h : Readable db) (pbj : PbJob) (ex : Execution) :
    ∃ counted db', Texts.countTx pbj ex db = some (counted, db') ∧
      ∀ k e, db'.get k = some (.execution e) ↔ db.get k = some (.execution e) := by
  obtain ⟨status, hstatus⟩ := exists_computeStatus h pbj.name ex.toProto.group
  rw [Texts.countTx, hstatus]
  simp only [Option.bind_eq_bind, Option.bind_some]
  generalize hq : Value.job { countResult pbj ex.toProto with status := status } = v
  have hv : ∀ e, v ≠ .execution e := by
    rw [← hq]
    exact nofun
  cases hstat : incrementStatTxFunc ex.finishedAt ex.toProto.success (db.set v) with
  | error err => exact ⟨true, _, rfl, fun k e => get_set_of_no_execution db hv⟩
  | ok db' =>
    refine ⟨true, _, rfl, fun k e => ?_⟩
    rw [get_incrementStatTxFunc hstat, get_set_of_no_execution db hv]

/-- A done report that finds its job writes its record as any other message does. -/
theorem setExecutionDoneTx_texts (h : Readable db) {ex : Execution} (hex : ex.toProto.Fits)
    {pbj : PbJob} (hjob : Texts.job? ex.jobName db = some pbj) :
    ∃ counted db', Texts.setExecutionDoneTx ex db = some (counted, db') ∧
      ∀ k e, db'.get k = some (.execution e) ↔
        (written ex.toProto db).get k = some (.execution e) := by
  obtain ⟨b, hwrite⟩ := setExecutionTx_texts h ex.toProto
  have hrest (previous : Option PbExecution) : ∃ counted db',
      (if ¬shouldCount pbj previous ex.toProto then some (false, written ex.toProto db)
        else Texts.countTx pbj ex (written ex.toProto db)) = some (counted, db') ∧
      ∀ k e, db'.get k = some (.execution e) ↔
        (written ex.toProto db).get k = some (.execution e) := by
    split_ifs
    · exact exists_countTx (h.written hex) pbj ex
    · exact ⟨false, _, rfl, fun k e => Iff.rfl⟩
  unfold Texts.setExecutionDoneTx
  rcases readPrevious h ex.toProto with ⟨-, -, hprevious⟩ | ⟨q, p, hq, -, hprevious, hfinish⟩
  · simp only [hjob, hprevious, hwrite, Option.bind_eq_bind, Option.bind_some, Option.any_none]
    exact hrest none
  · simp only [hjob, hprevious, hwrite, Option.bind_eq_bind, Option.bind_some, Option.any_some,
      hfinish]
    by_cases hlate : ex.finishedAt < q.readFinish
    · have heq : written ex.toProto db = db := by
        rw [written, hq]
        exact if_pos (decide_eq_true hlate)
      rw [if_pos (decide_eq_true hlate), heq]
      exact ⟨false, db, rfl, fun k e => Iff.rfl⟩
    · rw [if_neg (by simpa using hlate)]
      exact hrest (some p)

/-! ## What is stored under a key -/

theorem secondsFit_asTime {ts : Timestamp} (h : ∀ t ∈ ts, SecondsFit t) :
    SecondsFit (asTime ts) := by
  cases ts with
  | none => decide
  | some t => exact h t rfl

theorem fits_toProto {pbex : PbExecution} (h : pbex.Fits) :
    (newExecutionFromProto pbex).toProto.Fits where
  group := h.group
  startedAt _ ht := Option.some.inj ht ▸ secondsFit_asTime h.startedAt
  finishedAt _ ht := Option.some.inj ht ▸ secondsFit_asTime h.finishedAt

/-- `SetExecution` writes the record and deletes some. -/
theorem exists_setExecution_eq_deleteAll (h : Readable db) (env : Env) (ex : Execution) :
    ∃ keys, (Texts.setExecution env ex db).2 = (written ex.toProto db).deleteAll keys := by
  obtain ⟨b, hwrite⟩ := setExecutionTx_texts h ex.toProto
  refine ⟨(overflow env ((Texts.getExecutions ex.jobName (written ex.toProto db)).getD [])).map
    fun ex => executionKey ex.jobName ex.key, ?_⟩
  rw [DB.deleteAll, List.foldl_map, Texts.setExecution, hwrite]

/-- The record, if it is not pruned. -/
theorem get_setExecution_texts (h : Readable db) {env : Env} {ex : Execution}
    (hkept : ∀ b db', Texts.setExecutionTx ex.toProto db = some (b, db') → db'.get k ≠ none →
      (Texts.setExecution env ex db).2.get k ≠ none) :
    (Texts.setExecution env ex db).2.get k = (written ex.toProto db).get k := by
  obtain ⟨b, hwrite⟩ := setExecutionTx_texts h ex.toProto
  obtain ⟨keys, heq⟩ := exists_setExecution_eq_deleteAll h env ex
  have hkept := hkept b _ hwrite
  rw [heq, DB.get_deleteAll] at hkept ⊢
  split_ifs at hkept ⊢
  · by_contra hne
    exact hkept (Ne.symm hne) rfl
  · rfl

theorem Readable.setExecution (h : Readable db) (env : Env) {ex : Execution}
    (hex : ex.toProto.Fits) : Readable (Texts.setExecution env ex db).2 := by
  obtain ⟨keys, heq⟩ := exists_setExecution_eq_deleteAll h env ex
  intro k e he
  rw [heq, DB.get_deleteAll] at he
  split_ifs at he
  exact h.written hex k e he

theorem Readable.setExecutionDone (h : Readable db) {ex : Execution} (hex : ex.toProto.Fits) :
    Readable (Texts.setExecutionDone ex db).2 := by
  unfold Texts.setExecutionDone
  cases hjob : Texts.job? ex.jobName db with
  | none =>
    rw [Texts.setExecutionDoneTx, hjob]
    exact h
  | some pbj =>
    obtain ⟨counted, db', htx, hget⟩ := setExecutionDoneTx_texts h hex hjob
    rw [htx]
    exact fun k e he => h.written hex k e ((hget k e).1 he)

end

/-! ## Stores without such texts -/

section

variable {db : DB}

/-- An execution is read from a legible store as it was stored. -/
theorem Legible.readExecutionText (hlegible : Legible db) (h : Readable db) {k : String}
    {e : PbExecution} (hk : db.get k = some (.execution e)) :
    readExecutionText (Value.execution e).text = some e :=
  (readExecutionText_of_not_groupEnds (h k e hk) (hlegible.texts k _ hk)).1

theorem Legible.set_execution (hlegible : Legible db) {pbe : PbExecution}
    (hpbe : ¬(Value.execution pbe).GroupEnds) : Legible (db.set (.execution pbe)) where
  texts k v hv := by
    rw [DB.get_set] at hv
    split_ifs at hv
    · cases hv
      exact hpbe
    · exact hlegible.texts k v hv
  jobs n p hp := hlegible.jobs n p (by rwa [DB.job?_set_execution] at hp)

theorem Legible.job? (hlegible : Legible db) (name : String) :
    Texts.job? name db = db.job? name := by
  rw [Texts.job?, DB.get_jobKey]
  cases hp : db.job? name with
  | none => rfl
  | some p =>
    have htext := hlegible.texts _ _ (DB.job?_eq_some.1 hp)
    obtain ⟨q, rfl⟩ := hlegible.jobs name p hp
    have hjson := unmarshalJob_marshalJob q
    rw [← text_job, unmarshalJob_text] at hjson
    show readJobText (Value.job q.toPbJob).text = some q.toPbJob
    rw [readJobText_of_not_groupEnds htext, hjson]

/-- The executions of a directory are all read. -/
theorem Legible.unmarshalExecutions (hlegible : Legible db) (h : Readable db) (jobName : String) :
    Texts.unmarshalExecutions (list (executionsDir jobName) db) =
      some (Store.unmarshalExecutions (list (executionsDir jobName) db)) := by
  unfold Texts.unmarshalExecutions Store.unmarshalExecutions
  have hmem : ∀ r ∈ list (executionsDir jobName) db,
      ∃ e, r.2 = .execution e ∧ db.get r.1 = some (.execution e) :=
    fun r => exists_execution_of_list
  generalize list (executionsDir jobName) db = items at hmem
  induction items with
  | nil => rfl
  | cons r items ih =>
    rw [List.forall_mem_cons] at hmem
    obtain ⟨⟨e, hv, hget⟩, hrest⟩ := hmem
    obtain ⟨k, v⟩ := r
    cases hv
    rw [List.mapM_cons, ih hrest, hlegible.readExecutionText h hget]
    rfl

theorem Legible.getExecutions (hlegible : Legible db) (h : Readable db) (jobName : String) :
    Texts.getExecutions jobName db = (Store.getExecutions jobName db).toOption := by
  rw [Texts.getExecutions, Store.getExecutions, hlegible.unmarshalExecutions h]
  split_ifs <;> rfl

theorem Legible.computeStatus (hlegible : Legible db) (h : Readable db) (jobName : String)
    (group : Int) :
    Texts.computeStatus jobName group db = some (Store.computeStatus jobName group db) := by
  rw [Texts.computeStatus, hlegible.unmarshalExecutions h]
  rfl

/-- The record under the key of an execution is read as it was stored. -/
theorem Legible.previous (hlegible : Legible db) (h : Readable db) (pbe : PbExecution) :
    Texts.previous pbe db = some (db.execution? pbe.jobName pbe.key) := by
  unfold Texts.previous
  rcases readPrevious h pbe with ⟨hnone, hget, -⟩ | ⟨q, -, hq, hget, -, -⟩
  · rw [hnone, hget]
  · rw [hq, hget]
    show (Dkron.readExecutionText (Value.execution q).text).map some = some (some q)
    rw [hlegible.readExecutionText h hget]
    rfl

theorem Legible.setExecutionTx (hlegible : Legible db) (h : Readable db) (pbe : PbExecution) :
    Texts.setExecutionTx pbe db = some (Store.setExecutionTx pbe db) := by
  rw [Texts.setExecutionTx, hlegible.previous h, Store.setExecutionTx]
  cases db.execution? pbe.jobName pbe.key with
  | none => rfl
  | some p =>
    simp only [Option.bind_eq_bind, Option.bind_some, Option.any_some, decide_eq_true_eq]
    split_ifs <;> rfl

theorem Legible.set (hlegible : Legible db) {pbe : PbExecution}
    (hpbe : ¬(Value.execution pbe).GroupEnds) :
    Legible (Store.setExecutionTx pbe db).2 := by
  rw [setExecutionTx_eq]
  split_ifs
  · exact hlegible
  · exact hlegible.set_execution hpbe

theorem Readable.setTx (h : Readable db) {pbe : PbExecution} (hpbe : pbe.Fits) :
    Readable (Store.setExecutionTx pbe db).2 := by
  rw [setExecutionTx_eq]
  split_ifs
  · exact h
  · exact h.set hpbe

/-- **`SetExecution` on a legible store.** -/
theorem Legible.setExecution (hlegible : Legible db) (h : Readable db) (env : Env) {ex : Execution}
    (hex : ex.toProto.Fits) (htext : ¬(Value.execution ex.toProto).GroupEnds) :
    Texts.setExecution env ex db =
      (some (Store.setExecution env ex db).1, (Store.setExecution env ex db).2) := by
  rw [Texts.setExecution, hlegible.setExecutionTx h]
  simp only [(hlegible.set htext).getExecutions (h.setTx hex)]
  rfl

theorem Legible.countTx (hlegible : Legible db) (h : Readable db) (pbj : PbJob) (ex : Execution) :
    Texts.countTx pbj ex db = some (true, countReport pbj ex db) := by
  have hstatus := hlegible.computeStatus h pbj.name ex.toProto.group
  have hstats (db' : DB) :
      (match incrementStatTxFunc ex.finishedAt ex.success db' with
        | .error _ => some (true, db')
        | .ok db'' => some (true, db'')) = some (true, bumpStat ex.finishedAt ex.success db') := by
    rw [bumpStat]
    cases incrementStatTxFunc ex.finishedAt ex.success db' with
    | error err => rfl
    | ok db'' => rfl
  rw [Texts.countTx, hstatus]
  exact hstats _

/-- **`SetExecutionDone` on a legible store.** -/
theorem Legible.setExecutionDone (hlegible : Legible db) (h : Readable db) {ex : Execution}
    (hex : ex.toProto.Fits) (htext : ¬(Value.execution ex.toProto).GroupEnds) :
    Texts.setExecutionDone ex db =
      ((Store.setExecutionDone ex db).1.toOption, (Store.setExecutionDone ex db).2) := by
  have hprevious : Texts.previous ex.toProto db = some (db.execution? ex.jobName ex.key) :=
    hlegible.previous h ex.toProto
  rw [setExecutionDone_eq, Texts.setExecutionDone, Texts.setExecutionDoneTx, hlegible.job?]
  cases db.job? ex.jobName with
  | none => rfl
  | some pbj =>
    simp only [Option.bind_eq_bind, Option.bind_some, hprevious, hlegible.setExecutionTx h]
    by_cases hlate : (db.execution? ex.jobName ex.key).any
        fun p => ex.finishedAt < asTime p.finishedAt
    · rw [if_pos hlate, if_pos hlate]
      rfl
    · have hset : (Store.setExecutionTx ex.toProto db).2 = db.set (.execution ex.toProto) := by
        rw [setExecutionTx_eq]
        exact if_neg hlate
      rw [if_neg hlate, if_neg hlate, hset,
        (hlegible.set_execution htext).countTx (h.set hex)]
      by_cases hcount : shouldCount pbj (db.execution? ex.jobName ex.key) ex.toProto
      · rw [if_neg (not_not.2 hcount), if_pos hcount]
        rfl
      · rw [if_pos hcount, if_neg hcount]
        rfl

end

end Dkron
