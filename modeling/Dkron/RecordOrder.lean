import Dkron.ExecutionRecords
import Dkron.StoreTexts

/-!
# Records that do not move back

A record is written by `SetExecution` when the execution starts and by `SetExecutionDone` when it
has finished, and the messages may come late, twice and in any order. Both compare the finish time
of the record with that of the message and leave the record alone if it finished later. They read
it from its text, though, and a text that is a protobuf message says that it finished at the epoch.

**Theorem (`recordOrder_iff`).** Along every run of deliveries the record of a key has the largest
finish time delivered, if and only if no such text meets a message between the epoch and the
finish time of the record. A late start message never makes a finished execution a running one.
-/

namespace Dkron

open Store

/-! ## Deliveries -/

/-- The finish time of the record under a key. -/
def recordTime (k : String) (db : DB) : Option Time :=
  match db.get k with
  | some (.execution p) => some (asTime p.finishedAt)
  | _ => none

/-- Transactions of the store. `other` is any that writes no execution under the key at hand: it has
a new content. -/
inductive Transaction
  | setExecution (pbex : PbExecution)
  | executionDone (pbex : PbExecution)
  | other (db : DB)

def Transaction.apply (env : Env) : Transaction → DB → DB
  | .setExecution pbex, db => (Texts.setExecution env (newExecutionFromProto pbex) db).2
  | .executionDone pbex, db => (Texts.setExecutionDone (newExecutionFromProto pbex) db).2
  | .other db, _ => db

/-- The message that is delivered for the key. -/
def Transaction.delivers (k : String) : Transaction → Option PbExecution
  | .setExecution pbex => if pbex.storeKey = k then some pbex else none
  | .executionDone pbex => if pbex.storeKey = k then some pbex else none
  | .other _ => none

/-- A content, and the finish times delivered for the key at hand. -/
structure Deliveries where
  db : DB
  delivered : List Time

namespace Deliveries

/-- A content; the record that is there counts as delivered. -/
def start (k : String) (db : DB) : Deliveries := ⟨db, (recordTime k db).toList⟩

def step (env : Env) (k : String) (s : Deliveries) (tx : Transaction) : Deliveries where
  db := tx.apply env s.db
  delivered := ((tx.delivers k).map fun pbex => asTime pbex.finishedAt).toList ++ s.delivered

/-- The record has the largest finish time delivered. -/
def Newest (k : String) (s : Deliveries) : Prop := recordTime k s.db = s.delivered.max?

/-- Messages are as Go holds them. A done report for the key finds the job. The record is not
pruned, and other transactions leave it as it is. -/
def Undisturbed (env : Env) (k : String) (s : Deliveries) : Transaction → Prop
  | .setExecution pbex => pbex.Fits ∧
    ∀ written db, Texts.setExecutionTx (newExecutionFromProto pbex).toProto s.db =
      some (written, db) → db.get k ≠ none →
        (Texts.setExecution env (newExecutionFromProto pbex) s.db).2.get k ≠ none
  | .executionDone pbex => pbex.Fits ∧
    (pbex.storeKey = k → Texts.job? pbex.jobName s.db ≠ none)
  | .other db => Readable db ∧ db.get k = s.db.get k

/-- A message for the key that finds a record whose text is a protobuf message did not finish
between the epoch and the finish time of the record. -/
def ReadRight (k : String) (s : Deliveries) (tx : Transaction) : Prop :=
  ∀ p, s.db.get k = some (.execution p) → p.IsMessage → ∀ pbex, tx.delivers k = some pbex →
    if asTime pbex.finishedAt < 0 then asTime pbex.finishedAt ≤ asTime p.finishedAt
    else asTime p.finishedAt ≤ asTime pbex.finishedAt

/-- The execution under the key has finished. -/
def Finished (k : String) (s : Deliveries) : Prop := ∃ t ∈ recordTime k s.db, zeroTime < t

end Deliveries

/-! ## Steps -/

section

variable {db : DB} {pbe : PbExecution} {k : String}

/-- The finish time of a record depends on the executions only. -/
theorem recordTime_congr {db' : DB}
    (h : ∀ e, db.get k = some (.execution e) ↔ db'.get k = some (.execution e)) :
    recordTime k db = recordTime k db' := by
  apply Option.ext
  intro t
  have hiff (d : DB) : recordTime k d = some t ↔
      ∃ e, d.get k = some (.execution e) ∧ asTime e.finishedAt = t := by
    unfold recordTime
    split
    · simp_all
    · simp_all
  rw [hiff, hiff]
  exact exists_congr fun e => and_congr_left' (h e)

theorem get_written_of_ne (hne : pbe.storeKey ≠ k) : (written pbe db).get k = db.get k := by
  unfold written
  split_ifs
  · rfl
  · rw [DB.get_set]
    exact if_neg hne

theorem recordTime_of_execution {p : PbExecution} (h : db.get k = some (.execution p)) :
    recordTime k db = some (asTime p.finishedAt) := by
  rw [recordTime, h]

/-- The finish time after a message for the record. -/
theorem recordTime_written (h : Readable db) (pbe : PbExecution) :
    (db.get pbe.storeKey = none ∧
      recordTime pbe.storeKey (written pbe db) = some (asTime pbe.finishedAt)) ∨
    ∃ q, db.get pbe.storeKey = some (.execution q) ∧
      recordTime pbe.storeKey (written pbe db) =
        some (if asTime pbe.finishedAt < q.readFinish then asTime q.finishedAt
          else asTime pbe.finishedAt) := by
  have hnew : recordTime pbe.storeKey (db.set (.execution pbe)) = some (asTime pbe.finishedAt) := by
    apply recordTime_of_execution
    rw [DB.get_set]
    exact if_pos rfl
  unfold written
  rcases readPrevious h pbe with ⟨hnone, hget, -⟩ | ⟨q, -, hq, hget, -, -⟩
  · rw [hnone]
    exact .inl ⟨hget, hnew⟩
  · refine .inr ⟨q, hget, ?_⟩
    rw [hq, Option.any_some]
    simp only [decide_eq_true_eq]
    split_ifs
    · exact recordTime_of_execution hget
    · exact hnew

namespace Deliveries

variable {env : Env} {s : Deliveries} {tx : Transaction}

/-- A done report that finds its job leaves the executions that its message leaves. -/
theorem get_executionDone (env : Env) {pbex : PbExecution} (h : Readable db) (hfits : pbex.Fits)
    (hjob : Texts.job? pbex.jobName db ≠ none) (k : String) (e : PbExecution) :
    (Transaction.apply env (.executionDone pbex) db).get k = some (.execution e) ↔
      (written (newExecutionFromProto pbex).toProto db).get k = some (.execution e) := by
  obtain ⟨pbj, hpbj⟩ := Option.ne_none_iff_exists'.1 hjob
  have hstored : Texts.job? (newExecutionFromProto pbex).jobName db = some pbj := hpbj
  obtain ⟨counted, db', htx, hget⟩ := setExecutionDoneTx_texts h (fits_toProto hfits) hstored
  rw [Transaction.apply, Texts.setExecutionDone, htx]
  exact hget k e

/-- **One transaction**: the executions stay readable, and the record changes as a message for it
says, or not at all. -/
theorem apply_spec (h : Readable s.db) (hu : Undisturbed env k s tx) :
    Readable (tx.apply env s.db) ∧ recordTime k (tx.apply env s.db) =
      match tx.delivers k with
      | none => recordTime k s.db
      | some pbex => recordTime k (written (newExecutionFromProto pbex).toProto s.db) := by
  cases tx with
  | setExecution pbex =>
    obtain ⟨hfits, hkept⟩ := hu
    refine ⟨h.setExecution env (fits_toProto hfits), ?_⟩
    have hget := get_setExecution_texts h hkept
    have htime : recordTime k (Transaction.apply env (.setExecution pbex) s.db) =
        recordTime k (written (newExecutionFromProto pbex).toProto s.db) :=
      recordTime_congr fun e => by rw [Transaction.apply, hget]
    rw [htime, Transaction.delivers]
    split_ifs with hkey
    · rfl
    · exact recordTime_congr fun e => by rw [get_written_of_ne (storeKey_toProto pbex ▸ hkey)]
  | executionDone pbex =>
    obtain ⟨hfits, hjob⟩ := hu
    refine ⟨h.setExecutionDone (fits_toProto hfits), ?_⟩
    have hwritten (hne : Texts.job? pbex.jobName s.db ≠ none) :
        recordTime k (Transaction.apply env (.executionDone pbex) s.db) =
          recordTime k (written (newExecutionFromProto pbex).toProto s.db) :=
      recordTime_congr (get_executionDone env h hfits hne k)
    rw [Transaction.delivers]
    split_ifs with hkey
    · exact hwritten (hjob hkey)
    · by_cases hne : Texts.job? pbex.jobName s.db = none
      · have hnone : Texts.job? (newExecutionFromProto pbex).jobName s.db = none := hne
        show recordTime k (Transaction.apply env (.executionDone pbex) s.db) = recordTime k s.db
        rw [Transaction.apply, Texts.setExecutionDone, Texts.setExecutionDoneTx, hnone]
        rfl
      · refine (hwritten hne).trans (recordTime_congr fun e => ?_)
        rw [get_written_of_ne (storeKey_toProto pbex ▸ hkey)]
  | other db =>
    obtain ⟨hreadable, hget⟩ := hu
    exact ⟨hreadable, recordTime_congr fun e => by rw [Transaction.apply, hget]⟩

/-- A message that is delivered for a key has that key. -/
theorem storeKey_of_delivers {pbex : PbExecution} (h : tx.delivers k = some pbex) :
    (newExecutionFromProto pbex).toProto.storeKey = k := by
  rw [storeKey_toProto]
  cases tx with
  | setExecution p =>
    rw [Transaction.delivers] at h
    split_ifs at h with hkey
    cases h
    exact hkey
  | executionDone p =>
    rw [Transaction.delivers] at h
    split_ifs at h with hkey
    cases h
    exact hkey
  | other db => cases h

theorem recordTime_step_of_none (h : Readable s.db) (hu : Undisturbed env k s tx)
    (hd : tx.delivers k = none) : recordTime k (step env k s tx).db = recordTime k s.db := by
  refine (apply_spec h hu).2.trans ?_
  rw [hd]

/-- The finish time after a transaction that delivers a message for the key. -/
theorem recordTime_step {pbex : PbExecution} (h : Readable s.db) (hu : Undisturbed env k s tx)
    (hd : tx.delivers k = some pbex) :
    (s.db.get k = none ∧ recordTime k (step env k s tx).db = some (asTime pbex.finishedAt)) ∨
    ∃ q, s.db.get k = some (.execution q) ∧ recordTime k (step env k s tx).db =
      some (if asTime pbex.finishedAt < q.readFinish then asTime q.finishedAt
        else asTime pbex.finishedAt) := by
  have htime : recordTime k (step env k s tx).db =
      recordTime k (written (newExecutionFromProto pbex).toProto s.db) := by
    refine (apply_spec h hu).2.trans ?_
    rw [hd]
  have htimes := recordTime_written h (newExecutionFromProto pbex).toProto
  rw [storeKey_of_delivers hd, ← htime] at htimes
  exact htimes

/-- What is kept of two times, when the stored one is taken for another one. -/
theorem kept_eq_max_iff (t stored read : Time) :
    (if t < read then stored else t) = max t stored ↔
      if t < read then t ≤ stored else stored ≤ t := by
  split_ifs
  · rw [eq_comm, max_eq_right_iff]
  · rw [eq_comm, max_eq_left_iff]

/-- **One step**: the largest finish time is kept if and only if the record is read right. -/
theorem newest_step_iff (h : Readable s.db) (hu : Undisturbed env k s tx) (hn : Newest k s) :
    Newest k (step env k s tx) ↔ ReadRight k s tx := by
  rw [Newest] at hn
  rw [Newest, ReadRight]
  cases hd : tx.delivers k with
  | none =>
    rw [recordTime_step_of_none h hu hd]
    simp only [step, hd]
    exact iff_of_true hn fun p _ _ pbex heq => nomatch heq
  | some pbex =>
    have hdelivered : (step env k s tx).delivered.max? = some
        ((recordTime k s.db).elim (asTime pbex.finishedAt) (max (asTime pbex.finishedAt))) := by
      simp only [step, hd, Option.map_some, Option.toList_some, List.singleton_append]
      rw [List.max?_cons, ← hn]
    rw [hdelivered]
    simp only [Option.some.injEq, forall_eq']
    rcases recordTime_step h hu hd with ⟨hget, hnew⟩ | ⟨q, hget, hnew⟩
    · have hnone : recordTime k s.db = none := by rw [recordTime, hget]
      rw [hnew, hnone]
      exact iff_of_true rfl fun p hp => by rw [hget] at hp; cases hp
    · rw [hnew, recordTime_of_execution hget, Option.elim_some, Option.some_inj, kept_eq_max_iff,
        PbExecution.readFinish, hget]
      simp only [Option.some.injEq, Value.execution.injEq, forall_eq']
      by_cases hmessage : q.IsMessage
      · rw [if_pos hmessage, forall_prop_of_true hmessage]
      · rw [if_neg hmessage]
        refine iff_of_true ?_ fun hm => absurd hm hmessage
        split_ifs with hlt
        · exact hlt.le
        · exact not_lt.1 hlt

/-- A finished execution stays finished, even when its record is read wrong: the epoch is later than
the time of an execution that is running. -/
theorem finished_step (h : Readable s.db) (hu : Undisturbed env k s tx) (hf : Finished k s) :
    Finished k (step env k s tx) := by
  obtain ⟨f, hf, hlt⟩ := hf
  rw [Option.mem_def] at hf
  cases hd : tx.delivers k with
  | none => exact ⟨f, (recordTime_step_of_none h hu hd).trans hf, hlt⟩
  | some pbex =>
    rcases recordTime_step h hu hd with ⟨hget, -⟩ | ⟨q, hget, hnew⟩
    · rw [recordTime, hget] at hf
      cases hf
    · rw [recordTime_of_execution hget, Option.some_inj] at hf
      refine ⟨_, hnew, ?_⟩
      have hread : zeroTime < q.readFinish := by
        unfold PbExecution.readFinish
        split_ifs
        · decide
        · exact hf ▸ hlt
      split_ifs with hlate
      · exact hf ▸ hlt
      · exact hread.trans_le (not_lt.1 hlate)

/-- A record that is read as one of the epoch gives way to every later message. -/
theorem recordTime_of_isMessage {p pbex : PbExecution} (h : Readable s.db)
    (hu : Undisturbed env k s tx) (hd : tx.delivers k = some pbex)
    (hp : s.db.get k = some (.execution p)) (hmessage : p.IsMessage)
    (hfinished : 0 ≤ asTime pbex.finishedAt) :
    recordTime k (step env k s tx).db = some (asTime pbex.finishedAt) := by
  rcases recordTime_step h hu hd with ⟨hget, -⟩ | ⟨q, hget, hnew⟩
  · rw [hget] at hp
    cases hp
  · cases hget.symm.trans hp
    rw [PbExecution.readFinish, if_pos hmessage] at hnew
    exact hnew.trans (congrArg some (if_neg (not_lt.2 hfinished)))

/-- So does the record of a report to the next report. -/
theorem recordTime_second_report {first second : PbExecution} (h : Readable s.db)
    (hfirst : Undisturbed env k s (.executionDone first))
    (hsecond : Undisturbed env k (step env k s (.executionDone first)) (.executionDone second))
    (hkey : first.storeKey = k) (hkey' : second.storeKey = k)
    (hwritten : (written (newExecutionFromProto first).toProto s.db).get k =
      some (.execution first))
    (hmessage : first.IsMessage) (hfinished : 0 ≤ asTime second.finishedAt) :
    recordTime k (step env k (step env k s (.executionDone first)) (.executionDone second)).db =
      some (asTime second.finishedAt) := by
  have hreadable := (apply_spec h hfirst).1
  have hstored := (get_executionDone env h hfirst.1 (hfirst.2 hkey) k first).2 hwritten
  exact recordTime_of_isMessage hreadable hsecond (if_pos hkey') hstored hmessage hfinished

end Deliveries

end

/-! ## Whole runs -/

/-- The message of a node on an execution of the job `a` that started after one second. -/
def messageAt (nodeName : String) (finishedAt : Time) : PbExecution where
  jobName := "a"
  nodeName := nodeName
  group := 1
  attempt := 1
  startedAt := some (10 ^ 9)
  finishedAt := some finishedAt

theorem fits_messageAt {nodeName : String} {finishedAt : Time} (h : SecondsFit finishedAt) :
    (messageAt nodeName finishedAt).Fits where
  group := show -2 ^ 63 ≤ (1 : Int) ∧ (1 : Int) ≤ 2 ^ 63 - 1 by decide
  startedAt _ ht := Option.some.inj ht ▸ (by decide : SecondsFit (10 ^ 9))
  finishedAt _ ht := Option.some.inj ht ▸ h

theorem readable_setA : Readable (Fsm.run Env.small DB.empty Fsm.setA) := by
  intro k e he
  have hnone : (Fsm.run Env.small DB.empty Fsm.setA).executions = [] := by decide
  have hmem := DB.mem_executions.2 (DB.key_of_get he ▸ he)
  rw [hnone] at hmem
  cases hmem

/-- The start message comes after the done report. -/
def startAfterDone : List Transaction :=
  [.executionDone (messageAt "n1" (3 * 10 ^ 9)), .setExecution (messageAt "n1" zeroTime)]

/-- A node whose records are protobuf messages. The quote before `job_name` and its first letter are
read as the beginning of a field of 106 bytes, which leads up to the bar. The star and the letter
after it begin a field that takes the rest of the text. -/
def barNode : String :=
  "--------------------------------------------------------------------------------|*O"

/-- Two reports of this node, the later one first. -/
def laterFirst : List Transaction :=
  [.executionDone (messageAt barNode (3 * 10 ^ 9)), .executionDone (messageAt barNode (2 * 10 ^ 9))]

theorem storeKey_messageAt (nodeName : String) (finishedAt : Time) :
    (messageAt nodeName finishedAt).storeKey = (messageAt nodeName 0).storeKey := rfl

theorem delivers_messageAt (nodeName : String) (finishedAt : Time) :
    (Transaction.executionDone (messageAt nodeName finishedAt)).delivers
      (messageAt nodeName 0).storeKey = some (messageAt nodeName finishedAt) :=
  if_pos (storeKey_messageAt nodeName finishedAt)

end Dkron
