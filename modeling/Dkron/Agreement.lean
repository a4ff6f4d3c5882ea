import Dkron.Snapshots

/-!
# What the servers of a cluster agree on

Every server applies the raft log to its own store, at its own time. The only thing a clock decides
is `Next`: a content without the `Next` of its jobs is *timeless*, and what a command does to it,
and what it is answered, is decided by the timeless content alone (`timeless_apply`).

A server that starts reads its last snapshot and the log behind it, and a server that has fallen
behind reads the snapshot of another one. The first reads it into a new store, the second into the
store it has, where the records that the snapshot lacks stay behind. `agreement_iff` says that in
all interleavings every server holds a content that the entries it has applied lead to, unless a
snapshot was read into a store that holds more than it, and that servers with the same number of
entries agree on everything but `Next`.
-/

namespace Dkron

open Store

/-! ## Contents without `Next` -/

/-- The record without what a clock decides. -/
def Value.timeless : Value → Value
  | .job p => .job { p with next := none }
  | v => v

theorem Value.key_timeless (v : Value) : v.timeless.key = v.key := by
  cases v <;> rfl

/-- The content without what a clock decides. -/
def DB.timeless (db : DB) : DB where
  kv := db.kv.map fun _ v => v.timeless
  keyed k w h := by
    rw [Std.ExtTreeMap.getElem?_map, Option.map_eq_some_iff] at h
    obtain ⟨v, hv, rfl⟩ := h
    rw [v.key_timeless]
    exact db.keyed k v hv

/-- The job without what a clock decides. -/
def PbJob.timeless (p : PbJob) : PbJob := { p with next := none }

/-- The answer without what a clock decides. -/
def Response.timeless : Response → Response
  | .job j => .job { j with next := zeroTime }
  | r => r

section

variable {env : Env} {clk clk' : Clock} {db db' : DB}

theorem get_timeless (db : DB) (k : String) : db.timeless.get k = (db.get k).map Value.timeless :=
  Std.ExtTreeMap.getElem?_map

theorem ascend_timeless (db : DB) :
    db.timeless.ascend = db.ascend.map fun r => (r.1, r.2.timeless) :=
  Std.ExtTreeMap.toList_map

theorem job?_timeless (db : DB) (n : String) :
    db.timeless.job? n = (db.job? n).map PbJob.timeless := by
  apply Option.map_injective fun _ _ => Value.job.inj
  rw [← DB.get_jobKey, get_timeless, DB.get_jobKey, Option.map_map, Option.map_map]
  rfl

theorem execution?_timeless (db : DB) (n i : String) :
    db.timeless.execution? n i = db.execution? n i := by
  apply Option.map_injective fun _ _ => Value.execution.inj
  rw [← DB.get_executionKey, get_timeless, DB.get_executionKey, Option.map_map]
  rfl

theorem stat?_timeless (db : DB) (d : String) : db.timeless.stat? d = db.stat? d := by
  apply Option.map_injective fun _ _ => Value.stat.inj
  rw [← DB.get_statKey, get_timeless, DB.get_statKey, Option.map_map]
  rfl

theorem timeless_set (db : DB) (v : Value) : (db.set v).timeless = db.timeless.set v.timeless := by
  ext1 k
  rw [get_timeless, DB.get_set, DB.get_set, v.key_timeless, get_timeless]
  split_ifs <;> rfl

theorem timeless_deleteAll (db : DB) (ks : List String) :
    (db.deleteAll ks).timeless = db.timeless.deleteAll ks := by
  ext1 k
  rw [get_timeless, DB.get_deleteAll, DB.get_deleteAll, get_timeless]
  split_ifs <;> rfl

theorem timeless_delete (db : DB) (k : String) : (db.delete k).timeless = db.timeless.delete k :=
  timeless_deleteAll db [k]

/-! ## Reading -/

theorem list_timeless (pre : String) (db : DB) :
    list pre db.timeless = (list pre db).map fun r => (r.1, r.2.timeless) := by
  rw [list, ascend_timeless, List.filter_map]
  rfl

theorem unmarshalExecutions_timeless (items : List (String × Value)) :
    unmarshalExecutions (items.map fun r => (r.1, r.2.timeless)) = unmarshalExecutions items := by
  rw [unmarshalExecutions, List.filterMap_map]
  congr 1
  funext r
  obtain ⟨k, v⟩ := r
  cases v <;> rfl

theorem getExecutions_timeless (jobName : String) (db : DB) :
    getExecutions jobName db.timeless = getExecutions jobName db := by
  rw [getExecutions, list_timeless, unmarshalExecutions_timeless, ascend_timeless, List.any_map]
  rfl

theorem computeStatus_timeless (jobName : String) (group : Int) (db : DB) :
    computeStatus jobName group db.timeless = computeStatus jobName group db := by
  rw [computeStatus, list_timeless, unmarshalExecutions_timeless]
  rfl

/-! ## Writing -/

theorem timeless_setDependents (f : List String → List String) (name : String) (db : DB) :
    (setDependents f name db).timeless = setDependents f name db.timeless := by
  rw [setDependents, setDependents, job?_timeless]
  cases db.job? name with
  | none => rfl
  | some p => exact timeless_set db _

theorem timeless_relink (child old new : String) (db : DB) :
    (relink child old new db).timeless = relink child old new db.timeless := by
  unfold relink
  split_ifs
  · rfl
  · rw [link, timeless_setDependents, unlink, timeless_setDependents]

theorem timeless_deleteExecutionsTxFunc (jobName : String) (db : DB) :
    (deleteExecutionsTxFunc jobName db).timeless = deleteExecutionsTxFunc jobName db.timeless := by
  rw [deleteExecutionsTxFunc, timeless_deleteAll, deleteExecutionsTxFunc, ascend_timeless,
    List.map_map]
  rfl

theorem timeless_setExecutionTx (pbe : PbExecution) (db : DB) :
    (setExecutionTx pbe db).2.timeless = (setExecutionTx pbe db.timeless).2 := by
  rw [setExecutionTx_eq, setExecutionTx_eq, execution?_timeless]
  split_ifs
  · rfl
  · exact timeless_set db _

theorem timeless_setExecution (env : Env) (ex : Execution) (db : DB) :
    (setExecution env ex db).2.timeless = (setExecution env ex db.timeless).2 := by
  rw [setExecution_eq, setExecution_eq, timeless_deleteAll, ← timeless_setExecutionTx, overflowKeys,
    overflowKeys, getExecutions_timeless]

theorem timeless_bumpStat (date : Time) (success : Bool) (db : DB) :
    (bumpStat date success db).timeless = bumpStat date success db.timeless := by
  rw [bumpStat_eq, bumpStat_eq, bumpedStat, bumpedStat, stat?_timeless]
  split_ifs
  · exact timeless_set db _
  · rfl

theorem timeless_countResult (p : PbJob) (pbe : PbExecution) (status : String) :
    { countResult p pbe with status := status }.timeless =
      { countResult p.timeless pbe with status := status } := by
  unfold countResult
  split_ifs <;> rfl

theorem timeless_countReport (p : PbJob) (ex : Execution) (db : DB) :
    (countReport p ex db).timeless = countReport p.timeless ex db.timeless := by
  rw [countReport, timeless_bumpStat, timeless_set, countReport, computeStatus_timeless]
  exact congrArg (fun q => bumpStat ex.finishedAt ex.success (db.timeless.set (.job q)))
    (timeless_countResult p ex.toProto _)

/-- A report reads no `Next`. -/
theorem setExecutionDone_timeless (ex : Execution) (db : DB) :
    setExecutionDone ex db.timeless =
      ((setExecutionDone ex db).1, (setExecutionDone ex db).2.timeless) := by
  rw [setExecutionDone_eq, setExecutionDone_eq, job?_timeless, execution?_timeless]
  cases db.job? ex.jobName with
  | none => rfl
  | some p =>
    have hcount : shouldCount p.timeless (db.execution? ex.jobName ex.key) ex.toProto =
        shouldCount p (db.execution? ex.jobName ex.key) ex.toProto := rfl
    simp only [Option.map_some, hcount]
    split_ifs
    · rfl
    · rw [timeless_countReport, timeless_set]
      rfl
    · rw [timeless_set]
      rfl

theorem deleteExecutions_timeless (jobName : String) (db : DB) :
    deleteExecutions jobName db.timeless =
      ((deleteExecutions jobName db).1, (deleteExecutions jobName db).2.timeless) := by
  rw [deleteExecutions_eq, deleteExecutions_eq, job?_timeless]
  cases db.job? jobName with
  | none => rfl
  | some p =>
    simp only [Option.map_some]
    rw [timeless_set, timeless_deleteExecutionsTxFunc]
    rfl

/-! ## Commands on contents that differ in `Next` -/

theorem job?_eq_none_iff_of_timeless (h : db.timeless = db'.timeless) (n : String) :
    db.job? n = none ↔ db'.job? n = none := by
  have hjob := congrArg (fun db => db.job? n = none) h
  simpa only [job?_timeless, Option.map_eq_none_iff, eq_iff_iff] using hjob

theorem accepts_iff_of_timeless (h : db.timeless = db'.timeless) (job : Job) :
    Accepts env db job ↔ Accepts env db' job := by
  rw [Accepts, Accepts, Ne, Ne, job?_eq_none_iff_of_timeless h]

theorem storedJob_timeless (n : String) (db : DB) :
    storedJob n db.timeless = { storedJob n db with next := asTime none } := by
  rw [storedJob, storedJob, job?_timeless]
  cases db.job? n <;> rfl

theorem parentJob_storedJob_timeless (n : String) (db : DB) :
    (storedJob n db.timeless).parentJob = (storedJob n db).parentJob := by
  rw [storedJob_timeless]

/-- The merge keeps nothing of the stored `Next`, which comes after it. -/
theorem keepStored_timeless (copyDependentJobs : Bool) (n : String) (job : Job) (db : DB) :
    keepStored copyDependentJobs (storedJob n db.timeless) job =
      keepStored copyDependentJobs (storedJob n db) job := by
  rw [storedJob_timeless]
  rfl

theorem timeless_mergedJob {job m m' : Job} (h : db.timeless = db'.timeless)
    (hm : mergedJob env clk job true db = .ok m) (hm' : mergedJob env clk' job true db' = .ok m') :
    (Value.job m.toProto).timeless = (Value.job m'.toProto).timeless := by
  obtain ⟨t, rfl⟩ := setNext_eq_ok hm
  obtain ⟨t', rfl⟩ := setNext_eq_ok hm'
  rw [← keepStored_timeless true job.name job db, h, keepStored_timeless]
  rfl

/-- `SetJob` on both contents. -/
theorem timeless_setJob (hs : Storable env db) (hs' : Storable env db')
    (h : db.timeless = db'.timeless) (job : Job) :
    (setJob env clk job true db).1 = (setJob env clk' job true db').1 ∧
      (setJob env clk job true db).2.timeless = (setJob env clk' job true db').2.timeless := by
  by_cases ha : Accepts env db job
  · obtain ⟨m, hm, heq⟩ := setJob_of_accepts clk true hs ha
    obtain ⟨m', hm', heq'⟩ := setJob_of_accepts clk' true hs' ((accepts_iff_of_timeless h job).1 ha)
    rw [heq, heq']
    refine ⟨rfl, ?_⟩
    rw [timeless_relink, timeless_relink, timeless_set, timeless_set, timeless_mergedJob h hm hm',
      ← parentJob_storedJob_timeless, h, parentJob_storedJob_timeless]
  · have ha' := mt (accepts_iff_of_timeless h job).2 ha
    cases hv : job.validate env with
    | error e =>
      rw [setJob_of_invalid clk true db hv, setJob_of_invalid clk' true db' hv]
      exact ⟨rfl, h⟩
    | ok u =>
      rw [setJob_of_no_parent clk true hv ha, setJob_of_no_parent clk' true hv ha']
      exact ⟨rfl, h⟩

/-- What is found under a name in both contents. -/
theorem job?_of_timeless (h : db.timeless = db'.timeless) {n : String} {p : PbJob}
    (hp : db.job? n = some p) : ∃ p', db'.job? n = some p' ∧ p'.timeless = p.timeless := by
  have hjob := job?_timeless db n
  rw [h, job?_timeless, hp, Option.map_some, Option.map_eq_some_iff] at hjob
  exact hjob

/-- Jobs that differ in `Next` agree on what does not read it. -/
theorem field_of_timeless {α : Type} {p p' : PbJob} (f : PbJob → α) (h : p'.timeless = p.timeless)
    (hf : ∀ q : PbJob, f q.timeless = f q := by intro; rfl) : f p' = f p := by
  rw [← hf p', h, hf p]

theorem response_of_timeless {p p' : PbJob} (h : p'.timeless = p.timeless) :
    (Response.job (newJobFromProto p')).timeless = (Response.job (newJobFromProto p)).timeless :=
  field_of_timeless (fun q => Response.job { newJobFromProto q with next := zeroTime }) h

theorem timeless_applyDeleteJob (hs : Sound env db) (hs' : Sound env db')
    (h : db.timeless = db'.timeless) (jobName : String) :
    (Fsm.applyDeleteJob env clk jobName db).1.timeless =
        (Fsm.applyDeleteJob env clk' jobName db').1.timeless ∧
      (Fsm.applyDeleteJob env clk jobName db).2.timeless =
        (Fsm.applyDeleteJob env clk' jobName db').2.timeless := by
  cases hp : db.job? jobName with
  | none =>
    have hp' := (job?_eq_none_iff_of_timeless h jobName).1 hp
    rw [Fsm.applyDeleteJob, Fsm.applyDeleteJob, deleteJob, deleteJob, hp, hp']
    exact ⟨rfl, h⟩
  | some p =>
    obtain ⟨p', hp', hpp'⟩ := job?_of_timeless h hp
    have hdeps : p'.dependentJobs = p.dependentJobs :=
      field_of_timeless PbJob.dependentJobs hpp'
    have hparent : p'.parentJob = p.parentJob := field_of_timeless PbJob.parentJob hpp'
    by_cases hd : p.dependentJobs = []
    · rw [Fsm.applyDeleteJob, Fsm.applyDeleteJob, deleteJob_of_deletable hs ⟨hp, hd⟩,
        deleteJob_of_deletable hs' ⟨hp', hdeps.trans hd⟩]
      refine ⟨(response_of_timeless hpp').symm, ?_⟩
      simp only [unlink, timeless_setDependents, eraseJob, timeless_delete,
        timeless_deleteExecutionsTxFunc, h, hparent]
    · have hd' : p'.dependentJobs ≠ [] := hdeps ▸ hd
      rw [Fsm.applyDeleteJob, Fsm.applyDeleteJob, deleteJob, deleteJob, hp, hp']
      simp only [ne_eq, hd, hd', not_false_eq_true, if_true]
      exact ⟨trivial, h⟩

theorem timeless_applyDeleteExecutions (h : db.timeless = db'.timeless) (jobName : String) :
    (Fsm.applyDeleteExecutions jobName db).1.timeless =
        (Fsm.applyDeleteExecutions jobName db').1.timeless ∧
      (Fsm.applyDeleteExecutions jobName db).2.timeless =
        (Fsm.applyDeleteExecutions jobName db').2.timeless := by
  have hone (db : DB) : (Fsm.applyDeleteExecutions jobName db).1.timeless =
        (Fsm.applyDeleteExecutions jobName db.timeless).1.timeless ∧
      (Fsm.applyDeleteExecutions jobName db).2.timeless =
        (Fsm.applyDeleteExecutions jobName db.timeless).2 := by
    rw [Fsm.applyDeleteExecutions, Fsm.applyDeleteExecutions, deleteExecutions_timeless]
    generalize deleteExecutions jobName db = r
    rcases r with ⟨e | u, db''⟩
    · exact ⟨rfl, rfl⟩
    · simp only [getJob, job?_timeless]
      cases db''.job? jobName <;> exact ⟨rfl, rfl⟩
  exact ⟨(hone db).1.trans (h ▸ (hone db').1.symm), (hone db).2.trans (h ▸ (hone db').2.symm)⟩

theorem timeless_applyExecutionDone (h : db.timeless = db'.timeless) (pbex : PbExecution) :
    (Fsm.applyExecutionDone pbex db).1 = (Fsm.applyExecutionDone pbex db').1 ∧
      (Fsm.applyExecutionDone pbex db).2.timeless =
        (Fsm.applyExecutionDone pbex db').2.timeless := by
  have hone (db : DB) : Fsm.applyExecutionDone pbex db.timeless =
      ((Fsm.applyExecutionDone pbex db).1, (Fsm.applyExecutionDone pbex db).2.timeless) := by
    rw [Fsm.applyExecutionDone, Fsm.applyExecutionDone, setExecutionDone_timeless]
    generalize setExecutionDone (newExecutionFromProto pbex) db = r
    rcases r with ⟨e | u, db''⟩ <;> rfl
  have hboth := hone db
  rw [h, hone db', Prod.mk.injEq] at hboth
  exact ⟨hboth.1.symm, hboth.2.symm⟩

/-- **One command at two times.** Contents that differ in `Next` only still do after a command, and
so do the two answers. -/
theorem timeless_apply (hs : Sound env db) (hs' : Sound env db') (h : db.timeless = db'.timeless)
    (clk clk' : Clock) (c : Command) :
    (Fsm.apply env clk c db).1.timeless = (Fsm.apply env clk' c db').1.timeless ∧
      (Fsm.step env db (clk, c)).timeless = (Fsm.step env db' (clk', c)).timeless := by
  cases c with
  | setJob pj =>
    obtain ⟨hanswer, hcontent⟩ :
        (setJob env clk (newJobFromProto pj) true db).1 =
            (setJob env clk' (newJobFromProto pj) true db').1 ∧
          (setJob env clk (newJobFromProto pj) true db).2.timeless =
            (setJob env clk' (newJobFromProto pj) true db').2.timeless :=
      timeless_setJob hs.toStorable hs'.toStorable h (newJobFromProto pj)
    rw [Fsm.step_setJob, Fsm.step_setJob]
    refine ⟨?_, hcontent⟩
    simp only [Fsm.apply, Fsm.applySetJob]
    generalize setJob env clk (newJobFromProto pj) true db = r at hanswer
    generalize setJob env clk' (newJobFromProto pj) true db' = r' at hanswer
    rcases r with ⟨e | u, d⟩ <;> rcases r' with ⟨e' | u', d'⟩ <;> cases hanswer <;> rfl
  | deleteJob jobName => exact timeless_applyDeleteJob hs hs' h jobName
  | setExecution pbex =>
    refine ⟨rfl, ?_⟩
    rw [Fsm.step_setExecution, Fsm.step_setExecution, timeless_setExecution, h,
      ← timeless_setExecution]
  | deleteExecutions jobName => exact timeless_applyDeleteExecutions h jobName
  | executionDone pbex =>
    obtain ⟨hanswer, hcontent⟩ := timeless_applyExecutionDone h pbex
    exact ⟨congrArg Response.timeless hanswer, hcontent⟩

/-- **One log at two times.** -/
theorem timeless_run {es es' : List Fsm.Entry} (hs : Sound env db) (hs' : Sound env db')
    (h : db.timeless = db'.timeless) (hes : es.map (·.2) = es'.map (·.2)) :
    (Fsm.run env db es).timeless = (Fsm.run env db' es').timeless := by
  induction es generalizing es' db db' with
  | nil =>
    rw [List.map_nil, eq_comm, List.map_eq_nil_iff] at hes
    rw [hes]
    exact h
  | cons e es ih =>
    obtain ⟨e', es', rfl, he, hrest⟩ := List.map_eq_cons_iff.1 hes.symm
    obtain ⟨clk, c⟩ := e
    obtain ⟨clk', c'⟩ := e'
    simp only at he
    subst he
    have hstep := (timeless_apply hs hs' h clk clk' c').2
    have hrun := ih (hs.step (clk, c')) (hs'.step (clk', c')) hstep hrest.symm
    exact hrun

end

/-! ## The servers -/

/-- A server: its store, how many entries of the log it has applied, and its last snapshot with the
number of entries that are in it. -/
structure Replica where
  db : DB := DB.empty
  applied : ℕ := 0
  image : ℕ × List Value := (0, [])

/-- The committed log and the servers. -/
structure RaftGroup where
  log : List Command := []
  servers : ℕ → Replica := fun _ => {}

namespace RaftGroup

/-- What happens in a cluster. -/
inductive Event where
  /-- A command is committed. -/
  | commit (c : Command)
  /-- A server applies its next entry. -/
  | apply (i : ℕ) (clk : Clock)
  /-- A server writes a snapshot. -/
  | persist (i : ℕ)
  /-- A server stops and starts again, with a new store. -/
  | restart (i : ℕ)
  /-- A server that runs receives the snapshot of another one. -/
  | install (i j : ℕ)

/-- One server goes on. -/
def goOn (s : RaftGroup) (i : ℕ) (r : Replica) : RaftGroup :=
  { s with servers := Function.update s.servers i r }

def step (env : Env) (s : RaftGroup) : Event → RaftGroup
  | .commit c => { s with log := s.log ++ [c] }
  | .apply i clk =>
    let r := s.servers i
    match s.log[r.applied]? with
    | none => s
    | some c => s.goOn i { r with db := Fsm.step env r.db (clk, c), applied := r.applied + 1 }
  | .persist i =>
    let r := s.servers i
    s.goOn i { r with image := (r.applied, snapshot r.db) }
  | .restart i =>
    let r := s.servers i
    s.goOn i { r with db := restore r.image.2 DB.empty, applied := r.image.1 }
  | .install i j =>
    let r := s.servers i
    let image := (s.servers j).image
    s.goOn i { db := restore image.2 r.db, applied := image.1, image := image }

/-- The content is one that the first entries of the log lead to. -/
def Follows (env : Env) (s : RaftGroup) (applied : ℕ) (db : DB) : Prop :=
  applied ≤ s.log.length ∧
    ∃ es : List Fsm.Entry, es.map (·.2) = s.log.take applied ∧ Fsm.run env DB.empty es = db

/-- Every server holds what the entries it has applied lead to, and so does its snapshot. -/
structure Consistent (env : Env) (s : RaftGroup) : Prop where
  db : ∀ i, s.Follows env (s.servers i).applied (s.servers i).db
  image : ∀ i, ∃ T, (s.servers i).image.2 = snapshot T ∧ s.Follows env (s.servers i).image.1 T

/-- A snapshot that is received covers what the store holds. -/
def Covers (s : RaftGroup) : Event → Prop
  | .install i j => ∀ k, (s.servers i).db.get k ≠ none → k ∈ (s.servers j).image.2.map Value.key
  | _ => True

/-! ## What a step keeps -/

section

variable {env : Env} {s : RaftGroup} {n : ℕ} {db T : DB}

theorem Follows.commit (h : s.Follows env n db) (c : Command) :
    Follows env { s with log := s.log ++ [c] } n db := by
  obtain ⟨hle, es, hes, hrun⟩ := h
  refine ⟨?_, es, ?_, hrun⟩
  · rw [List.length_append]
    exact Nat.le_add_right_of_le hle
  · rw [hes, List.take_append_of_le_length hle]

theorem Follows.apply (h : s.Follows env n db) {c : Command} (hc : s.log[n]? = some c)
    (clk : Clock) : s.Follows env (n + 1) (Fsm.step env db (clk, c)) := by
  obtain ⟨-, es, hes, hrun⟩ := h
  refine ⟨(List.getElem?_eq_some_iff.1 hc).1, es ++ [(clk, c)], ?_, ?_⟩
  · rw [List.map_append, hes, List.take_add_one, hc]
    rfl
  · rw [Fsm.run_append, hrun]
    rfl

theorem Follows.sound (h : s.Follows env n db) : Sound env db := by
  obtain ⟨-, es, -, rfl⟩ := h
  exact sound_run env es

/-- **Agreement.** What the same entries lead to differs in `Next` only. -/
theorem Follows.timeless_eq {db' : DB} (h : s.Follows env n db) (h' : s.Follows env n db') :
    db.timeless = db'.timeless := by
  obtain ⟨-, es, hes, rfl⟩ := h
  obtain ⟨-, es', hes', rfl⟩ := h'
  exact timeless_run (Sound.empty env) (Sound.empty env) rfl (hes.trans hes'.symm)

theorem get_eq_none_iff_of_timeless {db' : DB} (h : db.timeless = db'.timeless) (k : String) :
    db.get k = none ↔ db'.get k = none := by
  have hget := congrArg (fun db => db.get k = none) h
  simpa only [get_timeless, Option.map_eq_none_iff, eq_iff_iff] using hget

theorem mem_keys_snapshot {k : String} : k ∈ (snapshot T).map Value.key ↔ T.get k ≠ none := by
  rw [snapshot, List.map_map, List.mem_map, Option.ne_none_iff_exists']
  refine ⟨fun h => ?_, fun h => ?_⟩
  · obtain ⟨r, hr, rfl⟩ := h
    refine ⟨r.2, ?_⟩
    rw [Function.comp_apply, DB.key_of_mem_ascend hr]
    exact DB.mem_ascend.1 hr
  · obtain ⟨v, hv⟩ := h
    exact ⟨(k, v), DB.mem_ascend.2 hv, DB.key_of_get hv⟩

theorem get_restore_snapshot (S T : DB) (k : String) :
    (restore (snapshot T) S).get k = (T.get k).or (S.get k) := by
  rw [DB.get, kv_restore_snapshot, OrderedMap.getElem?_load_toList]
  rfl

/-- A snapshot that is read replaces what it covers, and otherwise a record stays that no server
with these entries has. -/
theorem follows_restore_iff (h : s.Follows env n T) :
    s.Follows env n (restore (snapshot T) db) ↔
      ∀ k, db.get k ≠ none → k ∈ (snapshot T).map Value.key := by
  simp only [mem_keys_snapshot]
  refine ⟨fun hrestored k hk => ?_, fun hcovers => ?_⟩
  · rw [Ne, ← get_eq_none_iff_of_timeless (hrestored.timeless_eq h), get_restore_snapshot,
      Option.or_eq_none_iff]
    exact fun hnone => hk hnone.2
  · rw [(restore_snapshot_iff db T).2 hcovers]
    exact h

theorem consistent_goOn_iff (h : s.Consistent env) (i : ℕ) (r : Replica) :
    (s.goOn i r).Consistent env ↔
      s.Follows env r.applied r.db ∧ ∃ T, r.image.2 = snapshot T ∧ s.Follows env r.image.1 T := by
  refine ⟨fun hr => ?_, fun hr => ⟨fun j => ?_, fun j => ?_⟩⟩
  · have hdb := hr.db i
    have himage := hr.image i
    simp only [goOn, Function.update_self] at hdb himage
    exact ⟨hdb, himage⟩
  · simp only [goOn, Function.update_apply]
    split_ifs
    · exact hr.1
    · exact h.db j
  · simp only [goOn, Function.update_apply]
    split_ifs
    · exact hr.2
    · exact h.image j

/-- **One step of the cluster.** -/
theorem consistent_step_iff (h : s.Consistent env) (e : Event) :
    (s.step env e).Consistent env ↔ s.Covers e := by
  cases e with
  | commit c =>
    refine iff_of_true ⟨fun i => (h.db i).commit c, fun i => ?_⟩ trivial
    obtain ⟨T, hT, himage⟩ := h.image i
    exact ⟨T, hT, himage.commit c⟩
  | apply i clk =>
    refine iff_of_true ?_ trivial
    simp only [step]
    cases hc : s.log[(s.servers i).applied]? with
    | none => exact h
    | some c => exact (consistent_goOn_iff h i _).2 ⟨(h.db i).apply hc clk, h.image i⟩
  | persist i =>
    exact iff_of_true ((consistent_goOn_iff h i _).2 ⟨h.db i, _, rfl, h.db i⟩) trivial
  | restart i =>
    obtain ⟨T, hT, himage⟩ := h.image i
    refine iff_of_true ((consistent_goOn_iff h i _).2 ⟨?_, h.image i⟩) trivial
    simp only [hT, restore_snapshot_empty]
    exact himage
  | install i j =>
    obtain ⟨T, hT, himage⟩ := h.image j
    simp only [step, consistent_goOn_iff h, Covers, hT]
    rw [follows_restore_iff himage]
    exact and_iff_left ⟨T, rfl, himage⟩

theorem consistent_initial (env : Env) : Consistent env {} := by
  have hempty : Follows env {} 0 DB.empty := ⟨le_rfl, [], rfl, rfl⟩
  have hsnapshot : snapshot DB.empty = [] := by
    rw [List.eq_nil_iff_forall_not_mem]
    intro v hv
    obtain ⟨r, hr, -⟩ := List.mem_map.1 hv
    have hget := DB.mem_ascend.1 hr
    rw [DB.get_empty] at hget
    cases hget
  exact ⟨fun _ => hempty, fun _ => ⟨DB.empty, hsnapshot.symm, hempty⟩⟩

end

end RaftGroup

end Dkron
