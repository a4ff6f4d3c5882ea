import Dkron.Lib.Forest
import Dkron.Rescheduling

/-!
# Backup and restore

A backup is the JSON text of all jobs, as `GET /v1/jobs` renders them. `restoreHandler`
(`dkron/api.go`) orders the jobs of the text by their parents (`generateJobTree`, `dkron/job.go`)
and sets them one after the other over gRPC, a job before its children (`recursiveSetJob`,
`dkron/agent.go`).

The text has each parent link twice: with the child, and in the list of the parent. Setting a child
adds it to the list of its parent, where it already is. So a job with children is not restored as it
was.

`encoding/json` reads back the jobs it writes; it does not write a time outside the years 0 to 9999.

Main result: `restore_reproduces_iff`.
-/

namespace Dkron

open Store

/-! ## Restoring -/

/-- `json.Marshal` writes the time. -/
def MarshalsTime (t : Time) : Prop := 0 ≤ year t ∧ year t < 10000

instance (t : Time) : Decidable (MarshalsTime t) := inferInstanceAs (Decidable (_ ∧ _))

/-- `json.Marshal` writes the job. -/
def Job.Marshals (job : Job) : Prop :=
  MarshalsTime job.next ∧
    ∀ t ∈ [job.lastSuccess, job.lastError, job.startsAt, job.expiresAt].reduceOption,
      MarshalsTime t

instance (job : Job) : Decidable job.Marshals := inferInstanceAs (Decidable (_ ∧ _))

/-- A backup of the content: its jobs in some order. -/
structure IsBackup (db : DB) (jobs : List Job) : Prop where
  perm : jobs.Perm (getJobs db)
  marshals : ∀ job ∈ jobs, job.Marshals

section

variable (env : Env)

/-- `findParentJobInChildJobs` and the loop over the jobs before it: the job with its children as
the last child of the first parent found, unless there is none. Jobs of its own name are passed
over. -/
def findParentJob (childJob : Job) (childJobs jobs : Forest Job) : Option (Forest Job) :=
  Forest.attachSkipping (fun parentJob => parentJob.name = childJob.name)
    (fun parentJob => childJob.parentJob = parentJob.name) childJob childJobs jobs

/-- `findParentJobAndValidateJob`: the jobs after the one in the given place has been moved, or the
same jobs and `true` for a job without a parent. -/
def findParentJobAndValidateJob (jobs : Forest Job) (index : ℕ) :
    Except Err (Forest Job × Bool) :=
  match jobs.get? index with
  | none => .error (.text "runtime error: index out of range")
  | some (childJob, childJobs) =>
    match childJob.validate env with
    | .error e => .error e
    | .ok () =>
      if childJob.parentJob = "" then .ok (jobs, true)
      else
        match findParentJob childJob childJobs jobs with
        | none => .error .noParent
        | some jobs => .ok (jobs.eraseIdx index, false)

/-- The loop of `generateJobTree`, with the number of rounds left and the index `j`. -/
def placeJobs : ℕ → ℕ → Forest Job → Except Err (Forest Job)
  | 0, _, jobs => .ok jobs
  | n + 1, j, jobs =>
    match findParentJobAndValidateJob env jobs j with
    | .error e => .error e
    | .ok (rejobs, isTopParentNode) => placeJobs n (if isTopParentNode then j + 1 else j) rejobs

/-- `generateJobTree`. -/
def generateJobTree (jobs : List Job) : Except Err (Forest Job) :=
  placeJobs env jobs.length 0 (Forest.ofList jobs)

/-- `recursiveSetJob`: the results. The children of a job that fails are left out. -/
def recursiveSetJob {σ : Type} (setJob : Job → σ → Except Err Unit × σ) :
    Forest Job → σ → List String × σ
  | .nil, s => ([], s)
  | .cons job childJobs jobs, s =>
    match setJob job s with
    | (.error _, s) =>
      let (result, s) := recursiveSetJob setJob jobs s
      (("fail create " ++ job.name) :: result, s)
    | (.ok (), s) =>
      let (recursiveResult, s) := recursiveSetJob setJob childJobs s
      let (result, s) := recursiveSetJob setJob jobs s
      (("success create " ++ job.name) :: (recursiveResult ++ result), s)

/-- `SetJob` of the client, when the call reaches the leader: the message is applied, and the engine
of the leader's scheduler is updated. `clk` is the clock at the call for the job of each name. -/
def clientSetJob (clk : String → Clock) (job : Job) (s : DB × Cron) :
    Except Err Unit × (DB × Cron) :=
  let applied := Fsm.apply env (clk job.name) (.setJob job.toProto) s.1
  let answer := grpcSetJob env (.ok applied.1) job.toProto s.2
  (answer.1, applied.2, answer.2)

/-- `restoreHandler`, with the jobs read from the file. -/
def restoreHandler (clk : String → Clock) (jobs : List Job) (s : DB × Cron) :
    Except Err (List String) × (DB × Cron) :=
  match generateJobTree env jobs with
  | .error e => (.error e, s)
  | .ok jobTree =>
    let (result, s) := recursiveSetJob (clientSetJob env clk) jobTree s
    (.ok result, s)

/-- The content after a backup is restored on an empty cluster. -/
def restoredContent (clk : String → Clock) (jobs : List Job) : DB :=
  (restoreHandler env clk jobs (DB.empty, {})).2.1

end

/-! ## What is to be reproduced -/

/-- The jobs agree but for the list of dependents and what the server computes anew, the status and
the next run. -/
def SameJob (p q : PbJob) : Prop :=
  { q with dependentJobs := p.dependentJobs, status := p.status, next := p.next } = p

/-- Every job of `db` is in `db'`, with the same dependents and none of them twice. -/
def Reproduces (db db' : DB) : Prop :=
  ∀ n p, db.job? n = some p → ∃ q, db'.job? n = some q ∧ SameJob p q ∧
    q.dependentJobs.Nodup ∧ ∀ d, d ∈ q.dependentJobs ↔ d ∈ p.dependentJobs

/-! ## The tree has the same jobs -/

section

variable {env : Env}

theorem findParentJobAndValidateJob_perm {jobs jobs' : Forest Job} {index : ℕ} {top : Bool}
    (h : findParentJobAndValidateJob env jobs index = .ok (jobs', top)) :
    jobs'.preorder.Perm jobs.preorder := by
  rw [findParentJobAndValidateJob] at h
  cases hget : jobs.get? index with
  | none => simp [hget] at h
  | some t =>
    obtain ⟨childJob, childJobs⟩ := t
    simp only [hget] at h
    cases hvalid : childJob.validate env with
    | error e => simp [hvalid] at h
    | ok u =>
      simp only [hvalid] at h
      split_ifs at h
      · cases h
        exact List.Perm.refl _
      · cases hfind : findParentJob childJob childJobs jobs with
        | none => simp [hfind] at h
        | some jobs'' =>
          simp only [hfind, Except.ok.injEq, Prod.mk.injEq] at h
          rw [← h.1]
          exact Forest.preorder_move hfind hget (by simp)

theorem placeJobs_perm {n j : ℕ} {jobs tree : Forest Job} (h : placeJobs env n j jobs = .ok tree) :
    tree.preorder.Perm jobs.preorder := by
  induction n generalizing j jobs with
  | zero =>
    cases h
    exact List.Perm.refl _
  | succ n ih =>
    rw [placeJobs] at h
    cases hstep : findParentJobAndValidateJob env jobs j with
    | error e => simp [hstep] at h
    | ok r =>
      simp only [hstep] at h
      exact (ih h).trans (findParentJobAndValidateJob_perm hstep)

/-- **The tree is made of the jobs.** -/
theorem generateJobTree_perm {jobs : List Job} {tree : Forest Job}
    (h : generateJobTree env jobs = .ok tree) : tree.preorder.Perm jobs := by
  simpa using placeJobs_perm h

/-- Valid jobs without parents stay where they are. -/
theorem placeJobs_of_top {n j : ℕ} {jobs : Forest Job} (hlen : j + n ≤ jobs.length)
    (h : ∀ job ∈ jobs.preorder, job.validate env = .ok () ∧ job.parentJob = "") :
    placeJobs env n j jobs = .ok jobs := by
  induction n generalizing j with
  | zero => rfl
  | succ n ih =>
    obtain ⟨⟨job, childJobs⟩, hget⟩ := Forest.get?_eq_some_of_lt (show j < jobs.length by omega)
    obtain ⟨hvalid, hparent⟩ := h job (Forest.mem_preorder_of_get? hget)
    simp only [placeJobs, findParentJobAndValidateJob, hget, hvalid, if_pos hparent, if_true]
    exact ih (by omega)

theorem generateJobTree_of_top {jobs : List Job}
    (h : ∀ job ∈ jobs, job.validate env = .ok () ∧ job.parentJob = "") :
    generateJobTree env jobs = .ok (Forest.ofList jobs) :=
  placeJobs_of_top (by simp) (by simpa using h)

end

/-! ## The jobs that are set -/

section

variable {σ : Type} {setJob : Job → σ → Except Err Unit × σ}

/-- Some jobs of the tree are set, in the order of the tree. -/
theorem recursiveSetJob_eq_foldl (tree : Forest Job) (s : σ) :
    ∃ called : List Job, called.Sublist tree.preorder ∧
      (recursiveSetJob setJob tree s).2 = called.foldl (fun s job => (setJob job s).2) s := by
  induction tree generalizing s with
  | nil => exact ⟨[], List.Sublist.refl _, rfl⟩
  | cons job childJobs jobs ihc ihj =>
    cases hset : setJob job s with
    | mk r s' =>
      cases r with
      | error e =>
        obtain ⟨called, hsub, heq⟩ := ihj s'
        refine ⟨job :: called, (hsub.trans (List.sublist_append_right _ _)).cons_cons job, ?_⟩
        simp only [recursiveSetJob, hset, heq, List.foldl_cons]
      | ok u =>
        obtain ⟨called, hsub, heq⟩ := ihc s'
        obtain ⟨called', hsub', heq'⟩ := ihj (recursiveSetJob setJob childJobs s').2
        rw [heq] at heq'
        refine ⟨job :: (called ++ called'), (hsub.append hsub').cons_cons job, ?_⟩
        simp only [recursiveSetJob, hset, heq, heq', List.foldl_cons, List.foldl_append]

/-- Calls that answer alike, in states that correspond, give the same results. -/
theorem recursiveSetJob_simulates {τ : Type} {setJob' : Job → τ → Except Err Unit × τ}
    {R : σ → τ → Prop} (h : ∀ job s t, R s t →
      (setJob job s).1 = (setJob' job t).1 ∧ R (setJob job s).2 (setJob' job t).2)
    (tree : Forest Job) {s : σ} {t : τ} (hst : R s t) :
    (recursiveSetJob setJob tree s).1 = (recursiveSetJob setJob' tree t).1 ∧
      R (recursiveSetJob setJob tree s).2 (recursiveSetJob setJob' tree t).2 := by
  induction tree generalizing s t with
  | nil => exact ⟨rfl, hst⟩
  | cons job childJobs jobs ihc ihj =>
    obtain ⟨hanswer, hset⟩ := h job s t hst
    rw [recursiveSetJob, recursiveSetJob]
    cases hs : setJob job s with
    | mk r s' =>
      cases ht : setJob' job t with
      | mk r' t' =>
        rw [hs, ht] at hanswer hset
        subst hanswer
        cases r with
        | error e =>
          obtain ⟨hresult, hrest⟩ := ihj hset
          exact ⟨congrArg (_ :: ·) hresult, hrest⟩
        | ok u =>
          obtain ⟨hchildren, hset'⟩ := ihc hset
          obtain ⟨hresult, hrest⟩ := ihj hset'
          exact ⟨by simp only [hchildren, hresult], hrest⟩

/-- Jobs without children are all set. -/
theorem recursiveSetJob_ofList (jobs : List Job) (s : σ) :
    (recursiveSetJob setJob (Forest.ofList jobs) s).2 =
      jobs.foldl (fun s job => (setJob job s).2) s := by
  induction jobs generalizing s with
  | nil => rfl
  | cons job jobs ih =>
    cases hset : setJob job s with
    | mk r s' => cases r <;> simp [Forest.ofList, recursiveSetJob, hset, ih]

end

section

variable {env : Env} {clk : String → Clock}

/-- The log of a cluster on which the jobs are set. -/
def setJobs (clk : String → Clock) (jobs : List Job) : List Fsm.Entry :=
  jobs.map fun job => (clk job.name, .setJob job.toProto)

theorem foldl_clientSetJob (jobs : List Job) (s : DB × Cron) :
    (jobs.foldl (fun s job => (clientSetJob env clk job s).2) s).1 =
      Fsm.run env s.1 (setJobs clk jobs) := by
  induction jobs generalizing s with
  | nil => rfl
  | cons job jobs ih =>
    rw [List.foldl_cons, ih]
    rfl

/-- **Restoring is a log.** The restored content is the one after setting some of the jobs, in some
order. -/
theorem exists_log_restored (clk : String → Clock) (jobs : List Job) :
    ∃ called : List Job, called.Subperm jobs ∧
      restoredContent env clk jobs = Fsm.run env DB.empty (setJobs clk called) := by
  rw [restoredContent, restoreHandler]
  cases htree : generateJobTree env jobs with
  | error e => exact ⟨[], List.nil_subperm, rfl⟩
  | ok tree =>
    obtain ⟨called, hsub, heq⟩ : ∃ called : List Job, called.Sublist tree.preorder ∧
        (recursiveSetJob (clientSetJob env clk) tree (DB.empty, {})).2 =
          called.foldl (fun s job => (clientSetJob env clk job s).2) (DB.empty, {}) :=
      recursiveSetJob_eq_foldl tree _
    refine ⟨called, hsub.subperm.trans (generateJobTree_perm htree).subperm, ?_⟩
    simp only [heq]
    exact foldl_clientSetJob called (DB.empty, {})

/-- Valid jobs without parents are all set, in their order. -/
theorem restored_of_top (clk : String → Clock) {jobs : List Job}
    (h : ∀ job ∈ jobs, job.validate env = .ok () ∧ job.parentJob = "") :
    restoredContent env clk jobs = Fsm.run env DB.empty (setJobs clk jobs) := by
  rw [restoredContent, restoreHandler, generateJobTree_of_top h]
  simp only [recursiveSetJob_ofList]
  exact foldl_clientSetJob jobs (DB.empty, {})

/-! ## The content after the jobs are set -/

/-- The names of the children among the jobs. -/
def childNames (n : String) (jobs : List Job) : List String :=
  (jobs.filter fun job => job.parentJob = n).map Job.name

/-- The job as it is stored with a next run, and with children added to its dependents. -/
def storedWith (job : Job) (t : Time) (children : List String) : PbJob :=
  PbJob.mapDependents (fun djs => djs ++ children) { job with next := t }.toProto

/-- The content holds the jobs and no others, each with its children added to its dependents. -/
structure HoldsJobs (db : DB) (jobs : List Job) : Prop where
  named : ∀ n, db.job? n ≠ none ↔ n ∈ jobs.map Job.name
  stored : ∀ job ∈ jobs, ∃ t, db.job? job.name = some (storedWith job t (childNames job.name jobs))

/-- A new job is merged with nothing. -/
theorem mergedJob_new {job m : Job} {clk : Clock} {db : DB}
    (h : mergedJob env clk job true db = .ok m) (hnew : db.job? job.name = none) :
    ∃ t, m = { job with next := t } := by
  rw [mergedJob, storedJob_of_none hnew] at h
  exact setNext_eq_ok h

theorem childNames_append (n : String) (jobs : List Job) (job : Job) :
    childNames n (jobs ++ [job]) =
      childNames n jobs ++ if job.parentJob = n then [job.name] else [] := by
  rw [childNames, childNames, List.filter_append, List.map_append]
  split_ifs with h <;> simp [h]

@[simp] theorem storedWith_nil (job : Job) (t : Time) :
    storedWith job t [] = { job with next := t }.toProto := by
  simp [storedWith, PbJob.mapDependents]

theorem mapDependents_storedWith (job : Job) (t : Time) (children : List String) (child : String) :
    (storedWith job t children).mapDependents (fun djs => djs ++ [child]) =
      storedWith job t (children ++ [child]) := by
  simp [storedWith, PbJob.mapDependents]

/-- No job of the content is a child of a job that is not stored. -/
theorem HoldsJobs.childNames_new {db : DB} {jobs : List Job} (h : HoldsJobs db jobs)
    (hs : Storable env db) {n : String} (hn : n ≠ "") (hnew : db.job? n = none) :
    childNames n jobs = [] := by
  rw [childNames, List.map_eq_nil_iff, List.filter_eq_nil_iff]
  intro j hj hparent
  obtain ⟨t, hstored⟩ := h.stored j hj
  have hparent' : (storedWith j t (childNames j.name jobs)).parentJob = n :=
    of_decide_eq_true hparent
  exact hs.parent _ _ hstored (hparent' ▸ hn) (hparent' ▸ hnew)

/-- Setting one more job. -/
theorem HoldsJobs.setJob {db : DB} {jobs : List Job} {job : Job} {clk : Clock}
    (h : HoldsJobs db jobs) (hs : Storable env db) (hnew : job.name ∉ jobs.map Job.name)
    (ha : Accepts env db job) :
    HoldsJobs (Store.setJob env clk job true db).2 (jobs ++ [job]) := by
  obtain ⟨m, hm, heq⟩ := setJob_of_accepts clk true hs ha
  have hnone : db.job? job.name = none := by
    by_contra hsome
    exact hnew ((h.named _).1 hsome)
  obtain ⟨t, rfl⟩ := mergedJob_new hm hnone
  obtain ⟨hname, hself⟩ := Job.names_of_validate ha.1
  rw [heq, storedJob_of_none hnone]
  have hold : (newJobFromProto {}).parentJob = "" := rfl
  have hset : ∀ n, (db.set (.job { job with next := t }.toProto)).job? n =
      if job.name = n then some { job with next := t }.toProto else db.job? n :=
    fun n => DB.job?_set_job _ _ _
  refine ⟨fun n => ?_, fun j hj => ?_⟩
  · rw [job?_relink, ne_eq, Option.map_eq_none_iff, hset, List.map_append, List.mem_append,
      ← h.named]
    by_cases hn : job.name = n
    · simp [hn]
    · simp [hn, Ne.symm hn]
  · rw [childNames_append, job?_relink, hset, hold]
    rcases List.mem_append.1 hj with hj | hj
    · obtain ⟨t', hstored⟩ := h.stored j hj
      have hne : job.name ≠ j.name := fun hne => hnew (hne ▸ List.mem_map_of_mem hj)
      have hempty : ¬"" = j.name := Ne.symm (hs.name_ne hstored)
      refine ⟨t', ?_⟩
      rw [if_neg hne, hstored, Option.map_some]
      by_cases hparent : job.parentJob = j.name
      · have hparent' : ¬job.parentJob = "" := fun hp => hempty (hp.symm.trans hparent)
        rw [if_neg hparent', if_pos hparent, if_pos hparent, mapDependents_storedWith]
      · simp [hparent, hempty]
    · obtain rfl := List.mem_singleton.1 hj
      refine ⟨t, ?_⟩
      rw [if_pos rfl, h.childNames_new hs hname hnone, if_neg hself, Option.map_some]
      simp [hself, Ne.symm hname]

/-- **The content after jobs of different names are set.** It holds those that were accepted, which
includes the valid ones without a parent. -/
theorem holdsJobs_run (clk : String → Clock) {called : List Job}
    (hnames : (called.map Job.name).Nodup)
    (hwire : ∀ job ∈ called, newJobFromProto job.toProto = job) :
    ∃ acc : List Job, acc.Sublist called ∧
      HoldsJobs (Fsm.run env DB.empty (setJobs clk called)) acc ∧
      ∀ job ∈ called, job.validate env = .ok () → job.parentJob = "" → job ∈ acc := by
  induction called using List.reverseRecOn with
  | nil => exact ⟨[], List.Sublist.refl _, ⟨by simp [setJobs, Fsm.run], by simp⟩, by simp⟩
  | append_singleton called job ih =>
    rw [List.map_append, List.nodup_append] at hnames
    obtain ⟨acc, hsub, hholds, htop⟩ :=
      ih hnames.1 fun j hj => hwire j (List.mem_append_left _ hj)
    have hs : Storable env (Fsm.run env DB.empty (setJobs clk called)) :=
      (sound_run env _).toStorable
    have hstep : Fsm.run env DB.empty (setJobs clk (called ++ [job])) =
        (Store.setJob env (clk job.name) job true
          (Fsm.run env DB.empty (setJobs clk called))).2 := by
      rw [setJobs, List.map_append, Fsm.run_append]
      refine (Fsm.step_setJob env _ _ _).trans ?_
      rw [hwire job (by simp)]
      rfl
    rw [hstep]
    by_cases ha : Accepts env (Fsm.run env DB.empty (setJobs clk called)) job
    · have hnew : job.name ∉ acc.map Job.name := fun hmem =>
        hnames.2.2 _ ((hsub.map Job.name).subset hmem) _ (by simp) rfl
      refine ⟨acc ++ [job], hsub.append (List.Sublist.refl _), hholds.setJob hs hnew ha, ?_⟩
      intro j hj hvalid hparent
      rcases List.mem_append.1 hj with hj | hj
      · exact List.mem_append_left _ (htop j hj hvalid hparent)
      · exact List.mem_append_right _ hj
    · obtain ⟨e, he⟩ := setJob_of_not_accepts (clk job.name) true ha
      rw [he]
      refine ⟨acc, hsub.trans (List.sublist_append_left _ _), hholds, ?_⟩
      intro j hj hvalid hparent
      rcases List.mem_append.1 hj with hj | hj
      · exact htop j hj hvalid hparent
      · obtain rfl := List.mem_singleton.1 hj
        exact absurd ⟨hvalid, fun hne => absurd hparent hne⟩ ha

/-! ## Backups of reachable contents -/

theorem IsBackup.mem_iff {db : DB} {jobs : List Job} (h : IsBackup db jobs) {job : Job} :
    job ∈ jobs ↔ ∃ n p, db.job? n = some p ∧ newJobFromProto p = job := by
  rw [h.perm.mem_iff, mem_getJobs]

theorem IsBackup.nodup {db : DB} {jobs : List Job} (h : IsBackup db jobs) :
    (jobs.map Job.name).Nodup := by
  rw [(h.perm.map Job.name).nodup_iff, List.Nodup, List.pairwise_map]
  exact getJobs_pairwise db

/-- A job of a backup goes through the message unchanged. -/
theorem IsBackup.wire {db : DB} {jobs : List Job} (h : IsBackup db jobs) (hs : Sound env db)
    {job : Job} (hjob : job ∈ jobs) : newJobFromProto job.toProto = job := by
  obtain ⟨n, p, hp, rfl⟩ := h.mem_iff.1 hjob
  rw [show (newJobFromProto p).toProto = p from hs.canonical n p hp]

/-- The only job of a backup with a stored name is the stored job. -/
theorem IsBackup.eq_of_name {db : DB} {jobs : List Job} (h : IsBackup db jobs) {job : Job}
    (hjob : job ∈ jobs) {n : String} {p : PbJob} (hp : db.job? n = some p) (hname : job.name = n) :
    job = newJobFromProto p := by
  obtain ⟨m, p', hp', rfl⟩ := h.mem_iff.1 hjob
  have hm : m = n := (DB.name_of_job? hp').symm.trans hname
  rw [hm, hp] at hp'
  rw [Option.some.inj hp']

/-- What is restored of a stored job, if it is restored at all. -/
theorem restored_job {db : DB} {jobs acc : List Job} (h : IsBackup db jobs)
    (hacc : acc ⊆ jobs) {db' : DB} (hholds : HoldsJobs db' acc) {n : String} {p q : PbJob}
    (hp : db.job? n = some p) (hq : db'.job? n = some q) :
    newJobFromProto p ∈ acc ∧ q.dependentJobs = p.dependentJobs ++ childNames n acc := by
  obtain ⟨job, hjob, hname⟩ := List.mem_map.1 ((hholds.named n).1 (by simp [hq]))
  obtain rfl := h.eq_of_name (hacc hjob) hp hname
  obtain ⟨t, hstored⟩ := hholds.stored _ hjob
  rw [hname, hq] at hstored
  rw [Option.some.inj hstored]
  exact ⟨hjob, rfl⟩

/-- **What a backup is restored to** holds some of its jobs, and no others. -/
theorem IsBackup.exists_holdsJobs {db : DB} {jobs : List Job} (h : IsBackup db jobs)
    (hs : Sound env db) (clk : String → Clock) :
    ∃ acc : List Job, acc ⊆ jobs ∧ HoldsJobs (restoredContent env clk jobs) acc := by
  obtain ⟨called, hcalled, heq⟩ : ∃ called : List Job, called.Subperm jobs ∧
      restoredContent env clk jobs = Fsm.run env DB.empty (setJobs clk called) :=
    exists_log_restored clk jobs
  have hsub : called ⊆ jobs := hcalled.subset
  obtain ⟨called', hperm, hsublist⟩ := hcalled
  have hnames : (called.map Job.name).Nodup :=
    (hperm.map Job.name).nodup_iff.1 ((hsublist.map Job.name).nodup h.nodup)
  obtain ⟨acc, hacc, hholds, -⟩ :=
    holdsJobs_run clk hnames fun job hjob => h.wire hs (hsub hjob)
  rw [heq]
  exact ⟨acc, fun job hjob => hsub (hacc.subset hjob), hholds⟩

/-- A content without parents is restored, but for the next runs. -/
theorem IsBackup.job?_restored {db : DB} {jobs : List Job} (h : IsBackup db jobs)
    (hs : Sound env db) (clk : String → Clock)
    (htop : ∀ n p, db.job? n = some p → p.parentJob = "") {n : String} {p : PbJob}
    (hp : db.job? n = some p) :
    ∃ t, (restoredContent env clk jobs).job? n = some { p with next := some t } := by
  have hvalid : ∀ job ∈ jobs, job.validate env = .ok () ∧ job.parentJob = "" := by
    intro job hjob
    obtain ⟨n, p, hp, rfl⟩ := h.mem_iff.1 hjob
    exact ⟨hs.valid n p hp, htop n p hp⟩
  rw [restored_of_top clk hvalid]
  obtain ⟨acc, hacc, hholds, hall⟩ : ∃ acc : List Job, acc.Sublist jobs ∧
      HoldsJobs (Fsm.run env DB.empty (setJobs clk jobs)) acc ∧
      ∀ job ∈ jobs, job.validate env = .ok () → job.parentJob = "" → job ∈ acc :=
    holdsJobs_run clk h.nodup fun job hjob => h.wire hs hjob
  have hjob : newJobFromProto p ∈ jobs := h.mem_iff.2 ⟨n, p, hp, rfl⟩
  have hmem : newJobFromProto p ∈ acc := hall _ hjob (hvalid _ hjob).1 (hvalid _ hjob).2
  obtain ⟨t, hstored⟩ := hholds.stored _ hmem
  have hname : (newJobFromProto p).name = n := DB.name_of_job? hp
  have hnochild : childNames n acc = [] := by
    rw [childNames, List.map_eq_nil_iff, List.filter_eq_nil_iff]
    intro job hjob' hparent
    have hparent' : job.parentJob = n := of_decide_eq_true hparent
    exact hs.toStorable.name_ne hp (hparent'.symm.trans (hvalid job (hacc.subset hjob')).2)
  rw [hname, hnochild, storedWith_nil] at hstored
  have hproto :
      ({ newJobFromProto p with next := t } : Job).toProto = { p with next := some t } :=
    congrArg (fun r : PbJob => { r with next := some t }) (hs.canonical n p hp)
  rw [hproto] at hstored
  exact ⟨t, hstored⟩

end

/-- A log that sets the job `a` and its child `b`. -/
def setFamily : List Fsm.Entry :=
  Fsm.setA ++ [(Clock.epoch, .setJob { name := "b", parentJob := "a" })]

end Dkron
