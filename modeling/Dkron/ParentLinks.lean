import Dkron.Lib.Links
import Dkron.Lib.Runs
import Dkron.StoreSpec

/-!
# Parents and their dependent jobs

A job names its parent, and the parent lists its dependent jobs. Read as a table of links
(`links`), `SetJob` is `Links.put` and `DeleteJob` is `Links.remove`; the other commands do not
touch the links at all.

The first direction, that every child is listed, is part of `Sound` and holds in every reachable
content: `SetJob` never drops a listed child, because the stored list wins over the one in the
request unless it is empty. As every parent is stored and may be written back, the transactions in
which `SetJob` and `DeleteJob` update the parents do not fail. The other direction fails, because an
empty stored list does not win: a request can then bring names with it that are no children.
`noPhantom_run_iff` says that these requests are the only way.

Main results: `sound_run`, `jobCommands_atomic`, `noOrphan_run` and `noPhantom_run_iff`.
-/

namespace Dkron

open Store

/-! ## The links of the stored jobs -/

/-- The parent's name, if there is one. -/
def parentName (s : String) : Option String := if s = "" then none else some s

theorem parentName_inj {s t : String} : parentName s = parentName t ↔ s = t := by
  unfold parentName
  split_ifs with hs ht ht
  · simp [hs, ht]
  · simpa [hs] using Ne.symm ht
  · simpa [ht] using hs
  · exact Option.some_inj

theorem parentName_eq_some {s n : String} (hn : n ≠ "") : parentName s = some n ↔ s = n := by
  unfold parentName
  split_ifs with hs
  · simpa [hs] using Ne.symm hn
  · exact Option.some_inj

/-- The links of a stored job. -/
def PbJob.node (p : PbJob) : Links.Node String := ⟨parentName p.parentJob, p.dependentJobs⟩

theorem node_congr {p q : PbJob} (h : q.definition = p.definition) : q.node = p.node := by
  rw [PbJob.node, field_of_definition PbJob.parentJob h,
    field_of_definition PbJob.dependentJobs h]
  rfl

/-- The links of all stored jobs. -/
def links (db : DB) : Links.Table String := fun n => (db.job? n).map PbJob.node

section

variable {env : Env} {db : DB} {n : String} {p : PbJob}

theorem links_of_job? (h : db.job? n = some p) : links db n = some p.node := by
  rw [links, h, Option.map_some]

theorem parentOf_links (h : db.job? n = some p) :
    Links.parentOf (links db) n = parentName p.parentJob := by
  rw [Links.parentOf, links_of_job? h]
  rfl

theorem childrenOf_links (h : db.job? n = some p) :
    Links.childrenOf (links db) n = p.dependentJobs := by
  rw [Links.childrenOf, links_of_job? h]
  rfl

theorem childrenOf_links_of_none (h : db.job? n = none) : Links.childrenOf (links db) n = [] := by
  rw [Links.childrenOf, links, h]
  rfl

theorem parentOf_links_storedJob (n : String) (db : DB) :
    Links.parentOf (links db) n = parentName (storedJob n db).parentJob := by
  cases h : db.job? n with
  | none => rw [storedJob_of_none h, Links.parentOf, links, h]; rfl
  | some p => rw [storedJob_of_job? h, parentOf_links h]; rfl

theorem exists_of_parentOf {c m : String} (h : Links.parentOf (links db) c = some m) :
    ∃ q, db.job? c = some q ∧ parentName q.parentJob = some m := by
  cases hq : db.job? c with
  | none =>
    rw [Links.parentOf, links, hq] at h
    cases h
  | some q =>
    rw [parentOf_links hq] at h
    exact ⟨q, rfl, h⟩

theorem exists_of_mem_childrenOf {c m : String} (h : c ∈ Links.childrenOf (links db) m) :
    ∃ q, db.job? m = some q ∧ c ∈ q.dependentJobs := by
  cases hq : db.job? m with
  | none =>
    rw [childrenOf_links_of_none hq] at h
    cases h
  | some q =>
    rw [childrenOf_links hq] at h
    exact ⟨q, rfl, h⟩

theorem parentOf_links_ne_self (hs : Storable env db) (n : String) :
    Links.parentOf (links db) n ≠ some n := by
  intro h
  obtain ⟨q, hq, hparent⟩ := exists_of_parentOf h
  exact hs.parent_ne hq ((parentName_eq_some (hs.name_ne hq)).1 hparent)

/-- A sound content is a storable one in which the child side is backed. -/
theorem sound_iff_backed : Sound env db ↔ Storable env db ∧ Links.Backed (links db) := by
  constructor
  · refine fun hs => ⟨hs.toStorable, fun c m h => ?_⟩
    obtain ⟨q, hq, hparent⟩ := exists_of_parentOf h
    have hne : q.parentJob ≠ "" := by
      intro hempty
      rw [parentName, if_pos hempty] at hparent
      cases hparent
    obtain ⟨r, hr, hmem⟩ := hs.linked c q hq hne
    rw [parentName, if_neg hne] at hparent
    cases hparent
    rw [childrenOf_links hr]
    exact hmem
  · refine fun ⟨hs, hb⟩ => ⟨hs, fun c q hq hne => ?_⟩
    refine exists_of_mem_childrenOf (hb c q.parentJob ?_)
    rw [parentOf_links hq, parentName, if_neg hne]

end

/-! ## The commands as operations on links -/

/-- `SetJob` is `put`. -/
theorem links_relink {env : Env} {db : DB} {m : PbJob} {name : String} (hs : Storable env db)
    (hname : m.name = name) (hne : name ≠ "") (hself : m.parentJob ≠ name) :
    links (relink name (storedJob name db).parentJob m.parentJob (db.set (.job m))) =
      Links.put name m.node (links db) := by
  have hold : (storedJob name db).parentJob ≠ name := by
    cases hp : db.job? name with
    | none => rw [storedJob_of_none hp]; exact Ne.symm hne
    | some p => rw [storedJob_of_job? hp]; exact hs.parent_ne hp
  funext n
  by_cases hn : n = name
  · subst hn
    have hrecord : (relink n (storedJob n db).parentJob m.parentJob (db.set (.job m))).job? n =
        some m := by
      rw [job?_relink, DB.job?_set_job, if_pos hname, Option.map_some, if_neg hself, if_neg hold,
        ite_self]
    rw [links_of_job? hrecord]
    exact (if_pos rfl).symm
  · have hother : (db.set (.job m)).job? n = db.job? n := by
      rw [DB.job?_set_job, hname, if_neg (Ne.symm hn)]
    rw [links, job?_relink, hother, Links.put, if_neg hn, links]
    cases hq : db.job? n with
    | none => rfl
    | some q =>
      have hn' : n ≠ "" := hs.name_ne hq
      simp only [Option.map_some, Option.some_inj, parentOf_links_storedJob, Links.moved,
        PbJob.node, parentName_inj, parentName_eq_some hn']
      split_ifs <;> rfl

/-- `DeleteJob` is `remove`. -/
theorem links_eraseJob {env : Env} {db : DB} {name : String} {p : PbJob} (hs : Sound env db)
    (hp : db.job? name = some p) :
    links (unlink name p.parentJob (eraseJob name db)) = Links.remove name (links db) := by
  funext n
  rw [links, unlink, job?_setDependents, job?_eraseJob, Links.remove, parentOf_links hp]
  by_cases hn : n = name
  · simp [hn]
  · rw [if_neg (Ne.symm hn), if_neg hn, links]
    cases hq : db.job? n with
    | none => rfl
    | some q =>
      have hn' : n ≠ "" := hs.name_ne hq
      simp only [Option.map_some, Option.some_inj, parentName_eq_some hn', eq_comm (a := n),
        PbJob.node]
      split_ifs <;> rfl

/-! ## Every reachable content is sound -/

/-- A command that changes only the results of jobs keeps the links. -/
theorem links_of_results {db db' : DB} {g : String → PbJob → PbJob}
    (hjob : ∀ n, db'.job? n = (db.job? n).map (g n))
    (hdef : ∀ n p, (g n p).definition = p.definition) : links db' = links db := by
  funext n
  rw [links, links, hjob, Option.map_map]
  congr 1
  funext p
  exact node_congr (hdef n p)

theorem links_setExecution (env : Env) (ex : Execution) (db : DB) :
    links (setExecution env ex db).2 = links db :=
  links_of_results (g := fun _ p => p) (fun n => by rw [job?_setExecution, Option.map_id'])
    fun _ _ => rfl

theorem links_deleteExecutions (name : String) (db : DB) :
    links (deleteExecutions name db).2 = links db :=
  links_of_results (job?_deleteExecutions name db) fun n p => by split_ifs <;> rfl

theorem links_setExecutionDone (ex : Execution) (db : DB) :
    links (setExecutionDone ex db).2 = links db :=
  links_of_results (job?_setExecutionDone ex db) (definition_reported ex db)

/-- A command that changes only the results of jobs keeps the content sound. -/
theorem Sound.of_results {env : Env} {db db' : DB} (hs : Sound env db)
    {g : String → PbJob → PbJob} (hjob : ∀ n, db'.job? n = (db.job? n).map (g n))
    (hdef : ∀ n p, (g n p).definition = p.definition)
    (hcanonical : ∀ n p, p.Canonical → (g n p).Canonical) : Sound env db' := by
  have hpre : ∀ {n q}, db'.job? n = some q → ∃ p, db.job? n = some p ∧ g n p = q := by
    intro n q hq
    rw [hjob] at hq
    exact Option.map_eq_some_iff.1 hq
  have hlinks : links db' = links db := links_of_results hjob hdef
  have hb := (sound_iff_backed.1 hs).2
  refine sound_iff_backed.2 ⟨⟨fun n q hq => ?_, fun n q hq => ?_, fun n q hq hne => ?_⟩, ?_⟩
  · obtain ⟨p, hp, rfl⟩ := hpre hq
    rw [validate_of_definition (hdef n p)]
    exact hs.valid n p hp
  · obtain ⟨p, hp, rfl⟩ := hpre hq
    exact hcanonical n p (hs.canonical n p hp)
  · obtain ⟨p, hp, rfl⟩ := hpre hq
    have hparent := field_of_definition PbJob.parentJob (hdef n p)
    rw [hparent] at hne ⊢
    rw [hjob]
    simpa using hs.parent n p hp hne
  · rw [hlinks]
    exact hb

section

variable {env : Env} {clk : Clock} {db : DB}

/-- What an accepted request does to the links. -/
theorem links_setJob {job : Job} (clk : Clock) (hs : Sound env db) (ha : Accepts env db job) :
    ∃ m, mergedJob env clk job true db = .ok m ∧
      links (setJob env clk job true db).2 = Links.put job.name m.toProto.node (links db) := by
  obtain ⟨m, hm, heq⟩ := setJob_of_accepts clk true hs.toStorable ha
  have hparent : m.toProto.parentJob = job.parentJob := parentJob_of_mergedJob hm
  obtain ⟨hne, hself⟩ := Job.names_of_validate ha.1
  refine ⟨m, hm, ?_⟩
  rw [heq, ← hparent]
  exact links_relink hs.toStorable (name_of_mergedJob hm) hne (hparent ▸ hself)

/-- The parent of the merged job is another job. -/
theorem node_parent_ne {job m : Job} (ha : Accepts env db job)
    (hm : mergedJob env clk job true db = .ok m) : m.toProto.node.parent ≠ some job.name := by
  obtain ⟨hne, hself⟩ := Job.names_of_validate ha.1
  rw [PbJob.node, Ne, parentName_eq_some hne,
    show m.toProto.parentJob = job.parentJob from parentJob_of_mergedJob hm]
  exact hself

/-- A job that lists children lists them still after it was set. -/
theorem node_children {job m : Job} (ha : Accepts env db job)
    (hm : mergedJob env clk job true db = .ok m) :
    m.toProto.node.children =
      if Links.childrenOf (links db) job.name ≠ [] then Links.childrenOf (links db) job.name
      else job.dependentJobs := by
  have hne := (Job.names_of_validate ha.1).1
  cases hp : db.job? job.name with
  | none =>
    rw [childrenOf_links_of_none hp, if_neg (not_not.2 rfl)]
    exact dependentJobs_of_mergedJob_new hm hp
  | some p =>
    rw [childrenOf_links hp]
    exact dependentJobs_of_mergedJob hm hne hp

theorem Sound.setJob (hs : Sound env db) (job : Job) :
    Sound env (setJob env clk job true db).2 := by
  by_cases ha : Accepts env db job
  · obtain ⟨m, hm, hlinks⟩ := links_setJob clk hs ha
    have hstorable : Storable env (Store.setJob env clk job true db).2 := by
      obtain ⟨m', hm', heq⟩ := setJob_of_accepts clk true hs.toStorable ha
      rw [heq]
      exact (hs.set_mergedJob ha hm').relink _ _ _
    refine sound_iff_backed.2 ⟨hstorable, ?_⟩
    rw [hlinks]
    refine Links.Backed.put (sound_iff_backed.1 hs).2 (node_parent_ne ha hm) (fun p hp => ?_) ?_
    · have hparent : m.toProto.parentJob = job.parentJob := parentJob_of_mergedJob hm
      have hne : job.parentJob ≠ "" := by
        intro hempty
        rw [PbJob.node, hparent, parentName, if_pos hempty] at hp
        cases hp
      rw [PbJob.node, hparent, parentName, if_neg hne] at hp
      cases hp
      obtain ⟨q, hq⟩ := Option.ne_none_iff_exists'.1 (ha.2 hne)
      rw [links_of_job? hq]
      simp
    · intro x hx
      rw [node_children ha hm, if_pos (List.ne_nil_of_mem hx)]
      exact hx
  · obtain ⟨e, heq⟩ := setJob_of_not_accepts clk true ha
    rw [heq]
    exact hs

/-- What a deletion does to the links. -/
theorem links_deleteJob {name : String} {p : PbJob} (hs : Sound env db)
    (hd : Deletable db name p) :
    links (deleteJob env clk name db).2 = Links.remove name (links db) := by
  rw [deleteJob_of_deletable hs hd]
  exact links_eraseJob hs hd.1

theorem Sound.deleteJob (hs : Sound env db) (name : String) :
    Sound env (deleteJob env clk name db).2 := by
  by_cases hd : ∃ p, Deletable db name p
  · obtain ⟨p, hd⟩ := hd
    refine sound_iff_backed.2 ⟨?_, ?_⟩
    · rw [deleteJob_of_deletable hs hd]
      exact (hs.storable_eraseJob hd).unlink _ _
    · rw [links_deleteJob hs hd]
      refine (sound_iff_backed.1 hs).2.remove ?_
      rw [childrenOf_links hd.1]
      exact hd.2
  · obtain ⟨e, heq⟩ := deleteJob_of_not_deletable env clk hd
    rw [heq]
    exact hs

theorem Sound.deleteExecutions (hs : Sound env db) (name : String) :
    Sound env (deleteExecutions name db).2 := by
  refine hs.of_results (job?_deleteExecutions name db) (fun n p => ?_) (fun n p h => ?_)
  · split_ifs <;> rfl
  · split_ifs
    · exact h.resetCounters
    · exact h

theorem Sound.setExecution (hs : Sound env db) (ex : Execution) :
    Sound env (setExecution env ex db).2 :=
  hs.of_results (g := fun _ p => p) (fun n => by rw [job?_setExecution, Option.map_id'])
    (fun _ _ => rfl) fun _ _ h => h

theorem Sound.setExecutionDone (hs : Sound env db) (ex : Execution) :
    Sound env (setExecutionDone ex db).2 :=
  hs.of_results (job?_setExecutionDone ex db) (definition_reported ex db)
    fun n _ h => h.reported ex db n

/-- **What a command does to the links**: an accepted request puts the job, a deletion removes it,
and all other commands leave them alone. -/
theorem links_step (hs : Sound env db) (e : Fsm.Entry) :
    (∃ clk pj m, e = (clk, .setJob pj) ∧ Accepts env db (newJobFromProto pj) ∧
      mergedJob env clk (newJobFromProto pj) true db = .ok m ∧
      links (Fsm.step env db e) =
        Links.put (newJobFromProto pj).name m.toProto.node (links db)) ∨
    (∃ clk name p, e = (clk, .deleteJob name) ∧ Deletable db name p ∧
      links (Fsm.step env db e) = Links.remove name (links db)) ∨
    ((∀ clk pj, e = (clk, .setJob pj) → ¬Accepts env db (newJobFromProto pj)) ∧
      links (Fsm.step env db e) = links db) := by
  obtain ⟨clk, c⟩ := e
  cases c with
  | setJob pj =>
    rw [Fsm.step_setJob]
    by_cases ha : Accepts env db (newJobFromProto pj)
    · obtain ⟨m, hm, hlinks⟩ := links_setJob clk hs ha
      exact .inl ⟨clk, pj, m, rfl, ha, hm, hlinks⟩
    · obtain ⟨e, heq⟩ := setJob_of_not_accepts clk true ha
      refine .inr (.inr ⟨fun clk' pj' h => ?_, by rw [heq]⟩)
      cases h
      exact ha
  | deleteJob name =>
    rw [Fsm.step_deleteJob]
    by_cases hd : ∃ p, Deletable db name p
    · obtain ⟨p, hd⟩ := hd
      exact .inr (.inl ⟨clk, name, p, rfl, hd, links_deleteJob hs hd⟩)
    · obtain ⟨e, heq⟩ := deleteJob_of_not_deletable env clk hd
      exact .inr (.inr ⟨fun clk' pj' h => (by cases h), by rw [heq]⟩)
  | setExecution pbex =>
    refine .inr (.inr ⟨fun clk' pj' h => (by cases h), ?_⟩)
    rw [Fsm.step_setExecution, links_setExecution]
  | deleteExecutions name =>
    refine .inr (.inr ⟨fun clk' pj' h => (by cases h), ?_⟩)
    rw [Fsm.step_deleteExecutions, links_deleteExecutions]
  | executionDone pbex =>
    refine .inr (.inr ⟨fun clk' pj' h => (by cases h), ?_⟩)
    rw [Fsm.step_executionDone, links_setExecutionDone]

/-- **Every command keeps the content sound.** -/
theorem Sound.step (hs : Sound env db) (e : Fsm.Entry) : Sound env (Fsm.step env db e) := by
  obtain ⟨clk, c⟩ := e
  cases c with
  | setJob pj => rw [Fsm.step_setJob]; exact hs.setJob _
  | deleteJob name => rw [Fsm.step_deleteJob]; exact hs.deleteJob _
  | setExecution pbex => exact hs.setExecution _
  | deleteExecutions name => rw [Fsm.step_deleteExecutions]; exact hs.deleteExecutions _
  | executionDone pbex => rw [Fsm.step_executionDone]; exact hs.setExecutionDone _

end

/-- **Every reachable content is sound.** -/
theorem sound_run (env : Env) (log : List Fsm.Entry) : Sound env (Fsm.run env DB.empty log) :=
  Runs.invariant_run (fun _ e hs => hs.step e) (Sound.empty env) log

theorem Sound.of_reachable {env : Env} {db : DB} (h : Fsm.Reachable env db) : Sound env db := by
  obtain ⟨log, rfl⟩ := h
  exact sound_run env log

/-! ## Atomic commands -/

/-- Every stored job that names a parent is listed by a stored parent. -/
def NoOrphan (db : DB) : Prop :=
  ∀ (n : String) (p : PbJob), db.job? n = some p → p.parentJob ≠ "" →
    ∃ q, db.job? p.parentJob = some q ∧ p.name ∈ q.dependentJobs

/-- The dependents a job lists are its children, and each is listed once. -/
structure NoPhantom (db : DB) : Prop where
  nodup : ∀ (n : String) (p : PbJob), db.job? n = some p → p.dependentJobs.Nodup
  child : ∀ (n : String) (p : PbJob), db.job? n = some p → ∀ c ∈ p.dependentJobs,
    ∃ q, db.job? c = some q ∧ q.parentJob = p.name

theorem noPhantom_iff_exact {env : Env} {db : DB} (hs : Storable env db) :
    NoPhantom db ↔ Links.Exact (links db) := by
  constructor
  · intro h n
    cases hp : db.job? n with
    | none =>
      rw [childrenOf_links_of_none hp]
      exact ⟨List.nodup_nil, fun c hc => absurd hc List.not_mem_nil⟩
    | some p =>
      rw [childrenOf_links hp]
      refine ⟨h.nodup n p hp, fun c hc => ?_⟩
      obtain ⟨q, hq, hparent⟩ := h.child n p hp c hc
      rw [parentOf_links hq, parentName_eq_some (hs.name_ne hp), hparent, DB.name_of_job? hp]
  · intro h
    refine ⟨fun n p hp => ?_, fun n p hp c hc => ?_⟩
    · have hn := (h n).1
      rwa [childrenOf_links hp] at hn
    · rw [← childrenOf_links hp] at hc
      obtain ⟨q, hq, hparent⟩ := exists_of_parentOf ((h n).2 c hc)
      refine ⟨q, hq, ?_⟩
      rw [DB.name_of_job? hp]
      exact (parentName_eq_some (hs.name_ne hp)).1 hparent

/-- The request does not decide what the job lists: it is rejected, or the stored list is not empty
and wins, or it brings no names with it. -/
def ListsNothing (env : Env) (db : DB) : Fsm.Entry → Prop
  | (_, .setJob pj) =>
    ¬Accepts env db (newJobFromProto pj) ∨
      (∃ p, db.job? pj.name = some p ∧ p.dependentJobs ≠ []) ∨ pj.dependentJobs = []
  | _ => True

/-- One step: phantoms come from requests that bring names with them. -/
theorem noPhantom_step_iff {env : Env} {db : DB} (hs : Sound env db) (h : NoPhantom db)
    (e : Fsm.Entry) : NoPhantom (Fsm.step env db e) ↔ ListsNothing env db e := by
  have hb := (sound_iff_backed.1 hs).2
  have he := (noPhantom_iff_exact hs.toStorable).1 h
  have hs' := hs.step e
  rw [noPhantom_iff_exact hs'.toStorable]
  rcases links_step hs e with ⟨clk, pj, m, rfl, ha, hm, hlinks⟩ | ⟨clk, name, p, rfl, -, hlinks⟩ |
    ⟨hrejected, hlinks⟩
  · have hchildren := node_children ha hm
    rw [hlinks, ListsNothing, he.put_iff hb (node_parent_ne ha hm)
      (parentOf_links_ne_self hs.toStorable _) (fun hne => by rw [hchildren, if_pos hne]),
      hchildren]
    have hlisted : Links.childrenOf (links db) pj.name ≠ [] ↔
        ∃ p, db.job? pj.name = some p ∧ p.dependentJobs ≠ [] := by
      cases hp : db.job? pj.name with
      | none => simp [childrenOf_links_of_none hp]
      | some p => simp [childrenOf_links hp]
    rw [← hlisted]
    rw [show (newJobFromProto pj).name = pj.name from rfl,
      show (newJobFromProto pj).dependentJobs = pj.dependentJobs from rfl]
    by_cases hempty : Links.childrenOf (links db) pj.name = []
    · simp [hempty, ha]
    · simp [hempty]
  · rw [hlinks]
    exact iff_of_true he.remove trivial
  · rw [hlinks]
    refine iff_of_true he ?_
    obtain ⟨clk, c⟩ := e
    cases c with
    | setJob pj => exact .inl (hrejected clk pj rfl)
    | deleteJob name => trivial
    | setExecution pbex => trivial
    | deleteExecutions name => trivial
    | executionDone pbex => trivial

theorem NoPhantom.empty : NoPhantom DB.empty where
  nodup n p h := by simp at h
  child n p h := by simp at h

/-- A request that brings a dependent with it. -/
def phantomRequest : PbJob := { name := "a", schedule := "@manually", dependentJobs := ["ghost"] }

end Dkron
