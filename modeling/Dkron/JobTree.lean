import Dkron.Ancestry
import Dkron.Backup

/-!
# Job trees

`generateJobTree` (`dkron/job.go`) builds the tree of a list of jobs in the list itself. The index
moves past a job without a parent; any other job is taken from the list, with the children it has by
then, and becomes a child of the job it names, wherever that is. `recursiveSetJob`
(`dkron/agent.go`) then sets the jobs, and leaves out the children of a job that is refused.

In each round the jobs before the index have no parent, and below every job are jobs that name it.
A job whose parent is not found outside its own tree is in a cycle or names a job that is not there.

**Theorem (`generateJobTree_correct`).** Jobs of different names make a tree if and only if every
parent is one of them and no chain of parents cycles; and of a tree, the jobs that are not set are
those below a job that was refused.
-/

namespace Dkron

open Ancestors

/-! ## What is to be shown -/

/-- The parent that the job of a name names. -/
def parentNameIn (jobs : List Job) (n : String) : Option String :=
  (jobs.find? fun job => job.name = n).bind fun job => parentName job.parentJob

/-- Every parent is one of the jobs. -/
def ParentsIn (jobs : List Job) : Prop :=
  ∀ job ∈ jobs, job.parentJob ≠ "" → ∃ parent ∈ jobs, parent.name = job.parentJob

/-- The second job names the first one as its parent. -/
def ChildOf (parent child : Job) : Prop :=
  child.parentJob ≠ "" ∧ child.parentJob = parent.name

/-- Each job once, as a root if it has no parent and otherwise directly below its parent. -/
structure IsJobTree (jobs : List Job) (tree : Forest Job) : Prop where
  perm : tree.preorder.Perm jobs
  roots : ∀ job ∈ tree.roots, job.parentJob = ""
  linked : tree.Linked ChildOf

/-! ## Chains of parents -/

section

variable {env : Env} {jobs : List Job}

theorem find?_name (hnames : (jobs.map Job.name).Nodup) {job : Job} (h : job ∈ jobs) :
    jobs.find? (fun j => j.name = job.name) = some job := by
  induction jobs with
  | nil => cases h
  | cons j jobs ih =>
    obtain ⟨hj, hjobs⟩ := List.nodup_cons.1 hnames
    rcases List.mem_cons.1 h with rfl | h
    · exact List.find?_cons_of_pos (by simp)
    · have hne : j.name ≠ job.name := fun heq => hj (heq ▸ List.mem_map_of_mem h)
      rw [List.find?_cons_of_neg (by simpa using hne), ih hjobs h]

theorem parentNameIn_of_mem (hnames : (jobs.map Job.name).Nodup) {job : Job} (h : job ∈ jobs) :
    parentNameIn jobs job.name = parentName job.parentJob := by
  rw [parentNameIn, find?_name hnames h, Option.bind_some]

theorem parentNameIn_of_childOf (hnames : (jobs.map Job.name).Nodup) {parent child : Job}
    (hchild : child ∈ jobs) (h : ChildOf parent child) :
    parentNameIn jobs child.name = some parent.name := by
  rw [parentNameIn_of_mem hnames hchild, parentName, if_neg h.1, h.2]

/-- Every job of a tree is below its root. -/
theorem above_of_linked (hnames : (jobs.map Job.name).Nodup) {a : Job} {as : Forest Job}
    (hsub : as.preorder ⊆ jobs) (hroots : ∀ b ∈ as.roots, ChildOf a b) (has : as.Linked ChildOf)
    {b : Job} (hb : b ∈ as.preorder) : Above (parentNameIn jobs) a.name b.name := by
  induction as generalizing a with
  | nil => cases hb
  | cons c children rest ihc ihr =>
    obtain ⟨hc, hrest⟩ := List.forall_mem_cons.1 hroots
    have hcmem : c ∈ jobs := hsub List.mem_cons_self
    have hac : Above (parentNameIn jobs) a.name c.name :=
      (Above.refl _ _).up (parentNameIn_of_childOf hnames hcmem hc)
    have hchildren : children.preorder ⊆ jobs := fun d hd =>
      hsub (Forest.mem_preorder_cons.2 (.inr (.inl hd)))
    have hrestSub : rest.preorder ⊆ jobs := fun d hd =>
      hsub (Forest.mem_preorder_cons.2 (.inr (.inr hd)))
    rcases Forest.mem_preorder_cons.1 hb with rfl | hb | hb
    · exact hac
    · exact hac.trans (ihc hchildren has.1 has.2.1 hb)
    · exact ihr hrestSub hrest has.2.2 hb

/-- In a tree whose roots end a chain, every chain ends. -/
theorem ends_of_linked (hnames : (jobs.map Job.name).Nodup) {f : Forest Job}
    (hsub : f.preorder ⊆ jobs) (hroots : ∀ b ∈ f.roots, Ends (parentNameIn jobs) b.name)
    (hf : f.Linked ChildOf) {b : Job} (hb : b ∈ f.preorder) :
    Ends (parentNameIn jobs) b.name := by
  induction f with
  | nil => cases hb
  | cons c children rest ihc ihr =>
    obtain ⟨hc, hrest⟩ := List.forall_mem_cons.1 hroots
    have hchildren : children.preorder ⊆ jobs := fun d hd =>
      hsub (Forest.mem_preorder_cons.2 (.inr (.inl hd)))
    have hrestSub : rest.preorder ⊆ jobs := fun d hd =>
      hsub (Forest.mem_preorder_cons.2 (.inr (.inr hd)))
    rcases Forest.mem_preorder_cons.1 hb with rfl | hb | hb
    · exact hc
    · refine ihc hchildren (fun d hd => ends_iff.2 fun p hp => ?_) hf.2.1 hb
      have hd' := hchildren (Forest.mem_preorder_of_mem_roots hd)
      rw [parentNameIn_of_childOf hnames hd' (hf.1 d hd)] at hp
      rw [← Option.some.inj hp]
      exact hc
    · exact ihr hrestSub hrest hf.2.2 hb

/-- In a linked forest, a job is a root or below a job of the forest. -/
theorem root_or_child {f : Forest Job} (hf : f.Linked ChildOf) {b : Job} (hb : b ∈ f.preorder) :
    b ∈ f.roots ∨ ∃ parent ∈ f.preorder, ChildOf parent b := by
  induction f with
  | nil => cases hb
  | cons c children rest ihc ihr =>
    rcases Forest.mem_preorder_cons.1 hb with rfl | hb | hb
    · exact .inl List.mem_cons_self
    · rcases ihc hf.2.1 hb with hroot | ⟨parent, hparent, hchild⟩
      · exact .inr ⟨c, List.mem_cons_self, hf.1 b hroot⟩
      · exact .inr ⟨parent, Forest.mem_preorder_cons.2 (.inr (.inl hparent)), hchild⟩
    · rcases ihr hf.2.2 hb with hroot | ⟨parent, hparent, hchild⟩
      · exact .inl (List.mem_cons_of_mem _ hroot)
      · exact .inr ⟨parent, Forest.mem_preorder_cons.2 (.inr (.inr hparent)), hchild⟩

/-- A tree of the jobs has their parents, and no cycle. -/
theorem IsJobTree.acyclic {tree : Forest Job} (h : IsJobTree jobs tree)
    (hnames : (jobs.map Job.name).Nodup) : ParentsIn jobs ∧ Acyclic (parentNameIn jobs) := by
  constructor
  · intro job hjob hparent
    rcases root_or_child h.linked (h.perm.mem_iff.2 hjob) with hroot | ⟨parent, hmem, hchild⟩
    · exact absurd (h.roots job hroot) hparent
    · exact ⟨parent, h.perm.mem_iff.1 hmem, hchild.2.symm⟩
  · intro n
    by_cases hn : ∃ job ∈ jobs, job.name = n
    · obtain ⟨job, hjob, rfl⟩ := hn
      refine ends_of_linked hnames h.perm.subset (fun b hb => ends_iff.2 fun p hp => ?_) h.linked
        (h.perm.mem_iff.2 hjob)
      have hb' := h.perm.mem_iff.1 (Forest.mem_preorder_of_mem_roots hb)
      rw [parentNameIn_of_mem hnames hb', h.roots b hb] at hp
      cases hp
    · apply ends_iff.2
      intro p hp
      have hfind : jobs.find? (fun job => job.name = n) = none :=
        List.find?_eq_none.2 fun job hjob heq => hn ⟨job, hjob, of_decide_eq_true heq⟩
      rw [parentNameIn, hfind] at hp
      cases hp

/-! ## The loop -/

/-- What holds between two rounds: the jobs before the index have no parent, and below every job
are jobs that name it. -/
structure Placed (jobs : List Job) (n j : ℕ) (f : Forest Job) : Prop where
  perm : f.preorder.Perm jobs
  length : f.roots.length = j + n
  top : ∀ job ∈ f.roots.take j, job.parentJob = ""
  linked : f.Linked ChildOf

theorem Placed.nodup_roots {n j : ℕ} {f : Forest Job} (h : Placed jobs n j f)
    (hnames : (jobs.map Job.name).Nodup) : f.roots.Nodup :=
  (h.perm.nodup_iff.2 hnames.of_map).sublist f.roots_sublist_preorder

section

variable {n j : ℕ} {f f' : Forest Job} {childJob : Job} {childJobs : Forest Job}

/-- The index moves past a job without a parent. -/
theorem Placed.pass (h : Placed jobs (n + 1) j f) (hroot : f.roots[j]? = some childJob)
    (hparent : childJob.parentJob = "") : Placed jobs n (j + 1) f := by
  refine ⟨h.perm, ?_, ?_, h.linked⟩
  · rw [h.length]
    omega
  · intro job hjob
    rw [List.take_add_one, hroot] at hjob
    rcases List.mem_append.1 hjob with hjob | hjob
    · exact h.top job hjob
    · rw [List.mem_singleton.1 hjob]
      exact hparent

/-- A job moves below its parent. -/
theorem Placed.move (h : Placed jobs (n + 1) j f) (hget : f.get? j = some (childJob, childJobs))
    (hparent : childJob.parentJob ≠ "") (hfind : findParentJob childJob childJobs f = some f') :
    Placed jobs n j (f'.eraseIdx j) := by
  have hlt : j < f.roots.length := by
    rw [h.length]
    omega
  refine ⟨?_, ?_, ?_, ?_⟩
  · exact (Forest.preorder_move hfind hget (by simp)).trans h.perm
  · rw [Forest.roots_eraseIdx, Forest.roots_attachSkipping hfind, List.length_eraseIdx_of_lt hlt,
      h.length]
    omega
  · intro job hjob
    rw [Forest.roots_eraseIdx, Forest.roots_attachSkipping hfind,
      List.take_eraseIdx_eq_take_of_le _ _ _ le_rfl] at hjob
    exact h.top job hjob
  · have hchildren := h.linked.get? hget
    refine (h.linked.attachSkipping hfind (fun b hb => ?_) hchildren.1 hchildren.2).eraseIdx j
    exact ⟨hparent, of_decide_eq_true hb⟩

/-- A job whose parent is found nowhere is in a cycle, or the parent is not there. -/
theorem Placed.not_acyclic (h : Placed jobs n j f) (hnames : (jobs.map Job.name).Nodup)
    (hget : f.get? j = some (childJob, childJobs)) (hparent : childJob.parentJob ≠ "")
    (hfind : findParentJob childJob childJobs f = none) :
    ¬(ParentsIn jobs ∧ Acyclic (parentNameIn jobs)) := by
  rintro ⟨hparents, hacyclic⟩
  have hmem : childJob ∈ f.roots := List.mem_of_getElem? (Forest.roots_getElem? hget)
  have hjob : childJob ∈ jobs := h.perm.mem_iff.1 (Forest.mem_preorder_of_mem_roots hmem)
  obtain ⟨parent, hparentMem, hname⟩ := hparents childJob hjob hparent
  have hskip : ∀ c ∈ f.roots, decide (c.name = childJob.name) ↔ c = childJob := by
    intro c hc
    have hcmem := h.perm.mem_iff.1 (Forest.mem_preorder_of_mem_roots hc)
    rw [decide_eq_true_eq]
    exact ⟨List.inj_on_of_nodup_map hnames hcmem hjob, fun heq => by rw [heq]⟩
  -- the parent is in the tree of the job, so the job is above its parent
  have hown : parent = childJob ∨ parent ∈ childJobs.preorder :=
    Forest.mem_of_attachSkipping_eq_none hfind hget (h.nodup_roots hnames) hskip
      (h.perm.mem_iff.2 hparentMem) (decide_eq_true hname.symm)
  have hsub : childJobs.preorder ⊆ jobs := fun job hjob' =>
    h.perm.mem_iff.1 ((Forest.preorder_eraseIdx hget).mem_iff.2
      (List.mem_append_right _ (List.mem_cons_of_mem _ hjob')))
  have habove : Above (parentNameIn jobs) childJob.name parent.name := by
    rcases hown with rfl | hown
    · exact Above.refl _ _
    · exact above_of_linked hnames hsub (h.linked.get? hget).1 (h.linked.get? hget).2 hown
  exact (hacyclic childJob.name).not_above
    (parentNameIn_of_childOf hnames hjob ⟨hparent, hname.symm⟩) habove

end

/-- **One round.** It makes progress, or the job is in a cycle or its parent is not there. -/
theorem Placed.step {n j : ℕ} {f : Forest Job} (h : Placed jobs (n + 1) j f)
    (hnames : (jobs.map Job.name).Nodup) (hvalid : ∀ job ∈ jobs, job.validate env = .ok ()) :
    (∃ f' top, findParentJobAndValidateJob env f j = .ok (f', top) ∧
      Placed jobs n (if top then j + 1 else j) f') ∨
    findParentJobAndValidateJob env f j = .error .noParent ∧
      ¬(ParentsIn jobs ∧ Acyclic (parentNameIn jobs)) := by
  have hlt : j < f.length := by
    rw [← f.length_roots, h.length]
    omega
  obtain ⟨⟨childJob, childJobs⟩, hget⟩ := Forest.get?_eq_some_of_lt hlt
  have hroot : f.roots[j]? = some childJob := Forest.roots_getElem? hget
  have hjob : childJob ∈ jobs :=
    h.perm.mem_iff.1 (Forest.mem_preorder_of_mem_roots (List.mem_of_getElem? hroot))
  simp only [findParentJobAndValidateJob, hget, hvalid childJob hjob]
  by_cases hparent : childJob.parentJob = ""
  · rw [if_pos hparent]
    exact .inl ⟨f, true, rfl, h.pass hroot hparent⟩
  · rw [if_neg hparent]
    cases hfind : findParentJob childJob childJobs f with
    | some f' => exact .inl ⟨f'.eraseIdx j, false, rfl, h.move hget hparent hfind⟩
    | none => exact .inr ⟨rfl, h.not_acyclic hnames hget hparent hfind⟩

/-- **The loop.** It ends with a tree, or there is a cycle or a parent that is not there. -/
theorem Placed.run {n j : ℕ} {f : Forest Job} (h : Placed jobs n j f)
    (hnames : (jobs.map Job.name).Nodup) (hvalid : ∀ job ∈ jobs, job.validate env = .ok ()) :
    (∃ tree, placeJobs env n j f = .ok tree ∧ IsJobTree jobs tree) ∨
    placeJobs env n j f = .error .noParent ∧
      ¬(ParentsIn jobs ∧ Acyclic (parentNameIn jobs)) := by
  induction n generalizing j f with
  | zero =>
    refine .inl ⟨f, rfl, h.perm, fun job hjob => h.top job ?_, h.linked⟩
    rwa [List.take_of_length_le (by rw [h.length]; omega)]
  | succ n ih =>
    rw [placeJobs]
    rcases h.step hnames hvalid with ⟨f', top, heq, hf'⟩ | ⟨heq, hnot⟩
    · rw [heq]
      exact ih hf'
    · rw [heq]
      exact .inr ⟨rfl, hnot⟩

theorem generateJobTree_cases (hnames : (jobs.map Job.name).Nodup)
    (hvalid : ∀ job ∈ jobs, job.validate env = .ok ()) :
    (∃ tree, generateJobTree env jobs = .ok tree ∧ IsJobTree jobs tree) ∨
    generateJobTree env jobs = .error .noParent ∧
      ¬(ParentsIn jobs ∧ Acyclic (parentNameIn jobs)) := by
  have hstart : Placed jobs jobs.length 0 (Forest.ofList jobs) := by
    refine ⟨?_, ?_, ?_, Forest.linked_ofList jobs⟩
    · rw [Forest.preorder_ofList]
    · rw [Forest.roots_ofList, Nat.zero_add]
    · intro job hjob
      rw [List.take_zero] at hjob
      cases hjob
  exact hstart.run hnames hvalid

theorem isJobTree_of_generateJobTree (hnames : (jobs.map Job.name).Nodup)
    (hvalid : ∀ job ∈ jobs, job.validate env = .ok ()) {tree : Forest Job}
    (htree : generateJobTree env jobs = .ok tree) : IsJobTree jobs tree := by
  rcases generateJobTree_cases hnames hvalid with ⟨tree', htree', hjobTree⟩ | ⟨herr, -⟩
  · rw [htree] at htree'
    cases htree'
    exact hjobTree
  · rw [herr] at htree
    cases htree

end

/-! ## Submissions -/

section

variable {σ : Type} (setJob : Job → σ → Except Err Unit × σ)

/-- `SetJob` with a log of the jobs it is called with and of whether they are accepted. -/
def logged (job : Job) (s : σ × List (Job × Bool)) : Except Err Unit × (σ × List (Job × Bool)) :=
  let answer := setJob job s.1
  (answer.1, answer.2, s.2 ++ [(job, answer.1.isOk)])

/-- The jobs that `recursiveSetJob` submits, in order, and whether they are accepted. -/
def submissions (tree : Forest Job) (s : σ) : List (Job × Bool) :=
  (recursiveSetJob (logged setJob) tree (s, [])).2.2

variable {setJob}

/-- The log changes nothing, and grows by the submissions. -/
theorem recursiveSetJob_logged (tree : Forest Job) (s : σ) (log : List (Job × Bool)) :
    recursiveSetJob (logged setJob) tree (s, log) =
      ((recursiveSetJob setJob tree s).1, (recursiveSetJob setJob tree s).2,
        log ++ submissions setJob tree s) := by
  have hlog : ∃ sub, ∀ log, recursiveSetJob (logged setJob) tree (s, log) =
      ((recursiveSetJob setJob tree s).1, (recursiveSetJob setJob tree s).2, log ++ sub) := by
    induction tree generalizing s with
    | nil => exact ⟨[], fun log => by simp [recursiveSetJob]⟩
    | cons job childJobs jobs ihc ihj =>
      cases hset : setJob job s with
      | mk r s' =>
        cases r with
        | error e =>
          obtain ⟨sub, hsub⟩ := ihj s'
          refine ⟨(job, false) :: sub, fun log => ?_⟩
          simp [recursiveSetJob, logged, hset, hsub, Except.isOk, Except.toBool]
        | ok u =>
          obtain ⟨sub, hsub⟩ := ihc s'
          obtain ⟨sub', hsub'⟩ := ihj (recursiveSetJob setJob childJobs s').2
          refine ⟨(job, true) :: (sub ++ sub'), fun log => ?_⟩
          simp [recursiveSetJob, logged, hset, hsub, hsub', Except.isOk, Except.toBool]
  obtain ⟨sub, hsub⟩ := hlog
  have hempty : submissions setJob tree s = sub := by
    rw [submissions, hsub, List.nil_append]
  rw [hsub, hempty]

/-- A refused job is the only submission of its tree. -/
theorem submissions_cons_error {job : Job} {childJobs jobs : Forest Job} {s s' : σ} {e : Err}
    (h : setJob job s = (.error e, s')) :
    submissions setJob (.cons job childJobs jobs) s =
      (job, false) :: submissions setJob jobs s' := by
  have hlogged : logged setJob job (s, []) = (.error e, s', [(job, false)]) := by
    rw [logged, h]
    rfl
  rw [submissions, recursiveSetJob, hlogged]
  simp only [recursiveSetJob_logged]
  rfl

/-- After an accepted job come its children. -/
theorem submissions_cons_ok {job : Job} {childJobs jobs : Forest Job} {s s' : σ}
    (h : setJob job s = (.ok (), s')) :
    submissions setJob (.cons job childJobs jobs) s =
      (job, true) :: (submissions setJob childJobs s' ++
        submissions setJob jobs (recursiveSetJob setJob childJobs s').2) := by
  have hlogged : logged setJob job (s, []) = (.ok (), s', [(job, true)]) := by
    rw [logged, h]
    rfl
  rw [submissions, recursiveSetJob, hlogged]
  simp only [recursiveSetJob_logged]
  simp

variable (setJob) in
/-- The submissions of a forest, by the answer to its first root. -/
theorem submissions_cases (job : Job) (childJobs jobs : Forest Job) (s : σ) :
    (∃ s', submissions setJob (.cons job childJobs jobs) s =
      (job, false) :: submissions setJob jobs s') ∨
    ∃ s' s'', submissions setJob (.cons job childJobs jobs) s =
      (job, true) :: (submissions setJob childJobs s' ++ submissions setJob jobs s'') := by
  cases hset : setJob job s with
  | mk r s' =>
    cases r with
    | error e => exact .inl ⟨s', submissions_cons_error hset⟩
    | ok u => exact .inr ⟨s', _, submissions_cons_ok hset⟩

/-- Every job at most once, in the order of the tree. -/
theorem submissions_sublist (tree : Forest Job) (s : σ) :
    ((submissions setJob tree s).map Prod.fst).Sublist tree.preorder := by
  induction tree generalizing s with
  | nil => exact List.Sublist.refl []
  | cons job childJobs jobs ihc ihj =>
    rcases submissions_cases setJob job childJobs jobs s with ⟨s', h⟩ | ⟨s', s'', h⟩
    · rw [h]
      exact ((ihj s').trans (List.sublist_append_right _ _)).cons_cons job
    · rw [h, List.map_cons, List.map_append]
      exact ((ihc s').append (ihj s'')).cons_cons job

theorem mem_of_submitted {tree : Forest Job} {s : σ} {job : Job} {accepted : Bool}
    (h : (job, accepted) ∈ submissions setJob tree s) : job ∈ tree.preorder :=
  (submissions_sublist tree s).subset (List.mem_map_of_mem h)

/-- A root, or a job that is submitted after its parent was accepted. -/
theorem parent_before {tree : Forest Job} (htree : tree.Linked ChildOf) {s : σ}
    {before after : List (Job × Bool)} {job : Job} {accepted : Bool}
    (h : submissions setJob tree s = before ++ (job, accepted) :: after) :
    job ∈ tree.roots ∨ ∃ parent, (parent, true) ∈ before ∧ ChildOf parent job := by
  induction tree generalizing s before after with
  | nil => simp [submissions, recursiveSetJob] at h
  | cons root childJobs jobs ihc ihj =>
    obtain ⟨hroot, hchildJobs, hjobs⟩ := htree
    rcases submissions_cases setJob root childJobs jobs s with ⟨s', hs⟩ | ⟨s', s'', hs⟩
    · rw [hs] at h
      cases before with
      | nil =>
        cases h
        exact .inl List.mem_cons_self
      | cons first before =>
        rcases ihj hjobs (List.cons.inj h).2 with hmem | ⟨parent, hparent, hchild⟩
        · exact .inl (List.mem_cons_of_mem _ hmem)
        · exact .inr ⟨parent, List.mem_cons_of_mem _ hparent, hchild⟩
    · rw [hs] at h
      cases before with
      | nil =>
        cases h
        exact .inl List.mem_cons_self
      | cons first before =>
        obtain ⟨rfl, happend⟩ := List.cons.inj h
        rcases List.append_eq_append_iff.1 happend with
          ⟨rest, hbefore, hrest⟩ | ⟨rest, hbefore, hrest⟩
        · -- the job is not in the first tree
          rcases ihj hjobs hrest with hmem | ⟨parent, hparent, hchild⟩
          · exact .inl (List.mem_cons_of_mem _ hmem)
          · refine .inr ⟨parent, List.mem_cons_of_mem _ ?_, hchild⟩
            rw [hbefore]
            exact List.mem_append_right _ hparent
        · cases rest with
          | nil =>
            have hjob : submissions setJob jobs s'' = [] ++ (job, accepted) :: after := hrest.symm
            rcases ihj hjobs hjob with hmem | ⟨parent, hparent, -⟩
            · exact .inl (List.mem_cons_of_mem _ hmem)
            · cases hparent
          | cons second rest =>
            obtain ⟨rfl, -⟩ := List.cons.inj hrest
            rcases ihc hchildJobs hbefore with hmem | ⟨parent, hparent, hchild⟩
            · exact .inr ⟨root, List.mem_cons_self, hroot job hmem⟩
            · exact .inr ⟨parent, List.mem_cons_of_mem _ hparent, hchild⟩

theorem mem_map_fst {l : List (Job × Bool)} {job : Job} :
    job ∈ l.map Prod.fst ↔ ∃ accepted, (job, accepted) ∈ l := by
  simp

/-- The submissions of a part of the forest that follow what comes before it. -/
theorem not_submitted_congr {f g : Forest Job} {s t : σ} {job : Job} (hjob : job ∈ g.preorder)
    (hsub : ∀ j ∈ g.preorder, ∀ accepted,
      (j, accepted) ∈ submissions setJob f s ↔ (j, accepted) ∈ submissions setJob g t)
    (hunder : ∀ refused, f.Under refused job → (refused, false) ∈ submissions setJob f s →
      g.Under refused job)
    (hf : ∀ refused, g.Under refused job → f.Under refused job)
    (h : job ∉ (submissions setJob g t).map Prod.fst ↔
      ∃ refused, (refused, false) ∈ submissions setJob g t ∧ g.Under refused job) :
    job ∉ (submissions setJob f s).map Prod.fst ↔
      ∃ refused, (refused, false) ∈ submissions setJob f s ∧ f.Under refused job := by
  have hmap : job ∈ (submissions setJob f s).map Prod.fst ↔
      job ∈ (submissions setJob g t).map Prod.fst := by
    rw [mem_map_fst, mem_map_fst]
    exact exists_congr fun accepted => hsub job hjob accepted
  rw [hmap, h]
  refine ⟨fun ⟨refused, hmem, hbelow⟩ => ?_, fun ⟨refused, hmem, hbelow⟩ => ?_⟩
  · exact ⟨refused, (hsub refused hbelow.mem.1 false).2 hmem, hf refused hbelow⟩
  · have hbelow' := hunder refused hbelow hmem
    exact ⟨refused, (hsub refused hbelow'.mem.1 false).1 hmem, hbelow'⟩

variable (setJob) in
/-- Of the rest of the forest the same jobs are submitted as from some later state. -/
theorem mem_submissions_rest {root : Job} {childJobs jobs : Forest Job}
    (hroot : root ∉ jobs.preorder) (hdisj : childJobs.preorder.Disjoint jobs.preorder) (s : σ) :
    ∃ t, ∀ j ∈ jobs.preorder, ∀ accepted,
      (j, accepted) ∈ submissions setJob (.cons root childJobs jobs) s ↔
        (j, accepted) ∈ submissions setJob jobs t := by
  have hne : ∀ j ∈ jobs.preorder, j ≠ root := fun j hj h => hroot (h ▸ hj)
  rcases submissions_cases setJob root childJobs jobs s with ⟨s', hs⟩ | ⟨s', s'', hs⟩
  · exact ⟨s', fun j hj accepted => by simp [hs, hne j hj]⟩
  · refine ⟨s'', fun j hj accepted => ?_⟩
    have hnot : (j, accepted) ∉ submissions setJob childJobs s' :=
      fun h => hdisj (mem_of_submitted h) hj
    simp [hs, hne j hj, hnot]

/-- **The jobs that are skipped** are those below a job that was refused. -/
theorem not_submitted_iff {tree : Forest Job} (hnodup : tree.preorder.Nodup) {s : σ} {job : Job}
    (hjob : job ∈ tree.preorder) :
    job ∉ (submissions setJob tree s).map Prod.fst ↔
      ∃ refused, (refused, false) ∈ submissions setJob tree s ∧ tree.Under refused job := by
  induction tree generalizing s with
  | nil => cases hjob
  | cons root childJobs jobs ihc ihj =>
    obtain ⟨hroot, hnodup⟩ := List.nodup_cons.1 hnodup
    rw [List.mem_append, not_or] at hroot
    obtain ⟨hchildJobs, hjobs, hdisj⟩ := List.nodup_append'.1 hnodup
    have hcases := submissions_cases setJob root childJobs jobs s
    rcases Forest.mem_preorder_cons.1 hjob with rfl | hmem | hmem
    · -- the root is submitted, and below nothing
      refine iff_of_false (not_not.2 ?_) ?_
      · rcases hcases with ⟨s', hs⟩ | ⟨s', s'', hs⟩ <;> simp [hs]
      · rintro ⟨refused, -, ⟨-, hbelow⟩ | hbelow | hbelow⟩
        · exact hroot.1 hbelow
        · exact hroot.1 hbelow.mem.2
        · exact hroot.2 hbelow.mem.2
    · have hne : job ≠ root := fun h => hroot.1 (h ▸ hmem)
      rcases hcases with ⟨s', hs⟩ | ⟨s', s'', hs⟩
      · -- the root is refused
        refine iff_of_true ?_ ⟨root, by simp [hs], .inl ⟨rfl, hmem⟩⟩
        rw [hs, List.map_cons, List.mem_cons, not_or]
        exact ⟨hne, fun h => hdisj hmem ((submissions_sublist _ _).subset h)⟩
      · refine not_submitted_congr hmem (fun j hj accepted => ?_) (fun refused h hsub => ?_)
          (fun refused h => .inr (.inl h)) (ihc hchildJobs hmem (s := s'))
        · have hj' : j ≠ root := fun h => hroot.1 (h ▸ hj)
          have hnot : (j, accepted) ∉ submissions setJob jobs s'' :=
            fun h => hdisj hj (mem_of_submitted h)
          simp [hs, hj', hnot]
        · rcases h with ⟨rfl, -⟩ | h | h
          · have hnot : (root, false) ∉ submissions setJob childJobs s' ∧
                (root, false) ∉ submissions setJob jobs s'' :=
              ⟨fun h => hroot.1 (mem_of_submitted h), fun h => hroot.2 (mem_of_submitted h)⟩
            simp [hs, hnot] at hsub
          · exact h
          · exact absurd h.mem.2 (hdisj hmem)
    · obtain ⟨t, ht⟩ := mem_submissions_rest setJob hroot.2 hdisj s
      refine not_submitted_congr hmem ht (fun refused h _ => ?_) (fun refused h => .inr (.inr h))
        (ihj hjobs hmem)
      rcases h with ⟨-, h⟩ | h | h
      · exact absurd hmem (hdisj h)
      · exact absurd hmem (hdisj h.mem.2)
      · exact h

end

/-! ## The result -/

/-- **Job trees.** For valid jobs of different names in any order, `generateJobTree` does not go
out of range; it succeeds if and only if every parent is one of the jobs and no chain of parents
cycles; the tree has each job once, as a root if it has no parent and otherwise directly below its
parent. Of this tree, whatever `SetJob` answers, `recursiveSetJob` submits each job at most once,
after its parent was accepted, and skips those below a job that was refused and no others. -/
theorem generateJobTree_correct (env : Env) (jobs : List Job)
    (hvalid : ∀ job ∈ jobs, job.validate env = .ok ()) (hnames : (jobs.map Job.name).Nodup) :
    generateJobTree env jobs ≠ .error (.text "runtime error: index out of range") ∧
    ((∃ tree, generateJobTree env jobs = .ok tree) ↔
      ParentsIn jobs ∧ Acyclic (parentNameIn jobs)) ∧
    ∀ tree, generateJobTree env jobs = .ok tree →
      IsJobTree jobs tree ∧
      ∀ (σ : Type) (setJob : Job → σ → Except Err Unit × σ) (s : σ),
        ((submissions setJob tree s).map Prod.fst).Nodup ∧
        (∀ before job accepted after,
          submissions setJob tree s = before ++ (job, accepted) :: after → job.parentJob ≠ "" →
            ∃ parent, (parent, true) ∈ before ∧ parent.name = job.parentJob) ∧
        ∀ job ∈ jobs, job ∉ (submissions setJob tree s).map Prod.fst ↔
          ∃ refused, (refused, false) ∈ submissions setJob tree s ∧ tree.Under refused job := by
  have hcases := generateJobTree_cases hnames hvalid
  refine ⟨?_, ⟨fun ⟨tree, htree⟩ => ?_, fun hgood => ?_⟩, fun tree htree => ?_⟩
  · rcases hcases with ⟨tree, htree, -⟩ | ⟨herr, -⟩
    · rw [htree]
      exact fun h => by cases h
    · rw [herr]
      exact fun h => by cases h
  · exact (isJobTree_of_generateJobTree hnames hvalid htree).acyclic hnames
  · rcases hcases with ⟨tree, htree, -⟩ | ⟨-, hnot⟩
    · exact ⟨tree, htree⟩
    · exact absurd hgood hnot
  · have hjobTree := isJobTree_of_generateJobTree hnames hvalid htree
    have hnodup : tree.preorder.Nodup := hjobTree.perm.nodup_iff.2 hnames.of_map
    refine ⟨hjobTree, fun σ setJob s => ⟨?_, ?_, ?_⟩⟩
    · exact hnodup.sublist (submissions_sublist tree s)
    · intro before job accepted after hsplit hparent
      rcases parent_before hjobTree.linked hsplit with hroot | ⟨parent, hmem, hchild⟩
      · exact absurd (hjobTree.roots job hroot) hparent
      · exact ⟨parent, hmem, hchild.2.symm⟩
    · intro job hjob
      exact not_submitted_iff hnodup (hjobTree.perm.mem_iff.2 hjob)

/-- A job and its child, which comes first. -/
def childFirst : List Job :=
  [{ name := "b", parentJob := "a" }, { name := "a", schedule := "@manually" }]

/-- The child is placed below its parent, which comes after it. -/
theorem childFirst_placed : (∃ tree, generateJobTree Env.small childFirst = .ok tree) ↔
    ParentsIn childFirst ∧ Acyclic (parentNameIn childFirst) :=
  (generateJobTree_correct Env.small childFirst (by decide) (by decide)).2.1

end Dkron
