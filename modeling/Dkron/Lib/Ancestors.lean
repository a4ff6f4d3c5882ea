import Mathlib.Data.List.Basic

/-!
# Climbing to the root

Nodes with at most one parent each. Climbing from a node takes its parent, the parent's parent and
so on; the nodes are *acyclic* when every climb ends. Giving one node another parent keeps them
acyclic if and only if the climb from the new parent does not meet the node
(`acyclic_update_iff`).
-/

namespace Ancestors

variable {ν : Type*} {parent : ν → Option ν} {a c p : ν}

/-- The node `k` steps above. -/
def climb (parent : ν → Option ν) : ℕ → ν → Option ν
  | 0, c => some c
  | k + 1, c => (parent c).bind (climb parent k)

/-- `a` is `c` or one of its ancestors. -/
def Above (parent : ν → Option ν) (a c : ν) : Prop := ∃ k, climb parent k c = some a

/-- The climb ends. -/
def Ends (parent : ν → Option ν) (c : ν) : Prop := ∃ k, climb parent k c = none

/-- Every climb ends. -/
def Acyclic (parent : ν → Option ν) : Prop := ∀ c : ν, Ends parent c

theorem climb_succ_of_some (h : parent c = some p) (k : ℕ) :
    climb parent (k + 1) c = climb parent k p := by
  rw [climb, h, Option.bind_some]

theorem Above.refl (parent : ν → Option ν) (c : ν) : Above parent c c := ⟨0, rfl⟩

theorem Above.up (h : parent c = some p) (ha : Above parent a p) : Above parent a c := by
  obtain ⟨k, hk⟩ := ha
  exact ⟨k + 1, by rw [climb_succ_of_some h, hk]⟩

/-- Above a node is the node itself, or what is above its parent. -/
theorem above_iff : Above parent a c ↔ a = c ∨ ∃ p, parent c = some p ∧ Above parent a p := by
  refine ⟨fun h => ?_, fun h => ?_⟩
  · obtain ⟨k, hk⟩ := h
    cases k with
    | zero => exact .inl (Option.some.inj hk).symm
    | succ k =>
      obtain ⟨p, hp, hclimb⟩ := Option.bind_eq_some_iff.1 hk
      exact .inr ⟨p, hp, k, hclimb⟩
  · rcases h with rfl | ⟨p, hp, ha⟩
    · exact Above.refl parent a
    · exact ha.up hp

theorem Above.trans (ha : Above parent a p) (hp : Above parent p c) : Above parent a c := by
  obtain ⟨k, hk⟩ := hp
  induction k generalizing c with
  | zero =>
    obtain rfl : c = p := Option.some.inj hk
    exact ha
  | succ k ih =>
    obtain ⟨q, hq, hclimb⟩ := Option.bind_eq_some_iff.1 hk
    exact (ih hclimb).up hq

/-- The parent of what is above is above. -/
theorem Above.parent_above (hp : parent a = some p) (ha : Above parent a c) :
    Above parent p c := by
  obtain ⟨k, hk⟩ := ha
  induction k generalizing c with
  | zero =>
    obtain rfl : c = a := Option.some.inj hk
    exact (Above.refl parent p).up hp
  | succ k ih =>
    obtain ⟨q, hq, hclimb⟩ := Option.bind_eq_some_iff.1 hk
    exact (ih hclimb).up hq

theorem ends_iff : Ends parent c ↔ ∀ p, parent c = some p → Ends parent p := by
  refine ⟨fun ⟨k, hk⟩ p hp => ?_, fun h => ?_⟩
  · cases k with
    | zero => cases hk
    | succ k => exact ⟨k, by rw [← climb_succ_of_some hp, hk]⟩
  · cases hp : parent c with
    | none => exact ⟨1, by rw [climb, hp, Option.bind_none]⟩
    | some p =>
      obtain ⟨k, hk⟩ := h p hp
      exact ⟨k + 1, by rw [climb_succ_of_some hp, hk]⟩

/-- The climb ends if the climb from an ancestor does. -/
theorem Above.ends (h : Above parent a c) (ha : Ends parent a) : Ends parent c := by
  obtain ⟨k, hk⟩ := h
  induction k generalizing c with
  | zero =>
    obtain rfl : c = a := Option.some.inj hk
    exact ha
  | succ k ih =>
    obtain ⟨p, hp, hclimb⟩ := Option.bind_eq_some_iff.1 hk
    apply ends_iff.2
    intro q hq
    obtain rfl : p = q := Option.some.inj (hp.symm.trans hq)
    exact ih hclimb

/-- Induction from the root: a property passes from the parent to the child. -/
theorem Ends.induct {P : ν → Prop} (h : ∀ c, (∀ p, parent c = some p → P p) → P c)
    (hc : Ends parent c) : P c := by
  obtain ⟨k, hk⟩ := hc
  induction k generalizing c with
  | zero => cases hk
  | succ k ih => exact h c fun p hp => ih (by rw [← climb_succ_of_some hp, hk])

/-- A node whose climb ends is not met by the climb from its parent. -/
theorem Ends.not_above (hc : Ends parent c) (hp : parent c = some p) : ¬Above parent c p := by
  suffices h : ∀ p, parent c = some p → ¬Above parent c p from h p hp
  refine hc.induct (P := fun c => ∀ p, parent c = some p → ¬Above parent c p) ?_
  intro c ih p hp habove
  rcases above_iff.1 habove with rfl | ⟨q, hq, hcq⟩
  · exact ih c hp c hp (Above.refl parent c)
  · exact ih p hp q hq (hcq.parent_above hp)

section Update

variable [DecidableEq ν] {x : Option ν}

/-- The climb to a node does not depend on the parent of that node. -/
theorem Above.update (h : Above parent c a) : Above (Function.update parent c x) c a := by
  obtain ⟨k, hk⟩ := h
  induction k generalizing a with
  | zero =>
    obtain rfl : a = c := Option.some.inj hk
    exact Above.refl _ a
  | succ k ih =>
    by_cases ha : a = c
    · rw [ha]
      exact Above.refl _ c
    · obtain ⟨q, hq, hclimb⟩ := Option.bind_eq_some_iff.1 hk
      exact (ih hclimb).up (by rw [Function.update_of_ne ha, hq])

/-- A climb that does not meet the node ends as before. -/
theorem Ends.update (ha : Ends parent a) (hc : ¬Above parent c a) :
    Ends (Function.update parent c x) a := by
  revert hc
  refine ha.induct (P := fun a => ¬Above parent c a → Ends (Function.update parent c x) a) ?_
  intro a ih hc
  have hne : a ≠ c := fun h => hc (h ▸ Above.refl parent a)
  apply ends_iff.2
  intro p hp
  rw [Function.update_of_ne hne] at hp
  exact ih p hp fun habove => hc (habove.up hp)

/-- **Giving a node another parent** keeps the nodes acyclic if and only if the node is not above
the new parent. -/
theorem acyclic_update_iff (h : Acyclic parent) :
    Acyclic (Function.update parent c x) ↔ ∀ p, x = some p → ¬Above parent c p := by
  refine ⟨fun h' p hp habove => ?_, fun hnew => ?_⟩
  · refine (h' c).not_above (p := p) ?_ habove.update
    rw [Function.update_self, hp]
  · have hself : Ends (Function.update parent c x) c := by
      apply ends_iff.2
      intro p hp
      rw [Function.update_self] at hp
      exact (h p).update (hnew p hp)
    intro a
    refine (h a).induct fun a ih => ?_
    by_cases ha : a = c
    · rw [ha]
      exact hself
    · apply ends_iff.2
      intro p hp
      rw [Function.update_of_ne ha] at hp
      exact ih p hp

/-- Taking the parent away keeps the nodes acyclic. -/
theorem Acyclic.update_none (h : Acyclic parent) : Acyclic (Function.update parent c none) :=
  (acyclic_update_iff h).2 fun _ hp => by cases hp

end Update

end Ancestors
