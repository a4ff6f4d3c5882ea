import Mathlib.Data.List.Nodup

/-!
# Links kept on both sides

A table of named records, each with an optional parent and a list of children. The link between a
child and its parent is kept twice, and two properties say that the sides agree:

* `Backed`: whoever has a parent is listed there,
* `Exact`: whoever is listed is a child, and is listed once.

A record is written by `put`, which moves its name from the list of its old parent to that of its
new one, and deleted by `remove`. `put` keeps `Backed` as long as the new record lists what the old
one did, and it keeps `Exact` if and only if it lists nothing else (`Exact.put_iff`).
-/

namespace Links

/-- What a record says about its place. -/
@[ext] structure Node (ν : Type*) where
  parent : Option ν
  children : List ν

/-- The records by name. -/
abbrev Table (ν : Type*) := ν → Option (Node ν)

variable {ν : Type*}

/-- The parent a record names. -/
def parentOf (t : Table ν) (c : ν) : Option ν := (t c).bind (·.parent)

/-- The children a record lists; none without the record. -/
def childrenOf (t : Table ν) (p : ν) : List ν := (t p).elim [] (·.children)

/-- Every child is listed by its parent. -/
def Backed (t : Table ν) : Prop := ∀ c p : ν, parentOf t c = some p → c ∈ childrenOf t p

/-- Every listed name is a child, listed once. -/
def Exact (t : Table ν) : Prop :=
  ∀ p : ν, (childrenOf t p).Nodup ∧ ∀ c ∈ childrenOf t p, parentOf t c = some p

theorem Exact.mem_iff {t : Table ν} (hb : Backed t) (he : Exact t) {c p : ν} :
    c ∈ childrenOf t p ↔ parentOf t c = some p :=
  ⟨(he p).2 c, hb c p⟩

/-- A listed name comes from a record. -/
theorem ne_none_of_mem {t : Table ν} {n x : ν} (h : x ∈ childrenOf t n) : t n ≠ none := by
  intro hn
  simp [childrenOf, hn] at h

variable [DecidableEq ν]

/-- The list of children of `n` after `c` has moved from `old` to `new`. -/
def moved (c : ν) (old new : Option ν) (n : ν) (children : List ν) : List ν :=
  if new = old then children
  else if new = some n then children ++ [c]
  else if old = some n then children.filter fun x => x ≠ c
  else children

/-- Write the record of `c`, and move `c` to its new parent. -/
def put (c : ν) (node : Node ν) (t : Table ν) : Table ν := fun n =>
  if n = c then some node
  else (t n).map fun r =>
    { r with children := moved c (parentOf t c) node.parent n r.children }

/-- Delete the record of `c`, and drop `c` from the list of its parent. -/
def remove (c : ν) (t : Table ν) : Table ν := fun n =>
  if n = c then none
  else (t n).map fun r =>
    { r with children := if parentOf t c = some n then r.children.filter fun x => x ≠ c
                         else r.children }

/-! ## What `moved` does to a list -/

section

variable {c : ν} {old new : Option ν} {n : ν} {xs : List ν}

/-- Only `c` moves. -/
theorem mem_moved_of_ne {x : ν} (hx : x ≠ c) : x ∈ moved c old new n xs ↔ x ∈ xs := by
  unfold moved
  split_ifs <;> simp [hx]

/-- Where `c` was listed by its old parent only, it is listed by its new parent only. -/
theorem mem_moved_self (h : c ∈ xs ↔ old = some n) : c ∈ moved c old new n xs ↔ new = some n := by
  unfold moved
  split_ifs with hsame hnew hold
  · rw [h, hsame]
  · simp [hnew]
  · simp [hnew]
  · simp [h, hnew, hold]

theorem moved_nodup (hnd : xs.Nodup) (h : c ∈ xs ↔ old = some n) :
    (moved c old new n xs).Nodup := by
  unfold moved
  split_ifs with hsame hnew hold
  · exact hnd
  · have hc : c ∉ xs := fun hc => hsame (hnew.trans (h.1 hc).symm)
    exact hnd.append (List.nodup_singleton c) (List.disjoint_singleton.2 hc)
  · exact hnd.filter _
  · exact hnd

/-- The new parent lists `c` if the old one did. -/
theorem mem_moved_new (h : old = some n → c ∈ xs) (hnew : new = some n) :
    c ∈ moved c old new n xs := by
  unfold moved
  split_ifs with hsame
  · exact h (hsame.symm.trans hnew)
  · simp

end

/-! ## Writing a record -/

section

variable {c : ν} {node : Node ν} {t : Table ν}

@[simp] theorem parentOf_put_self : parentOf (put c node t) c = node.parent := by
  simp [parentOf, put]

@[simp] theorem childrenOf_put_self : childrenOf (put c node t) c = node.children := by
  simp [childrenOf, put]

theorem parentOf_put_of_ne {n : ν} (h : n ≠ c) : parentOf (put c node t) n = parentOf t n := by
  simp only [parentOf, put, if_neg h]
  cases t n <;> rfl

theorem childrenOf_put_of_ne {n : ν} (h : n ≠ c) (hn : t n ≠ none) :
    childrenOf (put c node t) n =
      moved c (parentOf t c) node.parent n (childrenOf t n) := by
  obtain ⟨r, hr⟩ := Option.ne_none_iff_exists'.1 hn
  simp [childrenOf, put, h, hr]

theorem childrenOf_put_of_none {n : ν} (h : n ≠ c) (hn : t n = none) :
    childrenOf (put c node t) n = [] := by
  simp [childrenOf, put, h, hn]

theorem parentOf_put : parentOf (put c node t) = Function.update (parentOf t) c node.parent := by
  funext n
  by_cases hn : n = c
  · rw [hn, parentOf_put_self, Function.update_self]
  · rw [parentOf_put_of_ne hn, Function.update_of_ne hn]

/-- **`put` keeps the child side backed**, when the new parent is there, is not the record itself,
and no child is dropped. -/
theorem Backed.put (hb : Backed t) (hself : node.parent ≠ some c)
    (hparent : ∀ p : ν, node.parent = some p → t p ≠ none)
    (hkeep : ∀ x ∈ childrenOf t c, x ∈ node.children) : Backed (put c node t) := by
  intro x p hxp
  by_cases hx : x = c
  · subst hx
    rw [parentOf_put_self] at hxp
    have hp : p ≠ x := fun h => hself (h ▸ hxp)
    rw [childrenOf_put_of_ne hp (hparent p hxp)]
    exact mem_moved_new (hb x p) hxp
  · rw [parentOf_put_of_ne hx] at hxp
    have hmem : x ∈ childrenOf t p := hb x p hxp
    by_cases hp : p = c
    · subst hp
      rw [childrenOf_put_self]
      exact hkeep x hmem
    · rw [childrenOf_put_of_ne hp (ne_none_of_mem hmem)]
      exact (mem_moved_of_ne hx).2 hmem

/-- Writing a record that lists what it listed before keeps the lists exact. -/
theorem Exact.put (hb : Backed t) (he : Exact t) (hself : node.parent ≠ some c)
    (hself' : parentOf t c ≠ some c) (hkeep : node.children = childrenOf t c) :
    Exact (put c node t) := by
  intro p
  by_cases hp : p = c
  · subst hp
    rw [childrenOf_put_self, hkeep]
    refine ⟨(he p).1, fun x hx => ?_⟩
    have hxp : x ≠ p := by
      rintro rfl
      exact hself' ((he x).2 x hx)
    rw [parentOf_put_of_ne hxp]
    exact (he p).2 x hx
  · by_cases hnone : t p = none
    · rw [childrenOf_put_of_none hp hnone]
      exact ⟨List.nodup_nil, fun x hx => absurd hx List.not_mem_nil⟩
    · rw [childrenOf_put_of_ne hp hnone]
      refine ⟨moved_nodup (he p).1 (he.mem_iff hb), fun x hx => ?_⟩
      by_cases hxc : x = c
      · subst hxc
        rw [parentOf_put_self]
        exact (mem_moved_self (he.mem_iff hb)).1 hx
      · rw [parentOf_put_of_ne hxc]
        exact (he p).2 x ((mem_moved_of_ne hxc).1 hx)

/-- **`put` keeps the lists exact if and only if** the record lists what it listed before. A record
that listed children is taken to list them still, so this is about those that did not. -/
theorem Exact.put_iff (hb : Backed t) (he : Exact t) (hself : node.parent ≠ some c)
    (hself' : parentOf t c ≠ some c)
    (hkeep : childrenOf t c ≠ [] → node.children = childrenOf t c) :
    Exact (Links.put c node t) ↔ node.children = childrenOf t c := by
  refine ⟨fun he' => ?_, he.put hb hself hself'⟩
  by_cases hempty : childrenOf t c = []
  · rw [hempty, List.eq_nil_iff_forall_not_mem]
    intro x hx
    have hxc : parentOf (Links.put c node t) x = some c :=
      (he' c).2 x (by rwa [childrenOf_put_self])
    have hne : x ≠ c := by
      rintro rfl
      exact hself (by rwa [parentOf_put_self] at hxc)
    rw [parentOf_put_of_ne hne] at hxc
    have hmem : x ∈ childrenOf t c := hb x c hxc
    rw [hempty] at hmem
    cases hmem
  · exact hkeep hempty

end

/-! ## Deleting a record -/

section

variable {c : ν} {t : Table ν}

theorem parentOf_remove {n : ν} :
    parentOf (remove c t) n = if n = c then none else parentOf t n := by
  by_cases hn : n = c
  · simp [parentOf, remove, hn]
  · simp only [parentOf, remove, if_neg hn]
    cases t n <;> rfl

theorem parentOf_remove_eq : parentOf (remove c t) = Function.update (parentOf t) c none := by
  funext n
  rw [parentOf_remove, Function.update_apply]

theorem childrenOf_remove {n : ν} (h : n ≠ c) :
    childrenOf (remove c t) n =
      if parentOf t c = some n then (childrenOf t n).filter fun x => x ≠ c else childrenOf t n := by
  simp only [childrenOf, remove, if_neg h]
  cases t n with
  | none => simp
  | some r => rfl

theorem mem_childrenOf_remove {n x : ν} (h : n ≠ c) (hx : x ≠ c) :
    x ∈ childrenOf (remove c t) n ↔ x ∈ childrenOf t n := by
  rw [childrenOf_remove h]
  split_ifs <;> simp [hx]

theorem Backed.remove (hb : Backed t) (hleaf : childrenOf t c = []) : Backed (remove c t) := by
  intro x p hxp
  rw [parentOf_remove] at hxp
  split_ifs at hxp with hx
  have hmem : x ∈ childrenOf t p := hb x p hxp
  have hp : p ≠ c := by
    rintro rfl
    rw [hleaf] at hmem
    cases hmem
  exact (mem_childrenOf_remove hp hx).2 hmem

theorem Exact.remove (he : Exact t) : Exact (remove c t) := by
  intro p
  by_cases hp : p = c
  · have hnil : childrenOf (Links.remove c t) p = [] := by simp [childrenOf, Links.remove, hp]
    rw [hnil]
    exact ⟨List.nodup_nil, fun x hx => absurd hx List.not_mem_nil⟩
  · refine ⟨?_, fun x hx => ?_⟩
    · rw [childrenOf_remove hp]
      split_ifs
      · exact (he p).1.filter _
      · exact (he p).1
    · have hxc : x ≠ c := by
        rintro rfl
        rw [childrenOf_remove hp] at hx
        split_ifs at hx with hparent
        · simp at hx
        · exact hparent ((he p).2 x hx)
      rw [parentOf_remove, if_neg hxc]
      exact (he p).2 x ((mem_childrenOf_remove hp hxc).1 hx)

end

end Links
