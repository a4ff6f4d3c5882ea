import Mathlib.Data.List.Perm.Basic

/-!
# Forests

A forest is a list of trees, written with the first tree's root, its children and the other trees.
A tree can be moved under the first node that satisfies a predicate; that changes the order of the
nodes and nothing else.
-/

/-- A list of trees. -/
inductive Forest (α : Type*) where
  | nil
  | cons (a : α) (children rest : Forest α)

namespace Forest

variable {α : Type*}

/-- The nodes, each one before its children. -/
def preorder : Forest α → List α
  | nil => []
  | cons a children rest => a :: (children.preorder ++ rest.preorder)

/-- Trees without children. -/
def ofList : List α → Forest α
  | [] => nil
  | a :: as => cons a nil (ofList as)

/-- The number of trees. -/
def length : Forest α → ℕ
  | nil => 0
  | cons _ _ rest => rest.length + 1

/-- The tree at a place: its root and the root's children. -/
def get? : Forest α → ℕ → Option (α × Forest α)
  | nil, _ => none
  | cons a children _, 0 => some (a, children)
  | cons _ _ rest, i + 1 => rest.get? i

/-- The forest without the tree at a place. -/
def eraseIdx : Forest α → ℕ → Forest α
  | nil, _ => nil
  | cons _ _ rest, 0 => rest
  | cons a children rest, i + 1 => cons a children (rest.eraseIdx i)

/-- One more tree at the end. -/
def push : Forest α → α → Forest α → Forest α
  | nil, a, as => cons a as nil
  | cons b children rest, a, as => cons b children (rest.push a as)

/-- The tree as the last child of the first node, in preorder, that satisfies `p`. -/
def attach (p : α → Bool) (a : α) (as : Forest α) : Forest α → Option (Forest α)
  | nil => none
  | cons b children rest =>
    if p b then some (cons b (children.push a as) rest)
    else
      match attach p a as children with
      | some children' => some (cons b children' rest)
      | none => (attach p a as rest).map (cons b children)

/-- The same among the trees whose roots are not skipped. -/
def attachSkipping (skip p : α → Bool) (a : α) (as : Forest α) : Forest α → Option (Forest α)
  | nil => none
  | cons b children rest =>
    if skip b then (attachSkipping skip p a as rest).map (cons b children)
    else if p b then some (cons b (children.push a as) rest)
    else
      match attach p a as children with
      | some children' => some (cons b children' rest)
      | none => (attachSkipping skip p a as rest).map (cons b children)

@[simp] theorem preorder_ofList (as : List α) : (ofList as).preorder = as := by
  induction as with
  | nil => rfl
  | cons a as ih => simp [ofList, preorder, ih]

@[simp] theorem length_ofList (as : List α) : (ofList as).length = as.length := by
  induction as with
  | nil => rfl
  | cons a as ih => simp [ofList, length, ih]

theorem get?_eq_some_of_lt {f : Forest α} {i : ℕ} (h : i < f.length) : ∃ t, f.get? i = some t := by
  induction f generalizing i with
  | nil => exact absurd h (Nat.not_lt_zero i)
  | cons a children rest _ ih =>
    cases i with
    | zero => exact ⟨_, rfl⟩
    | succ i => exact ih (Nat.lt_of_succ_lt_succ h)

theorem mem_preorder_of_get? {f : Forest α} {i : ℕ} {a : α} {as : Forest α}
    (h : f.get? i = some (a, as)) : a ∈ f.preorder := by
  induction f generalizing i with
  | nil => simp [get?] at h
  | cons b children rest _ ih =>
    cases i with
    | zero =>
      cases h
      exact List.mem_cons_self
    | succ i => exact List.mem_cons_of_mem _ (List.mem_append_right _ (ih h))

/-! ## The nodes of a changed forest -/

theorem preorder_push (a : α) (as : Forest α) (f : Forest α) :
    (f.push a as).preorder = f.preorder ++ a :: as.preorder := by
  induction f with
  | nil => simp [push, preorder]
  | cons b children rest _ ih => simp [push, preorder, ih]

theorem preorder_attach {p : α → Bool} {a : α} {as f f' : Forest α}
    (h : attach p a as f = some f') : f'.preorder.Perm (f.preorder ++ a :: as.preorder) := by
  classical
  rw [List.perm_iff_count]
  intro x
  induction f generalizing f' with
  | nil => simp [attach] at h
  | cons b children rest ihc ihr =>
    rw [attach] at h
    split_ifs at h
    · cases h
      simp only [preorder, preorder_push, List.count_cons, List.count_append, List.cons_append]
      omega
    · cases hc : attach p a as children with
      | some children' =>
        simp only [hc, Option.some.injEq] at h
        subst h
        have hx := ihc hc
        simp only [preorder, List.count_cons, List.count_append, List.cons_append] at hx ⊢
        omega
      | none =>
        simp only [hc, Option.map_eq_some_iff] at h
        obtain ⟨rest', hr, rfl⟩ := h
        have hx := ihr hr
        simp only [preorder, List.count_cons, List.count_append, List.cons_append] at hx ⊢
        omega

theorem preorder_attachSkipping {skip p : α → Bool} {a : α} {as f f' : Forest α}
    (h : attachSkipping skip p a as f = some f') :
    f'.preorder.Perm (f.preorder ++ a :: as.preorder) := by
  classical
  rw [List.perm_iff_count]
  intro x
  induction f generalizing f' with
  | nil => simp [attachSkipping] at h
  | cons b children rest _ ihr =>
    have hrest : ∀ {f'}, (attachSkipping skip p a as rest).map (cons b children) = some f' →
        f'.preorder.count x = ((cons b children rest).preorder ++ a :: as.preorder).count x := by
      intro f' hf
      obtain ⟨rest', hr, rfl⟩ := Option.map_eq_some_iff.1 hf
      have hx := ihr hr
      simp only [preorder, List.count_cons, List.count_append, List.cons_append] at hx ⊢
      omega
    rw [attachSkipping] at h
    split_ifs at h
    · exact hrest h
    · cases h
      simp only [preorder, preorder_push, List.count_cons, List.count_append, List.cons_append]
      omega
    · cases hc : attach p a as children with
      | some children' =>
        simp only [hc, Option.some.injEq] at h
        subst h
        have hx := (preorder_attach hc).count_eq x
        simp only [preorder, List.count_cons, List.count_append, List.cons_append] at hx ⊢
        omega
      | none => exact hrest (by simpa only [hc] using h)

/-- A tree whose root is skipped stays as it is. -/
theorem get?_attachSkipping {skip p : α → Bool} {a : α} {as f f' : Forest α}
    (h : attachSkipping skip p a as f = some f') {i : ℕ} {b : α} {bs : Forest α}
    (hi : f.get? i = some (b, bs)) (hb : skip b) : f'.get? i = some (b, bs) := by
  induction f generalizing f' i with
  | nil => simp [get?] at hi
  | cons c children rest _ ih =>
    have hrest : ∀ {f'}, (attachSkipping skip p a as rest).map (cons c children) = some f' →
        f'.get? i = some (b, bs) := by
      intro f' hf
      obtain ⟨rest', hr, rfl⟩ := Option.map_eq_some_iff.1 hf
      cases i with
      | zero => exact hi
      | succ i => exact ih hr hi
    rw [attachSkipping] at h
    split_ifs at h with hskip
    · exact hrest h
    · cases i with
      | zero =>
        simp only [get?, Option.some.injEq, Prod.mk.injEq] at hi
        exact absurd hb (hi.1 ▸ hskip)
      | succ i =>
        cases h
        exact hi
    · cases hc : attach p a as children with
      | some children' =>
        simp only [hc, Option.some.injEq] at h
        subst h
        cases i with
        | zero =>
          simp only [get?, Option.some.injEq, Prod.mk.injEq] at hi
          exact absurd hb (hi.1 ▸ hskip)
        | succ i => exact hi
      | none => exact hrest (by simpa only [hc] using h)

theorem preorder_eraseIdx {f : Forest α} {i : ℕ} {a : α} {as : Forest α}
    (h : f.get? i = some (a, as)) :
    f.preorder.Perm ((f.eraseIdx i).preorder ++ a :: as.preorder) := by
  classical
  rw [List.perm_iff_count]
  intro x
  induction f generalizing i with
  | nil => simp [get?] at h
  | cons b children rest _ ih =>
    cases i with
    | zero =>
      cases h
      simp only [eraseIdx, preorder, List.count_cons, List.count_append]
      omega
    | succ i =>
      have hx := ih h
      simp only [eraseIdx, preorder, List.count_cons, List.count_append, List.cons_append] at hx ⊢
      omega

/-- **Moving a tree keeps the nodes.** A tree that is attached elsewhere and taken from its place
leaves a forest with the same nodes. -/
theorem preorder_move {skip p : α → Bool} {a : α} {as f f' : Forest α} {i : ℕ}
    (h : attachSkipping skip p a as f = some f') (hi : f.get? i = some (a, as)) (ha : skip a) :
    (f'.eraseIdx i).preorder.Perm f.preorder :=
  (List.perm_append_right_iff _).1
    ((preorder_eraseIdx (get?_attachSkipping h hi ha)).symm.trans (preorder_attachSkipping h))

/-! ## Roots and children -/

/-- The roots of the trees. -/
def roots : Forest α → List α
  | nil => []
  | cons a _ rest => a :: rest.roots

/-- The children of every node are related to it. -/
def Linked (R : α → α → Prop) : Forest α → Prop
  | nil => True
  | cons a children rest => (∀ b ∈ children.roots, R a b) ∧ children.Linked R ∧ rest.Linked R

/-- `b` is in the tree below a node `a`. -/
def Under (a b : α) : Forest α → Prop
  | nil => False
  | cons c children rest =>
    c = a ∧ b ∈ children.preorder ∨ children.Under a b ∨ rest.Under a b

variable {R : α → α → Prop}

theorem length_roots (f : Forest α) : f.roots.length = f.length := by
  induction f with
  | nil => rfl
  | cons a children rest _ ih => simp [roots, length, ih]

theorem roots_sublist_preorder (f : Forest α) : f.roots.Sublist f.preorder := by
  induction f with
  | nil => exact List.Sublist.refl []
  | cons b children rest _ ih =>
    exact (ih.trans (List.sublist_append_right _ _)).cons_cons b

theorem mem_preorder_of_mem_roots {f : Forest α} {a : α} (h : a ∈ f.roots) : a ∈ f.preorder :=
  f.roots_sublist_preorder.subset h

theorem mem_preorder_cons {a b : α} {children rest : Forest α} :
    b ∈ (cons a children rest).preorder ↔ b = a ∨ b ∈ children.preorder ∨ b ∈ rest.preorder := by
  rw [preorder, List.mem_cons, List.mem_append]

theorem Under.mem {f : Forest α} {a b : α} (h : f.Under a b) :
    a ∈ f.preorder ∧ b ∈ f.preorder := by
  induction f with
  | nil => cases h
  | cons c children rest ihc ihr =>
    rw [mem_preorder_cons, mem_preorder_cons]
    rcases h with ⟨rfl, hb⟩ | h | h
    · exact ⟨.inl rfl, .inr (.inl hb)⟩
    · exact ⟨.inr (.inl (ihc h).1), .inr (.inl (ihc h).2)⟩
    · exact ⟨.inr (.inr (ihr h).1), .inr (.inr (ihr h).2)⟩

theorem roots_ofList (as : List α) : (ofList as).roots = as := by
  induction as with
  | nil => rfl
  | cons a as ih => rw [ofList, roots, ih]

theorem linked_ofList (as : List α) : (ofList as).Linked R := by
  induction as with
  | nil => trivial
  | cons a as ih => exact ⟨fun b hb => (by cases hb), trivial, ih⟩

theorem roots_getElem? {f : Forest α} {i : ℕ} {a : α} {as : Forest α}
    (h : f.get? i = some (a, as)) : f.roots[i]? = some a := by
  induction f generalizing i with
  | nil => cases h
  | cons b children rest _ ih =>
    cases i with
    | zero =>
      cases h
      rfl
    | succ i => exact ih h

/-- The tree at a place is linked. -/
theorem Linked.get? {f : Forest α} (hf : f.Linked R) {i : ℕ} {a : α} {as : Forest α}
    (h : f.get? i = some (a, as)) : (∀ b ∈ as.roots, R a b) ∧ as.Linked R := by
  induction f generalizing i with
  | nil => cases h
  | cons b children rest _ ih =>
    obtain ⟨hb, hchildren, hrest⟩ := hf
    cases i with
    | zero =>
      cases h
      exact ⟨hb, hchildren⟩
    | succ i => exact ih hrest h

theorem roots_eraseIdx (f : Forest α) (i : ℕ) : (f.eraseIdx i).roots = f.roots.eraseIdx i := by
  induction f generalizing i with
  | nil => rfl
  | cons b children rest _ ih =>
    cases i with
    | zero => rfl
    | succ i => exact congrArg (b :: ·) (ih i)

theorem Linked.eraseIdx {f : Forest α} (hf : f.Linked R) (i : ℕ) : (f.eraseIdx i).Linked R := by
  induction f generalizing i with
  | nil => trivial
  | cons b children rest _ ih =>
    obtain ⟨hb, hchildren, hrest⟩ := hf
    cases i with
    | zero => exact hrest
    | succ i => exact ⟨hb, hchildren, ih hrest i⟩

theorem roots_push (a : α) (as f : Forest α) : (f.push a as).roots = f.roots ++ [a] := by
  induction f with
  | nil => rfl
  | cons b children rest _ ih => exact congrArg (b :: ·) ih

theorem Linked.push {f : Forest α} (hf : f.Linked R) {a : α} {as : Forest α}
    (ha : ∀ b ∈ as.roots, R a b) (has : as.Linked R) : (f.push a as).Linked R := by
  induction f with
  | nil => exact ⟨ha, has, trivial⟩
  | cons b children rest _ ih => exact ⟨hf.1, hf.2.1, ih hf.2.2⟩

section Attach

variable {skip p : α → Bool} {a : α} {as f f' : Forest α}

theorem roots_attach (h : attach p a as f = some f') : f'.roots = f.roots := by
  induction f generalizing f' with
  | nil => cases h
  | cons b children rest _ ih =>
    rw [attach] at h
    split_ifs at h
    · cases h
      rfl
    · cases hc : attach p a as children with
      | some children' =>
        simp only [hc, Option.some.injEq] at h
        rw [← h, roots, roots]
      | none =>
        simp only [hc, Option.map_eq_some_iff] at h
        obtain ⟨rest', hr, rfl⟩ := h
        rw [roots, roots, ih hr]

/-- The node under which the tree comes gets one more child. -/
theorem Linked.cons_push {b : α} {children rest : Forest α} (hf : (cons b children rest).Linked R)
    (hb : R b a) (ha : ∀ c ∈ as.roots, R a c) (has : as.Linked R) :
    (cons b (children.push a as) rest).Linked R := by
  refine ⟨?_, hf.2.1.push ha has, hf.2.2⟩
  intro c hc
  rw [roots_push] at hc
  rcases List.mem_append.1 hc with hc | hc
  · exact hf.1 c hc
  · rw [List.mem_singleton.1 hc]
    exact hb

theorem Linked.attach (hf : f.Linked R) (h : attach p a as f = some f')
    (hp : ∀ b, p b → R b a) (ha : ∀ b ∈ as.roots, R a b) (has : as.Linked R) : f'.Linked R := by
  induction f generalizing f' with
  | nil => cases h
  | cons b children rest ihc ihr =>
    rw [Forest.attach] at h
    split_ifs at h with hb
    · cases h
      exact hf.cons_push (hp b hb) ha has
    · cases hc : Forest.attach p a as children with
      | some children' =>
        simp only [hc, Option.some.injEq] at h
        rw [← h]
        exact ⟨fun c hc' => hf.1 c (roots_attach hc ▸ hc'), ihc hf.2.1 hc, hf.2.2⟩
      | none =>
        simp only [hc, Option.map_eq_some_iff] at h
        obtain ⟨rest', hr, rfl⟩ := h
        exact ⟨hf.1, hf.2.1, ihr hf.2.2 hr⟩

theorem not_of_attach_eq_none (h : Forest.attach p a as f = none) {b : α} (hb : b ∈ f.preorder) :
    ¬p b := by
  induction f with
  | nil => cases hb
  | cons c children rest ihc ihr =>
    rw [Forest.attach] at h
    split_ifs at h with hc
    cases hch : Forest.attach p a as children with
    | some children' => simp [hch] at h
    | none =>
      simp only [hch, Option.map_eq_none_iff] at h
      rcases mem_preorder_cons.1 hb with rfl | hb | hb
      · exact hc
      · exact ihc hch hb
      · exact ihr h hb

theorem roots_attachSkipping (h : attachSkipping skip p a as f = some f') :
    f'.roots = f.roots := by
  induction f generalizing f' with
  | nil => cases h
  | cons b children rest _ ih =>
    have hrest : (attachSkipping skip p a as rest).map (cons b children) = some f' →
        f'.roots = (cons b children rest).roots := by
      intro hf
      obtain ⟨rest', hr, rfl⟩ := Option.map_eq_some_iff.1 hf
      rw [roots, roots, ih hr]
    rw [attachSkipping] at h
    split_ifs at h
    · exact hrest h
    · cases h
      rfl
    · cases hc : Forest.attach p a as children with
      | some children' =>
        simp only [hc, Option.some.injEq] at h
        rw [← h, roots, roots]
      | none => exact hrest (by simpa only [hc] using h)

theorem Linked.attachSkipping (hf : f.Linked R) (h : attachSkipping skip p a as f = some f')
    (hp : ∀ b, p b → R b a) (ha : ∀ b ∈ as.roots, R a b) (has : as.Linked R) : f'.Linked R := by
  induction f generalizing f' with
  | nil => cases h
  | cons b children rest _ ih =>
    have hrest : (Forest.attachSkipping skip p a as rest).map (cons b children) = some f' →
        f'.Linked R := by
      intro hmap
      obtain ⟨rest', hr, rfl⟩ := Option.map_eq_some_iff.1 hmap
      exact ⟨hf.1, hf.2.1, ih hf.2.2 hr⟩
    rw [Forest.attachSkipping] at h
    split_ifs at h with _ hb
    · exact hrest h
    · cases h
      exact hf.cons_push (hp b hb) ha has
    · cases hc : Forest.attach p a as children with
      | some children' =>
        simp only [hc, Option.some.injEq] at h
        rw [← h]
        exact ⟨fun c hc' => hf.1 c (roots_attach hc ▸ hc'), hf.2.1.attach hc hp ha has, hf.2.2⟩
      | none => exact hrest (by simpa only [hc] using h)

/-- Nothing found means that no node outside the skipped trees satisfies the predicate. -/
theorem not_of_attachSkipping_eq_none (h : Forest.attachSkipping skip p a as f = none)
    (hskip : ∀ b ∈ f.roots, ¬skip b) {b : α} (hb : b ∈ f.preorder) : ¬p b := by
  induction f with
  | nil => cases hb
  | cons c children rest _ ih =>
    obtain ⟨hc, hrest⟩ := List.forall_mem_cons.1 hskip
    rw [Forest.attachSkipping, if_neg hc] at h
    split_ifs at h with hpc
    cases hch : Forest.attach p a as children with
    | some children' => simp [hch] at h
    | none =>
      simp only [hch, Option.map_eq_none_iff] at h
      rcases mem_preorder_cons.1 hb with rfl | hb | hb
      · exact hpc
      · exact not_of_attach_eq_none hch hb
      · exact ih h hrest hb

/-- If only the tree at a place is skipped, what is not found is not outside that tree. -/
theorem mem_of_attachSkipping_eq_none (h : Forest.attachSkipping skip p a as f = none) {i : ℕ}
    {b : α} {bs : Forest α} (hi : f.get? i = some (b, bs)) (hnodup : f.roots.Nodup)
    (hskip : ∀ c ∈ f.roots, skip c ↔ c = b) {c : α} (hc : c ∈ f.preorder) (hp : p c) :
    c = b ∨ c ∈ bs.preorder := by
  induction f generalizing i with
  | nil => cases hi
  | cons d children rest _ ih =>
    obtain ⟨hd, hrest⟩ := List.forall_mem_cons.1 hskip
    obtain ⟨hnotMem, hnodup⟩ := List.nodup_cons.1 hnodup
    rw [Forest.attachSkipping] at h
    cases i with
    | zero =>
      cases hi
      rw [if_pos (hd.2 rfl), Option.map_eq_none_iff] at h
      have hnone : ∀ e ∈ rest.roots, ¬skip e := by
        intro e he hskipped
        exact hnotMem ((hrest e he).1 hskipped ▸ he)
      rcases mem_preorder_cons.1 hc with hc | hc | hc
      · exact .inl hc
      · exact .inr hc
      · exact absurd hp (not_of_attachSkipping_eq_none h hnone hc)
    | succ i =>
      have hb : b ∈ rest.roots := List.mem_of_getElem? (roots_getElem? hi)
      have hne : ¬skip d := fun hskipped => hnotMem (hd.1 hskipped ▸ hb)
      rw [if_neg hne] at h
      split_ifs at h with hpd
      cases hch : Forest.attach p a as children with
      | some children' => simp [hch] at h
      | none =>
        simp only [hch, Option.map_eq_none_iff] at h
        rcases mem_preorder_cons.1 hc with rfl | hc | hc
        · exact absurd hp hpd
        · exact absurd hp (not_of_attach_eq_none hch hc)
        · exact ih h hi hnodup hrest hc

end Attach

end Forest
