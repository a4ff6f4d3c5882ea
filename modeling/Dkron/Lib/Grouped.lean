import Mathlib.Algebra.BigOperators.Group.Finset.Piecewise
import Mathlib.Data.Finset.Dedup

/-!
# Accumulators by key

A loop that keeps an accumulator for each key in a map leaves under a key what the same loop leaves
when it is run on the elements with that key alone. What is added up over the keys is what is added
up over the list.
-/

namespace Grouped

variable {α κ β : Type*} [DecidableEq κ] (key : α → κ)

/-- The accumulator under the key of an element takes the element in; a missing one reads as `z`. -/
def accumulate (f : β → α → β) (z : β) (m : κ → Option β) (a : α) : κ → Option β :=
  Function.update m (key a) (some (f ((m (key a)).getD z) a))

/-- The elements with a key. -/
def group (k : κ) (l : List α) : List α := l.filter fun a => key a = k

/-- What a list stands for; nothing if it is empty. -/
def ofNonempty {γ : Type*} (f : List α → γ) : List α → Option γ
  | [] => none
  | a :: l => some (f (a :: l))

theorem ofNonempty_perm {γ : Type*} {f : List α → γ} {l l' : List α} (h : l.Perm l')
    (hf : f l = f l') : ofNonempty f l = ofNonempty f l' := by
  cases l with
  | nil => rw [List.nil_perm.1 h]
  | cons a l =>
    cases l' with
    | nil => exact absurd h.length_eq (by simp)
    | cons b l' => exact congrArg some hf

theorem ofNonempty_map {γ δ : Type*} (f : List γ → δ) (g : α → γ) (l : List α) :
    ofNonempty f (l.map g) = ofNonempty (fun l => f (l.map g)) l := by
  cases l <;> rfl

theorem ofNonempty_congr {γ : Type*} {f g : List α → γ} {l : List α} (h : f l = g l) :
    ofNonempty f l = ofNonempty g l := by
  cases l with
  | nil => rfl
  | cons a l => exact congrArg some h

/-- Where nothing counts as nothing, an empty list needs no care. -/
theorem getD_ofNonempty {γ : Type*} {f : List α → γ} {d : γ} (hf : f [] = d) (l : List α) :
    (ofNonempty f l).getD d = f l := by
  cases l with
  | nil => exact hf.symm
  | cons a l => rfl

variable {key}

theorem group_cons_of_eq {a : α} {k : κ} (h : key a = k) (l : List α) :
    group key k (a :: l) = a :: group key k l :=
  List.filter_cons_of_pos (by simpa using h)

theorem group_cons_of_ne {a : α} {k : κ} (h : key a ≠ k) (l : List α) :
    group key k (a :: l) = group key k l :=
  List.filter_cons_of_neg (by simpa using h)

theorem foldl_accumulate_of_some (f : β → α → β) (z : β) {m : κ → Option β} {k : κ} {b : β}
    (h : m k = some b) (l : List α) :
    l.foldl (accumulate key f z) m k = some ((group key k l).foldl f b) := by
  induction l generalizing m b with
  | nil => exact h
  | cons a l ih =>
    rw [List.foldl_cons]
    by_cases hk : key a = k
    · rw [group_cons_of_eq hk, List.foldl_cons]
      apply ih
      simp [accumulate, hk, h]
    · rw [group_cons_of_ne hk]
      apply ih
      simp [accumulate, Function.update_of_ne (Ne.symm hk), h]

/-- **The loop by keys.** From the empty map, the accumulator under a key is the one of its
elements, and there is none without elements. -/
theorem foldl_accumulate (f : β → α → β) (z : β) (k : κ) (l : List α) :
    l.foldl (accumulate key f z) (fun _ => none) k =
      ofNonempty (fun l => l.foldl f z) (group key k l) := by
  have hmissing : ∀ (l : List α) (m : κ → Option β), m k = none →
      l.foldl (accumulate key f z) m k = ofNonempty (fun l => l.foldl f z) (group key k l) := by
    intro l
    induction l with
    | nil => exact fun m h => h
    | cons a l ih =>
      intro m h
      rw [List.foldl_cons]
      by_cases hk : key a = k
      · rw [group_cons_of_eq hk]
        apply foldl_accumulate_of_some
        simp [accumulate, hk, h]
      · rw [group_cons_of_ne hk]
        apply ih
        simp [accumulate, Function.update_of_ne (Ne.symm hk), h]
  exact hmissing l _ rfl

/-- **The groups partition the list.** -/
theorem sum_groups {M : Type*} [AddCommMonoid M] (val : α → M) {s : Finset κ} {l : List α}
    (h : ∀ a ∈ l, key a ∈ s) : ∑ k ∈ s, ((group key k l).map val).sum = (l.map val).sum := by
  induction l with
  | nil => simp [group]
  | cons a l ih =>
    obtain ⟨ha, hl⟩ := List.forall_mem_cons.1 h
    have hgroup : ∀ k, ((group key k (a :: l)).map val).sum =
        (if key a = k then val a else 0) + ((group key k l).map val).sum := by
      intro k
      by_cases hk : key a = k
      · rw [group_cons_of_eq hk, if_pos hk, List.map_cons, List.sum_cons]
      · rw [group_cons_of_ne hk, if_neg hk, zero_add]
    simp only [hgroup, Finset.sum_add_distrib, ih hl, Finset.sum_ite_eq, if_pos ha, List.map_cons,
      List.sum_cons]

theorem flatMap_group_perm {ks : List κ} (h : ks.Nodup) (l : List α) :
    (ks.flatMap fun k => group key k l).Perm (l.filter fun a => key a ∈ ks) := by
  induction ks with
  | nil => simp
  | cons k ks ih =>
    obtain ⟨hk, hks⟩ := List.nodup_cons.1 h
    rw [List.flatMap_cons]
    refine ((ih hks).append_left _).trans ?_
    have hgroup : group key k l =
        (l.filter fun a => key a ∈ k :: ks).filter fun a => key a = k := by
      rw [group, List.filter_filter]
      exact List.filter_congr fun a _ => by simp +contextual
    have hrest : (l.filter fun a => key a ∈ ks) =
        (l.filter fun a => key a ∈ k :: ks).filter fun a => ¬key a = k := by
      rw [List.filter_filter]
      apply List.filter_congr
      intro a _
      rw [← Bool.decide_and, decide_eq_decide, List.mem_cons]
      constructor
      · exact fun ha => ⟨fun heq => hk (heq ▸ ha), .inr ha⟩
      · exact fun ha => ha.2.resolve_left ha.1
    rw [hgroup, hrest]
    simpa using List.filter_append_perm (fun a => key a = k) (l.filter fun a => key a ∈ k :: ks)

/-- The groups of different keys make up the list if and only if each element has one of them. -/
theorem map_groups_perm_iff {γ : Type*} (f : α → γ) {ks : List κ} (h : ks.Nodup) {l : List α} :
    (ks.flatMap fun k => (group key k l).map f).Perm (l.map f) ↔ ∀ a ∈ l, key a ∈ ks := by
  have hperm : (ks.flatMap fun k => (group key k l).map f).Perm
      ((l.filter fun a => key a ∈ ks).map f) := by
    rw [← List.map_flatMap]
    exact (flatMap_group_perm h l).map f
  constructor
  · intro hall
    have hlen := hperm.symm.trans hall |>.length_eq
    rw [List.length_map, List.length_map, List.length_filter_eq_length_iff] at hlen
    exact fun a ha => of_decide_eq_true (hlen a ha)
  · intro hall
    rw [List.filter_eq_self.2 fun a ha => decide_eq_true (hall a ha)] at hperm
    exact hperm

theorem countP_groups (p : α → Bool) {s : Finset κ} {l : List α} (h : ∀ a ∈ l, key a ∈ s) :
    ∑ k ∈ s, (group key k l).countP p = l.countP p := by
  have hsum : ∀ l : List α, l.countP p = (l.map fun a => if p a then 1 else 0).sum := by
    intro l
    induction l with
    | nil => rfl
    | cons a l ih => rw [List.countP_cons, ih, List.map_cons, List.sum_cons, Nat.add_comm]
  simp only [hsum]
  exact sum_groups _ h

theorem sum_map_filter_groups {M : Type*} [AddCommMonoid M] (val : α → M) (p : α → Bool)
    {s : Finset κ} {l : List α} (h : ∀ a ∈ l, key a ∈ s) :
    ∑ k ∈ s, (((group key k l).filter p).map val).sum = ((l.filter p).map val).sum := by
  have hfilter : ∀ k, (group key k l).filter p = group key k (l.filter p) :=
    fun k => List.filter_comm ..
  simp only [hfilter]
  exact sum_groups val fun a ha => h a (List.mem_filter.1 ha).1

end Grouped
