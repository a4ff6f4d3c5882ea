import Mathlib.Data.List.Perm.Subperm
import Mathlib.Data.List.NodupEquivFin

/-!
# Lists that are changed in place

The two assignments with which code takes an element out of a slice without moving the others: the
exchange of two elements, and the last element written over another one before the slice is cut
short. Both keep the elements up to their order.
-/

namespace InPlace

variable {α : Type*}

/-- The elements at two places change places; none if a place is out of range. -/
def swap (l : List α) (i j : ℕ) : Option (List α) :=
  match l[i]?, l[j]? with
  | some a, some b => some ((l.set i b).set j a)
  | _, _ => none

/-- The last element takes the place of another one, and the list ends before it. -/
def removeSwap (l : List α) (i : ℕ) : Option (List α) :=
  match l[i]?, l.getLast? with
  | some _, some b => some (l.set i b).dropLast
  | _, _ => none

theorem exists_swap {l : List α} {i j : ℕ} (hi : i < l.length) (hj : j < l.length) :
    ∃ l', swap l i j = some l' ∧ l'.Perm l := by
  refine ⟨(l.set i l[j]).set j l[i], ?_, List.set_set_perm hi hj⟩
  simp [swap, hi, hj]

/-- Only what stands after the element moves. -/
theorem exists_removeSwap (xs : List α) (a : α) (ys : List α) :
    ∃ ys', removeSwap (xs ++ a :: ys) xs.length = some (xs ++ ys') ∧ ys'.Perm ys := by
  rcases List.eq_nil_or_concat ys with rfl | ⟨zs, b, rfl⟩
  · exact ⟨[], by simp [removeSwap], List.Perm.nil⟩
  · rw [List.concat_eq_append]
    refine ⟨b :: zs, ?_, (List.perm_append_singleton b zs).symm⟩
    have hlast : (xs ++ a :: (zs ++ [b])).getLast? = some b := by
      rw [← List.cons_append, ← List.append_assoc, List.getLast?_concat]
    have hset : (xs ++ a :: (zs ++ [b])).set xs.length b = xs ++ b :: zs ++ [b] := by simp
    have hget : (xs ++ a :: (zs ++ [b]))[xs.length]? = some a := by simp
    simp only [removeSwap, hlast, hget, hset, List.dropLast_concat]

/-- A list that has each element at most as often as another one takes it from different places
there. -/
theorem exists_positions {l l' : List α} (h : l.Subperm l') :
    ∃ is : List (Fin l'.length), is.Nodup ∧ l = is.map l'.get := by
  obtain ⟨l₁, hperm, hsub⟩ := h
  obtain ⟨is, rfl, his⟩ := List.sublist_eq_map_getElem hsub
  have hnodup : is.Nodup := his.imp Fin.ne_of_lt
  have hcomp : Relation.Comp (· = List.map l'.get ·) List.Perm l is := by
    rw [List.eq_map_comp_perm]
    exact hperm.symm
  obtain ⟨js, hl, hjs⟩ := hcomp
  exact ⟨js, hjs.nodup_iff.2 hnodup, hl⟩

end InPlace
