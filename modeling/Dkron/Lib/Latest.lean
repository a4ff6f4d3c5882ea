import Mathlib.Data.List.MinMax
import Mathlib.Order.Basic

/-!
# The latest entry of each key

A list of entries, each with a key and a rank. An entry is the latest of its key if no entry of the
same key has a greater rank. Every key of the list has a latest entry, and what the latest entries
are depends on the members of the list alone.
-/

namespace Latest

variable {α κ ρ : Type*} [DecidableEq κ] [LinearOrder ρ] (key : α → κ) (rank : α → ρ)

/-- The entries whose rank is greatest among those of their key. -/
def latest (xs : List α) : List α :=
  xs.filter fun x => ∀ y ∈ xs, key y = key x → rank y ≤ rank x

variable {key rank} {xs ys : List α} {x : α}

theorem mem_latest : x ∈ latest key rank xs ↔
    x ∈ xs ∧ ∀ y ∈ xs, key y = key x → rank y ≤ rank x := by
  rw [latest, List.mem_filter, decide_eq_true_eq]

theorem latest_subset (h : x ∈ latest key rank xs) : x ∈ xs := (mem_latest.1 h).1

/-- Every key has a latest entry. -/
theorem exists_latest (h : x ∈ xs) : ∃ y ∈ latest key rank xs, key y = key x := by
  have hne : xs.filter (fun y => key y = key x) ≠ [] :=
    List.ne_nil_of_mem (List.mem_filter.2 ⟨h, by simp⟩)
  obtain ⟨y, hy⟩ : ∃ y, (xs.filter fun y => key y = key x).argmax rank = some y :=
    Option.ne_none_iff_exists'.1 (mt List.argmax_eq_none.1 hne)
  have hmem := List.mem_filter.1 (List.argmax_mem hy)
  have hkey : key y = key x := by simpa using hmem.2
  refine ⟨y, mem_latest.2 ⟨hmem.1, fun z hz hzy => ?_⟩, hkey⟩
  exact List.le_of_mem_argmax (List.mem_filter.2 ⟨hz, by simpa using hzy.trans hkey⟩) hy

/-- Lists of the same members have the same latest entries. -/
theorem mem_latest_congr (h : ∀ y, y ∈ xs ↔ y ∈ ys) :
    x ∈ latest key rank xs ↔ x ∈ latest key rank ys := by
  simp only [mem_latest, h]

/-- A key has one latest entry, if entries of one key and one rank are the same. -/
theorem latest_unique {y : α} (hinj : ∀ a ∈ xs, ∀ b ∈ xs, key a = key b → rank a = rank b → a = b)
    (hx : x ∈ latest key rank xs) (hy : y ∈ latest key rank xs) (hkey : key x = key y) : x = y := by
  obtain ⟨hxs, hxmax⟩ := mem_latest.1 hx
  obtain ⟨hys, hymax⟩ := mem_latest.1 hy
  exact hinj x hxs y hys hkey (le_antisymm (hymax x hxs hkey) (hxmax y hys hkey.symm))

end Latest
