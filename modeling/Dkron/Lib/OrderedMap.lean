import Mathlib

/-!
# Ordered maps: deletion, loading and weighing

Three things a key-value store does with an ordered map besides single reads and writes:

* `eraseAll` deletes a list of keys collected beforehand,
* `load` replays a list of saved records on top of what the map already holds,
* `total` adds a weight over all values.

`load_toList_eq_iff` is the fact behind restoring: loading a saved map gives that map back
exactly when no key of the target is missing from it.
-/

namespace OrderedMap

open Std

variable {α β : Type*} {cmp : α → α → Ordering} [TransCmp cmp]

/-- Delete the listed keys, one after the other. -/
def eraseAll (t : ExtTreeMap α β cmp) (ks : List α) : ExtTreeMap α β cmp :=
  ks.foldl (fun t k => t.erase k) t

/-- Write the listed records, one after the other, on top of `t`. -/
def load (t : ExtTreeMap α β cmp) (records : List (α × β)) : ExtTreeMap α β cmp :=
  records.foldl (fun t r => t.insert r.1 r.2) t

/-- The sum of the weights of all values. -/
def total (w : β → ℤ) (t : ExtTreeMap α β cmp) : ℤ := (t.toList.map fun r => w r.2).sum

variable [LawfulEqCmp cmp]

theorem getElem?_insert_eq [DecidableEq α] {t : ExtTreeMap α β cmp} {k a : α} {v : β} :
    (t.insert k v)[a]? = if k = a then some v else t[a]? := by
  simp [ExtTreeMap.getElem?_insert]

theorem getElem?_erase_eq [DecidableEq α] {t : ExtTreeMap α β cmp} {k a : α} :
    (t.erase k)[a]? = if k = a then none else t[a]? := by
  simp [ExtTreeMap.getElem?_erase]

theorem getElem?_eraseAll [DecidableEq α] (ks : List α) (t : ExtTreeMap α β cmp) (a : α) :
    (eraseAll t ks)[a]? = if a ∈ ks then none else t[a]? := by
  induction ks generalizing t with
  | nil => simp [eraseAll]
  | cons k ks ih =>
    rw [eraseAll, List.foldl_cons, ← eraseAll, ih, getElem?_erase_eq]
    by_cases ha : a ∈ ks
    · simp [ha]
    · by_cases hk : k = a
      · simp [hk]
      · simp [ha, hk, Ne.symm hk]

/-! ## Loading saved records -/

theorem getElem?_load [DecidableEq α] (rs : List (α × β)) (t : ExtTreeMap α β cmp) (a : α)
    (hnd : rs.Pairwise fun r r' => r.1 ≠ r'.1) :
    (load t rs)[a]? = ((rs.find? fun r => r.1 = a).map (·.2)).or t[a]? := by
  induction rs generalizing t with
  | nil => simp [load]
  | cons r rs ih =>
    obtain ⟨hr, hrs⟩ := List.pairwise_cons.1 hnd
    rw [load, List.foldl_cons, ← load, ih _ hrs, getElem?_insert_eq]
    by_cases ha : r.1 = a
    · have hnone : rs.find? (fun r' => r'.1 = a) = none := by
        rw [List.find?_eq_none]
        intro r' hr'
        simpa [← ha] using (hr r' hr').symm
      simp [ha, hnone]
    · simp [ha]

theorem find?_toList [DecidableEq α] (t : ExtTreeMap α β cmp) (a : α) :
    (t.toList.find? fun r => r.1 = a).map (·.2) = t[a]? := by
  cases h : t.toList.find? fun r => r.1 = a with
  | none =>
    rw [List.find?_eq_none] at h
    rw [Option.map_none, eq_comm, Option.eq_none_iff_forall_ne_some]
    intro v hv
    simpa using h (a, v) (ExtTreeMap.mem_toList_iff_getElem?_eq_some.2 hv)
  | some r =>
    have hra : r.1 = a := by simpa using List.find?_some h
    have hmem : (r.1, r.2) ∈ t.toList := List.mem_of_find?_eq_some h
    rw [Option.map_some, ← hra, ExtTreeMap.mem_toList_iff_getElem?_eq_some.1 hmem]

theorem toList_pairwise_ne (t : ExtTreeMap α β cmp) :
    t.toList.Pairwise fun r r' => r.1 ≠ r'.1 :=
  t.distinct_keys_toList.imp fun h => by simpa using h

/-- Loading a saved map overlays it on the target: the saved value wins where there is one. -/
theorem getElem?_load_toList (s t : ExtTreeMap α β cmp) (a : α) :
    (load s t.toList)[a]? = t[a]?.or s[a]? := by
  classical
  rw [getElem?_load _ _ _ (toList_pairwise_ne t), find?_toList]

/-- **Loading replaces** the target's content exactly when the target has no stale key. -/
theorem load_toList_eq_iff (s t : ExtTreeMap α β cmp) :
    load s t.toList = t ↔ ∀ a : α, s[a]?.isSome → t[a]?.isSome := by
  constructor
  · intro h a hs
    have ha : t[a]? = t[a]?.or s[a]? := by rw [← getElem?_load_toList, h]
    cases ht : t[a]? with
    | some v => rfl
    | none =>
      rw [ht, Option.none_or] at ha
      rw [← ha] at hs
      exact hs
  · intro h
    apply ExtTreeMap.ext_getElem?
    intro a
    rw [getElem?_load_toList]
    cases ht : t[a]? with
    | some v => rfl
    | none =>
      cases hs : s[a]? with
      | none => rfl
      | some v => exact absurd (h a (by rw [hs]; rfl)) (by simp [ht])

/-! ## Weighing -/

theorem toList_nodup (t : ExtTreeMap α β cmp) : t.toList.Nodup :=
  (toList_pairwise_ne t).imp fun h he => h (congrArg Prod.fst he)

/-- The records are the one under `k`, if any, and those that stay when `k` is erased. -/
theorem toList_perm_erase (t : ExtTreeMap α β cmp) (k : α) :
    t.toList.Perm ((t[k]?.toList.map fun v => (k, v)) ++ (t.erase k).toList) := by
  classical
  have hnd : ((t[k]?.toList.map fun v => (k, v)) ++ (t.erase k).toList).Nodup := by
    refine List.Nodup.append ?_ (toList_nodup _) ?_
    · cases t[k]? <;> simp
    · rintro ⟨a, v⟩ ha hb
      rw [ExtTreeMap.mem_toList_iff_getElem?_eq_some, getElem?_erase_eq] at hb
      by_cases hk : k = a
      · simp [hk] at hb
      · simp [hk] at ha
  rw [List.perm_ext_iff_of_nodup (toList_nodup t) hnd]
  rintro ⟨a, v⟩
  rw [List.mem_append, ExtTreeMap.mem_toList_iff_getElem?_eq_some,
    ExtTreeMap.mem_toList_iff_getElem?_eq_some, getElem?_erase_eq]
  by_cases hk : k = a
  · subst hk
    simp
  · simp [hk]

theorem total_eq_erase (w : β → ℤ) (t : ExtTreeMap α β cmp) (k : α) :
    total w t = t[k]?.elim 0 w + total w (t.erase k) := by
  rw [total, ((toList_perm_erase t k).map fun r => w r.2).sum_eq, List.map_append, List.sum_append]
  cases t[k]? <;> simp [total]

theorem erase_insert (t : ExtTreeMap α β cmp) (k : α) (v : β) :
    (t.insert k v).erase k = t.erase k := by
  classical
  apply ExtTreeMap.ext_getElem?
  intro a
  rw [getElem?_erase_eq, getElem?_erase_eq, getElem?_insert_eq]
  by_cases hk : k = a <;> simp [hk]

/-- Writing one record changes the total by the difference of the two weights. -/
theorem total_insert (w : β → ℤ) (t : ExtTreeMap α β cmp) (k : α) (v : β) :
    total w (t.insert k v) = total w t - t[k]?.elim 0 w + w v := by
  rw [total_eq_erase w (t.insert k v) k, total_eq_erase w t k, erase_insert]
  simp
  ring

theorem total_erase (w : β → ℤ) (t : ExtTreeMap α β cmp) (k : α) :
    total w (t.erase k) = total w t - t[k]?.elim 0 w := by
  rw [total_eq_erase w t k]
  ring

end OrderedMap
