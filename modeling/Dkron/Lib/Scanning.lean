import Mathlib.Data.List.TakeWhile
import Mathlib.Data.List.Nodup

/-!
# Scans

A scan reads records one after the other, keeps what it wants, and ends at the first record that it
cannot read. Some records stand for a result, and the scan is right if it returns the wanted ones of
these results.

**Theorem (`scan_perm_iff`).** If a result that a record stands for is read from no other record,
the scan is right exactly when the wanted results are read from their own records before the scan
ends, and from all other records nothing is kept.
-/

namespace Scanning

variable {α β : Type}

/-- The loop, with what is kept so far. -/
def scan (read : α → Option β) (keep : β → Bool) : List α → List β → List β
  | [], kept => kept
  | v :: vs, kept =>
    match read v with
    | none => kept
    | some b => scan read keep vs (if keep b then kept ++ [b] else kept)

/-- The records before the first that cannot be read. -/
def readable (read : α → Option β) (vs : List α) : List α := vs.takeWhile fun v => (read v).isSome

variable {read own : α → Option β} {keep : β → Bool} {vs : List α}

theorem scan_eq (read : α → Option β) (keep : β → Bool) (vs : List α) (kept : List β) :
    scan read keep vs kept = kept ++ ((readable read vs).filterMap read).filter keep := by
  induction vs generalizing kept with
  | nil => simp [scan, readable]
  | cons v vs ih =>
    cases hv : read v with
    | none => simp [scan, readable, hv]
    | some b =>
      have hreadable : readable read (v :: vs) = v :: readable read vs := by simp [readable, hv]
      rw [scan, hv, hreadable, List.filterMap_cons_some hv, List.filter_cons]
      simp only [ih]
      split_ifs
      · rw [List.append_assoc]
        rfl
      · rfl

theorem mem_scan {b : β} :
    b ∈ scan read keep vs [] ↔ keep b ∧ ∃ v ∈ readable read vs, read v = some b := by
  rw [scan_eq, List.nil_append, List.mem_filter, List.mem_filterMap, and_comm]

theorem readable_eq_takeWhile {p : α → Bool} (h : ∀ v ∈ vs, (read v).isSome = p v) :
    readable read vs = vs.takeWhile p := by
  induction vs with
  | nil => rfl
  | cons v vs ih =>
    have hrest := ih fun w hw => h w (List.mem_cons_of_mem v hw)
    simp only [readable] at hrest ⊢
    rw [List.takeWhile_cons, List.takeWhile_cons, h v List.mem_cons_self, hrest]

theorem isSome_of_mem_readable {v : α} (hv : v ∈ readable read vs) : (read v).isSome :=
  List.mem_takeWhile_imp (p := fun v => (read v).isSome) hv

/-- A scan that keeps everything returns one result for each record it reads. -/
theorem length_scan (hkeep : ∀ b, keep b) :
    (scan read keep vs []).length = (readable read vs).length := by
  rw [scan_eq, List.nil_append, List.filter_eq_self.2 fun b _ => hkeep b]
  exact List.filterMap_length_eq_length.2 fun v hv => isSome_of_mem_readable hv

/-- Every wanted result is read from its record, and nothing else is kept. -/
structure Right (read own : α → Option β) (keep : β → Bool) (vs : List α) : Prop where
  found : ∀ v ∈ vs, ∀ b, own v = some b → keep b → v ∈ readable read vs ∧ read v = some b
  only : ∀ v ∈ readable read vs, ∀ b, read v = some b → keep b → own v = some b

/-- A right scan returns the wanted results in the order of their records. -/
theorem Right.scan_eq (hnodup : vs.Nodup) (h : Right read own keep vs) :
    scan read keep vs [] = (vs.filterMap own).filter keep := by
  have hsplit : vs = readable read vs ++ vs.dropWhile fun v => (read v).isSome :=
    List.takeWhile_append_dropWhile.symm
  have hread : ∀ v ∈ readable read vs, (read v).filter keep = (own v).filter keep := by
    intro v hv
    apply Option.ext
    intro b
    simp only [Option.filter_eq_some_iff]
    constructor
    · rintro ⟨hb, hkeep⟩
      exact ⟨h.only v hv b hb hkeep, hkeep⟩
    · rintro ⟨hb, hkeep⟩
      exact ⟨(h.found v (List.takeWhile_subset _ hv) b hb hkeep).2, hkeep⟩
  -- What comes after the end of the scan stands for nothing that is wanted.
  have hrest : ∀ v ∈ vs.dropWhile fun v => (read v).isSome, (own v).filter keep = none := by
    intro v hv
    rw [Option.filter_eq_none_iff]
    intro b hb hkeep
    have hmem := (h.found v (List.dropWhile_subset _ hv) b hb hkeep).1
    rw [hsplit] at hnodup
    exact List.disjoint_of_nodup_append hnodup hmem hv
  rw [Scanning.scan_eq, List.nil_append, List.filter_filterMap, List.filter_filterMap]
  conv_rhs => rw [hsplit]
  rw [List.filterMap_append, List.filterMap_congr hread, List.filterMap_eq_nil_iff.2 hrest,
    List.append_nil]

/-- **Right scans.** -/
theorem scan_perm_iff (hnodup : vs.Nodup)
    (hown : ∀ v ∈ vs, ∀ w ∈ vs, ∀ b, read v = some b → own w = some b → v = w) :
    (scan read keep vs []).Perm ((vs.filterMap own).filter keep) ↔ Right read own keep vs := by
  constructor
  · intro hperm
    have hmem : ∀ b, keep b → ((∃ v ∈ readable read vs, read v = some b) ↔
        ∃ w ∈ vs, own w = some b) := by
      intro b hkeep
      have hiff := hperm.mem_iff (a := b)
      rwa [mem_scan, List.mem_filter, List.mem_filterMap, and_comm, and_iff_left hkeep,
        and_iff_left hkeep] at hiff
    constructor
    · intro w hw b hb hkeep
      obtain ⟨v, hv, hread⟩ := (hmem b hkeep).2 ⟨w, hw, hb⟩
      obtain rfl := hown v (List.takeWhile_subset _ hv) w hw b hread hb
      exact ⟨hv, hread⟩
    · intro v hv b hread hkeep
      obtain ⟨w, hw, hb⟩ := (hmem b hkeep).1 ⟨v, hv, hread⟩
      obtain rfl := hown v (List.takeWhile_subset _ hv) w hw b hread hb
      exact hb
  · intro h
    rw [h.scan_eq hnodup]

end Scanning
