import Mathlib.Data.List.AList
import Dkron.Lib.Runs

/-!
# Registrations that are taken back

Processes register values under keys in a shared table, as often as they like, and each takes all
its keys back when it leaves. Nothing counts how many processes have registered a key, so a process
that leaves takes the key back for the others too.

What the table holds was always registered by a process that is still there (`live_run`). That it
holds the keys of all of them needs more, and `tracked_iff` says exactly what: nobody leaves with a
key that somebody else has registered.
-/

namespace Registrations

open Runs

variable {κ ν : Type*}

/-- The table, and what the processes that are there have registered, the latest first. -/
structure State (κ ν : Type*) where
  table : AList fun _ : κ => ν := ∅
  held : ℕ → Option (List (κ × ν)) := fun _ => none

inductive Event (κ ν : Type*) where
  | enter (i : ℕ)
  | register (i : ℕ) (k : κ) (v : ν)
  | leave (i : ℕ)

variable [DecidableEq κ]

/-- A process that is there does not enter again, and one that is not there does nothing. -/
def step (s : State κ ν) : Event κ ν → State κ ν
  | .enter i =>
    match s.held i with
    | none => { s with held := Function.update s.held i (some []) }
    | some _ => s
  | .register i k v =>
    match s.held i with
    | none => s
    | some es =>
      { table := s.table.insert k v, held := Function.update s.held i (some ((k, v) :: es)) }
  | .leave i =>
    match s.held i with
    | none => s
    | some es =>
      { table := es.foldl (fun t e => t.erase e.1) s.table
        held := Function.update s.held i none }

/-- What the table holds under a key is what a process that is there has last registered. -/
def Live (s : State κ ν) : Prop :=
  ∀ k v, s.table.lookup k = some v → ∃ i es, s.held i = some es ∧ es.lookup k = some v

/-- The table holds the keys of every process that is there. -/
def Tracked (s : State κ ν) : Prop :=
  ∀ i es, s.held i = some es → ∀ k ∈ es.map Prod.fst, k ∈ s.table

/-- A process that leaves shares no key with one that stays. -/
def Apart (s : State κ ν) : Event κ ν → Prop
  | .leave i => ∀ es, s.held i = some es → ∀ j, j ≠ i → ∀ es', s.held j = some es' →
    ∀ k ∈ es.map Prod.fst, k ∉ es'.map Prod.fst
  | _ => True

section

variable {s : State κ ν}

theorem lookup_foldl_erase (es : List (κ × ν)) (t : AList fun _ : κ => ν) (k : κ) :
    (es.foldl (fun t e => t.erase e.1) t).lookup k =
      if k ∈ es.map Prod.fst then none else t.lookup k := by
  induction es generalizing t with
  | nil => simp
  | cons e es ih =>
    simp only [List.foldl_cons, ih, List.map_cons, List.mem_cons]
    by_cases hk : k = e.1
    · subst hk
      simp
    · simp only [hk, false_or, AList.lookup_erase_ne hk]

theorem mem_foldl_erase {es : List (κ × ν)} {t : AList fun _ : κ => ν} {k : κ} :
    k ∈ es.foldl (fun t e => t.erase e.1) t ↔ k ∉ es.map Prod.fst ∧ k ∈ t := by
  rw [← AList.lookup_isSome, lookup_foldl_erase, ← AList.lookup_isSome]
  split_ifs with h <;> simp [h]

theorem lookup_cons_of_ne {e : κ × ν} {k : κ} (h : k ≠ e.1) (es : List (κ × ν)) :
    (e :: es).lookup k = es.lookup k := by
  rw [List.lookup_cons, beq_false_of_ne h]

theorem mem_of_lookup {es : List (κ × ν)} {k : κ} {v : ν} (h : es.lookup k = some v) :
    (k, v) ∈ es := by
  induction es with
  | nil => cases h
  | cons e es ih =>
    by_cases hk : k = e.1
    · subst hk
      rw [List.lookup_cons_self, Option.some_inj] at h
      rw [← h]
      exact List.mem_cons_self
    · rw [lookup_cons_of_ne hk] at h
      exact List.mem_cons_of_mem _ (ih h)

/-! ## What a step keeps -/

theorem Live.enter (h : Live s) (i : ℕ) : Live (step s (.enter i)) := by
  simp only [Registrations.step]
  cases hi : s.held i with
  | some es => exact h
  | none =>
    intro k v hk
    obtain ⟨j, es, hj, hes⟩ := h k v hk
    have hji : j ≠ i := by
      rintro rfl
      rw [hi] at hj
      cases hj
    exact ⟨j, es, (Function.update_of_ne hji _ _).trans hj, hes⟩

theorem Live.register (h : Live s) (i : ℕ) (k : κ) (v : ν) : Live (step s (.register i k v)) := by
  simp only [Registrations.step]
  cases hi : s.held i with
  | none => exact h
  | some es =>
    intro k' v' hk'
    by_cases hkk : k' = k
    · subst hkk
      rw [AList.lookup_insert, Option.some_inj] at hk'
      subst hk'
      exact ⟨i, _, Function.update_self _ _ _, List.lookup_cons_self⟩
    · rw [AList.lookup_insert_ne hkk] at hk'
      obtain ⟨j, es', hj, hes'⟩ := h k' v' hk'
      by_cases hji : j = i
      · subst hji
        rw [hi, Option.some_inj] at hj
        subst hj
        exact ⟨j, _, Function.update_self _ _ _, (lookup_cons_of_ne hkk es).trans hes'⟩
      · exact ⟨j, es', (Function.update_of_ne hji _ _).trans hj, hes'⟩

theorem Live.leave (h : Live s) (i : ℕ) : Live (step s (.leave i)) := by
  simp only [Registrations.step]
  cases hi : s.held i with
  | none => exact h
  | some es =>
    intro k v hk
    simp only [lookup_foldl_erase] at hk
    split_ifs at hk with hkey
    obtain ⟨j, es', hj, hes'⟩ := h k v hk
    have hji : j ≠ i := by
      rintro rfl
      rw [hi, Option.some_inj] at hj
      subst hj
      exact hkey (List.mem_map_of_mem (mem_of_lookup hes'))
    exact ⟨j, es', (Function.update_of_ne hji _ _).trans hj, hes'⟩

theorem Live.step (h : Live s) (e : Event κ ν) : Live (step s e) := by
  cases e with
  | enter i => exact h.enter i
  | register i k v => exact h.register i k v
  | leave i => exact h.leave i

theorem Tracked.enter (h : Tracked s) (i : ℕ) : Tracked (Registrations.step s (.enter i)) := by
  simp only [Registrations.step]
  cases hi : s.held i with
  | some es => exact h
  | none =>
    intro j es hj k hk
    simp only [Function.update_apply] at hj
    split_ifs at hj
    · cases hj
      cases hk
    · exact h j es hj k hk

theorem Tracked.register (h : Tracked s) (i : ℕ) (k : κ) (v : ν) :
    Tracked (Registrations.step s (.register i k v)) := by
  simp only [Registrations.step]
  cases hi : s.held i with
  | none => exact h
  | some es =>
    intro j es' hj k' hk'
    simp only [Function.update_apply] at hj
    rw [AList.mem_insert]
    split_ifs at hj
    · cases hj
      rw [List.map_cons, List.mem_cons] at hk'
      exact hk'.imp id (h i es hi k')
    · exact .inr (h j es' hj k' hk')

/-- **One step**: a process that leaves takes back what another one still holds, or does not. -/
theorem tracked_step_iff (h : Tracked s) (e : Event κ ν) :
    Tracked (Registrations.step s e) ↔ Apart s e := by
  cases e with
  | enter i => exact iff_of_true (h.enter i) trivial
  | register i k v => exact iff_of_true (h.register i k v) trivial
  | leave i =>
    simp only [Registrations.step, Apart]
    cases hi : s.held i with
    | none => exact iff_of_true h fun es hes => by cases hes
    | some es =>
      refine ⟨fun htracked es₁ hes₁ j hj es' hes' k hk hk' => ?_, fun hapart j es' hj k hk => ?_⟩
      · cases hes₁
        have hmem := htracked j es' ((Function.update_of_ne hj _ _).trans hes') k hk'
        exact (mem_foldl_erase.1 hmem).1 hk
      · simp only [Function.update_apply] at hj
        split_ifs at hj with hji
        rw [mem_foldl_erase]
        exact ⟨fun hk' => hapart es rfl j hji es' hj k hk' hk, h j es' hj k hk⟩

end

theorem live_initial : Live ({} : State κ ν) := by
  intro k v h
  rw [AList.lookup_empty] at h
  cases h

/-! ## Runs

The events of a run may be those of another machine, each of which is one here. -/

section

variable {ε : Type*} (f : ε → Event κ ν)

/-- **Nothing leaks**: what the table holds was registered by a process that is still there. -/
theorem live_run (events : List ε) : Live (events.foldl (fun s e => step s (f e)) {}) :=
  invariant_run (fun _ e h => h.step (f e)) live_initial events

/-- **What is missing**: the table holds the keys of all processes along the run, if and only if
nobody leaves with a key that somebody else has registered. -/
theorem tracked_iff (events : List ε) :
    Everywhere (fun s e => step s (f e)) Tracked {} events ↔
      Along (fun s e => step s (f e)) (fun s e => Apart s (f e)) {} events :=
  everywhere_iff_along (J := fun _ => True) (fun _ _ _ => trivial)
    (fun _ e _ h => tracked_step_iff h (f e)) trivial fun i es h => by cases h

end

/-- The table is empty if no process holds a key. -/
theorem Live.entries_eq_nil {s : State κ ν} (h : Live s)
    (hnone : ∀ i es, s.held i = some es → es = []) : s.table.entries = [] := by
  rw [List.eq_nil_iff_forall_not_mem]
  intro e he
  obtain ⟨i, es, hi, hes⟩ := h e.1 e.2 (AList.mem_lookup_iff.2 he)
  rw [hnone i es hi] at hes
  cases hes

end Registrations
