import Mathlib.Data.List.Basic
import Mathlib.Logic.Function.Basic

/-!
# Runs of a deterministic machine

A machine is a step function `σ → ε → σ` and a run is `List.foldl step`. Most facts about runs
have the same shape: an invariant is kept by every step that meets a *guard*, so it holds along
every run whose steps all meet it. When a step that misses the guard breaks the invariant at
once, the guard is exact, and `everywhere_iff_along` says so for whole runs.
-/

namespace Runs

variable {σ ε : Type*} (step : σ → ε → σ)

/-- Every event of the run meets `P` in the state it is taken from. -/
def Along (P : σ → ε → Prop) : σ → List ε → Prop
  | _, [] => True
  | s, e :: es => P s e ∧ Along P (step s e) es

/-- `Q` holds in every state of the run, the first and the last included. -/
def Everywhere (Q : σ → Prop) : σ → List ε → Prop
  | s, [] => Q s
  | s, e :: es => Q s ∧ Everywhere Q (step s e) es

variable {step}

@[simp] theorem along_nil {P : σ → ε → Prop} {s : σ} : Along step P s [] := trivial

@[simp] theorem along_cons {P : σ → ε → Prop} {s : σ} {e : ε} {es : List ε} :
    Along step P s (e :: es) ↔ P s e ∧ Along step P (step s e) es := Iff.rfl

instance instDecidableAlong {P : σ → ε → Prop} [∀ s e, Decidable (P s e)] :
    ∀ (s : σ) (es : List ε), Decidable (Along step P s es)
  | _, [] => isTrue trivial
  | s, e :: es => @instDecidableAnd _ _ _ (instDecidableAlong (step s e) es)

theorem along_of_forall {P : σ → ε → Prop} (h : ∀ s e, P s e) :
    ∀ {s : σ} {es : List ε}, Along step P s es
  | _, [] => trivial
  | s, e :: _ => ⟨h s e, along_of_forall h⟩

theorem along_append {P : σ → ε → Prop} {s : σ} {as bs : List ε} :
    Along step P s (as ++ bs) ↔ Along step P s as ∧ Along step P (as.foldl step s) bs := by
  induction as generalizing s with
  | nil => simp
  | cons a as ih => rw [List.cons_append, along_cons, along_cons, ih, and_assoc, List.foldl_cons]

theorem Along.mono {P R : σ → ε → Prop} (h : ∀ s e, P s e → R s e) :
    ∀ {s : σ} {es : List ε}, Along step P s es → Along step R s es
  | _, [], _ => trivial
  | s, e :: _, ⟨hp, hes⟩ => ⟨h s e hp, hes.mono h⟩

theorem Everywhere.mono {Q R : σ → Prop} (h : ∀ s, Q s → R s) :
    ∀ {s : σ} {es : List ε}, Everywhere step Q s es → Everywhere step R s es
  | s, [], hs => h s hs
  | s, _ :: _, ⟨hs, hes⟩ => ⟨h s hs, hes.mono h⟩

theorem Everywhere.head {Q : σ → Prop} {s : σ} {es : List ε} (h : Everywhere step Q s es) :
    Q s := by
  cases es with
  | nil => exact h
  | cons e es => exact h.1

theorem everywhere_iff_prefix {Q : σ → Prop} {s : σ} {es : List ε} :
    Everywhere step Q s es ↔ ∀ as, as <+: es → Q (as.foldl step s) := by
  induction es generalizing s with
  | nil => simp [Everywhere]
  | cons e es ih =>
    rw [Everywhere, ih]
    constructor
    · rintro ⟨hs, hes⟩ as has
      cases as with
      | nil => exact hs
      | cons a as =>
        obtain ⟨rfl, hrest⟩ := List.cons_prefix_cons.1 has
        exact hes as hrest
    · intro h
      exact ⟨h [] (List.nil_prefix), fun as has => h (e :: as) (List.cons_prefix_cons.2 ⟨rfl, has⟩)⟩

theorem Everywhere.last {Q : σ → Prop} {s : σ} {es : List ε} (h : Everywhere step Q s es) :
    Q (es.foldl step s) :=
  everywhere_iff_prefix.1 h es (List.prefix_refl es)

/-! ## Invariants -/

/-- **The invariant rule.** An invariant that every guarded step keeps holds along every run
whose steps all meet the guard. -/
theorem everywhere_of_along {I : σ → Prop} {P : σ → ε → Prop}
    (hstep : ∀ s e, I s → P s e → I (step s e)) :
    ∀ {s : σ} {es : List ε}, I s → Along step P s es → Everywhere step I s es
  | _, [], hs, _ => hs
  | s, e :: _, hs, ⟨hp, hes⟩ => ⟨hs, everywhere_of_along hstep (hstep s e hs hp) hes⟩

/-- An invariant that every step keeps holds at the end of every run. -/
theorem invariant_run {I : σ → Prop} (hstep : ∀ s e, I s → I (step s e)) {s : σ} (hs : I s)
    (es : List ε) : I (es.foldl step s) := by
  induction es generalizing s with
  | nil => exact hs
  | cons e es ih => exact ih (hstep s e hs)

/-- Guards that agree in the states an invariant holds in are met by the same runs. -/
theorem along_congr {J : σ → Prop} {P R : σ → ε → Prop} (hJ : ∀ s e, J s → J (step s e))
    (h : ∀ s e, J s → (P s e ↔ R s e)) {s : σ} {es : List ε} (hj : J s) :
    Along step P s es ↔ Along step R s es := by
  induction es generalizing s with
  | nil => exact Iff.rfl
  | cons e es ih => rw [along_cons, along_cons, h s e hj, ih (hJ s e hj)]

/-- A guard that implies another one in the states an invariant holds in. -/
theorem Along.imp_of_invariant {J : σ → Prop} {P R : σ → ε → Prop}
    (hJ : ∀ s e, J s → J (step s e)) (h : ∀ s e, J s → P s e → R s e) {s : σ} {es : List ε}
    (hp : Along step P s es) (hj : J s) : Along step R s es := by
  induction es generalizing s with
  | nil => trivial
  | cons e es ih => exact ⟨h s e hj hp.1, ih hp.2 (hJ s e hj)⟩

/-- **The exact rule.** When a step taken from a good state leads to a good state if and only if
it meets the guard, the runs that stay good are exactly the runs whose steps meet the guard. `J`
is what may be assumed of every state, good or not, and `G` of every step of the run. -/
theorem everywhere_iff_along_of {I J : σ → Prop} {P G : σ → ε → Prop}
    (hJ : ∀ s e, J s → G s e → J (step s e))
    (hstep : ∀ s e, J s → G s e → I s → (I (step s e) ↔ P s e)) {s : σ} {es : List ε}
    (hj : J s) (hs : I s) (hg : Along step G s es) :
    Everywhere step I s es ↔ Along step P s es := by
  induction es generalizing s with
  | nil => exact ⟨fun _ => trivial, fun _ => hs⟩
  | cons e es ih =>
    obtain ⟨hge, hges⟩ := hg
    have hj' : J (step s e) := hJ s e hj hge
    rw [Everywhere, along_cons]
    constructor
    · rintro ⟨-, hes⟩
      exact ⟨(hstep s e hj hge hs).1 hes.head, (ih hj' hes.head hges).1 hes⟩
    · rintro ⟨hp, hes⟩
      have hs' : I (step s e) := (hstep s e hj hge hs).2 hp
      exact ⟨hs, (ih hj' hs' hges).2 hes⟩

/-- The exact rule for all runs. -/
theorem everywhere_iff_along {I J : σ → Prop} {P : σ → ε → Prop}
    (hJ : ∀ s e, J s → J (step s e))
    (hstep : ∀ s e, J s → I s → (I (step s e) ↔ P s e)) {s : σ} {es : List ε}
    (hj : J s) (hs : I s) : Everywhere step I s es ↔ Along step P s es :=
  everywhere_iff_along_of (fun s e hj _ => hJ s e hj) (fun s e hj _ hs => hstep s e hj hs) hj hs
    (along_of_forall fun _ _ => trivial)

/-! ## Two machines in lockstep -/

/-- Two machines that take the same guarded steps end in the same state. -/
theorem run_eq_of_along {step' : σ → ε → σ} {P : σ → ε → Prop}
    (hstep : ∀ s e, P s e → step s e = step' s e) {s : σ} {es : List ε}
    (h : Along step P s es) : es.foldl step s = es.foldl step' s := by
  induction es generalizing s with
  | nil => rfl
  | cons e es ih =>
    rw [List.foldl_cons, List.foldl_cons, ← hstep s e h.1]
    exact ih h.2

/-! ## Runs that stay where they are -/

/-- A run whose events change nothing ends where it began. -/
theorem run_eq_self {s : σ} {es : List ε} (h : ∀ e ∈ es, step s e = s) : es.foldl step s = s := by
  induction es with
  | nil => rfl
  | cons e es ih =>
    rw [List.foldl_cons, h e List.mem_cons_self]
    exact ih fun e' he' => h e' (List.mem_cons_of_mem e he')

/-- A run never leaves its first state if and only if none of its events changes that state. -/
theorem prefixes_eq_self_iff {s : σ} {es : List ε} :
    (∀ as, as <+: es → as.foldl step s = s) ↔ ∀ e ∈ es, step s e = s := by
  constructor
  · intro h e he
    obtain ⟨as, bs, rfl⟩ := List.append_of_mem he
    have hbefore : as.foldl step s = s := h as (List.prefix_append _ _)
    have hafter := h (as ++ [e]) ⟨bs, by simp⟩
    rwa [List.foldl_append, hbefore] at hafter
  · exact fun h as has => run_eq_self fun e he => h e (has.subset he)

/-! ## Tables of processes -/

/-- A process has moved, and the others stand where they stood. -/
theorem update_eq_some_iff {ι α : Type*} [DecidableEq ι] {f : ι → Option α} {i j : ι}
    {next : Option α} {p : α} :
    Function.update f i next j = some p ↔ j = i ∧ next = some p ∨ j ≠ i ∧ f j = some p := by
  rw [Function.update_apply]
  split_ifs with h <;> simp [h]

end Runs
