import Mathlib.Order.Basic
import Mathlib.Data.Nat.Find

/-!
# Loops that may not end

A loop without a bound is a step `σ → σ ⊕ ρ`: a round leaves either a state to go on from or the
result. `run` gives the loop a number of rounds; the loop returns when some number is enough. A
result is found by following a sequence of states up to the first round that stops
(`returns_iff_first`), and a loop that keeps an invariant of states that go on has none
(`not_returns_of_invariant`).
-/

namespace Loops

variable {σ ρ : Type*} (step : σ → σ ⊕ ρ)

/-- The result within the given number of rounds. -/
def run : ℕ → σ → Option ρ
  | 0, _ => none
  | n + 1, s =>
    match step s with
    | .inl s' => run n s'
    | .inr r => some r

/-- The loop ends with the result. -/
def Returns (s : σ) (r : ρ) : Prop := ∃ n, run step n s = some r

variable {step} {s s' : σ} {r r' : ρ}

theorem run_succ_inl (h : step s = .inl s') (n : ℕ) : run step (n + 1) s = run step n s' := by
  rw [run, h]

theorem run_succ_inr (h : step s = .inr r) (n : ℕ) : run step (n + 1) s = some r := by
  rw [run, h]

theorem returns_inl (h : step s = .inl s') : Returns step s r ↔ Returns step s' r := by
  constructor
  · rintro ⟨n, hn⟩
    cases n with
    | zero => cases hn
    | succ n => exact ⟨n, by rw [← run_succ_inl h, hn]⟩
  · rintro ⟨n, hn⟩
    exact ⟨n + 1, by rw [run_succ_inl h, hn]⟩

theorem returns_inr (h : step s = .inr r) : Returns step s r' ↔ r' = r := by
  constructor
  · rintro ⟨n, hn⟩
    cases n with
    | zero => cases hn
    | succ n =>
      rw [run_succ_inr h] at hn
      exact (Option.some.inj hn).symm
  · rintro rfl
    exact ⟨1, run_succ_inr h 0⟩

/-- A loop returns at most one result. -/
theorem Returns.unique (h : Returns step s r) (h' : Returns step s r') : r = r' := by
  obtain ⟨n, hn⟩ := h
  induction n generalizing s with
  | zero => cases hn
  | succ n ih =>
    cases hs : step s with
    | inl s' =>
      rw [run_succ_inl hs] at hn
      exact ih ((returns_inl hs).1 h') hn
    | inr r'' =>
      rw [run_succ_inr hs] at hn
      rw [(returns_inr hs).1 h', Option.some.inj hn]

/-- **The divergence rule.** A loop that goes on from every state of an invariant, and keeps it,
does not end. -/
theorem not_returns_of_invariant {I : σ → Prop} (h : ∀ s, I s → ∃ s', step s = .inl s' ∧ I s')
    (hs : I s) : ¬Returns step s r := by
  rintro ⟨n, hn⟩
  induction n generalizing s with
  | zero => cases hn
  | succ n ih =>
    obtain ⟨s', hs', hI⟩ := h s hs
    rw [run_succ_inl hs'] at hn
    exact ih hI hn

/-- The states of the first rounds, when none of them stops. -/
theorem returns_of_sequence {f : ℕ → σ} {n : ℕ} (h : ∀ i < n, step (f i) = .inl (f (i + 1))) :
    Returns step (f 0) r ↔ Returns step (f n) r := by
  induction n with
  | zero => rfl
  | succ n ih =>
    rw [ih fun i hi => h i (by omega), returns_inl (h n (by omega))]

/-- **The loop along a sequence of states.** It returns what the first round that stops gives. -/
theorem returns_iff_first {f : ℕ → σ} {stops : ℕ → Prop} {out : ℕ → ρ}
    (hgo : ∀ i, ¬stops i → step (f i) = .inl (f (i + 1)))
    (hstop : ∀ i, stops i → step (f i) = .inr (out i)) :
    Returns step (f 0) r ↔ ∃ n, stops n ∧ (∀ i < n, ¬stops i) ∧ r = out n := by
  constructor
  · intro h
    by_cases hex : ∃ n, stops n
    · classical
      refine ⟨Nat.find hex, Nat.find_spec hex, fun i hi => Nat.find_min hex hi, ?_⟩
      rw [returns_of_sequence fun i hi => hgo i (Nat.find_min hex hi)] at h
      exact (returns_inr (hstop _ (Nat.find_spec hex))).1 h
    · refine absurd h (not_returns_of_invariant (I := fun s => ∃ i, s = f i) ?_ ⟨0, rfl⟩)
      rintro s ⟨i, rfl⟩
      exact ⟨f (i + 1), hgo i fun hi => hex ⟨i, hi⟩, i + 1, rfl⟩
  · rintro ⟨n, hn, hlt, rfl⟩
    rw [returns_of_sequence fun i hi => hgo i (hlt i hi)]
    exact (returns_inr (hstop n hn)).2 rfl

end Loops
