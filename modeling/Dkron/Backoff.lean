import Dkron.AgentRun

/-!
# The back-off between attempts of AgentRun

`GRPCClient.AgentRun` waits before every attempt but the first, and doubles the wait from one
attempt to the next up to a maximum. Each wait is computed anew: the interval is doubled first
and compared with the maximum afterwards, "to prevent overflow", so that a value from 2^62 on is
doubled before anything looks at it.

**Theorem (`backoff_iff`).** For positive intervals and every attempt `k ≥ 1`, the wait is
`min max (initial * 2^(k-1))`, positive and computed without an overflow, exactly when no value
that the loop has to double is 2^62 or more.

The proof is an induction over the doublings that are left, with the running value generalised: a
value below 2^62 is doubled exactly, and the exact powers are then those of the doubled value.
-/

namespace Dkron

/-! ## The values that are doubled -/

/-- The values that the loop `doubled` doubles. -/
def doublings (maxInterval : Int) : Nat → Int → List Int
  | 0, _ => []
  | n + 1, backoff =>
    if maxInterval < wrap64 (backoff * 2) then [backoff]
    else backoff :: doublings maxInterval n (wrap64 (backoff * 2))

/-- The values that are doubled for the pause before an attempt. -/
def RetryConfig.doublings (config : RetryConfig) (attempt : Nat) : List Int :=
  Dkron.doublings config.agentRunRetryMaxInterval (attempt - 1)
    config.agentRunRetryInitialInterval

/-- The double of the value is an `int64`. -/
def DoubleFits (b : Int) : Prop := -2 ^ 63 ≤ b * 2 ∧ b * 2 < 2 ^ 63

instance (b : Int) : Decidable (DoubleFits b) := inferInstanceAs (Decidable (_ ∧ _))

/-! ## One doubling -/

theorem doubleFits_iff {b : Int} (hb : 0 < b) : DoubleFits b ↔ b < 2 ^ 62 := by
  rw [DoubleFits]
  omega

theorem wrap64_double {b : Int} (hb : DoubleFits b) : wrap64 (b * 2) = b * 2 := by
  obtain ⟨hlo, hhi⟩ := hb
  rw [wrap64]
  exact Int.bmod_eq_of_le (by omega) (by omega)

theorem doubled_succ {m b : Int} (n : Nat) (hb : DoubleFits b) :
    doubled m (n + 1) b = if m < b * 2 then m else doubled m n (b * 2) := by
  rw [doubled, wrap64_double hb]

theorem doublings_succ {m b : Int} (n : Nat) (hb : DoubleFits b) :
    doublings m (n + 1) b = if m < b * 2 then [b] else b :: doublings m n (b * 2) := by
  rw [doublings, wrap64_double hb]

/-- The value that a round starts from is doubled in it. -/
theorem mem_doublings_succ (m b : Int) (n : Nat) : b ∈ doublings m (n + 1) b := by
  rw [doublings]
  split <;> simp

/-! ## The rounds that are left -/

/-- No value to be doubled is 2^62 or more: neither the first one, nor a later one that the
maximum lets through. -/
def NoneTooLarge (m : Int) (n : Nat) (b : Int) : Prop :=
  n = 0 ∨ (b < 2 ^ 62 ∧ ∀ j < n, b * 2 ^ j ≤ m → b * 2 ^ j < 2 ^ 62)

theorem noneTooLarge_succ {m b : Int} {n : Nat} (hb : 0 < b) :
    NoneTooLarge m (n + 1) b ↔ b < 2 ^ 62 ∧ (b * 2 ≤ m → NoneTooLarge m n (b * 2)) := by
  have hpow : ∀ j : Nat, b * 2 ^ (j + 1) = b * 2 * 2 ^ j := by
    intro j
    rw [pow_succ', mul_assoc]
  rw [NoneTooLarge, NoneTooLarge]
  constructor
  · rintro (h | ⟨hlt, hall⟩)
    · omega
    · apply And.intro hlt
      intro hm
      by_cases hn : n = 0
      · exact Or.inl hn
      · right
        constructor
        · have := hall 1 (by omega)
          rw [pow_one] at this
          exact this hm
        · intro j hj
          have := hall (j + 1) (by omega)
          rwa [hpow] at this
  · rintro ⟨hlt, hrest⟩
    right
    apply And.intro hlt
    intro j hj hjm
    cases j with
    | zero => simpa using hlt
    | succ j =>
      rw [hpow] at hjm ⊢
      have hle : b * 2 ≤ b * 2 * 2 ^ j :=
        le_mul_of_one_le_right (by omega) (one_le_pow₀ (by norm_num))
      rcases hrest (hle.trans hjm) with h | ⟨-, h⟩
      · omega
      · exact h j (by omega) hjm

/-- No doubling overflows exactly when none of the values is too large. -/
theorem doublings_fit_iff {m b : Int} (hb : 0 < b) (n : Nat) :
    (∀ x ∈ doublings m n b, DoubleFits x) ↔ NoneTooLarge m n b := by
  induction n generalizing b with
  | zero => simp [doublings, NoneTooLarge]
  | succ n ih =>
    rw [noneTooLarge_succ hb]
    by_cases hlt : b < 2 ^ 62
    · have hfit : DoubleFits b := (doubleFits_iff hb).2 hlt
      rw [doublings_succ n hfit, and_iff_right hlt]
      by_cases hm : b * 2 ≤ m
      · rw [if_neg (by omega), ← ih (b := b * 2) (by omega)]
        simp [hfit, hm]
      · rw [if_pos (by omega)]
        simp [hfit, hm]
    · constructor
      · intro h
        exact absurd ((doubleFits_iff hb).1 (h b (mem_doublings_succ m b n))) hlt
      · intro h
        exact absurd h.1 hlt

/-- Without an overflow the loop yields the exact power, up to the maximum. -/
theorem min_doubled {m b : Int} (hb : 0 < b) {n : Nat} (h : NoneTooLarge m n b) :
    min m (doubled m n b) = min m (b * 2 ^ n) := by
  induction n generalizing b with
  | zero => simp [doubled]
  | succ n ih =>
    obtain ⟨hlt, hrest⟩ := (noneTooLarge_succ hb).1 h
    rw [doubled_succ n ((doubleFits_iff hb).2 hlt), pow_succ', ← mul_assoc]
    by_cases hm : b * 2 ≤ m
    · rw [if_neg (by omega)]
      exact ih (by omega) (hrest hm)
    · have hle : b * 2 ≤ b * 2 * 2 ^ n :=
        le_mul_of_one_le_right (by omega) (one_le_pow₀ (by norm_num))
      rw [if_pos (by omega), min_self, min_eq_left (by omega)]

theorem backoff_eq_min (config : RetryConfig) (k : Nat) :
    backoff config k = min config.agentRunRetryMaxInterval
      (doubled config.agentRunRetryMaxInterval (k - 1) config.agentRunRetryInitialInterval) := by
  rw [backoff, min_def]
  split_ifs <;> omega

/-! ## The wait -/

/-- **The waits are the capped powers, exactly when nothing too large is doubled.** -/
theorem backoff_iff (config : RetryConfig) (k : Nat) (hk : 1 ≤ k)
    (hi : 0 < config.agentRunRetryInitialInterval) (hm : 0 < config.agentRunRetryMaxInterval) :
    (backoff config k =
          min config.agentRunRetryMaxInterval (config.agentRunRetryInitialInterval * 2 ^ (k - 1)) ∧
        0 < backoff config k ∧ ∀ b ∈ config.doublings k, DoubleFits b) ↔
      k = 1 ∨ (config.agentRunRetryInitialInterval < 2 ^ 62 ∧
        ¬∃ j ≤ k - 2, 2 ^ 62 ≤ config.agentRunRetryInitialInterval * 2 ^ j ∧
          config.agentRunRetryInitialInterval * 2 ^ j ≤ config.agentRunRetryMaxInterval) := by
  rw [RetryConfig.doublings, doublings_fit_iff hi]
  have hcond : NoneTooLarge config.agentRunRetryMaxInterval (k - 1)
      config.agentRunRetryInitialInterval ↔
      k = 1 ∨ (config.agentRunRetryInitialInterval < 2 ^ 62 ∧
        ¬∃ j ≤ k - 2, 2 ^ 62 ≤ config.agentRunRetryInitialInterval * 2 ^ j ∧
          config.agentRunRetryInitialInterval * 2 ^ j ≤ config.agentRunRetryMaxInterval) := by
    by_cases h1 : k = 1
    · simp [NoneTooLarge, h1]
    · have h0 : k - 1 ≠ 0 := by omega
      have hj : ∀ j, j < k - 1 ↔ j ≤ k - 2 := by omega
      simp only [NoneTooLarge, h1, h0, false_or, hj]
      grind
  rw [← hcond]
  constructor
  · intro h
    exact h.2.2
  · intro h
    have heq : backoff config k = min config.agentRunRetryMaxInterval
        (config.agentRunRetryInitialInterval * 2 ^ (k - 1)) := by
      rw [backoff_eq_min, min_doubled hi h]
    refine ⟨heq, ?_, h⟩
    rw [heq]
    exact lt_min hm (by positivity)

/-- With the default settings the third wait is four seconds. -/
theorem backoff_default :
    backoff {} 3 = min (30 * 10 ^ 9) (10 ^ 9 * 2 ^ (3 - 1)) ∧ 0 < backoff {} 3 ∧
      ∀ b ∈ RetryConfig.doublings {} 3, DoubleFits b := by
  refine (backoff_iff {} 3 (by norm_num) (by norm_num) (by norm_num)).2 (Or.inr ?_)
  apply And.intro (by norm_num)
  rintro ⟨j, -, hlow, hhigh⟩
  exact absurd (hlow.trans hhigh) (by decide)

/-- A maximum of 146 years does not keep the loop from an overflow: the wait is negative. -/
theorem backoff_overflows :
    ¬∀ (config : RetryConfig) (k : Nat), 1 ≤ k →
      0 < config.agentRunRetryInitialInterval → config.agentRunRetryInitialInterval < 2 ^ 63 →
      0 < config.agentRunRetryMaxInterval → config.agentRunRetryMaxInterval < 2 ^ 63 →
        backoff config k = min config.agentRunRetryMaxInterval
            (config.agentRunRetryInitialInterval * 2 ^ (k - 1)) ∧
          0 < backoff config k ∧ ∀ b ∈ config.doublings k, DoubleFits b := by
  intro h
  have hneg : backoff ⟨3, 2 ^ 62, 2 ^ 62⟩ 2 = -2 ^ 63 := by decide
  have hpos := (h ⟨3, 2 ^ 62, 2 ^ 62⟩ 2 (by decide) (by decide) (by decide) (by decide)
    (by decide)).2.1
  omega

/-- Intervals below 2^62 are enough, about 146 years. -/
theorem backoff_of_lt {config : RetryConfig} (k : Nat)
    (hi : 0 < config.agentRunRetryInitialInterval)
    (hil : config.agentRunRetryInitialInterval < 2 ^ 62)
    (hml : config.agentRunRetryMaxInterval < 2 ^ 62) :
    backoff config k =
      min config.agentRunRetryMaxInterval (config.agentRunRetryInitialInterval * 2 ^ (k - 1)) := by
  rw [backoff_eq_min]
  apply min_doubled hi
  right
  apply And.intro hil
  intro j _ hj
  omega

end Dkron
