import Dkron.Extcron

/-!
# ISO 8601 durations

`ParseISO8601Duration` reads years, months, days, hours and minutes as numbers, multiplies each by
its length in nanoseconds and adds them up, in 64-bit integers and without a check.

**Theorem (`parseISO8601Duration_iff`).** For a text without seconds the result is an error or the
exact sum, positive and in range, exactly when the exact sum is below 2^63, or a number is not an
`int` (an error), or the sum is a multiple of 2^64 (read as zero, an error).

Products and sums wrap, and wrapping commutes with both: what the loop over the components carries
is the wrapped sum of what it has read (`addUnits_wrap`).
-/

namespace Dkron

/-! ## The components -/

/-- The labels and lengths of the components before the seconds. -/
def durationUnits : List (String × Int) :=
  [("year", 365 * 24 * hourNanos), ("month", 30 * 24 * hourNanos), ("day", 24 * hourNanos),
    ("hour", hourNanos), ("minute", 60 * 10 ^ 9)]

/-- The components of a text are added one after the other. -/
def addUnits : Int → List ((String × Int) × List Char) → Except String Int
  | d, [] => .ok d
  | d, c :: cs => addUnit c.1.1 c.1.2 d c.2 >>= fun d => addUnits d cs

/-- The exact sum. -/
def exactSum (cs : List ((String × Int) × List Char)) : Int :=
  (cs.map fun c => (digitsValue c.2 : Int) * c.1.2).sum

/-- The exact duration of years, months, days, hours and minutes. -/
def exactDuration (numbers : List (List Char)) : Int := exactSum (durationUnits.zip numbers)

/-! ## One component -/

theorem wrap64_eq_of_lt {n : Int} (h₀ : 0 ≤ n) (h : n < 2 ^ 63) : wrap64 n = n :=
  Int.bmod_eq_of_le (by omega) (by omega)

theorem wrap64_add_wrap64_mul (x y : Int) : wrap64 (wrap64 x + wrap64 y) = wrap64 (x + y) := by
  rw [wrap64, wrap64, wrap64, wrap64, Int.bmod_add_bmod, Int.add_bmod_bmod]

theorem parseInt_digits {ds : List Char} (hne : ds ≠ []) (hds : ∀ c ∈ ds, c.isDigit) :
    parseInt (String.ofList ds) =
      if digitsValue ds < 2 ^ 63 then some (digitsValue ds : Int) else none := by
  obtain ⟨c, cs, rfl⟩ := List.exists_cons_of_ne_nil hne
  have hall : (c :: cs).all Char.isDigit = true := by simpa using hds
  have hsign : c ≠ '-' ∧ c ≠ '+' := by
    have hc := hds c List.mem_cons_self
    constructor
    · rintro rfl
      exact absurd hc (by decide)
    · rintro rfl
      exact absurd hc (by decide)
  rw [parseInt, String.toList_ofList]
  split
  rename_i neg ds' heq
  split at heq
  · rename_i h
    exact absurd (List.cons.inj h).1 hsign.1
  · rename_i h
    exact absurd (List.cons.inj h).1 hsign.2
  · obtain ⟨rfl, rfl⟩ := Prod.mk.inj heq
    rw [if_neg (by simp [hall])]
    by_cases hlt : digitsValue (c :: cs) < 2 ^ 63
    · rw [if_pos hlt]
      exact if_pos (by simp only [Bool.false_eq_true, if_false]; omega)
    · rw [if_neg hlt]
      exact if_neg (by simp only [Bool.false_eq_true, if_false]; omega)

/-- **One component**: it is no `int`, or its exact value is added and the sum wraps. -/
theorem addUnit_wrap (label : String) (unit x : Int) {ds : List Char}
    (hds : ∀ c ∈ ds, c.isDigit) (hlt : digitsValue ds < 2 ^ 63) :
    addUnit label unit (wrap64 x) ds = .ok (wrap64 (x + digitsValue ds * unit)) := by
  rw [addUnit]
  by_cases hne : ds = []
  · rw [if_pos hne, hne]
    simp [digitsValue]
  · rw [if_neg hne, parseInt_digits hne hds, if_pos hlt]
    simp only [wrap64_add_wrap64_mul]

theorem addUnit_error (label : String) (unit d : Int) {ds : List Char}
    (hds : ∀ c ∈ ds, c.isDigit) (hge : 2 ^ 63 ≤ digitsValue ds) :
    addUnit label unit d ds =
      .error ("invalid " ++ label ++ " value: " ++ String.ofList ds) := by
  have hne : ds ≠ [] := by
    rintro rfl
    exact absurd hge (by decide)
  rw [addUnit, if_neg hne, parseInt_digits hne hds, if_neg (by omega)]

/-! ## All components -/

section

variable {cs : List ((String × Int) × List Char)}

theorem addUnits_wrap (hds : ∀ c ∈ cs, ∀ d ∈ c.2, d.isDigit)
    (hlt : ∀ c ∈ cs, digitsValue c.2 < 2 ^ 63) (x : Int) :
    addUnits (wrap64 x) cs = .ok (wrap64 (x + exactSum cs)) := by
  induction cs generalizing x with
  | nil => simp [addUnits, exactSum]
  | cons c cs ih =>
    rw [List.forall_mem_cons] at hds hlt
    rw [addUnits, addUnit_wrap _ _ _ hds.1 hlt.1]
    show addUnits _ cs = _
    rw [ih hds.2 hlt.2, exactSum, exactSum, List.map_cons, List.sum_cons, add_assoc]

theorem addUnits_error (hds : ∀ c ∈ cs, ∀ d ∈ c.2, d.isDigit)
    (hge : ∃ c ∈ cs, 2 ^ 63 ≤ digitsValue c.2) (x : Int) : ∃ msg, addUnits x cs = .error msg := by
  induction cs generalizing x with
  | nil => simp at hge
  | cons c cs ih =>
    rw [List.forall_mem_cons] at hds
    obtain ⟨b, hb, hge⟩ := hge
    rw [addUnits]
    cases hc : addUnit c.1.1 c.1.2 x c.2 with
    | error msg => exact ⟨msg, rfl⟩
    | ok d =>
      rcases List.mem_cons.1 hb with rfl | hb
      · rw [addUnit_error _ _ _ hds.1 hge] at hc
        cases hc
      · exact ih hds.2 ⟨b, hb, hge⟩ d

end

/-! ## What is matched -/

/-- A component as it is written. -/
def unitText (unit : Char) (number : List Char) : List Char :=
  if number = [] then [] else number ++ [unit]

/-- A text without seconds that says the numbers. -/
def SaysDuration (text ys ms ds hs mins : List Char) : Prop :=
  ∃ time, text = 'P' :: (unitText 'Y' ys ++ unitText 'M' ms ++ unitText 'D' ds ++ time) ∧
    (time = [] ∧ hs = [] ∧ mins = [] ∨ time = 'T' :: (unitText 'H' hs ++ unitText 'M' mins)) ∧
    ∀ number ∈ [ys, ms, ds, hs, mins], ∀ c ∈ number, c.isDigit

theorem unitGroup_eq {unit : Char} {cs number rest : List Char}
    (h : unitGroup unit cs = (number, rest)) :
    cs = unitText unit number ++ rest ∧ ∀ c ∈ number, c.isDigit := by
  have hspan := List.span_eq_takeWhile_dropWhile Char.isDigit cs
  have hjoin := List.takeWhile_append_dropWhile (p := Char.isDigit) (l := cs)
  have hdigits : ∀ c ∈ cs.takeWhile Char.isDigit, c.isDigit := fun c => List.mem_takeWhile_imp
  have hnone : ([], cs) = (number, rest) → cs = unitText unit number ++ rest ∧
      ∀ c ∈ number, c.isDigit := by
    rintro ⟨⟩
    simp [unitText]
  rw [unitGroup] at h
  split at h
  · exact hnone h
  · rename_i ds c rest' hne heq
    rw [hspan] at heq
    obtain ⟨htake, hdrop⟩ := Prod.mk.inj heq
    rw [htake] at hdigits hjoin
    rw [hdrop] at hjoin
    split_ifs at h with hunit
    · obtain ⟨rfl, rfl⟩ := Prod.mk.inj h
      have hnil : ds ≠ [] := hne
      refine ⟨?_, hdigits⟩
      rw [unitText, if_neg hnil, ← hjoin, hunit, List.append_assoc]
      rfl
    · exact hnone h
  · exact hnone h

/-- The group of the seconds matches nothing only where there are none. -/
theorem secondsGroup_eq_nil {cs rest : List Char} (h : secondsGroup cs = ([], rest)) :
    rest = cs := by
  rw [secondsGroup] at h
  split at h
  · cases h
  · split at h
    · cases h
    · exact (Prod.mk.inj h).2.symm
  · exact (Prod.mk.inj h).2.symm

/-- **What is accepted without seconds is a duration.** -/
theorem durationMatches_says {s : String} {ys ms ds hs mins : List Char}
    (h : durationMatches s = some [ys, ms, ds, hs, mins, []]) :
    SaysDuration s.toList ys ms ds hs mins := by
  rw [durationMatches] at h
  split at h
  · rename_i cs hcs
    rcases hY : unitGroup 'Y' cs with ⟨ys', cs₁⟩
    rcases hM : unitGroup 'M' cs₁ with ⟨ms', cs₂⟩
    rcases hD : unitGroup 'D' cs₂ with ⟨ds', cs₃⟩
    obtain ⟨rfl, hys⟩ := unitGroup_eq hY
    obtain ⟨rfl, hms⟩ := unitGroup_eq hM
    obtain ⟨rfl, hds⟩ := unitGroup_eq hD
    simp only [hY, hM, hD] at h
    split at h
    · cases h
      refine ⟨[], ?_, Or.inl ⟨rfl, rfl, rfl⟩, by simpa using ⟨hys, hms, hds⟩⟩
      rw [hcs, List.append_assoc, List.append_assoc]
    · rename_i cs₄
      rcases hH : unitGroup 'H' cs₄ with ⟨hs', cs₅⟩
      rcases hMin : unitGroup 'M' cs₅ with ⟨mins', cs₆⟩
      rcases hS : secondsGroup cs₆ with ⟨ss, cs₇⟩
      obtain ⟨rfl, hhs⟩ := unitGroup_eq hH
      obtain ⟨rfl, hmins⟩ := unitGroup_eq hMin
      simp only [hH, hMin, hS] at h
      split_ifs at h with hend
      cases h
      obtain rfl := secondsGroup_eq_nil hS
      refine ⟨_, ?_, Or.inr rfl, by simpa using ⟨hys, hms, hds, hhs, hmins⟩⟩
      rw [hcs, hend, List.append_nil, List.append_assoc, List.append_assoc]
    · cases h
  · cases h

/-! ## The duration -/

/-- The duration of a text without seconds is the sum of its components, unless it is zero. -/
theorem parseISO8601Duration_eq (env : Env) {s : String} {ys ms ds hs mins : List Char}
    (h : durationMatches s = some [ys, ms, ds, hs, mins, []]) :
    parseISO8601Duration env s =
      (addUnits 0 (durationUnits.zip [ys, ms, ds, hs, mins]) >>= fun d =>
        if d = 0 then .error "duration must be greater than zero" else .ok d) := by
  have hne : s ≠ "" := by
    rintro rfl
    cases h
  simp only [parseISO8601Duration, if_neg hne, h, durationUnits, List.zip_cons_cons,
    List.zip_nil_left, addUnits, if_true, bind_assoc]
  rfl

/-- The result is an error or the exact duration, positive and an `int64`. -/
def ExactOrError (result : Except String Int) (exact : Int) : Prop :=
  (∃ msg, result = .error msg) ∨ (result = .ok exact ∧ 0 < exact ∧ exact < 2 ^ 63)

theorem wrap64_eq_zero_iff {n : Int} : wrap64 n = 0 ↔ n % 2 ^ 64 = 0 := by
  rw [wrap64, Int.bmod]
  split_ifs <;> omega

theorem exactSum_nonneg {cs : List ((String × Int) × List Char)} (h : ∀ c ∈ cs, 0 ≤ c.1.2) :
    0 ≤ exactSum cs := by
  apply List.sum_nonneg
  intro n hn
  obtain ⟨c, hc, rfl⟩ := List.mem_map.1 hn
  exact mul_nonneg (Int.natCast_nonneg _) (h c hc)

/-- The components are exact or rejected, unless their sum wraps. -/
theorem exactOrError_addUnits_iff {cs : List ((String × Int) × List Char)}
    (hds : ∀ c ∈ cs, ∀ d ∈ c.2, d.isDigit) (hunits : ∀ c ∈ cs, 0 ≤ c.1.2) :
    ExactOrError (addUnits 0 cs >>= fun d =>
        if d = 0 then .error "duration must be greater than zero" else .ok d) (exactSum cs) ↔
      (∃ c ∈ cs, 2 ^ 63 ≤ digitsValue c.2) ∨ exactSum cs % 2 ^ 64 = 0 ∨ exactSum cs < 2 ^ 63 := by
  have hnonneg := exactSum_nonneg hunits
  by_cases hge : ∃ c ∈ cs, 2 ^ 63 ≤ digitsValue c.2
  · obtain ⟨msg, hmsg⟩ := addUnits_error hds hge 0
    rw [hmsg]
    exact iff_of_true (Or.inl ⟨msg, rfl⟩) (Or.inl hge)
  · rw [or_iff_right hge]
    have hlt : ∀ c ∈ cs, digitsValue c.2 < 2 ^ 63 :=
      fun c hc => not_le.1 fun hle => hge ⟨c, hc, hle⟩
    have hsum : addUnits 0 cs = .ok (wrap64 (exactSum cs)) := by
      have hwrap := addUnits_wrap hds hlt 0
      rw [zero_add] at hwrap
      exact hwrap
    rw [hsum]
    show ExactOrError (if wrap64 (exactSum cs) = 0 then _ else _) _ ↔ _
    by_cases hzero : wrap64 (exactSum cs) = 0
    · rw [if_pos hzero]
      exact iff_of_true (Or.inl ⟨_, rfl⟩) (Or.inl (wrap64_eq_zero_iff.1 hzero))
    · rw [if_neg hzero, or_iff_right fun h => hzero (wrap64_eq_zero_iff.2 h)]
      constructor
      · rintro (⟨msg, hmsg⟩ | ⟨-, -, hlt⟩)
        · cases hmsg
        · exact hlt
      · intro hlt
        have hself := wrap64_eq_of_lt hnonneg hlt
        rw [hself] at hzero ⊢
        exact Or.inr ⟨rfl, by omega, hlt⟩

/-- **Durations are exact or rejected, unless the sum wraps.** -/
theorem parseISO8601Duration_iff (env : Env) (s : String) (ys ms ds hs mins : List Char)
    (h : durationMatches s = some [ys, ms, ds, hs, mins, []]) :
    ExactOrError (parseISO8601Duration env s) (exactDuration [ys, ms, ds, hs, mins]) ↔
      (∃ number ∈ [ys, ms, ds, hs, mins], 2 ^ 63 ≤ digitsValue number) ∨
        exactDuration [ys, ms, ds, hs, mins] % 2 ^ 64 = 0 ∨
          exactDuration [ys, ms, ds, hs, mins] < 2 ^ 63 := by
  obtain ⟨-, -, -, hdigits⟩ := durationMatches_says h
  have hunits : ∀ u ∈ durationUnits, 0 ≤ u.2 := by decide
  rw [parseISO8601Duration_eq env h, exactDuration, exactOrError_addUnits_iff]
  · simp [durationUnits]
  · intro c hc
    exact hdigits c.2 (List.of_mem_zip hc).2
  · intro c hc
    exact hunits c.1 (List.of_mem_zip hc).1

/-- Two hours are two hours. -/
theorem parseISO8601Duration_hours :
    ExactOrError (parseISO8601Duration Env.small "PT2H") (exactDuration [[], [], [], ['2'], []]) :=
  (parseISO8601Duration_iff Env.small "PT2H" [] [] [] ['2'] [] (by decide)).2
    (Or.inr (Or.inr (by decide)))

/-- Three hundred years are a negative duration. -/
theorem parseISO8601Duration_negative :
    parseISO8601Duration Env.small "P300Y" = .ok (-8985944073709551616) ∧
      ¬∀ (env : Env) (s : String) (ys ms ds hs mins : List Char),
        durationMatches s = some [ys, ms, ds, hs, mins, []] →
          ExactOrError (parseISO8601Duration env s) (exactDuration [ys, ms, ds, hs, mins]) := by
  have hnegative : parseISO8601Duration Env.small "P300Y" = .ok (-8985944073709551616) := by
    decide +kernel
  refine ⟨hnegative, ?_⟩
  intro h
  rcases h Env.small "P300Y" ['3', '0', '0'] [] [] [] [] (by decide) with ⟨msg, hmsg⟩ | ⟨-, -, hlt⟩
  · rw [hnegative] at hmsg
    cases hmsg
  · exact absurd hlt (by decide)

end Dkron
