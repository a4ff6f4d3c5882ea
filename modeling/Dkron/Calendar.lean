import Dkron.Lib.Decimal
import Dkron.Time

/-!
# Dates

The daily statistics are stored under the date of the day. Different days have different dates, so
the day can be read off the key: `formatStatDate_inj`.
-/

namespace Dkron

/-! ## Days of the calendar -/

/-- The year of a day within its era of 400 years. -/
def yearOfEra (doe : ℕ) : ℕ := (doe - doe / 1460 + doe / 36524 - doe / 146096) / 365

/-- The days of the era before a year of it. -/
def daysBefore (yoe : ℕ) : ℕ := 365 * yoe + yoe / 4 - yoe / 100

theorem yearOfEra_le {doe : ℕ} (h : doe < 146097) : yearOfEra doe ≤ 399 := by
  unfold yearOfEra
  omega

/-- A day lies in its year. -/
theorem daysBefore_le {doe : ℕ} (h : doe < 146097) :
    daysBefore (yearOfEra doe) ≤ doe ∧ doe - daysBefore (yearOfEra doe) ≤ 365 := by
  have hyear := yearOfEra_le h
  have hyoe : 365 * yearOfEra doe + doe / 1460 + doe / 146096 ≤ doe + doe / 36524 ∧
      doe + doe / 36524 < 365 * yearOfEra doe + 365 + doe / 1460 + doe / 146096 := by
    unfold yearOfEra
    omega
  unfold daysBefore
  generalize yearOfEra doe = yoe at hyear hyoe ⊢
  obtain ⟨f, hf⟩ : ∃ f, doe / 146096 = f := ⟨_, rfl⟩
  obtain ⟨c, hc⟩ : ∃ c, doe / 36524 = c := ⟨_, rfl⟩
  obtain ⟨k, hk⟩ : ∃ k, yoe / 100 = k := ⟨_, rfl⟩
  have hf1 : f ≤ 1 := by omega
  have hc4 : c ≤ 4 := by omega
  have hk3 : k ≤ 3 := by omega
  -- for each century of the day and of its year the bounds are linear
  rw [hf, hc] at hyoe
  rw [hk]
  interval_cases f <;> interval_cases c <;> interval_cases k <;> omega

/-- The month of a day of the year that begins in March, counted from March. -/
def monthOfYear (doy : ℕ) : ℕ := (5 * doy + 2) / 153

/-- The number of a month. -/
def monthNumber (mp : ℕ) : ℕ := if mp < 10 then mp + 3 else mp - 9

/-- The day of the month. -/
def dayOfMonth (doy : ℕ) : ℕ := doy - (153 * monthOfYear doy + 2) / 5 + 1

theorem monthNumber_le {doy : ℕ} (h : doy ≤ 365) : monthNumber (monthOfYear doy) ≤ 12 := by
  unfold monthNumber monthOfYear
  split_ifs <;> omega

theorem dayOfMonth_le (doy : ℕ) : dayOfMonth doy ≤ 31 := by
  unfold dayOfMonth monthOfYear
  omega

/-- Month and day determine the day of the year. -/
theorem dayOfYear_inj {a b : ℕ} (ha : a ≤ 365) (hb : b ≤ 365)
    (hmonth : monthNumber (monthOfYear a) = monthNumber (monthOfYear b))
    (hday : dayOfMonth a = dayOfMonth b) : a = b := by
  unfold monthNumber at hmonth
  have hmp : monthOfYear a = monthOfYear b := by
    have ha11 : monthOfYear a ≤ 11 := by unfold monthOfYear; omega
    have hb11 : monthOfYear b ≤ 11 := by unfold monthOfYear; omega
    split_ifs at hmonth <;> omega
  unfold dayOfMonth at hday
  rw [hmp] at hday
  unfold monthOfYear at hmp hday
  omega

/-- The day within its era. -/
def dayOfEra (days : Int) : ℕ := ((days + 719468) % 146097).toNat

/-- The day within its year. -/
def dayOfYear (days : Int) : ℕ := dayOfEra days - daysBefore (yearOfEra (dayOfEra days))

theorem dayOfEra_lt (days : Int) : dayOfEra days < 146097 := by
  unfold dayOfEra
  omega

theorem dayOfYear_le (days : Int) : dayOfYear days ≤ 365 := (daysBefore_le (dayOfEra_lt days)).2

theorem civil_eq (days : Int) : civil days =
    ((yearOfEra (dayOfEra days) : Int) + (days + 719468) / 146097 * 400 +
        (if monthNumber (monthOfYear (dayOfYear days)) ≤ 2 then 1 else 0),
      monthNumber (monthOfYear (dayOfYear days)), dayOfMonth (dayOfYear days)) := rfl

/-- Year, month and day of month determine the day. -/
theorem civil_inj {a b : Int} (h : civil a = civil b) : a = b := by
  rw [civil_eq, civil_eq, Prod.mk.injEq, Prod.mk.injEq] at h
  obtain ⟨hyear, hmonth, hday⟩ := h
  have hdoy := dayOfYear_inj (dayOfYear_le a) (dayOfYear_le b) hmonth hday
  rw [hmonth] at hyear
  have hya := yearOfEra_le (dayOfEra_lt a)
  have hyb := yearOfEra_le (dayOfEra_lt b)
  have hera : (a + 719468) / 146097 = (b + 719468) / 146097 := by omega
  have hyoe : yearOfEra (dayOfEra a) = yearOfEra (dayOfEra b) := by omega
  have hba := (daysBefore_le (dayOfEra_lt a)).1
  have hbb := (daysBefore_le (dayOfEra_lt b)).1
  have hdoe : dayOfEra a = dayOfEra b := by
    unfold dayOfYear at hdoy
    rw [hyoe] at hdoy hba
    omega
  unfold dayOfEra at hdoe
  omega

/-! ## Dates as text -/

theorem toList_padded (width n : ℕ) : (padded width n).toList =
    List.replicate (width - (Nat.repr n).toList.length) '0' ++ (Nat.repr n).toList := by
  rw [padded, String.toList_ofList]

theorem padded_inj {width m n : ℕ} (h : (padded width m).toList = (padded width n).toList) :
    m = n := by
  rw [toList_padded, toList_padded] at h
  have hvalue := congrArg (Nat.ofDigitChars 10 · 0) h
  simpa only [Decimal.value_zeros_append] using hvalue

/-- Two digits for a number below a hundred. -/
theorem length_padded_two {n : ℕ} (h : n < 100) : (padded 2 n).toList.length = 2 := by
  have hle := Decimal.length_repr_le (k := 2) (by decide) h
  rw [toList_padded, List.length_append, List.length_replicate]
  omega

/-- There is no sign in a padded number. -/
theorem sign_not_mem_padded (width n : ℕ) : '-' ∉ (padded width n).toList := by
  rw [toList_padded, List.mem_append, not_or]
  refine ⟨fun h => ?_, fun h => ?_⟩
  · exact absurd (List.eq_of_mem_replicate h) (by decide)
  · exact absurd (Decimal.isDigit_of_mem_repr h) (by decide)

/-- The year of a date. -/
def yearText (y : Int) : List Char := (if y < 0 then ['-'] else []) ++ (padded 4 y.natAbs).toList

theorem yearText_inj {x y : Int} (h : yearText x = yearText y) : x = y := by
  have hneg : ∀ z : Int, '-' ∈ yearText z ↔ z < 0 := by
    intro z
    rw [yearText, List.mem_append, or_iff_left (sign_not_mem_padded _ _)]
    split_ifs with hz <;> simp [hz]
  have hsign : x < 0 ↔ y < 0 := by rw [← hneg, ← hneg, h]
  have habs : x.natAbs = y.natAbs := by
    unfold yearText at h
    by_cases hx : x < 0
    · rw [if_pos hx, if_pos (hsign.1 hx)] at h
      exact padded_inj (List.append_cancel_left h)
    · rw [if_neg hx, if_neg (mt hsign.2 hx)] at h
      exact padded_inj (List.append_cancel_left h)
  omega

theorem toList_formatDay (days : Int) : (formatDay days).toList =
    yearText (civil days).1 ++ ('-' :: (padded 2 (civil days).2.1).toList ++
      ('-' :: (padded 2 (civil days).2.2).toList)) := by
  have hsplit : formatDay days = (if (civil days).1 < 0 then "-" else "") ++
      padded 4 (civil days).1.natAbs ++ "-" ++ padded 2 (civil days).2.1 ++ "-" ++
        padded 2 (civil days).2.2 := rfl
  rw [hsplit, yearText]
  split_ifs <;> simp [String.toList_append]

theorem month_lt (days : Int) : (civil days).2.1 < 100 := by
  have hle := monthNumber_le (dayOfYear_le days)
  rw [civil_eq]
  show monthNumber _ < 100
  omega

theorem day_lt (days : Int) : (civil days).2.2 < 100 := by
  have hle := dayOfMonth_le (dayOfYear days)
  rw [civil_eq]
  show dayOfMonth _ < 100
  omega

/-- Different days have different dates. -/
theorem formatDay_inj {a b : Int} (h : formatDay a = formatDay b) : a = b := by
  have hlist := congrArg String.toList h
  rw [toList_formatDay, toList_formatDay] at hlist
  have hm : ∀ d, ('-' :: (padded 2 (civil d).2.1).toList).length = 3 := fun d => by
    rw [List.length_cons, length_padded_two (month_lt d)]
  have hd : ∀ d, ('-' :: (padded 2 (civil d).2.2).toList).length = 3 := fun d => by
    rw [List.length_cons, length_padded_two (day_lt d)]
  obtain ⟨hyear, hrest⟩ := List.append_inj' hlist (by
    rw [List.length_append, List.length_append, hm, hm, hd, hd])
  obtain ⟨hmonth, hday⟩ := List.append_inj' hrest (by rw [hd, hd])
  refine civil_inj (Prod.ext (yearText_inj hyear) (Prod.ext ?_ ?_))
  · exact padded_inj (List.cons.inj hmonth).2
  · exact padded_inj (List.cons.inj hday).2

/-- The day can be read off its key. -/
theorem formatStatDate_inj {t u : Time} (h : formatStatDate t = formatStatDate u) :
    truncateDay t = truncateDay u := by
  have hdays := formatDay_inj h
  rw [truncateDay_div, truncateDay_div] at hdays
  rw [truncateDay, truncateDay, hdays]

end Dkron
