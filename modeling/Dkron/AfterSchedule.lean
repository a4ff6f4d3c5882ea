import Dkron.Extcron

/-!
# A schedule that fires once

`extcron/after.go`. An `AfterSchedule` carries a flag that is set when it fires within its grace
period. It is not set when the schedule answers with its date, so a call that follows such an answer
within the grace period fires again.

Main results: `after_oneShot_iff` and `activations_le_two`.
-/

namespace Dkron

/-- `AfterSchedule`. -/
structure AfterSchedule where
  date : Time
  gracePeriod : Int
  consumed : Bool
deriving DecidableEq

namespace AfterSchedule

/-- `After`. -/
def make (date : Time) (gracePeriod : Int) : AfterSchedule := ⟨date, gracePeriod, false⟩

/-- `Next`: the activation and the schedule afterwards. -/
def next (s : AfterSchedule) (t : Time) : Time × AfterSchedule :=
  let (activation, consumed) := afterNext s.date s.gracePeriod s.consumed t
  (activation, { s with consumed })

/-- The answers to a list of calls. -/
def answers (s : AfterSchedule) : List Time → List Time
  | [] => []
  | t :: ts => (s.next t).1 :: (s.next t).2.answers ts

/-- The answers that are activations. -/
def activations (s : AfterSchedule) (ts : List Time) : List Time :=
  (s.answers ts).filter (· ≠ zeroTime)

/-- The calls of a cron loop: one after each activation, at some time not before it. -/
def CronLoop (s : AfterSchedule) : List Time → Prop
  | [] => True
  | [_] => True
  | t :: u :: us =>
    (s.next t).1 ≠ zeroTime ∧ (s.next t).1 ≤ u ∧ (s.next t).2.CronLoop (u :: us)

/-- Every answer is zero or later than its call, and one is an activation at most. -/
def OneShot (s : AfterSchedule) (ts : List Time) : Prop :=
  (∀ p ∈ ts.zip (s.answers ts), p.2 = zeroTime ∨ p.1 < p.2) ∧ (s.activations ts).length ≤ 1

/-- The first call comes before the date and the second within the grace period. -/
def FiresAgain (s : AfterSchedule) : List Time → Prop
  | t :: u :: _ => t < s.date ∧ u ≤ s.date + s.gracePeriod ∧ u + 1 ≠ zeroTime
  | _ => False

instance decidableCronLoop : (s : AfterSchedule) → (ts : List Time) → Decidable (s.CronLoop ts)
  | _, [] => isTrue trivial
  | _, [_] => isTrue trivial
  | s, t :: u :: us =>
    haveI := decidableCronLoop (s.next t).2 (u :: us)
    inferInstanceAs (Decidable (_ ∧ _ ∧ _))

section

variable {s : AfterSchedule} {t u : Time} {ts us : List Time}

@[simp] theorem next_date : (s.next t).2.date = s.date := rfl

@[simp] theorem next_gracePeriod : (s.next t).2.gracePeriod = s.gracePeriod := rfl

/-! ## One call -/

theorem next_of_consumed (h : s.consumed) (t : Time) : s.next t = (zeroTime, s) := by
  unfold next afterNext
  rw [if_pos h]

/-- Before the date the answer is the date, and the schedule stays as it is. -/
theorem next_of_before (h : ¬s.consumed) (ht : t < s.date) : s.next t = (s.date, s) := by
  unfold next afterNext
  rw [if_neg h, if_pos ht]

/-- Within the grace period the answer is the next instant, and the schedule is consumed. -/
theorem next_of_within (h : ¬s.consumed) (hd : s.date ≤ t) (ht : t ≤ s.date + s.gracePeriod) :
    s.next t = (t + 1, { s with consumed := true }) := by
  unfold next afterNext
  rw [if_neg h, if_neg (not_lt.2 hd), if_pos ht]

theorem next_of_beyond (hd : s.date ≤ t) (ht : s.date + s.gracePeriod < t) :
    s.next t = (zeroTime, s) := by
  unfold next afterNext
  rw [if_neg (not_lt.2 hd), if_neg (not_le.2 ht), ite_self]

/-- An answer is zero or later than its call. -/
theorem next_later (s : AfterSchedule) (t : Time) :
    (s.next t).1 = zeroTime ∨ t < (s.next t).1 := by
  by_cases hc : s.consumed
  · exact Or.inl (by rw [next_of_consumed hc])
  by_cases hd : t < s.date
  · exact Or.inr (by rw [next_of_before hc hd]; exact hd)
  rw [not_lt] at hd
  by_cases hg : t ≤ s.date + s.gracePeriod
  · apply Or.inr
    rw [next_of_within hc hd hg]
    exact Int.lt_succ t
  · exact Or.inl (by rw [next_of_beyond hd (not_le.1 hg)])

/-! ## Histories of calls -/

theorem answers_later (s : AfterSchedule) (ts : List Time) :
    ∀ p ∈ ts.zip (s.answers ts), p.2 = zeroTime ∨ p.1 < p.2 := by
  induction ts generalizing s with
  | nil => simp [answers]
  | cons t ts ih =>
    intro p hp
    rw [answers, List.zip_cons_cons, List.mem_cons] at hp
    rcases hp with rfl | hp
    · exact next_later s t
    · exact ih _ p hp

@[simp] theorem activations_nil : s.activations [] = [] := rfl

theorem activations_cons (s : AfterSchedule) (t : Time) (ts : List Time) :
    s.activations (t :: ts) =
      if (s.next t).1 = zeroTime then (s.next t).2.activations ts
      else (s.next t).1 :: (s.next t).2.activations ts := by
  unfold activations
  rw [answers]
  by_cases h : (s.next t).1 = zeroTime <;> simp [h]

theorem activations_of_consumed (h : s.consumed) (ts : List Time) : s.activations ts = [] := by
  induction ts with
  | nil => rfl
  | cons t ts ih =>
    rw [activations_cons, next_of_consumed h]
    simpa using ih

/-- From the date on the schedule fires once at most. -/
theorem activations_length_of_date_le (hd : s.date ≤ t) (hloop : s.CronLoop (t :: ts)) :
    (s.activations (t :: ts)).length ≤ 1 := by
  by_cases hc : s.consumed
  · simp [activations_of_consumed hc]
  by_cases hg : t ≤ s.date + s.gracePeriod
  · have hnext := next_of_within hc hd hg
    rw [activations_cons, hnext, activations_of_consumed (by rfl)]
    split_ifs <;> simp
  · have hnext := next_of_beyond hd (not_le.1 hg)
    cases ts with
    | nil => simp [activations_cons, hnext]
    | cons u us => exact absurd (congrArg Prod.fst hnext) hloop.1

theorem cronLoop_cons_cons : s.CronLoop (t :: u :: us) ↔
    (s.next t).1 ≠ zeroTime ∧ (s.next t).1 ≤ u ∧ (s.next t).2.CronLoop (u :: us) := Iff.rfl

/-- What follows an answer with the date comes from the date on. -/
theorem CronLoop.date_le (hc : ¬s.consumed) (ht : t < s.date) (h : s.CronLoop (t :: u :: us)) :
    s.date ≠ zeroTime ∧ s.date ≤ u ∧ s.CronLoop (u :: us) := by
  rwa [cronLoop_cons_cons, next_of_before hc ht] at h

/-- However late the calls are, a schedule fires at most twice. -/
theorem activations_le_two (h : s.CronLoop ts) : (s.activations ts).length ≤ 2 := by
  cases ts with
  | nil => simp
  | cons t ts =>
    by_cases hc : s.consumed
    · simp [activations_of_consumed hc]
    by_cases ht : t < s.date
    · rw [activations_cons, next_of_before hc ht]
      cases ts with
      | nil => split_ifs <;> simp
      | cons u us =>
        obtain ⟨hne, hd, hloop⟩ := h.date_le hc ht
        have hone := activations_length_of_date_le hd hloop
        rw [if_neg hne, List.length_cons]
        show (s.activations (u :: us)).length + 1 ≤ 2
        omega
    · have hone := activations_length_of_date_le (not_lt.1 ht) h
      omega

/-- After an answer with the date, one more activation comes from a call within the grace period
and from no other. -/
theorem activations_after_date (hc : ¬s.consumed) (ht : t < s.date)
    (h : s.CronLoop (t :: u :: us)) :
    (s.activations (t :: u :: us)).length ≤ 1 ↔
      ¬(u ≤ s.date + s.gracePeriod ∧ u + 1 ≠ zeroTime) := by
  obtain ⟨hne, hd, hloop⟩ := h.date_le hc ht
  rw [activations_cons, next_of_before hc ht, if_neg hne, List.length_cons, activations_cons]
  by_cases hg : u ≤ s.date + s.gracePeriod
  · rw [next_of_within hc hd hg, activations_of_consumed (by rfl)]
    by_cases hz : u + 1 = zeroTime <;> simp [hz, hg]
  · have hnext := next_of_beyond hd (not_le.1 hg)
    cases us with
    | nil => simp [hnext, hg]
    | cons v vs => exact absurd (congrArg Prod.fst hnext) hloop.1

/-- A schedule that was just made fires once at most, unless the loop asks first before the date and
then within the grace period. -/
theorem after_oneShot_iff (date : Time) (gracePeriod : Int)
    (h : (make date gracePeriod).CronLoop ts) :
    (make date gracePeriod).OneShot ts ↔ ¬(make date gracePeriod).FiresAgain ts := by
  have hc : ¬(make date gracePeriod).consumed := by simp [make]
  rw [OneShot, and_iff_right (answers_later _ ts)]
  match ts, h with
  | [], _ => simp [FiresAgain]
  | [t], _ =>
    rw [activations_cons]
    split_ifs <;> simp [FiresAgain]
  | t :: u :: us, h =>
    by_cases ht : t < (make date gracePeriod).date
    · rw [activations_after_date hc ht h, FiresAgain, and_iff_right ht]
    · have hone := activations_length_of_date_le (not_lt.1 ht) h
      simp [FiresAgain, ht, hone]

end

/-- A loop that is late: the call after the date lies beyond the grace period. -/
theorem after_oneShot_late : (make 10 5).OneShot [3, 16] :=
  (after_oneShot_iff 10 5 (by decide)).2 fun h => absurd h.2.1 (by decide)

/-- A loop that is on time: the date is the answer at `3`, and its call at the date is answered with
a second activation. -/
theorem after_fires_twice :
    (make 10 5).CronLoop [3, 10] ∧ (make 10 5).answers [3, 10] = [10, 11] ∧
      ¬(make 10 5).OneShot [3, 10] :=
  ⟨by decide, by decide, fun h => absurd h.2 (by decide)⟩

end AfterSchedule

end Dkron
