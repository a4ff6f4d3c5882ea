import Mathlib.Data.List.Perm.Basic
import Mathlib.Logic.Function.Basic

/-!
# Registers that count

One register for each outcome. A report writes its time into the register of its outcome and is
counted, but for a report that is marked as a repeated one and finds its own time there: that one is
not counted.

What the registers hold at the end and how much was counted depends on the order of the reports,
unless they are *settled*: all reports of an outcome have the same time, and all or none of them are
marked, or the register holds their time from the beginning. `order_independent_iff` says that there
are no other cases.
-/

namespace Register

variable {β τ : Type*}

/-- A report. -/
structure Report (β τ : Type*) where
  outcome : β
  time : τ
  again : Bool

/-- The report finds its own time. -/
def Known (last : β → Option τ) (r : Report β τ) : Prop :=
  r.again ∧ last r.outcome = some r.time

/-- The reports of the outcome leave nothing to their order. -/
def Settled (last : β → Option τ) (rs : List (Report β τ)) (b : β) : Prop :=
  ∀ r ∈ rs, r.outcome = b → ∀ r' ∈ rs, r'.outcome = b →
    r.time = r'.time ∧ (r.again = r'.again ∨ last b = some r.time)

theorem Settled.perm {last : β → Option τ} {rs rs' : List (Report β τ)} {b : β}
    (h : Settled last rs b) (hp : rs.Perm rs') : Settled last rs' b :=
  fun r hr ho r' hr' ho' => h r (hp.mem_iff.2 hr) ho r' (hp.mem_iff.2 hr') ho'

/-- A report can be moved to the front. -/
theorem exists_perm_cons {α : Type*} {xs : List α} {x : α} (h : x ∈ xs) :
    ∃ ys, xs.Perm (x :: ys) := by
  obtain ⟨as, bs, rfl⟩ := List.append_of_mem h
  exact ⟨as ++ bs, List.perm_middle⟩

/-- An order of the reports comes from an order of what is reported. -/
theorem exists_perm_filterMap {α : Type*} {f : α → Option β} {xs : List α} {ys : List β}
    (h : ys.Perm (xs.filterMap f)) : ∃ zs : List α, zs.Perm xs ∧ zs.filterMap f = ys := by
  induction xs generalizing ys with
  | nil => exact ⟨[], List.Perm.refl _, (List.Perm.eq_nil h).symm⟩
  | cons x xs ih =>
    cases hx : f x with
    | none =>
      rw [List.filterMap_cons_none hx] at h
      obtain ⟨zs, hp, rfl⟩ := ih h
      exact ⟨x :: zs, hp.cons x, List.filterMap_cons_none hx⟩
    | some y =>
      rw [List.filterMap_cons_some hx] at h
      obtain ⟨as, bs, rfl⟩ := List.append_of_mem (h.mem_iff.2 List.mem_cons_self)
      have hrest : (as ++ bs).Perm (xs.filterMap f) :=
        (List.perm_cons y).1 (List.perm_middle.symm.trans h)
      obtain ⟨zs, hp, hsplit⟩ := ih hrest
      obtain ⟨as', bs', rfl, rfl, rfl⟩ := List.filterMap_eq_append_iff.1 hsplit
      refine ⟨as' ++ x :: bs', List.perm_middle.trans (hp.cons x), ?_⟩
      rw [List.filterMap_append, List.filterMap_cons_some hx]

variable [DecidableEq β]

/-- The registers after a report. -/
def next (last : β → Option τ) (r : Report β τ) : β → Option τ :=
  Function.update last r.outcome (some r.time)

/-- The registers after a list of reports. -/
def final (last : β → Option τ) (rs : List (Report β τ)) : β → Option τ := rs.foldl next last

instance [DecidableEq τ] (last : β → Option τ) (r : Report β τ) : Decidable (Known last r) :=
  inferInstanceAs (Decidable (_ ∧ _))

/-- What is counted. -/
def counted [DecidableEq τ] (last : β → Option τ) : List (Report β τ) → List (β × τ)
  | [] => []
  | r :: rs =>
    if Known last r then counted (next last r) rs
    else (r.outcome, r.time) :: counted (next last r) rs

/-- How often an outcome is counted. -/
def tally (b : β) (cs : List (β × τ)) : ℕ := cs.countP fun c => c.1 = b

section

variable {last : β → Option τ} {r r' : Report β τ} {rs rs' : List (Report β τ)} {b : β}

@[simp] theorem next_self : next last r r.outcome = some r.time := Function.update_self _ _ _

theorem next_of_ne (h : b ≠ r.outcome) : next last r b = last b := Function.update_of_ne h _ _

/-- A report that finds its own time leaves the registers as they are. -/
theorem next_of_known (h : Known last r) : next last r = last := by
  rw [next, ← h.2, Function.update_eq_self]

theorem final_cons : final last (r :: rs) = final (next last r) rs := rfl

theorem final_append : final last (rs ++ rs') = final (final last rs) rs' := List.foldl_append

theorem tally_cons_self (b : β) (t : τ) (cs : List (β × τ)) :
    tally b ((b, t) :: cs) = tally b cs + 1 := by
  simp [tally]

theorem tally_cons_of_ne {b b' : β} (h : b' ≠ b) (t : τ) (cs : List (β × τ)) :
    tally b ((b', t) :: cs) = tally b cs := by
  simp [tally, h]

/-- The register of an outcome holds the time of its last report. -/
theorem final_concat : final last (rs ++ [r]) r.outcome = some r.time := by
  rw [final_append]
  exact next_self

/-! ## Settled reports -/

/-- Once a report of the outcome has come, the register holds the time of all others. -/
theorem Settled.tail (h : ∀ b, Settled last (r :: rs) b) (b : β) : Settled (next last r) rs b := by
  intro x hx ho x' hx' ho'
  obtain ⟨htime, hagain⟩ := h b x (List.mem_cons_of_mem _ hx) ho x' (List.mem_cons_of_mem _ hx') ho'
  refine ⟨htime, ?_⟩
  by_cases hb : b = r.outcome
  · have hr := (h b r List.mem_cons_self hb.symm x (List.mem_cons_of_mem _ hx) ho).1
    exact Or.inr (by rw [hb, next_self, hr])
  · rwa [next_of_ne hb]

theorem final_of_forall_ne (h : ∀ r ∈ rs, r.outcome ≠ b) : final last rs b = last b := by
  induction rs generalizing last with
  | nil => rfl
  | cons r rs ih =>
    rw [final_cons, ih fun x hx => h x (List.mem_cons_of_mem _ hx),
      next_of_ne (h r List.mem_cons_self).symm]

/-- If the register does not depend on the order, all reports of an outcome have one time: each of
them can come last. -/
theorem time_eq_of_final_eq (h : ∀ rs', rs'.Perm rs → final last rs' = final last rs)
    (hr : r ∈ rs) (hr' : r' ∈ rs) (ho : r.outcome = r'.outcome) : r.time = r'.time := by
  obtain ⟨ys, hys⟩ := exists_perm_cons hr
  obtain ⟨ys', hys'⟩ := exists_perm_cons hr'
  have hend := h (ys ++ [r]) ((List.perm_append_singleton r ys).trans hys.symm)
  have hend' := h (ys' ++ [r']) ((List.perm_append_singleton r' ys').trans hys'.symm)
  have hb : final last (ys ++ [r]) r.outcome = some r.time := final_concat
  have hb' : final last (ys' ++ [r']) r'.outcome = some r'.time := final_concat
  rw [hend] at hb
  rw [hend', ← ho, hb] at hb'
  exact Option.some.inj hb'

variable [DecidableEq τ]

theorem counted_cons_of_known (h : Known last r) :
    counted last (r :: rs) = counted (next last r) rs := if_pos h

theorem counted_cons_of_not_known (h : ¬Known last r) :
    counted last (r :: rs) = (r.outcome, r.time) :: counted (next last r) rs := if_neg h

/-! ## Order does not matter -/

/-- Two settled reports in either order. -/
theorem Settled.swap (h : ∀ b, Settled last (r :: r' :: rs) b) :
    next (next last r) r' = next (next last r') r ∧
      (counted last (r :: r' :: rs)).Perm (counted last (r' :: r :: rs)) := by
  by_cases ho : r.outcome = r'.outcome
  · obtain ⟨htime, hagain⟩ := h r.outcome r (by simp) rfl r' (by simp) ho.symm
    have hnext : next (next last r) r' = next (next last r') r := by simp only [next, ho, htime]
    have hknown : Known (next last r) r' ↔ r'.again := by
      rw [Known, ← ho, next_self, htime, and_iff_left rfl]
    have hknown' : Known (next last r') r ↔ r.again := by
      rw [Known, ho, next_self, htime, and_iff_left rfl]
    refine ⟨hnext, List.Perm.of_eq ?_⟩
    have hfirst : Known last r ↔ r.again ∧ last r'.outcome = some r'.time := by
      rw [Known, ho, htime]
    have hfirst' : Known last r' ↔ r'.again ∧ last r'.outcome = some r'.time := Iff.rfl
    simp only [counted, hknown, hknown', hfirst, hfirst', hnext, ho, htime]
    rw [ho, htime] at hagain
    rcases hagain with heq | heq
    · rw [heq]
    · simp only [heq, and_true]
      split_ifs <;> rfl
  · have hnext : next (next last r) r' = next (next last r') r :=
      Function.update_comm ho _ _ _
    have hknown : Known (next last r) r' ↔ Known last r' := by
      rw [Known, Known, next_of_ne (Ne.symm ho)]
    have hknown' : Known (next last r') r ↔ Known last r := by
      rw [Known, Known, next_of_ne ho]
    refine ⟨hnext, ?_⟩
    simp only [counted, hknown, hknown', hnext]
    split_ifs
    · exact List.Perm.refl _
    · exact List.Perm.refl _
    · exact List.Perm.refl _
    · exact List.Perm.swap _ _ _

/-- Settled reports lead to the same registers and are counted alike in every order. -/
theorem Settled.run_perm (h : ∀ b, Settled last rs b) (hp : rs.Perm rs') :
    final last rs = final last rs' ∧ (counted last rs).Perm (counted last rs') := by
  induction hp generalizing last with
  | nil => exact ⟨rfl, List.Perm.refl _⟩
  | cons r _ ih =>
    obtain ⟨hfinal, hcounted⟩ := ih (Settled.tail h)
    refine ⟨hfinal, ?_⟩
    by_cases hk : Known last r
    · rwa [counted_cons_of_known hk, counted_cons_of_known hk]
    · rw [counted_cons_of_not_known hk, counted_cons_of_not_known hk]
      exact hcounted.cons _
  | swap r r' rs =>
    obtain ⟨hnext, hcounted⟩ := Settled.swap h
    exact ⟨congrArg (fun f => final f rs) hnext, hcounted⟩
  | trans hp _ ih ih' =>
    obtain ⟨hfinal, hcounted⟩ := ih h
    obtain ⟨hfinal', hcounted'⟩ := ih' fun b => (h b).perm hp
    exact ⟨hfinal.trans hfinal', hcounted.trans hcounted'⟩

/-- With settled reports the register ends at their time. -/
theorem Settled.final_eq (h : ∀ b, Settled last rs b) (hr : r ∈ rs) :
    final last rs r.outcome = some r.time := by
  obtain ⟨ys, hys⟩ := exists_perm_cons hr
  have hp : rs.Perm (ys ++ [r]) := hys.trans (List.perm_append_singleton r ys).symm
  rw [(Settled.run_perm h hp).1]
  exact final_concat

/-! ## Order matters -/

/-- Of a report that is marked and one that is not, which find another time in their register, the
marked one is counted only if it comes first. -/
theorem counted_swap (ho : r.outcome = r'.outcome) (htime : r.time = r'.time) (hr : r.again)
    (hr' : ¬r'.again) (hlast : last r.outcome ≠ some r.time) :
    tally r.outcome (counted last (r :: r' :: rs)) =
      tally r.outcome (counted last (r' :: r :: rs)) + 1 := by
  have hnext : next (next last r) r' = next (next last r') r := by simp only [next, ho, htime]
  have hk : ¬Known last r := fun h => hlast h.2
  have hk' : ¬Known last r' := fun h => hr' h.1
  have hk₂ : ¬Known (next last r) r' := fun h => hr' h.1
  have hk₁ : Known (next last r') r := ⟨hr, by rw [ho, next_self, htime]⟩
  rw [counted_cons_of_not_known hk, counted_cons_of_not_known hk₂, counted_cons_of_not_known hk',
    counted_cons_of_known hk₁, hnext, ← ho, tally_cons_self, tally_cons_self]

/-- If what is observed of the numbers does not depend on the order, a marked report and one that is
not find their time in the register. -/
theorem last_eq_of_tally_eq {γ : Type*} {obs : β → ℕ → γ} (hobs : ∀ b n, obs b (n + 1) ≠ obs b n)
    (h : ∀ rs', rs'.Perm rs → ∀ b, obs b (tally b (counted last rs')) =
      obs b (tally b (counted last rs)))
    (hr : r ∈ rs) (hr' : r' ∈ rs) (ho : r.outcome = r'.outcome) (htime : r.time = r'.time)
    (ha : r.again) (ha' : ¬r'.again) : last r.outcome = some r.time := by
  by_contra hlast
  obtain ⟨ys, hys⟩ := exists_perm_cons hr
  have hmem : r' ∈ ys := by
    rcases List.mem_cons.1 (hys.mem_iff.1 hr') with heq | hmem
    · exact absurd (heq ▸ ha) ha'
    · exact hmem
  obtain ⟨zs, hzs⟩ := exists_perm_cons hmem
  have hp : (r :: r' :: zs).Perm rs := ((hzs.cons r).symm).trans hys.symm
  have hfirst := h _ hp r.outcome
  have hsecond := h _ ((List.Perm.swap r r' zs).trans hp) r.outcome
  have hone : tally r.outcome (counted last (r :: r' :: zs)) =
      tally r.outcome (counted last (r' :: r :: zs)) + 1 := counted_swap ho htime ha ha' hlast
  exact hobs r.outcome _ (by rw [← hone, hfirst, hsecond])

/-- **Order independence.** All orders of the reports lead to the same registers and, as far as it
is observed, to the same numbers of counted reports if and only if the reports are settled. An
observation has to tell a number from the next one. -/
theorem order_independent_iff {γ : Type*} (obs : β → ℕ → γ)
    (hobs : ∀ b n, obs b (n + 1) ≠ obs b n) :
    (∀ rs', rs'.Perm rs → final last rs' = final last rs ∧
        ∀ b, obs b (tally b (counted last rs')) = obs b (tally b (counted last rs))) ↔
      ∀ b, Settled last rs b := by
  constructor
  · intro h b r hr ho r' hr' ho'
    have htime : r.time = r'.time :=
      time_eq_of_final_eq (fun rs' hp => (h rs' hp).1) hr hr' (ho.trans ho'.symm)
    refine ⟨htime, ?_⟩
    by_cases hagain : r.again = r'.again
    · exact .inl hagain
    · refine .inr ?_
      have htally := fun rs' hp => (h rs' hp).2
      cases hra : r.again with
      | true =>
        have hra' : ¬r'.again := fun h' => hagain (hra.trans h'.symm)
        have hlast := last_eq_of_tally_eq hobs htally hr hr' (ho.trans ho'.symm) htime hra hra'
        rwa [ho] at hlast
      | false =>
        have hra' : r'.again := by
          by_contra h'
          exact hagain (by simp [hra, h'])
        have hlast := last_eq_of_tally_eq hobs htally hr' hr (ho'.trans ho.symm) htime.symm hra'
          (by simp [hra])
        rwa [ho', ← htime] at hlast
  · intro h rs' hp
    obtain ⟨hfinal, hcounted⟩ := Settled.run_perm h hp.symm
    refine ⟨hfinal.symm, fun b => congrArg (obs b) ?_⟩
    exact (hcounted.countP_eq _).symm

end

end Register
