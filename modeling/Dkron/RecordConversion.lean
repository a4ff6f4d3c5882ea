import Dkron.RecordText

/-!
# Converting records

`ToProto` and `NewJobFromProto` (`NewExecutionFromProto`) stand between the records of the server
and their messages, on every request. The counters, the retries and the attempt are wider in the
record than in the message, and the conversion cuts them; validation does not look at them.

**Theorem (`recordConversion_iff`).** A job comes back with every persisted field exactly when its
counters fit 32 bits with a sign and its retries 32 bits without, and an execution exactly when its
attempt fits 32 bits. Timestamps hold every instant whose seconds are an `int64`.
-/

namespace Dkron

/-! ## Numbers of another width -/

theorem toInt_ofInt_iff (n : Int) : (Int32.ofInt n).toInt = n ↔ FitsInt32 n := by
  rw [FitsInt32, Int32.toInt_ofInt, Int32.size, Int.bmod]
  split_ifs <;> omega

theorem toInt64_ofInt_iff (n : Int) :
    (Int64.ofInt n).toInt = n ↔ -2 ^ 63 ≤ n ∧ n ≤ 2 ^ 63 - 1 := by
  rw [Int64.toInt_ofInt, Int64.size, Int.bmod]
  split_ifs <;> omega

theorem toNat_ofNat_iff (n : Nat) : (UInt32.ofNat n).toNat = n ↔ n < 2 ^ 32 := by
  rw [UInt32.toNat_ofNat']
  omega

/-! ## Timestamps -/

/-- `timestamppb.Timestamp`. -/
structure PbTimestamp where
  seconds : Int64
  nanos : Int32
deriving DecidableEq, Repr

/-- `timestamppb.New`. -/
def PbTimestamp.new (t : Time) : PbTimestamp := ⟨Int64.ofInt (t / 10 ^ 9), Int32.ofInt (t % 10 ^ 9)⟩

/-- `AsTime` of a message that is not nil. -/
def PbTimestamp.asTime (ts : PbTimestamp) : Time := ts.seconds.toInt * 10 ^ 9 + ts.nanos.toInt

/-- A timestamp holds an instant exactly when its seconds fit. -/
theorem PbTimestamp.asTime_new_iff (t : Time) : (new t).asTime = t ↔ SecondsFit t := by
  have hnanos : (Int32.ofInt (t % 10 ^ 9)).toInt = t % 10 ^ 9 := by
    rw [toInt_ofInt_iff, FitsInt32]
    omega
  rw [asTime, new, hnanos, SecondsFit, ← toInt64_ofInt_iff]
  have hsplit : t / 10 ^ 9 * 10 ^ 9 + t % 10 ^ 9 = t := Int.ediv_mul_add_emod t (10 ^ 9)
  constructor
  · intro h
    have hmul : (Int64.ofInt (t / 10 ^ 9)).toInt * 10 ^ 9 = t / 10 ^ 9 * 10 ^ 9 :=
      add_right_cancel (h.trans hsplit.symm)
    exact Int.eq_of_mul_eq_mul_right (by norm_num) hmul
  · intro h
    rw [h]
    exact hsplit

/-! ## Jobs and executions -/

/-- What comes back of a job: the counters and retries that the message held, and its name as the
id. -/
theorem newJobFromProto_toProto_eq (j : Job) :
    newJobFromProto j.toProto =
      { j with
        id := j.name
        successCount := (Int32.ofInt j.successCount).toInt
        errorCount := (Int32.ofInt j.errorCount).toInt
        retries := (UInt32.ofNat j.retries).toNat } := by
  simp only [newJobFromProto, Job.toProto, PbNullableTime.get_new, asTime_some]

theorem newJobFromProto_toProto_iff (j : Job) :
    newJobFromProto j.toProto = { j with id := j.name } ↔
      FitsInt32 j.successCount ∧ FitsInt32 j.errorCount ∧ j.retries < 2 ^ 32 := by
  rw [newJobFromProto_toProto_eq, ← toInt_ofInt_iff, ← toInt_ofInt_iff, ← toNat_ofNat_iff]
  simp [Job.mk.injEq]

theorem newExecutionFromProto_toProto_iff (e : Execution) :
    newExecutionFromProto e.toProto = { e with id := e.key } ↔ e.attempt < 2 ^ 32 := by
  constructor
  · intro h
    have hattempt : (newExecutionFromProto e.toProto).attempt = e.attempt := by rw [h]
    exact (toNat_ofNat_iff e.attempt).1 hattempt
  · exact newExecutionFromProto_toProto

/-- **What conversion preserves.** -/
theorem recordConversion_iff (j : Job) (e : Execution) (t : Time) :
    (newJobFromProto j.toProto = { j with id := j.name } ↔
        FitsInt32 j.successCount ∧ FitsInt32 j.errorCount ∧ j.retries < 2 ^ 32) ∧
      (newExecutionFromProto e.toProto = { e with id := e.key } ↔ e.attempt < 2 ^ 32) ∧
      ((PbTimestamp.new t).asTime = t ↔ SecondsFit t) :=
  ⟨newJobFromProto_toProto_iff j, newExecutionFromProto_toProto_iff e, PbTimestamp.asTime_new_iff t⟩

/-- A job that is valid, with one retry more than a message can hold. -/
def manyRetries : Job := { name := "a", schedule := "@manually", retries := 2 ^ 32 }

/-- It comes back without retries. -/
theorem retries_lost :
    manyRetries.validate Env.small = .ok () ∧ (newJobFromProto manyRetries.toProto).retries = 0 ∧
      ¬∀ (env : Env) (j : Job), j.validate env = .ok () →
        newJobFromProto j.toProto = { j with id := j.name } := by
  have hvalid : manyRetries.validate Env.small = .ok () := by decide
  have hzero : (newJobFromProto manyRetries.toProto).retries = 0 := by decide
  refine ⟨hvalid, hzero, ?_⟩
  intro h
  rw [h Env.small manyRetries hvalid] at hzero
  exact absurd hzero (by decide)

end Dkron
