import Dkron.Lib.Record
import Dkron.Job

/-!
# The JSON text of a job

`encoding/json` on the generated struct `Job`, and on the messages in it. The names of the fields
and their order are those of `gen/proto/types/v1/dkron.pb.go`.

**Theorem (`readsBack_jobCodec`).** A job message is read back from its text.
-/

namespace Dkron

open Json Json.Codec

/-! ## Codecs -/

def int32Codec : Codec Int32 := integer (-2 ^ 31) (2 ^ 31 - 1) Int32.toInt Int32.ofInt

def uint32Codec : Codec UInt32 :=
  integer 0 (2 ^ 32 - 1) (fun n => n.toNat) fun n => UInt32.ofNat n.toNat

def secondsCodec : Codec Int := integer (-2 ^ 63) (2 ^ 63 - 1) id id

def nanosCodec : Codec Int := integer (-2 ^ 31) (2 ^ 31 - 1) id id

def timestampFields (t : Time) : List (String × Option Json) :=
  [field "seconds" secondsCodec (t / 10 ^ 9), field "nanos" nanosCodec (t % 10 ^ 9)]

def readTimestamp (ms : List (String × Json)) (t : Time) : Option Time := do
  let seconds ← readField ms "seconds" secondsCodec (t / 10 ^ 9)
  let nanos ← readField ms "nanos" nanosCodec (t % 10 ^ 9)
  return seconds * 10 ^ 9 + nanos

/-- `timestamppb.Timestamp`. -/
def timestampCodec : Codec Time := struct 0 timestampFields readTimestamp

def nullableTimeFields (t : PbNullableTime) : List (String × Option Json) :=
  [field "has_value" boolean t.hasValue, field "time" (pointer timestampCodec) t.time]

def readNullableTime (ms : List (String × Json)) (t : PbNullableTime) : Option PbNullableTime := do
  let hasValue ← readField ms "has_value" boolean t.hasValue
  let time ← readField ms "time" (pointer timestampCodec) t.time
  return { t with hasValue, time }

/-- `Job_NullableTime`. -/
def nullableTimeCodec : Codec PbNullableTime := struct {} nullableTimeFields readNullableTime

def pluginConfigFields (config : StrMap) : List (String × Option Json) :=
  [field "config" (map string) config]

/-- `PluginConfig`. -/
def pluginConfigCodec : Codec StrMap :=
  struct [] pluginConfigFields fun ms config => readField ms "config" (map string) config

def jobFields (p : PbJob) : List (String × Option Json) :=
  [field "name" string p.name,
    field "timezone" string p.timezone,
    field "schedule" string p.schedule,
    field "owner" string p.owner,
    field "owner_email" string p.ownerEmail,
    field "success_count" int32Codec p.successCount,
    field "error_count" int32Codec p.errorCount,
    field "disabled" boolean p.disabled,
    field "tags" (map string) p.tags,
    field "retries" uint32Codec p.retries,
    field "dependent_jobs" (slice string) p.dependentJobs,
    field "parent_job" string p.parentJob,
    field "concurrency" string p.concurrency,
    field "executor" string p.executor,
    field "executor_config" (map string) p.executorConfig,
    field "status" string p.status,
    field "metadata" (map string) p.metadata,
    field "last_success" (pointer nullableTimeCodec) p.lastSuccess,
    field "last_error" (pointer nullableTimeCodec) p.lastError,
    field "next" (pointer timestampCodec) p.next,
    field "displayname" string p.displayname,
    field "processors" (map pluginConfigCodec) p.processors,
    field "ephemeral" boolean p.ephemeral,
    field "expires_at" (pointer nullableTimeCodec) p.expiresAt,
    field "starts_at" (pointer nullableTimeCodec) p.startsAt]

def readJob (ms : List (String × Json)) (p : PbJob) : Option PbJob := do
  let name ← readField ms "name" string p.name
  let timezone ← readField ms "timezone" string p.timezone
  let schedule ← readField ms "schedule" string p.schedule
  let owner ← readField ms "owner" string p.owner
  let ownerEmail ← readField ms "owner_email" string p.ownerEmail
  let successCount ← readField ms "success_count" int32Codec p.successCount
  let errorCount ← readField ms "error_count" int32Codec p.errorCount
  let disabled ← readField ms "disabled" boolean p.disabled
  let tags ← readField ms "tags" (map string) p.tags
  let retries ← readField ms "retries" uint32Codec p.retries
  let dependentJobs ← readField ms "dependent_jobs" (slice string) p.dependentJobs
  let parentJob ← readField ms "parent_job" string p.parentJob
  let concurrency ← readField ms "concurrency" string p.concurrency
  let executor ← readField ms "executor" string p.executor
  let executorConfig ← readField ms "executor_config" (map string) p.executorConfig
  let status ← readField ms "status" string p.status
  let metadata ← readField ms "metadata" (map string) p.metadata
  let lastSuccess ← readField ms "last_success" (pointer nullableTimeCodec) p.lastSuccess
  let lastError ← readField ms "last_error" (pointer nullableTimeCodec) p.lastError
  let next ← readField ms "next" (pointer timestampCodec) p.next
  let displayname ← readField ms "displayname" string p.displayname
  let processors ← readField ms "processors" (map pluginConfigCodec) p.processors
  let ephemeral ← readField ms "ephemeral" boolean p.ephemeral
  let expiresAt ← readField ms "expires_at" (pointer nullableTimeCodec) p.expiresAt
  let startsAt ← readField ms "starts_at" (pointer nullableTimeCodec) p.startsAt
  return { p with
    name, timezone, schedule, owner, ownerEmail, successCount, errorCount, disabled, tags, retries,
    dependentJobs, parentJob, concurrency, executor, executorConfig, status, metadata,
    lastSuccess, lastError, next, displayname, processors, ephemeral, expiresAt, startsAt }

/-- `Job`. -/
def jobCodec : Codec PbJob := struct {} jobFields readJob

/-- `json.Marshal` of a job message. -/
def marshalJob (p : PbJob) : List Char := render (jobCodec.write p)

/-- `json.Unmarshal` of a text into a job message. -/
def unmarshalJob (text : List Char) (p : PbJob) : Option PbJob :=
  (Json.parse text).bind fun v => jobCodec.read v p

/-! ## Messages in memory -/

/-- The seconds of a timestamp are an `int64`. -/
def SecondsFit (t : Time) : Prop := -2 ^ 63 ≤ t / 10 ^ 9 ∧ t / 10 ^ 9 ≤ 2 ^ 63 - 1

instance (t : Time) : Decidable (SecondsFit t) := by unfold SecondsFit; infer_instance

/-- The time of a `Job_NullableTime`, which may be nil, fits. -/
def TimeFits (t : Option PbNullableTime) : Prop := ∀ n ∈ t, ∀ time ∈ n.time, SecondsFit time

/-- A job message as Go holds it. A map has one value for each key, and its pairs are listed in the
order of the keys here. -/
structure GoJob extends PbJob where
  tags_sorted : Sorted tags
  executorConfig_sorted : Sorted executorConfig
  metadata_sorted : Sorted metadata
  processors_sorted : Sorted processors
  configs_sorted : ∀ r ∈ processors, Sorted r.2
  lastSuccess_fits : TimeFits lastSuccess
  lastError_fits : TimeFits lastError
  next_fits : ∀ t ∈ next, SecondsFit t
  expiresAt_fits : TimeFits expiresAt
  startsAt_fits : TimeFits startsAt

/-! ## Round trips -/

theorem readsBack_int32Codec (n : Int32) : int32Codec.ReadsBack n :=
  readsBack_integer n.le_toInt (Int.le_sub_one_of_lt n.toInt_lt) (Int32.ofInt_toInt n)

theorem readsBack_uint32Codec (n : UInt32) : uint32Codec.ReadsBack n := by
  refine readsBack_integer (Int.natCast_nonneg _) ?_ ?_
  · have h := n.toNat_lt
    omega
  · simp

theorem readsBack_stringMap {m : StrMap} (h : Sorted m) : (map string).ReadsBack m :=
  readsBack_map h fun r _ => readsBack_string r.2

theorem readsBack_timestampCodec {t : Time} (h : SecondsFit t) : timestampCodec.ReadsBack t := by
  have hnodup : ((timestampFields t).map Prod.fst).Nodup :=
    show ["seconds", "nanos"].Nodup by decide
  have hseconds : readField (present (timestampFields t)) "seconds" secondsCodec (0 / 10 ^ 9) =
      some (t / 10 ^ 9) :=
    readField_present hnodup (by simp [timestampFields]) (readsBack_integer h.1 h.2 rfl)
  have hnanos : readField (present (timestampFields t)) "nanos" nanosCodec (0 % 10 ^ 9) =
      some (t % 10 ^ 9) := by
    refine readField_present hnodup (by simp [timestampFields]) (readsBack_integer ?_ ?_ rfl)
    · simp only [id]
      omega
    · simp only [id]
      omega
  apply readsBack_struct
  rw [readTimestamp, hseconds, hnanos]
  show some (t / 10 ^ 9 * 10 ^ 9 + t % 10 ^ 9) = some t
  rw [Int.ediv_mul_add_emod]

theorem readsBack_timestamp {t : Timestamp} (h : ∀ time ∈ t, SecondsFit time) :
    (pointer timestampCodec).ReadsBack t :=
  readsBack_pointer (write_struct_ne_null _ _ _) fun time ht => readsBack_timestampCodec (h time ht)

theorem readsBack_nullableTimeCodec {t : PbNullableTime} (h : ∀ time ∈ t.time, SecondsFit time) :
    nullableTimeCodec.ReadsBack t := by
  have hnodup : ((nullableTimeFields t).map Prod.fst).Nodup :=
    show ["has_value", "time"].Nodup by decide
  have hvalue : readField (present (nullableTimeFields t)) "has_value" boolean false =
      some t.hasValue :=
    readField_present hnodup (by simp [nullableTimeFields]) (readsBack_boolean _)
  have htime : readField (present (nullableTimeFields t)) "time" (pointer timestampCodec) none =
      some t.time :=
    readField_present hnodup (by simp [nullableTimeFields]) (readsBack_timestamp h)
  apply readsBack_struct
  rw [readNullableTime, hvalue, htime]
  rfl

theorem readsBack_nullableTime {t : Option PbNullableTime} (h : TimeFits t) :
    (pointer nullableTimeCodec).ReadsBack t :=
  readsBack_pointer (write_struct_ne_null _ _ _) fun n hn => readsBack_nullableTimeCodec (h n hn)

theorem readsBack_pluginConfigCodec {config : StrMap} (h : Sorted config) :
    pluginConfigCodec.ReadsBack config := by
  have hnodup : ((pluginConfigFields config).map Prod.fst).Nodup :=
    show ["config"].Nodup by decide
  exact readsBack_struct
    (readField_present hnodup (by simp [pluginConfigFields]) (readsBack_stringMap h))

/-- The names of the fields. -/
def jobKeys : List String :=
  ["name", "timezone", "schedule", "owner", "owner_email", "success_count", "error_count",
    "disabled", "tags", "retries", "dependent_jobs", "parent_job", "concurrency", "executor",
    "executor_config", "status", "metadata", "last_success", "last_error", "next", "displayname",
    "processors", "ephemeral", "expires_at", "starts_at"]

theorem nodup_jobFields (p : PbJob) : ((jobFields p).map Prod.fst).Nodup :=
  show jobKeys.Nodup by decide

/-- The field at a position is read back from the fields of a job. -/
theorem readField_job {α : Type} [DecidableEq α] (p : PbJob) (i : ℕ) {key : String}
    {c : Codec α} {v : α} (h : (jobFields p)[i]? = some (field key c v)) (hv : c.ReadsBack v) :
    readField (present (jobFields p)) key c c.empty = some v :=
  readField_present (nodup_jobFields p) (List.mem_of_getElem? h) hv

theorem bind_of_eq_some {α β : Type} {o : Option α} {a : α} {f : α → Option β} {r : Option β}
    (h : o = some a) (hf : f a = r) : o.bind f = r := by
  rw [h]
  exact hf

/-- **A job message is read back** from its JSON value. -/
theorem readsBack_jobCodec (p : GoJob) : jobCodec.ReadsBack p.toPbJob := by
  apply readsBack_struct
  unfold readJob
  refine bind_of_eq_some (readField_job _ 0 rfl (readsBack_string _)) ?_
  refine bind_of_eq_some (readField_job _ 1 rfl (readsBack_string _)) ?_
  refine bind_of_eq_some (readField_job _ 2 rfl (readsBack_string _)) ?_
  refine bind_of_eq_some (readField_job _ 3 rfl (readsBack_string _)) ?_
  refine bind_of_eq_some (readField_job _ 4 rfl (readsBack_string _)) ?_
  refine bind_of_eq_some (readField_job _ 5 rfl (readsBack_int32Codec _)) ?_
  refine bind_of_eq_some (readField_job _ 6 rfl (readsBack_int32Codec _)) ?_
  refine bind_of_eq_some (readField_job _ 7 rfl (readsBack_boolean _)) ?_
  refine bind_of_eq_some (readField_job _ 8 rfl (readsBack_stringMap p.tags_sorted)) ?_
  refine bind_of_eq_some (readField_job _ 9 rfl (readsBack_uint32Codec _)) ?_
  refine bind_of_eq_some (readField_job _ 10 rfl
    (readsBack_slice fun s _ => readsBack_string s)) ?_
  refine bind_of_eq_some (readField_job _ 11 rfl (readsBack_string _)) ?_
  refine bind_of_eq_some (readField_job _ 12 rfl (readsBack_string _)) ?_
  refine bind_of_eq_some (readField_job _ 13 rfl (readsBack_string _)) ?_
  refine bind_of_eq_some (readField_job _ 14 rfl (readsBack_stringMap p.executorConfig_sorted)) ?_
  refine bind_of_eq_some (readField_job _ 15 rfl (readsBack_string _)) ?_
  refine bind_of_eq_some (readField_job _ 16 rfl (readsBack_stringMap p.metadata_sorted)) ?_
  refine bind_of_eq_some (readField_job _ 17 rfl (readsBack_nullableTime p.lastSuccess_fits)) ?_
  refine bind_of_eq_some (readField_job _ 18 rfl (readsBack_nullableTime p.lastError_fits)) ?_
  refine bind_of_eq_some (readField_job _ 19 rfl (readsBack_timestamp p.next_fits)) ?_
  refine bind_of_eq_some (readField_job _ 20 rfl (readsBack_string _)) ?_
  refine bind_of_eq_some (readField_job _ 21 rfl (readsBack_map p.processors_sorted fun r hr =>
    readsBack_pluginConfigCodec (p.configs_sorted r hr))) ?_
  refine bind_of_eq_some (readField_job _ 22 rfl (readsBack_boolean _)) ?_
  refine bind_of_eq_some (readField_job _ 23 rfl (readsBack_nullableTime p.expiresAt_fits)) ?_
  exact bind_of_eq_some (readField_job _ 24 rfl (readsBack_nullableTime p.startsAt_fits)) rfl

/-- **A job message is read back** from its text. -/
theorem unmarshalJob_marshalJob (p : GoJob) :
    unmarshalJob (marshalJob p.toPbJob) {} = some p.toPbJob := by
  rw [unmarshalJob, marshalJob, parse_render]
  exact readsBack_jobCodec p

end Dkron
