import Dkron.Lib.WireEncoding
import Dkron.ExecutionText
import Dkron.Accounting

/-!
# The bytes of a command

`Encode` (`dkron/grpc.go`) writes the type of a command and its protobuf message; `Apply`
(`dkron/fsm.go`) reads them and applies the command. Go writes the pairs of a map in any order.
-/

namespace Dkron

open Wire

/-! ## Messages -/

/-- `uint64(v)` -/
def toUint64 (v : Int) : ℕ := (v % 2 ^ 64).toNat

/-- A `timestamppb.Timestamp`. -/
def timestampBytes (t : Time) : Bytes :=
  appendNumber 1 (toUint64 (t / 10 ^ 9)) ++ appendNumber 2 (toUint64 (t % 10 ^ 9))

def appendTimestamp (num : ℕ) (t : Timestamp) : Bytes := appendMessage num (t.map timestampBytes)

/-- A `Job_NullableTime`. -/
def nullableTimeBytes (t : PbNullableTime) : Bytes :=
  appendNumber 1 t.hasValue.toNat ++ appendTimestamp 2 t.time

def appendNullableTime (num : ℕ) (t : Option PbNullableTime) : Bytes :=
  appendMessage num (t.map nullableTimeBytes)

/-- A field of type `map[string]string`, its pairs in the order in which the map is ranged over. -/
def appendStringMap (num : ℕ) (m : StrMap) : Bytes :=
  appendMap num (m.map fun r => (r.1, textBytes r.2))

/-- A `PluginConfig`. -/
def pluginConfigBytes (config : StrMap) : Bytes := appendStringMap 1 config

/-- A `Job`. -/
def jobBytes (p : PbJob) : Bytes :=
  appendString 1 p.name ++
  (appendString 2 p.timezone ++
  (appendString 3 p.schedule ++
  (appendString 7 p.owner ++
  (appendString 8 p.ownerEmail ++
  (appendNumber 9 (toUint64 p.successCount.toInt) ++
  (appendNumber 10 (toUint64 p.errorCount.toInt) ++
  (appendNumber 11 p.disabled.toNat ++
  (appendStringMap 12 p.tags ++
  (appendNumber 13 p.retries.toNat ++
  (appendStrings 14 p.dependentJobs ++
  (appendString 15 p.parentJob ++
  (appendString 16 p.concurrency ++
  (appendString 17 p.executor ++
  (appendStringMap 18 p.executorConfig ++
  (appendString 19 p.status ++
  (appendStringMap 20 p.metadata ++
  (appendTimestamp 23 p.next ++
  (appendString 24 p.displayname ++
  (appendNullableTime 25 p.lastSuccess ++
  (appendNullableTime 26 p.lastError ++
  (appendMap 27 (p.processors.map fun r => (r.1, pluginConfigBytes r.2)) ++
  (appendNumber 28 p.ephemeral.toNat ++
  (appendNullableTime 29 p.expiresAt ++
  appendNullableTime 30 p.startsAt)))))))))))))))))))))))

/-- An `Execution`. -/
def executionBytes (e : PbExecution) : Bytes :=
  appendString 1 e.jobName ++
  (appendNumber 2 e.success.toNat ++
  (appendNonempty 3 e.output ++
  (appendString 4 e.nodeName ++
  (appendNumber 5 (toUint64 e.group) ++
  (appendNumber 6 e.attempt.toNat ++
  (appendTimestamp 7 e.startedAt ++
  appendTimestamp 8 e.finishedAt))))))

/-! ## Reading them back -/

theorem toUint64_lt (v : Int) : toUint64 v < 2 ^ 64 := by
  rw [toUint64]
  omega

theorem toUint64_cast (v : Int) : (toUint64 v : Int) = v % 2 ^ 64 :=
  Int.toNat_of_nonneg (Int.emod_nonneg v (by decide))

/-- The low bits of a number are those of its 64 bits. -/
theorem bmod_toUint64 (v : Int) {m : ℕ} (hm : m ∣ 2 ^ 64) :
    Int.bmod (toUint64 v) m = Int.bmod v m := by
  simp only [toUint64_cast, Int.bmod_def]
  rw [Int.emod_emod_of_dvd v (by exact_mod_cast hm)]

theorem int32_toUint64 (n : Int32) : Int32.ofNat (toUint64 n.toInt) = n := by
  apply Int32.toInt_inj.1
  rw [Int32.toInt_ofNat', bmod_toUint64 _ (by decide)]
  exact n.toInt_bmod_size

/-- Numbers of 64 bits are read back. -/
theorem toInt64_toUint64 {v : Int} (h : -2 ^ 63 ≤ v ∧ v ≤ 2 ^ 63 - 1) :
    toInt64 (toUint64 v) = v := by
  have hmod : toInt64 (toUint64 v) = Int.bmod v (2 ^ 64) := bmod_toUint64 v dvd_rfl
  rw [hmod]
  exact Int.bmod_eq_of_le_mul_two (by omega) (by omega)

/-- The nanoseconds of an instant are read back. -/
theorem toInt32_toUint64 {v : Int} (h : 0 ≤ v ∧ v < 10^9) :
    toInt32 (toUint64 v) = v := by
  have hmod : toInt32 (toUint64 v) = Int.bmod v (2 ^ 32) := bmod_toUint64 v (by decide)
  rw [hmod]
  exact Int.bmod_eq_of_le_mul_two (by omega) (by omega)

theorem toNat_lt_two_pow (b : Bool) : b.toNat < 2 ^ 64 := by cases b <;> decide

theorem bool_toNat (b : Bool) : (b.toNat != 0) = b := by cases b <;> rfl

/-- The nanoseconds of an instant come after its seconds. -/
theorem div_add_mod_nanos (t : Int) : t / 10 ^ 9 * 10 ^ 9 + t % 10 ^ 9 = t := by omega

theorem nanos_fit (t : Int) : 0 ≤ t % 10 ^ 9 ∧ t % 10 ^ 9 < 10 ^ 9 := by omega

theorem toInt64_zero : toInt64 0 = 0 := by decide

theorem toInt32_zero : toInt32 0 = 0 := by decide

/-- A timestamp is read back. -/
theorem reads_timestamp {t : Time} (ht : SecondsFit t) :
    Reads timestampField (timestampBytes t) 0 t := by
  have hne : (10 ^ 9 : Int) ≠ 0 := by decide
  have hseconds : Slot timestampField 1 0 (number toInt64) (toInt64 0) fun s => s * 10 ^ 9 := by
    refine ⟨leaves_timestampField, by decide, fun type bs => ?_, ?_⟩
    · simp only [timestampField, toInt64_zero, Int.zero_ediv, Int.zero_emod, add_zero]
    · simp only [toInt64_zero, zero_mul]
  have hnanos : Slot timestampField 2 (t / 10 ^ 9 * 10 ^ 9) (number toInt32) (toInt32 0)
      fun n => t / 10 ^ 9 * 10 ^ 9 + n := by
    refine ⟨leaves_timestampField, by decide, fun type bs => ?_, ?_⟩
    · simp only [timestampField, toInt32_zero, Int.mul_emod_left, Int.mul_ediv_cancel _ hne]
    · simp only [toInt32_zero, add_zero]
  refine (reads_number hseconds (toUint64_lt _) ?_).append (reads_number hnanos (toUint64_lt _) ?_)
  · simp only [toInt64_toUint64 ht]
  · simp only [toInt32_toUint64 (nanos_fit t), div_add_mod_nanos]

theorem leaves_nullableTimeField (num type : ℕ) (bs : Bytes) (t : PbNullableTime) :
    (nullableTimeField num type bs t).Leaves bs := by
  unfold nullableTimeField
  split
  · exact (leaves_number _ type bs _).map _
  · exact (leaves_pointer _ _ type bs _).map _
  · exact leaves_unknown _

/-- A `Job_NullableTime` is read back. -/
theorem reads_nullableTime {t : PbNullableTime} (ht : ∀ time ∈ t.time, SecondsFit time) :
    Reads nullableTimeField (nullableTimeBytes t) {} t := by
  have hvalue : Slot nullableTimeField 1 {} (number (· != 0)) false
      fun v => { hasValue := v } := ⟨leaves_nullableTimeField, by decide, fun _ _ => rfl, rfl⟩
  have htime : Slot nullableTimeField 2 { hasValue := t.hasValue } timestampPointer none
      fun v => { t with time := v } :=
    ⟨leaves_nullableTimeField, by decide, fun _ _ => rfl, rfl⟩
  refine (reads_number hvalue (toNat_lt_two_pow _) ?_).append (reads_message htime ?_ rfl)
  · rw [bool_toNat]
  · exact fun time h => reads_timestamp (ht time h)

theorem leaves_pluginConfigField (num type : ℕ) (bs : Bytes) (config : StrMap) :
    (pluginConfigField num type bs config).Leaves bs := by
  unfold pluginConfigField
  split
  · exact leaves_mapEntry _ _ _ type bs _
  · exact leaves_unknown _

/-- The pairs of a map that is ranged over are put in the map that is read. -/
theorem reads_stringMap {α : Type} {field : ℕ → ℕ → Bytes → α → Decoded α} {num : ℕ}
    {set : StrMap → α} (h : ∀ done, Slot field num (set done) stringMap done set) {m m' : StrMap}
    (hm : Json.Codec.Sorted m) (hm' : m'.Perm m) :
    Reads field (appendStringMap num m') (set []) (set m) := by
  rw [← Json.Codec.foldl_insert_of_perm hm hm']
  exact reads_map textBytes id h [] fun r _ _ => by simp only [fromUTF8?_textBytes, id]

theorem reads_pluginConfig {config config' : StrMap} (h : Json.Codec.Sorted config)
    (h' : config'.Perm config) :
    Reads pluginConfigField (pluginConfigBytes config') [] config := by
  refine reads_stringMap (fun done => ?_ : ∀ done, Slot _ _ (id done) _ _ id) h h'
  refine ⟨leaves_pluginConfigField, by decide, fun type bs => ?_, rfl⟩
  cases hmap : stringMap type bs done <;> simp [pluginConfigField, hmap, Decoded.map]

/-! ## Jobs -/

/-- A job message as it is ranged over: the pairs of its maps come in any order. -/
structure PbJob.Ranged (p q : PbJob) : Prop where
  tags : q.tags.Perm p.tags
  executorConfig : q.executorConfig.Perm p.executorConfig
  metadata : q.metadata.Perm p.metadata
  processors : ∃ ps : List (String × StrMap), ps.Perm p.processors ∧
    List.Forall₂ (fun r r' => r.1 = r'.1 ∧ r.2.Perm r'.2) q.processors ps
  fields : q = { p with
    tags := q.tags, executorConfig := q.executorConfig, metadata := q.metadata,
    processors := q.processors }

/-- The message with the fields of lower numbers only. -/
def GoJob.below (p : GoJob) (n : ℕ) : PbJob where
  name := if 1 < n then p.name else ""
  timezone := if 2 < n then p.timezone else ""
  schedule := if 3 < n then p.schedule else ""
  owner := if 7 < n then p.owner else ""
  ownerEmail := if 8 < n then p.ownerEmail else ""
  successCount := if 9 < n then p.successCount else 0
  errorCount := if 10 < n then p.errorCount else 0
  disabled := if 11 < n then p.disabled else false
  tags := if 12 < n then p.tags else []
  retries := if 13 < n then p.retries else 0
  dependentJobs := if 14 < n then p.dependentJobs else []
  parentJob := if 15 < n then p.parentJob else ""
  concurrency := if 16 < n then p.concurrency else ""
  executor := if 17 < n then p.executor else ""
  executorConfig := if 18 < n then p.executorConfig else []
  status := if 19 < n then p.status else ""
  metadata := if 20 < n then p.metadata else []
  next := if 23 < n then p.next else none
  displayname := if 24 < n then p.displayname else ""
  lastSuccess := if 25 < n then p.lastSuccess else none
  lastError := if 26 < n then p.lastError else none
  processors := if 27 < n then p.processors else []
  ephemeral := if 28 < n then p.ephemeral else false
  expiresAt := if 29 < n then p.expiresAt else none
  startsAt := if 30 < n then p.startsAt else none

theorem reads_jobString {v w : PbJob} {num : ℕ} {s : String} {set : String → PbJob}
    (hnum : 0 < num ∧ num ≤ maxValidNumber)
    (hreads : ∀ type bs, jobField num type bs v = (text type bs "").map set)
    (hv : set "" = v) (hw : set s = w) : Reads jobField (appendString num s) v w :=
  reads_string ⟨leaves_jobField, hnum, hreads, hv⟩ hw

theorem reads_jobBool {v w : PbJob} {num : ℕ} {b : Bool} {set : Bool → PbJob}
    (hnum : 0 < num ∧ num ≤ maxValidNumber)
    (hreads : ∀ type bs, jobField num type bs v = (number (· != 0) type bs false).map set)
    (hv : set false = v) (hw : set b = w) : Reads jobField (appendNumber num b.toNat) v w :=
  reads_number ⟨leaves_jobField, hnum, hreads, hv⟩ (toNat_lt_two_pow b) ((bool_toNat b).symm ▸ hw)

theorem reads_jobInt32 {v w : PbJob} {num : ℕ} {n : Int32} {set : Int32 → PbJob}
    (hnum : 0 < num ∧ num ≤ maxValidNumber)
    (hreads : ∀ type bs, jobField num type bs v = (number Int32.ofNat type bs 0).map set)
    (hv : set 0 = v) (hw : set n = w) :
    Reads jobField (appendNumber num (toUint64 n.toInt)) v w :=
  reads_number ⟨leaves_jobField, hnum, hreads, hv⟩ (toUint64_lt _) ((int32_toUint64 n).symm ▸ hw)

theorem reads_jobUInt32 {v w : PbJob} {num : ℕ} {n : UInt32} {set : UInt32 → PbJob}
    (hnum : 0 < num ∧ num ≤ maxValidNumber)
    (hreads : ∀ type bs, jobField num type bs v = (number UInt32.ofNat type bs 0).map set)
    (hv : set 0 = v) (hw : set n = w) : Reads jobField (appendNumber num n.toNat) v w :=
  reads_number ⟨leaves_jobField, hnum, hreads, hv⟩ (n.toNat_lt.trans (by decide))
    (UInt32.ofNat_toNat.symm ▸ hw)

theorem reads_jobMap {v w : PbJob} {num : ℕ} {m m' : StrMap} (set : StrMap → PbJob)
    (hnum : 0 < num ∧ num ≤ maxValidNumber)
    (hreads : ∀ done type bs, jobField num type bs (set done) = (stringMap type bs done).map set)
    (hm : Json.Codec.Sorted m) (hm' : m'.Perm m) (hv : set [] = v) (hw : set m = w) :
    Reads jobField (appendStringMap num m') v w := by
  rw [← hv, ← hw]
  exact reads_stringMap (fun done => ⟨leaves_jobField, hnum, hreads done, rfl⟩) hm hm'

theorem reads_jobTime {v w : PbJob} {num : ℕ} {t : Option PbNullableTime}
    {set : Option PbNullableTime → PbJob} (hnum : 0 < num ∧ num ≤ maxValidNumber)
    (hreads : ∀ type bs, jobField num type bs v = (nullableTimePointer type bs none).map set)
    (ht : TimeFits t) (hv : set none = v) (hw : set t = w) :
    Reads jobField (appendNullableTime num t) v w :=
  reads_message ⟨leaves_jobField, hnum, hreads, hv⟩ (fun n hn => reads_nullableTime (ht n hn)) hw

/-- The map that is read from the pairs of a configuration. -/
def readConfig (config : StrMap) : StrMap :=
  config.foldl (fun m r => Json.Codec.insert r.1 r.2 m) []

theorem readConfig_of_perm {config config' : StrMap} (h : Json.Codec.Sorted config)
    (h' : config'.Perm config) : readConfig config' = config :=
  Json.Codec.foldl_insert_of_perm h h'

/-- Each configuration is read back when its pairs come in any order. -/
theorem map_readConfig {m ps : List (String × StrMap)}
    (hps : ∀ r ∈ ps, Json.Codec.Sorted r.2)
    (h : List.Forall₂ (fun r r' => r.1 = r'.1 ∧ r.2.Perm r'.2) m ps) :
    m.map (fun r => (r.1, readConfig r.2)) = ps ∧
      ∀ r ∈ m, Reads pluginConfigField (pluginConfigBytes r.2) [] (readConfig r.2) := by
  induction h with
  | nil => simp
  | @cons r r' m ps hr _ ih =>
    obtain ⟨hmap, hreads⟩ := ih fun q hq => hps q (List.mem_cons_of_mem r' hq)
    have hsorted := hps r' List.mem_cons_self
    have hconfig := readConfig_of_perm hsorted hr.2
    refine ⟨?_, ?_⟩
    · rw [List.map_cons, hmap, hr.1, hconfig]
    · rw [List.forall_mem_cons, hconfig]
      exact ⟨reads_pluginConfig hsorted hr.2, hreads⟩

/-- The configurations of the processors are read back. -/
theorem reads_processors (set : List (String × StrMap) → PbJob)
    (hreads : ∀ done type bs, jobField 27 type bs (set done) =
      (mapEntry Json.Codec.insert (submessage pluginConfigField) [] type bs done).map set)
    {m m' ps : List (String × StrMap)} (hm : Json.Codec.Sorted m)
    (hconfigs : ∀ r ∈ m, Json.Codec.Sorted r.2) (hps : ps.Perm m)
    (hm' : List.Forall₂ (fun r r' => r.1 = r'.1 ∧ r.2.Perm r'.2) m' ps) :
    Reads jobField (appendMap 27 (m'.map fun r => (r.1, pluginConfigBytes r.2))) (set [])
      (set m) := by
  obtain ⟨hmap, hread⟩ := map_readConfig (fun r hr => hconfigs r (hps.subset hr)) hm'
  have hslot (done : List (String × StrMap)) : Slot jobField 27 (set done)
      (mapEntry Json.Codec.insert (submessage pluginConfigField) []) done set :=
    ⟨leaves_jobField, by decide, hreads done, rfl⟩
  rw [← Json.Codec.foldl_insert_of_perm hm hps, ← hmap, List.foldl_map]
  exact reads_map pluginConfigBytes readConfig hslot [] fun r hr hlength => by
    simp only [(hread r hr).unmarshal hlength]

/-- **A job message is read back**, whatever the order of the pairs of its maps. -/
theorem reads_job (p : GoJob) {q : PbJob} (h : p.toPbJob.Ranged q) :
    Reads jobField (jobBytes q) {} p.toPbJob := by
  obtain ⟨ps, hps, hconfigs⟩ := h.processors
  rw [h.fields]
  refine .append (w := p.below 2) (reads_jobString (by decide) (fun _ _ => rfl) rfl rfl) ?_
  refine .append (w := p.below 3) (reads_jobString (by decide) (fun _ _ => rfl) rfl rfl) ?_
  refine .append (w := p.below 4) (reads_jobString (by decide) (fun _ _ => rfl) rfl rfl) ?_
  refine .append (w := p.below 8) (reads_jobString (by decide) (fun _ _ => rfl) rfl rfl) ?_
  refine .append (w := p.below 9) (reads_jobString (by decide) (fun _ _ => rfl) rfl rfl) ?_
  refine .append (w := p.below 10) (reads_jobInt32 (by decide) (fun _ _ => rfl) rfl rfl) ?_
  refine .append (w := p.below 11) (reads_jobInt32 (by decide) (fun _ _ => rfl) rfl rfl) ?_
  refine .append (w := p.below 12) (reads_jobBool (by decide) (fun _ _ => rfl) rfl rfl) ?_
  refine .append (w := p.below 13) ?_ ?_
  · exact reads_jobMap (fun m => { p.below 12 with tags := m }) (by decide)
      (fun _ _ _ => rfl) p.tags_sorted h.tags rfl rfl
  refine .append (w := p.below 14) (reads_jobUInt32 (by decide) (fun _ _ => rfl) rfl rfl) ?_
  refine .append (w := p.below 15) ?_ ?_
  · exact reads_strings (fun ds => { p.below 14 with dependentJobs := ds })
      (fun _ => ⟨leaves_jobField, by decide, fun _ _ => rfl, rfl⟩) rfl rfl
  refine .append (w := p.below 16) (reads_jobString (by decide) (fun _ _ => rfl) rfl rfl) ?_
  refine .append (w := p.below 17) (reads_jobString (by decide) (fun _ _ => rfl) rfl rfl) ?_
  refine .append (w := p.below 18) (reads_jobString (by decide) (fun _ _ => rfl) rfl rfl) ?_
  refine .append (w := p.below 19) ?_ ?_
  · exact reads_jobMap (fun m => { p.below 18 with executorConfig := m }) (by decide)
      (fun _ _ _ => rfl) p.executorConfig_sorted h.executorConfig rfl rfl
  refine .append (w := p.below 20) (reads_jobString (by decide) (fun _ _ => rfl) rfl rfl) ?_
  refine .append (w := p.below 21) ?_ ?_
  · exact reads_jobMap (fun m => { p.below 20 with metadata := m }) (by decide)
      (fun _ _ _ => rfl) p.metadata_sorted h.metadata rfl rfl
  refine .append (w := p.below 24) ?_ ?_
  · exact reads_message ⟨leaves_jobField, by decide, fun _ _ => rfl, rfl⟩
      (fun t ht => reads_timestamp (p.next_fits t ht)) rfl
  refine .append (w := p.below 25) (reads_jobString (by decide) (fun _ _ => rfl) rfl rfl) ?_
  refine .append (w := p.below 26)
    (reads_jobTime (by decide) (fun _ _ => rfl) p.lastSuccess_fits rfl rfl) ?_
  refine .append (w := p.below 27)
    (reads_jobTime (by decide) (fun _ _ => rfl) p.lastError_fits rfl rfl) ?_
  refine .append (w := p.below 28) ?_ ?_
  · exact reads_processors (fun m => { p.below 27 with processors := m }) (fun _ _ _ => rfl)
      p.processors_sorted p.configs_sorted hps hconfigs
  refine .append (w := p.below 29) (reads_jobBool (by decide) (fun _ _ => rfl) rfl rfl) ?_
  refine .append (w := p.below 30)
    (reads_jobTime (by decide) (fun _ _ => rfl) p.expiresAt_fits rfl rfl) ?_
  exact reads_jobTime (by decide) (fun _ _ => rfl) p.startsAt_fits rfl rfl

/-! ## Executions and requests -/

/-- **An execution message is read back.** -/
theorem reads_execution {e : PbExecution} (he : e.Fits) :
    Reads executionField (executionBytes e) {} e := by
  have hslot {α : Type} {v : PbExecution} {num : ℕ} {read : ℕ → Bytes → α → Decoded α} {old : α}
      {set : α → PbExecution} (hnum : 0 < num ∧ num ≤ maxValidNumber)
      (hreads : ∀ type bs, executionField num type bs v = (read type bs old).map set)
      (hsame : set old = v) : Slot executionField num v read old set :=
    ⟨leaves_executionField, hnum, hreads, hsame⟩
  refine .append (w := { jobName := e.jobName }) ?_ ?_
  · exact reads_string (hslot (by decide) (fun _ _ => rfl) rfl) rfl
  refine .append (w := { jobName := e.jobName, success := e.success }) ?_ ?_
  · refine reads_number (hslot (by decide) (fun _ _ => rfl) rfl) (toNat_lt_two_pow _) ?_
    rw [bool_toNat]
  refine .append (w := { jobName := e.jobName, success := e.success, output := e.output }) ?_ ?_
  · exact reads_nonempty (hslot (by decide) (fun _ _ => rfl) rfl) rfl rfl
  refine .append (w := { e with
    group := 0, attempt := 0, startedAt := none, finishedAt := none }) ?_ ?_
  · exact reads_string (hslot (by decide) (fun _ _ => rfl) rfl) rfl
  refine .append (w := { e with attempt := 0, startedAt := none, finishedAt := none }) ?_ ?_
  · have hgroup : Slot executionField 5
        { e with group := 0, attempt := 0, startedAt := none, finishedAt := none }
        (number toInt64) (toInt64 0)
        fun g => { e with group := g, attempt := 0, startedAt := none, finishedAt := none } := by
      rw [toInt64_zero]
      exact hslot (by decide) (fun _ _ => rfl) rfl
    refine reads_number hgroup (toUint64_lt _) ?_
    simp only [toInt64_toUint64 he.group]
  refine .append (w := { e with startedAt := none, finishedAt := none }) ?_ ?_
  · refine reads_number (hslot (by decide) (fun _ _ => rfl) rfl) ?_ ?_
    · exact e.attempt.toNat_lt.trans (by decide)
    · rw [UInt32.ofNat_toNat]
  refine .append (w := { e with finishedAt := none }) ?_ ?_
  · exact reads_message (hslot (by decide) (fun _ _ => rfl) rfl)
      (fun t ht => reads_timestamp (he.startedAt t ht)) rfl
  exact reads_message (hslot (by decide) (fun _ _ => rfl) rfl)
    (fun t ht => reads_timestamp (he.finishedAt t ht)) rfl

/-- The field of `DeleteJobRequest` and of `DeleteExecutionsRequest`. -/
def jobNameField (num type : ℕ) (bs : Bytes) (jobName : String) : Decoded String :=
  match num with
  | 1 => text type bs jobName
  | _ => .unknown

/-- The field of `ExecutionDoneRequest`. -/
def executionDoneField (num type : ℕ) (bs : Bytes) (e : Option PbExecution) :
    Decoded (Option PbExecution) :=
  match num with
  | 1 => pointer executionField {} type bs e
  | _ => .unknown

theorem decoded_map_id {α : Type} (d : Decoded α) : d.map id = d := by cases d <;> rfl

theorem reads_jobName (jobName : String) :
    Reads jobNameField (appendString 1 jobName) "" jobName := by
  have hslot : Slot jobNameField 1 "" text "" id := by
    refine ⟨fun num type bs v => ?_, by decide, fun type bs => (decoded_map_id _).symm, rfl⟩
    unfold jobNameField
    split
    · exact leaves_text type bs v
    · exact leaves_unknown bs
  exact reads_string hslot rfl

theorem reads_executionDone {e : Option PbExecution} (he : ∀ x ∈ e, x.Fits) :
    Reads executionDoneField (appendMessage 1 (e.map executionBytes)) none e := by
  have hslot : Slot executionDoneField 1 none (pointer executionField {}) none id := by
    refine ⟨fun num type bs v => ?_, by decide, fun type bs => (decoded_map_id _).symm, rfl⟩
    unfold executionDoneField
    split
    · exact leaves_pointer _ _ type bs v
    · exact leaves_unknown bs
  exact reads_message hslot (fun x hx => reads_execution (he x hx)) rfl

/-! ## Commands -/

/-- `MessageType`. -/
def setJobType : UInt8 := 0
def deleteJobType : UInt8 := 1
def setExecutionType : UInt8 := 2
def deleteExecutionsType : UInt8 := 3
def executionDoneType : UInt8 := 4

/-- `Encode` of a command: its type and the bytes of its message. -/
inductive Command.Encodes : Command → Bytes → Prop where
  | setJob {pj q : PbJob} (h : pj.Ranged q) : Encodes (.setJob pj) (setJobType :: jobBytes q)
  | deleteJob (jobName : String) :
    Encodes (.deleteJob jobName) (deleteJobType :: appendString 1 jobName)
  | setExecution (pbex : PbExecution) :
    Encodes (.setExecution pbex) (setExecutionType :: executionBytes pbex)
  | deleteExecutions (jobName : String) :
    Encodes (.deleteExecutions jobName) (deleteExecutionsType :: appendString 1 jobName)
  | executionDone (pbex : PbExecution) :
    Encodes (.executionDone pbex)
      (executionDoneType :: appendMessage 1 (some (executionBytes pbex)))

/-- The messages of the command are such as Go holds. -/
def Command.Held : Command → Prop
  | .setJob pj => ∃ p : GoJob, p.toPbJob = pj
  | .setExecution pbex => pbex.Fits
  | .executionDone pbex => pbex.Fits
  | _ => True

/-- What `Apply` finds in the data of a log entry. -/
inductive Received where
  /-- The index is out of range, or the execution is nil. -/
  | panics
  /-- `proto.Unmarshal` fails. -/
  | malformed
  /-- There is no applier for the type. -/
  | ignored
  | command (c : Command)

/-- The message of a command. -/
def receivedMessage {α : Type} (field : ℕ → ℕ → Bytes → α → Decoded α) (empty : α) (buf : Bytes)
    (f : α → Received) : Received :=
  match unmarshal field buf empty with
  | (false, _) => .malformed
  | (true, m) => f m.value

/-- How `Apply` reads the data of a log entry. -/
def received : Bytes → Received
  | [] => .panics
  | msgType :: buf =>
    if msgType = setJobType then receivedMessage jobField {} buf fun pj => .command (.setJob pj)
    else if msgType = deleteJobType then
      receivedMessage jobNameField "" buf fun jobName => .command (.deleteJob jobName)
    else if msgType = deleteExecutionsType then
      receivedMessage jobNameField "" buf fun jobName => .command (.deleteExecutions jobName)
    else if msgType = executionDoneType then
      receivedMessage executionDoneField none buf fun e =>
        match e with
        | none => .panics
        | some pbex => .command (.executionDone pbex)
    else if msgType = setExecutionType then
      receivedMessage executionField {} buf fun pbex => .command (.setExecution pbex)
    else .ignored

theorem receivedMessage_of_reads {α : Type} {field : ℕ → ℕ → Bytes → α → Decoded α} {empty v : α}
    {buf : Bytes} (h : Reads field buf empty v) (hbuf : buf.length < 2 ^ 64) (f : α → Received) :
    receivedMessage field empty buf f = f v := by
  simp only [receivedMessage, h.unmarshal hbuf]

theorem received_setJob (buf : Bytes) : received (setJobType :: buf) =
    receivedMessage jobField {} buf fun pj => .command (.setJob pj) := rfl

theorem received_deleteJob (buf : Bytes) : received (deleteJobType :: buf) =
    receivedMessage jobNameField "" buf fun jobName => .command (.deleteJob jobName) := rfl

theorem received_deleteExecutions (buf : Bytes) : received (deleteExecutionsType :: buf) =
    receivedMessage jobNameField "" buf fun jobName => .command (.deleteExecutions jobName) := rfl

theorem received_setExecution (buf : Bytes) : received (setExecutionType :: buf) =
    receivedMessage executionField {} buf fun pbex => .command (.setExecution pbex) := rfl

theorem received_executionDone (buf : Bytes) : received (executionDoneType :: buf) =
    receivedMessage executionDoneField none buf fun e =>
      match e with
      | none => .panics
      | some pbex => .command (.executionDone pbex) := rfl

/-- **Commands are read back** from their bytes. -/
theorem received_of_encodes {c : Command} {bs : Bytes} (hc : c.Held) (h : c.Encodes bs)
    (hbs : bs.length < 2 ^ 64) : received bs = .command c := by
  have htail : bs.tail.length < 2 ^ 64 := by
    rw [List.length_tail]
    omega
  cases h with
  | setJob hranged =>
    obtain ⟨p, rfl⟩ := hc
    rw [received_setJob, receivedMessage_of_reads (reads_job p hranged) htail]
  | deleteJob jobName =>
    rw [received_deleteJob, receivedMessage_of_reads (reads_jobName jobName) htail]
  | setExecution pbex =>
    rw [received_setExecution, receivedMessage_of_reads (reads_execution hc) htail]
  | deleteExecutions jobName =>
    rw [received_deleteExecutions, receivedMessage_of_reads (reads_jobName jobName) htail]
  | executionDone pbex =>
    have he : ∀ x ∈ some pbex, x.Fits := by
      intro x hx
      cases hx
      exact hc
    rw [received_executionDone]
    exact receivedMessage_of_reads (reads_executionDone he) htail _

/-! ## Logs -/

namespace Fsm

/-- What `Apply` hands to the caller of raft. -/
inductive Reply where
  | malformed
  | nil
  | response (r : Response)
deriving DecidableEq, Repr

/-- `Apply` of the data of a log entry. None when the server panics. There are no appliers besides
those of the five types. -/
def applyData (env : Env) (clk : Clock) (buf : Bytes) (db : DB) : Option (Reply × DB) :=
  match received buf with
  | .panics => none
  | .malformed => some (.malformed, db)
  | .ignored => some (.nil, db)
  | .command c =>
    let (r, db) := apply env clk c db
    some (.response r, db)

/-- What a log of data entries is answered, and the content after it. -/
def runData (env : Env) : List (Clock × Bytes) → DB → Option (List Reply × DB)
  | [], db => some ([], db)
  | (clk, buf) :: data, db => do
    let (r, db) ← applyData env clk buf db
    let (rs, db) ← runData env data db
    return (r :: rs, db)

/-- What a log is answered. -/
def responses (env : Env) : List Entry → DB → List Response
  | [], _ => []
  | e :: log, db => (apply env e.1 e.2 db).1 :: responses env log (step env db e)

theorem applyData_command {env : Env} {clk : Clock} {buf : Bytes} {c : Command}
    (h : received buf = .command c) (db : DB) :
    applyData env clk buf db = some (.response (apply env clk c db).1, step env db (clk, c)) := by
  rw [applyData, h]
  rfl

/-- The data of an entry is that of its command, as `Encode` writes it. -/
structure Carries (e : Entry) (data : Clock × Bytes) : Prop where
  clock : data.1 = e.1
  held : e.2.Held
  encodes : e.2.Encodes data.2
  length : data.2.length < 2 ^ 64

/-- A job with two tags. -/
def taggedJob : GoJob where
  name := "a"
  schedule := "@manually"
  tags := [("role", "web"), ("zone", "1")]
  successCount := -1
  startsAt := some ⟨true, some (-1)⟩
  tags_sorted := by decide
  executorConfig_sorted := by decide
  metadata_sorted := by decide
  processors_sorted := by decide
  configs_sorted := by simp
  lastSuccess_fits := by simp [TimeFits]
  lastError_fits := by simp [TimeFits]
  next_fits := by simp
  expiresAt_fits := by simp [TimeFits]
  startsAt_fits := by
    intro n hn time ht
    cases hn
    cases ht
    decide

def taggedExecution : PbExecution := { jobName := "a", group := -7 }

/-- The job is set, and an execution of it is done. -/
def taggedLog : List Entry :=
  [(Clock.epoch, .setJob taggedJob.toPbJob), (Clock.epoch, .executionDone taggedExecution)]

/-- The bytes of the log, the tags in another order. -/
def taggedData : List Bytes :=
  [setJobType :: jobBytes { taggedJob.toPbJob with tags := [("zone", "1"), ("role", "web")] },
    executionDoneType :: appendMessage 1 (some (executionBytes taggedExecution))]

theorem carries_taggedData :
    List.Forall₂ Carries taggedLog (taggedData.map fun buf => (Clock.epoch, buf)) := by
  refine .cons ?_ (.cons ?_ .nil)
  · refine ⟨rfl, ⟨taggedJob, rfl⟩, .setJob ?_, by decide +kernel⟩
    exact ⟨.swap _ _ _, .refl _, .refl _, ⟨[], .refl _, .nil⟩, rfl⟩
  · exact ⟨rfl, ⟨by decide, by simp [taggedExecution], by simp [taggedExecution]⟩,
      .executionDone _, by decide +kernel⟩

/-- The commands in the data of a log. -/
def commands (data : List (Clock × Bytes)) : List Entry :=
  data.filterMap fun d =>
    match received d.2 with
    | .command c => some (d.1, c)
    | _ => none

theorem applyData_eq_none {env : Env} {clk : Clock} {buf : Bytes} {db : DB} :
    applyData env clk buf db = none ↔ received buf = .panics := by
  rw [applyData]
  cases received buf <;> simp

/-- An entry that does not panic runs the command in it, if there is one. -/
theorem run_of_applyData {env : Env} {d : Clock × Bytes} {db db' : DB} {r : Reply}
    (h : applyData env d.1 d.2 db = some (r, db')) (data : List (Clock × Bytes)) :
    run env db (commands (d :: data)) = run env db' (commands data) := by
  rw [applyData] at h
  cases hreceived : received d.2 with
  | panics => simp [hreceived] at h
  | malformed | ignored =>
    simp only [hreceived, Option.some.injEq, Prod.mk.injEq] at h
    rw [← h.2]
    simp [commands, hreceived]
  | command c =>
    simp only [hreceived, Option.some.injEq, Prod.mk.injEq] at h
    rw [← h.2]
    simp [commands, hreceived, run, step]

/-- The data has no type, or it reports no execution as done. -/
def Panics (buf : Bytes) : Prop :=
  buf = [] ∨ ∃ msg unknown, buf = executionDoneType :: msg ∧
    unmarshal executionDoneField msg none = (true, ⟨none, unknown⟩)

theorem receivedMessage_eq_panics {α : Type} {field : ℕ → ℕ → Bytes → α → Decoded α} {empty : α}
    {buf : Bytes} {f : α → Received} :
    receivedMessage field empty buf f = .panics ↔
      ∃ v unknown, unmarshal field buf empty = (true, ⟨v, unknown⟩) ∧ f v = .panics := by
  rw [receivedMessage]
  rcases unmarshal field buf empty with ⟨_ | _, v, unknown⟩
  · simp
  · simp

theorem received_eq_panics_iff (buf : Bytes) : received buf = .panics ↔ Panics buf := by
  cases buf with
  | nil => simp [received, Panics]
  | cons msgType msg =>
    by_cases htype : msgType = executionDoneType
    · subst htype
      rw [received_executionDone, receivedMessage_eq_panics]
      simp only [Panics, reduceCtorEq, List.cons.injEq, true_and, false_or]
      refine ⟨fun ⟨v, unknown, hmsg, hv⟩ => ?_, fun ⟨_, unknown, heq, hmsg⟩ => ?_⟩
      · cases v with
        | none => exact ⟨msg, unknown, rfl, hmsg⟩
        | some pbex => cases hv
      · subst heq
        exact ⟨none, unknown, hmsg, rfl⟩
    · have hnot : ¬Panics (msgType :: msg) := by simp [Panics, htype]
      rw [received, if_neg htype]
      refine ⟨fun h => ?_, fun h => absurd h hnot⟩
      split_ifs at h
      all_goals
        obtain ⟨_, _, _, hv⟩ := receivedMessage_eq_panics.1 h
        cases hv

theorem runData_eq_none_iff {env : Env} {data : List (Clock × Bytes)} {db : DB} :
    runData env data db = none ↔ ∃ d ∈ data, received d.2 = .panics := by
  induction data generalizing db with
  | nil => simp [runData]
  | cons d data ih =>
    simp only [runData, List.exists_mem_cons_iff]
    cases happly : applyData env d.1 d.2 db with
    | none => simp [applyData_eq_none.1 happly]
    | some r =>
      have hnot : received d.2 ≠ .panics := fun h => by
        rw [applyData_eq_none.2 h] at happly
        cases happly
      have hrest : runData env data r.2 = none ↔ ∃ d ∈ data, received d.2 = .panics := ih
      rw [or_iff_right hnot, ← hrest]
      cases hdata : runData env data r.2 <;> simp [hdata]

theorem eq_run_of_runData {env : Env} {data : List (Clock × Bytes)} {db db' : DB}
    {rs : List Reply} (h : runData env data db = some (rs, db')) :
    db' = run env db (commands data) := by
  induction data generalizing db rs with
  | nil =>
    simp only [runData, Option.some.injEq, Prod.mk.injEq] at h
    exact h.2.symm
  | cons d data ih =>
    simp only [runData, Option.bind_eq_bind, Option.bind_eq_some_iff] at h
    obtain ⟨r, happly, rs', hrest, heq⟩ := h
    cases heq
    rw [run_of_applyData happly]
    exact ih hrest

end Fsm

end Dkron
