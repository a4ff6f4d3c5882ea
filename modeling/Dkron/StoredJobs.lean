import Dkron.Lib.Wire
import Dkron.JobText
import Dkron.Database

/-!
# Stored jobs

A job is stored as JSON text. Older versions stored the protobuf encoding, so whoever reads a job
tries protobuf first, and JSON when that fails.

The opening brace of a text is also the tag that starts a group in field 15, which is not a group
of the message `Job`. Protobuf skips such a group up to the tag that ends it, which is the character
`|`, and goes on with what follows.

**Theorem (`read_back_iff`).** A job is read back as it was stored exactly when the group that the
brace starts does not end in the text.
-/

namespace Dkron

open Wire

/-! ## Fields -/

/-- `int32(v)` -/
def toInt32 (v : ℕ) : Int := Int.bmod v (2 ^ 32)

/-- `int64(v)` -/
def toInt64 (v : ℕ) : Int := Int.bmod v (2 ^ 64)

/-- The fields of `timestamppb.Timestamp`. -/
def timestampField (num type : ℕ) (bs : Bytes) (t : Time) : Decoded Time :=
  match num with
  | 1 => (number toInt64 type bs (t / 10 ^ 9)).map fun s => s * 10 ^ 9 + t % 10 ^ 9
  | 2 => (number toInt32 type bs (t % 10 ^ 9)).map fun n => t / 10 ^ 9 * 10 ^ 9 + n
  | _ => .unknown

def timestampPointer : ℕ → Bytes → Timestamp → Decoded Timestamp := pointer timestampField 0

/-- The fields of `Job_NullableTime`. -/
def nullableTimeField (num type : ℕ) (bs : Bytes) (t : PbNullableTime) : Decoded PbNullableTime :=
  match num with
  | 1 => (number (· != 0) type bs t.hasValue).map fun v => { t with hasValue := v }
  | 2 => (timestampPointer type bs t.time).map fun v => { t with time := v }
  | _ => .unknown

def nullableTimePointer : ℕ → Bytes → Option PbNullableTime → Decoded (Option PbNullableTime) :=
  pointer nullableTimeField {}

/-- A field of type `map[string]string`. -/
def stringMap : ℕ → Bytes → StrMap → Decoded StrMap := mapEntry Json.Codec.insert text ""

/-- The field of `PluginConfig`. -/
def pluginConfigField (num type : ℕ) (bs : Bytes) (config : StrMap) : Decoded StrMap :=
  match num with
  | 1 => stringMap type bs config
  | _ => .unknown

/-- The fields of `Job`. -/
def jobField (num type : ℕ) (bs : Bytes) (p : PbJob) : Decoded PbJob :=
  match num with
  | 1 => (text type bs p.name).map fun v => { p with name := v }
  | 2 => (text type bs p.timezone).map fun v => { p with timezone := v }
  | 3 => (text type bs p.schedule).map fun v => { p with schedule := v }
  | 7 => (text type bs p.owner).map fun v => { p with owner := v }
  | 8 => (text type bs p.ownerEmail).map fun v => { p with ownerEmail := v }
  | 9 => (number Int32.ofNat type bs p.successCount).map fun v => { p with successCount := v }
  | 10 => (number Int32.ofNat type bs p.errorCount).map fun v => { p with errorCount := v }
  | 11 => (number (· != 0) type bs p.disabled).map fun v => { p with disabled := v }
  | 12 => (stringMap type bs p.tags).map fun v => { p with tags := v }
  | 13 => (number UInt32.ofNat type bs p.retries).map fun v => { p with retries := v }
  | 14 => (repeated text "" type bs p.dependentJobs).map fun v => { p with dependentJobs := v }
  | 15 => (text type bs p.parentJob).map fun v => { p with parentJob := v }
  | 16 => (text type bs p.concurrency).map fun v => { p with concurrency := v }
  | 17 => (text type bs p.executor).map fun v => { p with executor := v }
  | 18 => (stringMap type bs p.executorConfig).map fun v => { p with executorConfig := v }
  | 19 => (text type bs p.status).map fun v => { p with status := v }
  | 20 => (stringMap type bs p.metadata).map fun v => { p with metadata := v }
  | 23 => (timestampPointer type bs p.next).map fun v => { p with next := v }
  | 24 => (text type bs p.displayname).map fun v => { p with displayname := v }
  | 25 => (nullableTimePointer type bs p.lastSuccess).map fun v => { p with lastSuccess := v }
  | 26 => (nullableTimePointer type bs p.lastError).map fun v => { p with lastError := v }
  | 27 => (mapEntry Json.Codec.insert (submessage pluginConfigField) [] type bs p.processors).map
      fun v => { p with processors := v }
  | 28 => (number (· != 0) type bs p.ephemeral).map fun v => { p with ephemeral := v }
  | 29 => (nullableTimePointer type bs p.expiresAt).map fun v => { p with expiresAt := v }
  | 30 => (nullableTimePointer type bs p.startsAt).map fun v => { p with startsAt := v }
  | _ => .unknown

/-- What follows a field of a job is a part of what its value began. -/
theorem leaves_jobField (num type : ℕ) (bs : Bytes) (p : PbJob) :
    (jobField num type bs p).Leaves bs := by
  unfold jobField
  split
  -- Number 14 is the repeated field, and the last case is that of all other numbers.
  case h_11 => exact (leaves_repeated (leaves_text type bs _) _).map _
  case h_26 => exact leaves_unknown _
  all_goals first
    | exact (leaves_text type bs _).map _
    | exact (leaves_number _ type bs _).map _
    | exact (leaves_pointer _ _ type bs _).map _
    | exact (leaves_mapEntry _ _ _ type bs _).map _

/-- The bound on the number of tags does not matter when a job is decoded. -/
theorem unmarshalFields_jobField {n : ℕ} {bs : Bytes} (hn : bs.length < n) (p : PbJob) :
    unmarshalFields jobField n bs { value := p } = unmarshal jobField bs p :=
  unmarshalFields_congr (fun num type bs p => (leaves_jobField num type bs p).within) hn
    (Nat.lt_succ_self _) _

/-! ## Storing and reading -/

/-- The bytes of a text. -/
def utf8 (cs : List Char) : Bytes := cs.flatMap String.utf8EncodeChar

/-- The items of the database, by their keys. -/
abbrev Items := String → Option (List Char)

/-- `setJobTxFunc`. -/
def setJobTxFunc (pbj : PbJob) (tx : Items) : Items :=
  Function.update tx (jobKey pbj.name) (some (marshalJob pbj))

/-- `getJobTxFunc`: the message that is read, none on an error. What protobuf has decoded before it
fails is still there when JSON is tried. -/
def getJobTxFunc (name : String) (tx : Items) : Option (Message PbJob) :=
  match tx (jobKey name) with
  | none => none
  | some item =>
    match unmarshal jobField (utf8 item) {} with
    | (true, m) => some m
    | (false, m) => (unmarshalJob item m.value).map fun p => { m with value := p }

/-- The job that is read is the one that was stored, and its text is not a protobuf message. -/
structure ReadBack (pbj : PbJob) (tx : Items) : Prop where
  same : getJobTxFunc pbj.name (setJobTxFunc pbj tx) = some { value := pbj }
  rejected : (unmarshal jobField (utf8 (marshalJob pbj)) {}).1 = false

/-- The group that starts with the opening brace of the text ends in the text. -/
def GroupEnds (pbj : PbJob) : Prop :=
  (consumeFieldValue 15 startGroupType (utf8 (marshalJob pbj).tail)).isSome

instance (pbj : PbJob) : Decidable (GroupEnds pbj) := by unfold GroupEnds; infer_instance

theorem getJobTxFunc_setJobTxFunc (pbj : PbJob) (tx : Items) :
    getJobTxFunc pbj.name (setJobTxFunc pbj tx) =
      match unmarshal jobField (utf8 (marshalJob pbj)) {} with
      | (true, m) => some m
      | (false, m) =>
        (unmarshalJob (marshalJob pbj) m.value).map fun p => { m with value := p } := by
  simp only [getJobTxFunc, setJobTxFunc, Function.update_self]

/-- A text begins with a brace. -/
theorem marshalJob_eq_cons (pbj : PbJob) : marshalJob pbj = '{' :: (marshalJob pbj).tail := rfl

theorem utf8_marshalJob (pbj : PbJob) :
    utf8 (marshalJob pbj) = 0x7B :: utf8 (marshalJob pbj).tail := by
  rw [marshalJob_eq_cons, utf8, List.flatMap_cons]
  rfl

/-- The brace is the tag of a group in field 15. -/
theorem consumeTag_brace (bs : Bytes) :
    consumeTag maxValidNumber (0x7B :: bs) = some (15, startGroupType, bs) := rfl

theorem jobField_group (bs : Bytes) (p : PbJob) : jobField 15 startGroupType bs p = .unknown := rfl

/-- While the group has no end, protobuf decodes nothing. -/
theorem unmarshal_of_not_groupEnds {pbj : PbJob} (h : ¬GroupEnds pbj) :
    unmarshal jobField (utf8 (marshalJob pbj)) {} = (false, { value := {} }) := by
  rw [utf8_marshalJob]
  refine unmarshal_of_skip_eq_none (consumeTag_brace _) (by decide) (jobField_group _ _) ?_
  simpa [GroupEnds] using h

/-- A group that ends is kept as an unknown field. -/
theorem unknownFields_of_groupEnds {pbj : PbJob} (h : GroupEnds pbj) :
    (unmarshal jobField (utf8 (marshalJob pbj)) {}).2.unknownFields ≠ [] := by
  obtain ⟨rest, hrest⟩ := Option.isSome_iff_exists.1 h
  rw [utf8_marshalJob]
  exact unmarshal_of_skip_eq_some (consumeTag_brace _) (by decide) (jobField_group _ _) hrest

/-- Whatever is read has the unknown fields that protobuf found. -/
theorem unknownFields_of_getJobTxFunc {pbj : PbJob} {tx : Items} {m : Message PbJob}
    (h : getJobTxFunc pbj.name (setJobTxFunc pbj tx) = some m) :
    m.unknownFields = (unmarshal jobField (utf8 (marshalJob pbj)) {}).2.unknownFields := by
  rw [getJobTxFunc_setJobTxFunc] at h
  split at h
  · rename_i hdecoded
    rw [hdecoded]
    cases h
    rfl
  · rename_i hdecoded
    rw [hdecoded]
    obtain ⟨p, hp, rfl⟩ := Option.map_eq_some_iff.1 h
    rfl

/-- **Reading stored jobs.** A job is read back as it was stored, through JSON, if and only if the
group that its text starts with has no end in the text. -/
theorem read_back_iff (p : GoJob) (tx : Items) : ReadBack p.toPbJob tx ↔ ¬GroupEnds p.toPbJob := by
  constructor
  · intro h hends
    exact unknownFields_of_groupEnds hends (unknownFields_of_getJobTxFunc h.same).symm
  · intro h
    have hdecoded := unmarshal_of_not_groupEnds h
    refine ⟨?_, by rw [hdecoded]⟩
    rw [getJobTxFunc_setJobTxFunc, hdecoded]
    simp only [unmarshalJob_marshalJob, Option.map_some]

/-- A job whose text is a protobuf message. The quote before `name` and its first letter are read as
the beginning of a field of 110 bytes, which leads up to the bar. The star and the letter after it
begin a field that takes the rest of the text. -/
def barJob : Job where
  name := "a"
  schedule := "@manually"
  owner := "---------------------------------------------------------------------|*c"

/-- **A job that is lost.** Validation accepts it and it is stored; an empty job is read. -/
theorem bar_job_read_as_empty :
    barJob.validate Env.small = .ok () ∧
      (getJobTxFunc "a" (setJobTxFunc barJob.toProto fun _ => none)).map Message.value = some {} ∧
      ¬ReadBack barJob.toProto fun _ => none := by
  have hread : (getJobTxFunc "a" (setJobTxFunc barJob.toProto fun _ => none)).map Message.value =
      some {} := by decide +kernel
  refine ⟨by decide, hread, fun h => ?_⟩
  have hsame : getJobTxFunc "a" (setJobTxFunc barJob.toProto fun _ => none) = _ := h.same
  rw [hsame] at hread
  revert hread
  decide

/-! ## Texts without a bar -/

theorem eq_bar_of_mem_utf8EncodeChar {c : Char} (h : 0x7C ∈ String.utf8EncodeChar c) : c = '|' := by
  simp only [String.utf8EncodeChar] at h
  split_ifs at h <;>
    simp only [List.mem_cons, List.not_mem_nil, or_false, ← UInt8.toNat_inj, UInt8.toNat_ofNat',
      UInt8.reduceToNat] at h
  · apply Char.ext
    apply UInt32.toNat_inj.1
    show c.val.toNat = 124
    omega
  all_goals omega

theorem not_mem_utf8EncodeChar (c : Char) : 0xFC ∉ String.utf8EncodeChar c := by
  intro h
  simp only [String.utf8EncodeChar] at h
  split_ifs at h <;>
    simp only [List.mem_cons, List.not_mem_nil, or_false, ← UInt8.toNat_inj, UInt8.toNat_ofNat',
      UInt8.reduceToNat] at h <;>
    omega

/-- The tag that ends a group in field 15 is the byte of the bar, or two bytes of which the first is
never part of UTF-8. -/
theorem head_of_consumeTag {maxNumber : ℕ} {b : UInt8} {bs rest : Bytes}
    (h : consumeTag maxNumber (b :: bs) = some (15, endGroupType, rest)) : b = 0x7C ∨ b = 0xFC := by
  rw [consumeTag] at h
  cases hv : consumeVarint (b :: bs) with
  | none => simp [hv] at h
  | some r =>
    obtain ⟨v, rest'⟩ := r
    simp only [hv] at h
    split_ifs at h
    simp only [Option.some.injEq, Prod.mk.injEq, endGroupType] at h
    have hvalue : v = 124 := by omega
    simp only [← UInt8.toNat_inj, UInt8.reduceToNat]
    rw [consumeVarint, consumeVarintIn] at hv
    split_ifs at hv with hb
    · cases hv
      exact .inl hvalue
    · obtain ⟨⟨w, rest''⟩, hw, heq⟩ := Option.map_eq_some_iff.1 hv
      cases heq
      have hbound := b.toNat_lt
      have hb' : ¬b.toNat < 128 := hb
      simp only at hvalue
      exact .inr (by omega)

/-- A text in which the group ends has a bar. -/
theorem bar_mem_of_isSome {text : List Char}
    (h : (consumeFieldValue 15 startGroupType (utf8 text.tail)).isSome) : '|' ∈ text := by
  obtain ⟨rest, hrest⟩ := Option.isSome_iff_exists.1 h
  obtain ⟨bs, hbs, htag⟩ := exists_endGroup_of_consumeFieldValue hrest
  cases bs with
  | nil => cases htag
  | cons b bs =>
    obtain ⟨c, hc, hb⟩ := List.mem_flatMap.1 (hbs.subset List.mem_cons_self)
    rcases head_of_consumeTag htag with rfl | rfl
    · exact eq_bar_of_mem_utf8EncodeChar hb ▸ List.mem_of_mem_tail hc
    · exact absurd hb (not_mem_utf8EncodeChar c)

theorem bar_mem_of_groupEnds {pbj : PbJob} (h : GroupEnds pbj) : '|' ∈ marshalJob pbj :=
  bar_mem_of_isSome h

/-- A job whose text has no bar is read back. -/
theorem read_back_of_bar_not_mem (p : GoJob) (tx : Items) (h : '|' ∉ marshalJob p.toPbJob) :
    ReadBack p.toPbJob tx :=
  (read_back_iff p tx).2 fun hends => h (bar_mem_of_groupEnds hends)

end Dkron
