import Dkron.StoredJobs

/-!
# The texts of the records

All records are JSON objects, and a scan over the store may meet any of them where it expects a job.
Nothing in a text says of which kind it is, so executions and daily stats are read as jobs too.

**Theorem (`name_of_readJobText`).** What is read as a job has the name of the job that was stored,
or none: the bytes of a text are no tags of field 1, and only the text of a job has a member `name`.
-/

namespace Dkron

open Json Json.Codec Wire

/-! ## Texts -/

/-- A character of `base64.StdEncoding`. -/
def base64Char (n : ℕ) : Char :=
  "ABCDEFGHIJKLMNOPQRSTUVWXYZabcdefghijklmnopqrstuvwxyz0123456789+/".toList.getD n '='

/-- The text of a `[]byte`. -/
def base64 : Bytes → List Char
  | [] => []
  | [a] => [base64Char (a.toNat / 4), base64Char (a.toNat % 4 * 16), '=', '=']
  | [a, b] =>
    [base64Char (a.toNat / 4), base64Char (a.toNat % 4 * 16 + b.toNat / 16),
      base64Char (b.toNat % 16 * 4), '=']
  | a :: b :: c :: rest =>
    base64Char (a.toNat / 4) :: base64Char (a.toNat % 4 * 16 + b.toNat / 16) ::
      base64Char (b.toNat % 16 * 4 + c.toNat / 64) :: base64Char (c.toNat % 64) :: base64 rest

example : base64 [104, 105] = "aGk=".toList := by decide

def int64Codec : Codec Int := integer (-2 ^ 63) (2 ^ 63 - 1) id id

/-- The fields of `Execution`. -/
def executionFields (e : PbExecution) : List (String × Option Json) :=
  [field "job_name" string e.jobName,
    field "success" boolean e.success,
    ("output", if e.output = [] then none else some (.str (String.ofList (base64 e.output)))),
    field "node_name" string e.nodeName,
    field "group" int64Codec e.group,
    field "attempt" uint32Codec e.attempt,
    field "started_at" (Codec.pointer timestampCodec) e.startedAt,
    field "finished_at" (Codec.pointer timestampCodec) e.finishedAt]

/-- The fields of `ExecutionStat`, of which none is left out. The date is the beginning of a day. -/
def statFields (s : ExecutionStat) : List (String × Option Json) :=
  [("date", some (.str (formatStatDate s.date ++ "T00:00:00Z"))),
    ("success_count", some (.num s.successCount)),
    ("failed_count", some (.num s.failedCount))]

/-- The fields of a record. -/
def Value.fields : Value → List (String × Option Json)
  | .job pbj => jobFields pbj
  | .execution pbe => executionFields pbe
  | .stat s => statFields s

/-- The text a record is stored as. -/
def Value.text (v : Value) : List Char := render (.obj (ofMembers (present v.fields)))

theorem text_job (p : PbJob) : (Value.job p).text = marshalJob p := rfl

/-- How a text is read as a job: as a protobuf message, and as JSON when that fails. -/
def readJobText (item : List Char) : Option PbJob :=
  match unmarshal jobField (utf8 item) {} with
  | (true, m) => some m.value
  | (false, m) => unmarshalJob item m.value

/-- A single job is read in the same way. -/
theorem getJobTxFunc_value (name : String) (tx : Items) :
    (getJobTxFunc name tx).map Message.value = (tx (jobKey name)).bind readJobText := by
  unfold getJobTxFunc readJobText
  cases tx (jobKey name) with
  | none => rfl
  | some item =>
    simp only [Option.bind_some]
    rcases unmarshal jobField (utf8 item) {} with ⟨ok, m⟩
    cases ok with
    | true => rfl
    | false =>
      simp only [Option.map_map]
      exact Option.map_id'

/-- The record read as a job. -/
def Value.readAsJob (v : Value) : Option Job := (readJobText v.text).map newJobFromProto

/-! ## Names -/

/-- Only the first field is the name. -/
theorem name_jobField {num : ℕ} (hnum : num ≠ 1) (type : ℕ) (bs : Bytes) (p : PbJob) :
    (jobField num type bs p).All fun q => q.name = p.name := by
  unfold jobField
  split
  case h_1 => exact absurd rfl hnum
  case h_26 => trivial
  all_goals
    apply Decoded.all_map
    intro v
    rfl

theorem le_of_mem_utf8EncodeChar {c : Char} (hc : 0x20 ≤ c.toNat) {b : UInt8}
    (hb : b ∈ String.utf8EncodeChar c) : 0x20 ≤ b.toNat := by
  have hc' : 0x20 ≤ c.val.toNat := hc
  simp only [String.utf8EncodeChar] at hb
  split_ifs at hb <;>
    simp only [List.mem_cons, List.not_mem_nil, or_false, ← UInt8.toNat_inj,
      UInt8.toNat_ofNat'] at hb <;>
    omega

theorem le_of_mem_utf8_text {v : Value} {b : UInt8} (hb : b ∈ utf8 v.text) : 0x20 ≤ b.toNat := by
  obtain ⟨c, hc, hb⟩ := List.mem_flatMap.1 hb
  exact le_of_mem_utf8EncodeChar (printable_render _ c hc) hb

/-- Protobuf reads no name from a text. -/
theorem name_unmarshal_text (v : Value) :
    (unmarshal jobField (utf8 v.text) {}).2.value.name = "" := by
  refine unmarshalFields_invariant (P := fun q => q.name = "") leaves_jobField ?_
    List.suffix_rfl _ rfl
  intro num type bs rest p hbs htag hp
  -- The field of a tag from bytes that are no control characters has number 4 or more.
  have hnum : 0x20 / 8 ≤ num :=
    le_of_consumeTag (fun b hb => le_of_mem_utf8_text (hbs.subset hb)) htag
  have hname := name_jobField (show num ≠ 1 by omega) type rest p
  rwa [hp] at hname

/-- JSON reads the name from the members of this name. -/
theorem name_of_readJob {ms : List (String × Json)} {p q : PbJob} (h : readJob ms p = some q) :
    readField ms "name" string p.name = some q.name := by
  unfold readJob at h
  obtain ⟨name, hname, h⟩ := Option.bind_eq_some_iff.1 h
  -- The other fields leave the name as it is.
  iterate 24 obtain ⟨_, -, h⟩ := Option.bind_eq_some_iff.1 h
  cases h
  exact hname

/-- The members of the name in the text of a record: a job that has a name, and no other record, has
one. -/
theorem filter_name_fields (v : Value) :
    (present v.fields).filter (fun m => m.1 = "name") =
      match v with
      | .job p => if p.name = "" then [] else [("name", .str p.name)]
      | _ => [] := by
  cases v with
  | job p =>
    have hmem : field "name" string p.name ∈ jobFields p := List.mem_cons_self
    show (present (jobFields p)).filter _ = _
    rw [filter_present (nodup_jobFields p) hmem]
    show (if p.name = "" then none else some (Json.str p.name)).toList.map _ =
      if p.name = "" then [] else [("name", Json.str p.name)]
    split_ifs <;> rfl
  | execution e =>
    apply filter_present_of_notMem
    show "name" ∉ ["job_name", "success", "output", "node_name", "group", "attempt", "started_at",
      "finished_at"]
    decide
  | stat s =>
    apply filter_present_of_notMem
    show "name" ∉ ["date", "success_count", "failed_count"]
    decide

/-- Reading a text is reading its members. -/
theorem unmarshalJob_text (v : Value) (p : PbJob) :
    unmarshalJob v.text p = readJob (present v.fields) p := by
  rw [unmarshalJob, Value.text, parse_render]
  show readJob (toMembers (ofMembers (present v.fields))) p = _
  rw [toMembers_ofMembers]

/-- **Names.** A record is read as a job without a name, or it is a job and read with its name. -/
theorem name_of_readJobText {v : Value} {q : PbJob} (h : readJobText v.text = some q) :
    q.name = "" ∨ ∃ p, v = .job p ∧ q.name = p.name := by
  have hname := name_unmarshal_text v
  unfold readJobText at h
  generalize unmarshal jobField (utf8 v.text) {} = r at h hname
  obtain ⟨ok, m⟩ := r
  cases ok with
  | true =>
    cases h
    exact .inl hname
  | false =>
    have hread := name_of_readJob ((unmarshalJob_text v m.value).symm.trans h)
    simp only at hname
    rw [readField, filter_name_fields, hname] at hread
    cases v with
    | job p =>
      simp only at hread
      split_ifs at hread
      · exact .inl (Option.some.inj hread).symm
      · exact .inr ⟨p, rfl, (Option.some.inj hread).symm⟩
    | execution e => exact .inl (Option.some.inj hread).symm
    | stat s => exact .inl (Option.some.inj hread).symm

/-- The same of the jobs that a scan makes of records. -/
theorem name_of_readAsJob {v : Value} {job : Job} (h : v.readAsJob = some job) :
    job.name = "" ∨ ∃ p, v = .job p ∧ job.name = p.name := by
  obtain ⟨q, hq, rfl⟩ := Option.map_eq_some_iff.1 h
  exact name_of_readJobText hq

/-! ## Texts that are no protobuf messages -/

/-- The group that starts with the opening brace of the text ends in the text. -/
def Value.GroupEnds (v : Value) : Prop :=
  (consumeFieldValue 15 startGroupType (utf8 v.text.tail)).isSome

instance (v : Value) : Decidable v.GroupEnds := by unfold Value.GroupEnds; infer_instance

/-- Any text whose group has no end is read as JSON only. -/
theorem readJobText_of_not_groupEnds {v : Value} (h : ¬v.GroupEnds) :
    readJobText v.text = readJob (present v.fields) {} := by
  have hcons : utf8 v.text = 0x7B :: utf8 v.text.tail := by
    rw [show v.text = '{' :: v.text.tail from rfl, utf8, List.flatMap_cons]
    rfl
  have hdecoded : unmarshal jobField (utf8 v.text) {} = (false, { value := {} }) := by
    rw [hcons]
    refine unmarshal_of_skip_eq_none (consumeTag_brace _) (by decide) (jobField_group _ _) ?_
    simpa [Value.GroupEnds] using h
  rw [← unmarshalJob_text, readJobText, hdecoded]

/-- If no other field is there, only the success count can change. -/
theorem readJob_of_successCount {ms : List (String × Json)}
    (h : ∀ key ∈ jobKeys, key ≠ "success_count" → ms.filter (fun m => m.1 = key) = [])
    (p : PbJob) :
    readJob ms p = (readField ms "success_count" int32Codec p.successCount).map fun n =>
      { p with successCount := n } := by
  have hkeep : ∀ {α : Type} {key : String} (c : Codec α) (old : α), key ∈ jobKeys →
      key ≠ "success_count" → readField ms key c old = some old := by
    intro α key c old hkey hne
    exact readField_of_filter_eq_nil (h key hkey hne) c old
  unfold readJob
  iterate 5 refine bind_of_eq_some (hkeep _ _ (by decide) (by decide)) ?_
  cases readField ms "success_count" int32Codec p.successCount with
  | none => rfl
  | some n =>
    show Option.bind (some n) _ = _
    refine bind_of_eq_some rfl ?_
    iterate 19 refine bind_of_eq_some (hkeep _ _ (by decide) (by decide)) ?_
    rfl

/-- The number is an `int32`. -/
def FitsInt32 (n : Int) : Prop := -2 ^ 31 ≤ n ∧ n ≤ 2 ^ 31 - 1

instance (n : Int) : Decidable (FitsInt32 n) := by unfold FitsInt32; infer_instance

/-- A job is read as it is stored. -/
theorem readAsJob_job {p : GoJob} (h : ¬(Value.job p.toPbJob).GroupEnds) :
    (Value.job p.toPbJob).readAsJob = some (newJobFromProto p.toPbJob) := by
  have hjson := unmarshalJob_marshalJob p
  rw [← text_job, unmarshalJob_text] at hjson
  rw [Value.readAsJob, readJobText_of_not_groupEnds h, hjson]
  rfl

/-- An execution is read as a job that has no field. -/
theorem readAsJob_execution {e : PbExecution} (h : ¬(Value.execution e).GroupEnds) :
    (Value.execution e).readAsJob = some (newJobFromProto {}) := by
  have hnone : ∀ key ∈ jobKeys,
      (present (Value.execution e).fields).filter (fun m => m.1 = key) = [] := by
    intro key hkey
    apply filter_present_of_notMem
    show key ∉ ["job_name", "success", "output", "node_name", "group", "attempt", "started_at",
      "finished_at"]
    revert key
    decide
  have hcount := readField_of_filter_eq_nil (hnone "success_count" (by decide)) int32Codec 0
  rw [Value.readAsJob, readJobText_of_not_groupEnds h,
    readJob_of_successCount (fun key hkey _ => hnone key hkey), hcount]
  rfl

/-- Daily stats are read as a job that has a success count, and cannot be read if the count is no
`int32`. -/
theorem readAsJob_stat {s : ExecutionStat} (h : ¬(Value.stat s).GroupEnds) :
    (Value.stat s).readAsJob =
      if FitsInt32 s.successCount then
        some (newJobFromProto { successCount := Int32.ofInt s.successCount })
      else none := by
  have hnone : ∀ key ∈ jobKeys, key ≠ "success_count" →
      (present (Value.stat s).fields).filter (fun m => m.1 = key) = [] := by
    intro key hkey hne
    apply filter_present_of_notMem
    show key ∉ ["date", "success_count", "failed_count"]
    revert key
    decide
  have hcount : readField (present (Value.stat s).fields) "success_count" int32Codec 0 =
      if FitsInt32 s.successCount then some (Int32.ofInt s.successCount) else none := by
    have hnodup : ((statFields s).map Prod.fst).Nodup :=
      show ["date", "success_count", "failed_count"].Nodup by decide
    have hmem : ("success_count", some (Json.num s.successCount)) ∈ statFields s := by
      simp [statFields]
    show readField (present (statFields s)) _ _ _ = _
    rw [readField, filter_present hnodup hmem]
    exact Option.bind_fun_some _
  rw [Value.readAsJob, readJobText_of_not_groupEnds h, readJob_of_successCount hnone, hcount]
  split_ifs <;> rfl

end Dkron
