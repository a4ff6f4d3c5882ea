import Dkron.RecordText

/-!
# The JSON text of an execution

An execution is stored as JSON text as a job is, and read in the same way: protobuf first, and JSON
when that fails. Some texts are protobuf messages, and then nothing of what was stored is read.

Nothing in a text is the tag of one of the fields of a timestamp. So what protobuf reads finished at
the epoch, and what JSON reads after that has the finish time that was stored
(`finishedAt_readExecutionText`).
-/

namespace Dkron

open Json Json.Codec Wire

/-! ## base64 -/

/-- The value of a character of `base64.StdEncoding`. -/
def base64Value (c : Char) : Option ℕ :=
  let i := "ABCDEFGHIJKLMNOPQRSTUVWXYZabcdefghijklmnopqrstuvwxyz0123456789+/".toList.idxOf c
  if i < 64 then some i else none

/-- The bytes of groups of four characters. Padding stands at the end only. -/
def decodeQuanta : List Char → Option Bytes
  | [] => some []
  | a :: b :: c :: d :: rest => do
    let x ← base64Value a
    let y ← base64Value b
    if c = '=' ∧ d = '=' ∧ rest = [] then return [UInt8.ofNat (x * 4 + y / 16)]
    let z ← base64Value c
    if d = '=' ∧ rest = [] then
      return [UInt8.ofNat (x * 4 + y / 16), UInt8.ofNat (y * 16 + z / 4)]
    let w ← base64Value d
    let bytes ← decodeQuanta rest
    return UInt8.ofNat (x * 4 + y / 16) :: UInt8.ofNat (y * 16 + z / 4) ::
      UInt8.ofNat (z * 64 + w) :: bytes
  | _ => none

/-- `base64.StdEncoding.DecodeString`. -/
def decodeBase64 (cs : List Char) : Option Bytes :=
  decodeQuanta (cs.filter fun c => c ≠ '\n' ∧ c ≠ '\r')

theorem base64Value_base64Char {n : ℕ} (hn : n < 64) : base64Value (base64Char n) = some n := by
  revert n
  decide +kernel

theorem base64Char_ne {n : ℕ} (hn : n < 64) :
    base64Char n ≠ '=' ∧ base64Char n ≠ '\n' ∧ base64Char n ≠ '\r' := by
  revert n
  decide +kernel

theorem ne_newline_of_mem_base64 (bytes : Bytes) :
    ∀ c ∈ base64 bytes, c ≠ '\n' ∧ c ≠ '\r' := by
  have hchar {n : ℕ} (hn : n < 64) : base64Char n ≠ '\n' ∧ base64Char n ≠ '\r' :=
    (base64Char_ne hn).2
  have hpad : '=' ≠ '\n' ∧ '=' ≠ '\r' := by decide
  fun_induction base64 bytes with
  | case1 => simp
  | case2 a =>
    have ha := a.toNat_lt
    simp only [List.forall_mem_cons]
    exact ⟨hchar (by omega), hchar (by omega), hpad, hpad, by simp⟩
  | case3 a b =>
    have ha := a.toNat_lt
    have hb := b.toNat_lt
    simp only [List.forall_mem_cons]
    exact ⟨hchar (by omega), hchar (by omega), hchar (by omega), hpad, by simp⟩
  | case4 a b c rest ih =>
    have ha := a.toNat_lt
    have hb := b.toNat_lt
    have hc := c.toNat_lt
    simp only [List.forall_mem_cons]
    exact ⟨hchar (by omega), hchar (by omega), hchar (by omega), hchar (by omega), ih⟩

theorem ofNat_eq {a : UInt8} {n : ℕ} (h : n % 2 ^ 8 = a.toNat) : UInt8.ofNat n = a := by
  apply UInt8.toNat_inj.1
  rw [UInt8.toNat_ofNat', h]

/-- Groups of four characters are decoded to the bytes they are made from. -/
theorem decodeQuanta_base64 (bytes : Bytes) : decodeQuanta (base64 bytes) = some bytes := by
  fun_induction base64 bytes with
  | case1 => rfl
  | case2 a =>
    have ha := a.toNat_lt
    have hx := base64Value_base64Char (show a.toNat / 4 < 64 by omega)
    have hy := base64Value_base64Char (show a.toNat % 4 * 16 < 64 by omega)
    have hfirst : UInt8.ofNat (a.toNat / 4 * 4 + a.toNat % 4 * 16 / 16) = a := ofNat_eq (by omega)
    rw [decodeQuanta, hx, hy]
    simp only [Option.bind_eq_bind, Option.bind_some, hfirst, and_self, if_true]
    rfl
  | case3 a b =>
    have ha := a.toNat_lt
    have hb := b.toNat_lt
    have hx := base64Value_base64Char (show a.toNat / 4 < 64 by omega)
    have hy := base64Value_base64Char (show a.toNat % 4 * 16 + b.toNat / 16 < 64 by omega)
    have hz := base64Value_base64Char (show b.toNat % 16 * 4 < 64 by omega)
    have hne := (base64Char_ne (show b.toNat % 16 * 4 < 64 by omega)).1
    have hfirst : UInt8.ofNat (a.toNat / 4 * 4 + (a.toNat % 4 * 16 + b.toNat / 16) / 16) = a :=
      ofNat_eq (by omega)
    have hsecond : UInt8.ofNat ((a.toNat % 4 * 16 + b.toNat / 16) * 16 + b.toNat % 16 * 4 / 4) =
        b := ofNat_eq (by omega)
    rw [decodeQuanta, hx, hy, hz]
    simp only [Option.bind_eq_bind, Option.bind_some, hfirst, hsecond, hne, false_and, and_self,
      if_false, if_true]
    rfl
  | case4 a b c rest ih =>
    have ha := a.toNat_lt
    have hb := b.toNat_lt
    have hc := c.toNat_lt
    have hx := base64Value_base64Char (show a.toNat / 4 < 64 by omega)
    have hy := base64Value_base64Char (show a.toNat % 4 * 16 + b.toNat / 16 < 64 by omega)
    have hz := base64Value_base64Char (show b.toNat % 16 * 4 + c.toNat / 64 < 64 by omega)
    have hw := base64Value_base64Char (show c.toNat % 64 < 64 by omega)
    have hne := (base64Char_ne (show b.toNat % 16 * 4 + c.toNat / 64 < 64 by omega)).1
    have hne' := (base64Char_ne (show c.toNat % 64 < 64 by omega)).1
    have hfirst : UInt8.ofNat (a.toNat / 4 * 4 + (a.toNat % 4 * 16 + b.toNat / 16) / 16) = a :=
      ofNat_eq (by omega)
    have hsecond : UInt8.ofNat ((a.toNat % 4 * 16 + b.toNat / 16) * 16 +
        (b.toNat % 16 * 4 + c.toNat / 64) / 4) = b := ofNat_eq (by omega)
    have hthird : UInt8.ofNat ((b.toNat % 16 * 4 + c.toNat / 64) * 64 + c.toNat % 64) = c :=
      ofNat_eq (by omega)
    rw [decodeQuanta, hx, hy, hz, hw, ih]
    simp only [Option.bind_eq_bind, Option.bind_some, hfirst, hsecond, hthird, hne, hne', false_and,
      if_false]
    rfl

theorem decodeBase64_base64 (bytes : Bytes) : decodeBase64 (base64 bytes) = some bytes := by
  rw [decodeBase64, List.filter_eq_self.2, decodeQuanta_base64]
  intro c hc
  exact decide_eq_true (ne_newline_of_mem_base64 bytes c hc)

/-! ## Reading -/

/-- A `[]byte`. -/
def bytesCodec : Codec Bytes where
  empty := []
  write bytes := .str (String.ofList (base64 bytes))
  read v _ :=
    match v with
    | .str s => decodeBase64 s.toList
    | .null => some []
    | _ => none

def readExecution (ms : List (String × Json)) (e : PbExecution) : Option PbExecution := do
  let jobName ← readField ms "job_name" string e.jobName
  let success ← readField ms "success" boolean e.success
  let output ← readField ms "output" bytesCodec e.output
  let nodeName ← readField ms "node_name" string e.nodeName
  let group ← readField ms "group" int64Codec e.group
  let attempt ← readField ms "attempt" uint32Codec e.attempt
  let startedAt ← readField ms "started_at" (Codec.pointer timestampCodec) e.startedAt
  let finishedAt ← readField ms "finished_at" (Codec.pointer timestampCodec) e.finishedAt
  return { e with
    jobName, success, output, nodeName, group, attempt, startedAt, finishedAt }

/-- `Execution`. -/
def executionCodec : Codec PbExecution := struct {} executionFields readExecution

/-- `json.Unmarshal` of a text into an execution message. -/
def unmarshalExecution (text : List Char) (e : PbExecution) : Option PbExecution :=
  (Json.parse text).bind fun v => executionCodec.read v e

/-- A field of type `bytes`. -/
def rawBytes : ℕ → Bytes → Bytes → Decoded Bytes := ofBytes fun v _ => (true, v)

/-- The fields of `Execution`. -/
def executionField (num type : ℕ) (bs : Bytes) (e : PbExecution) : Decoded PbExecution :=
  match num with
  | 1 => (text type bs e.jobName).map fun v => { e with jobName := v }
  | 2 => (number (· != 0) type bs e.success).map fun v => { e with success := v }
  | 3 => (rawBytes type bs e.output).map fun v => { e with output := v }
  | 4 => (text type bs e.nodeName).map fun v => { e with nodeName := v }
  | 5 => (number toInt64 type bs e.group).map fun v => { e with group := v }
  | 6 => (number UInt32.ofNat type bs e.attempt).map fun v => { e with attempt := v }
  | 7 => (timestampPointer type bs e.startedAt).map fun v => { e with startedAt := v }
  | 8 => (timestampPointer type bs e.finishedAt).map fun v => { e with finishedAt := v }
  | _ => .unknown

/-- How a text is read as an execution: as a protobuf message, and as JSON when that fails. -/
def readExecutionText (item : List Char) : Option PbExecution :=
  match unmarshal executionField (utf8 item) {} with
  | (true, m) => some m.value
  | (false, m) => unmarshalExecution item m.value

/-- An execution message as Go holds it. -/
structure PbExecution.Fits (e : PbExecution) : Prop where
  group : -2 ^ 63 ≤ e.group ∧ e.group ≤ 2 ^ 63 - 1
  startedAt : ∀ t ∈ e.startedAt, SecondsFit t
  finishedAt : ∀ t ∈ e.finishedAt, SecondsFit t

/-- The text of the execution is a protobuf message. -/
def PbExecution.IsMessage (e : PbExecution) : Prop :=
  (unmarshal executionField (utf8 (Value.execution e).text) {}).1 = true

instance (e : PbExecution) : Decidable e.IsMessage := inferInstanceAs (Decidable (_ = _))

/-! ## What JSON reads -/

/-- The execution read into a message that is there already. -/
def PbExecution.onto (e old : PbExecution) : PbExecution where
  jobName := if e.jobName = "" then old.jobName else e.jobName
  success := if e.success = false then old.success else e.success
  output := if e.output = [] then old.output else e.output
  nodeName := if e.nodeName = "" then old.nodeName else e.nodeName
  group := if e.group = 0 then old.group else e.group
  attempt := if e.attempt = 0 then old.attempt else e.attempt
  startedAt := if e.startedAt = none then old.startedAt else e.startedAt
  finishedAt := if e.finishedAt = none then old.finishedAt else e.finishedAt

theorem PbExecution.onto_empty (e : PbExecution) : e.onto {} = e := by
  have hkeep {α : Type} [DecidableEq α] (v empty : α) : (if v = empty then empty else v) = v := by
    split_ifs with h
    · exact h.symm
    · rfl
  simp only [PbExecution.onto, hkeep]

/-- The names of the fields. -/
def executionKeys : List String :=
  ["job_name", "success", "output", "node_name", "group", "attempt", "started_at", "finished_at"]

theorem nodup_executionFields (e : PbExecution) : ((executionFields e).map Prod.fst).Nodup :=
  show executionKeys.Nodup by decide

/-- A timestamp is read into one that is the epoch. -/
theorem read_timestamp {ts old : Timestamp} (hts : ∀ t ∈ ts, SecondsFit t) (hold : asTime old = 0)
    (hne : ts ≠ none) :
    (Codec.pointer timestampCodec).read ((Codec.pointer timestampCodec).write ts) old =
      some ts := by
  obtain ⟨t, rfl⟩ := Option.ne_none_iff_exists'.1 hne
  have hread : timestampCodec.read (timestampCodec.write t) 0 = some t :=
    readsBack_timestampCodec (hts t rfl)
  show (timestampCodec.read (timestampCodec.write t) (asTime old)).map some = some (some t)
  rw [hold, hread]
  rfl

/-- The field at a position is read from the fields of an execution. -/
theorem readField_execution {α : Type} [DecidableEq α] (e : PbExecution) (i : ℕ) {key : String}
    {c : Codec α} {v : α} (h : (executionFields e)[i]? = some (field key c v)) {old : α}
    (hv : v ≠ c.empty → c.read (c.write v) old = some v) :
    readField (present (executionFields e)) key c old = some (if v = c.empty then old else v) :=
  readField_present_onto (nodup_executionFields e) (List.mem_of_getElem? h) hv

/-- **The fields of an execution are read** into a message whose timestamps are the epoch. -/
theorem readExecution_present {e old : PbExecution} (he : e.Fits)
    (hstarted : asTime old.startedAt = 0) (hfinished : asTime old.finishedAt = 0) :
    readExecution (present (executionFields e)) old = some (e.onto old) := by
  unfold readExecution
  refine bind_of_eq_some (readField_execution e 0 rfl fun _ => rfl) ?_
  refine bind_of_eq_some (readField_execution e 1 rfl fun _ => rfl) ?_
  refine bind_of_eq_some (readField_execution e 2 rfl fun _ => ?_) ?_
  · show decodeBase64 (String.ofList (base64 e.output)).toList = some e.output
    rw [String.toList_ofList, decodeBase64_base64]
  refine bind_of_eq_some (readField_execution e 3 rfl fun _ => rfl) ?_
  refine bind_of_eq_some (readField_execution e 4 rfl fun _ => ?_) ?_
  · exact if_pos he.group
  refine bind_of_eq_some (readField_execution e 5 rfl fun _ => ?_) ?_
  · exact readsBack_uint32Codec e.attempt
  refine bind_of_eq_some (readField_execution e 6 rfl fun hne => ?_) ?_
  · exact read_timestamp he.startedAt hstarted hne
  refine bind_of_eq_some (readField_execution e 7 rfl fun hne => ?_) ?_
  · exact read_timestamp he.finishedAt hfinished hne
  rfl

/-! ## What protobuf reads -/

theorem leaves_timestampField (num type : ℕ) (bs : Bytes) (t : Time) :
    (timestampField num type bs t).Leaves bs := by
  unfold timestampField
  split
  · exact (leaves_number _ type bs _).map _
  · exact (leaves_number _ type bs _).map _
  · exact leaves_unknown _

theorem leaves_executionField (num type : ℕ) (bs : Bytes) (e : PbExecution) :
    (executionField num type bs e).Leaves bs := by
  unfold executionField
  split
  case h_1 => exact (leaves_text type bs _).map _
  case h_2 => exact (leaves_number _ type bs _).map _
  case h_3 => exact (leaves_ofBytes _ type bs _).map _
  case h_4 => exact (leaves_text type bs _).map _
  case h_5 => exact (leaves_number _ type bs _).map _
  case h_6 => exact (leaves_number _ type bs _).map _
  case h_7 => exact (leaves_pointer _ _ type bs _).map _
  case h_8 => exact (leaves_pointer _ _ type bs _).map _
  case h_9 => exact leaves_unknown _

/-- Bytes that are no control characters change no timestamp: its fields have the numbers 1
and 2. -/
theorem value_unmarshal_timestampField {bytes : Bytes} (hbytes : ∀ b ∈ bytes, 0x20 ≤ b.toNat)
    (t : Time) : (unmarshal timestampField bytes t).2.value = t := by
  refine unmarshalFields_invariant (P := (· = t)) leaves_timestampField ?_ List.suffix_rfl _ rfl
  intro num type bs rest v hbs htag hv
  have hnum : 0x20 / 8 ≤ num := le_of_consumeTag (fun b hb => hbytes b (hbs.subset hb)) htag
  have hunknown : timestampField num type rest v = .unknown := by
    unfold timestampField
    split
    · omega
    · omega
    · rfl
  rw [hunknown]
  trivial

theorem asTime_timestampPointer {bytes : Bytes} (hbytes : ∀ b ∈ bytes, 0x20 ≤ b.toNat) (type : ℕ)
    {old : Timestamp} (hold : asTime old = 0) :
    (timestampPointer type bytes old).All fun ts => asTime ts = 0 := by
  rw [timestampPointer, Wire.pointer, ofBytes]
  split_ifs
  · cases hv : consumeBytes bytes with
    | none => exact hold
    | some r =>
      obtain ⟨v, rest⟩ := r
      have hvalue := value_unmarshal_timestampField
        (fun b hb => hbytes b (consumeBytes_subset hv hb)) (old.getD 0)
      have hzero : old.getD 0 = 0 := hold
      rw [hzero] at hvalue
      simp only [hzero]
      cases hread : unmarshal timestampField v 0 with
      | mk ok m =>
        rw [hread] at hvalue
        cases ok with
        | false => exact hvalue
        | true => exact hvalue
  · trivial

/-- Both timestamps of the message are the epoch. -/
def AtEpoch (e : PbExecution) : Prop := asTime e.startedAt = 0 ∧ asTime e.finishedAt = 0

theorem atEpoch_executionField {bytes : Bytes} (hbytes : ∀ b ∈ bytes, 0x20 ≤ b.toNat)
    (num type : ℕ) {e : PbExecution} (he : AtEpoch e) :
    (executionField num type bytes e).All AtEpoch := by
  obtain ⟨hstarted, hfinished⟩ := he
  unfold executionField
  split
  case h_7 =>
    have hall := asTime_timestampPointer hbytes type hstarted
    cases hts : timestampPointer type bytes e.startedAt with
    | unknown => trivial
    | failed ts =>
      rw [hts] at hall
      exact ⟨hall, hfinished⟩
    | done ts rest =>
      rw [hts] at hall
      exact ⟨hall, hfinished⟩
  case h_8 =>
    have hall := asTime_timestampPointer hbytes type hfinished
    cases hts : timestampPointer type bytes e.finishedAt with
    | unknown => trivial
    | failed ts =>
      rw [hts] at hall
      exact ⟨hstarted, hall⟩
    | done ts rest =>
      rw [hts] at hall
      exact ⟨hstarted, hall⟩
  case h_9 => trivial
  all_goals exact Decoded.all_map (fun v => ⟨hstarted, hfinished⟩) _

/-- Protobuf reads no time from a text. -/
theorem atEpoch_unmarshal_text (v : Value) :
    AtEpoch (unmarshal executionField (utf8 v.text) {}).2.value := by
  refine unmarshalFields_invariant (P := AtEpoch) leaves_executionField ?_ List.suffix_rfl _
    ⟨rfl, rfl⟩
  intro num type bs rest e hbs htag he
  have hrest : rest <:+ bs := (consumeTag_rest htag).1
  exact atEpoch_executionField
    (fun b hb => le_of_mem_utf8_text ((hrest.trans hbs).subset hb)) num type he

/-! ## What is read -/

/-- Reading a text is reading its members. -/
theorem unmarshalExecution_text (e old : PbExecution) :
    unmarshalExecution (Value.execution e).text old =
      readExecution (present (executionFields e)) old := by
  rw [unmarshalExecution, Value.text, parse_render]
  show readExecution (toMembers (ofMembers (present (executionFields e)))) old = _
  rw [toMembers_ofMembers]

/-- The finish time that is read. -/
def PbExecution.readFinish (e : PbExecution) : Time :=
  if e.IsMessage then 0 else asTime e.finishedAt

/-- **The finish time of a stored execution** is read, or the epoch if the text is a protobuf
message. -/
theorem finishedAt_readExecutionText {e : PbExecution} (he : e.Fits) :
    ∃ p, readExecutionText (Value.execution e).text = some p ∧
      asTime p.finishedAt = e.readFinish := by
  have hepoch := atEpoch_unmarshal_text (.execution e)
  unfold readExecutionText PbExecution.readFinish
  cases hread : unmarshal executionField (utf8 (Value.execution e).text) {} with
  | mk ok m =>
    have hmessage : e.IsMessage ↔ ok = true := by rw [PbExecution.IsMessage, hread]
    rw [hread] at hepoch
    obtain ⟨hstarted, hfinished⟩ := hepoch
    cases ok with
    | true =>
      rw [if_pos (hmessage.2 rfl)]
      exact ⟨m.value, rfl, hfinished⟩
    | false =>
      rw [if_neg (mt hmessage.1 Bool.false_ne_true)]
      refine ⟨e.onto m.value, ?_, ?_⟩
      · exact (unmarshalExecution_text e m.value).trans
          (readExecution_present he hstarted hfinished)
      · show asTime (if e.finishedAt = none then m.value.finishedAt else e.finishedAt) = _
        split_ifs with hnone
        · rw [hnone]
          exact hfinished
        · rfl

/-! ## Texts that are no protobuf messages -/

/-- An execution whose group has no end is read as it was stored. -/
theorem readExecutionText_of_not_groupEnds {e : PbExecution} (he : e.Fits)
    (h : ¬(Value.execution e).GroupEnds) :
    readExecutionText (Value.execution e).text = some e ∧ ¬e.IsMessage := by
  have hcons : utf8 (Value.execution e).text = 0x7B :: utf8 (Value.execution e).text.tail := by
    rw [show (Value.execution e).text = '{' :: (Value.execution e).text.tail from rfl, utf8,
      List.flatMap_cons]
    rfl
  have hread : unmarshal executionField (utf8 (Value.execution e).text) {} =
      (false, { value := {} }) := by
    rw [hcons]
    refine unmarshal_of_skip_eq_none (consumeTag_brace _) (by decide) rfl ?_
    simpa [Value.GroupEnds] using h
  constructor
  · rw [readExecutionText, hread]
    show unmarshalExecution _ {} = _
    rw [unmarshalExecution_text, readExecution_present he rfl rfl, PbExecution.onto_empty]
  · rw [PbExecution.IsMessage, hread]
    exact Bool.false_ne_true

/-- A text that is a protobuf message has a bar. -/
theorem bar_mem_of_isMessage {e : PbExecution} (he : e.Fits) (h : e.IsMessage) :
    '|' ∈ (Value.execution e).text :=
  bar_mem_of_isSome <| by_contra fun hends => (readExecutionText_of_not_groupEnds he hends).2 h

end Dkron
