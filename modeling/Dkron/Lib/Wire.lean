import Mathlib.Algebra.Group.Nat.Hom
import Mathlib.Order.Nat
import Mathlib.Data.List.Basic

/-!
# The protobuf wire format

A message is a list of fields, and a field is a tag, which holds the number of the field and the
type of its encoding, and a value. Values of numbers that a message does not know are skipped; for a
group that means all fields up to the tag that ends it.

The definitions follow the Go package `protowire`. A group is skipped with the numbers of the groups
that are open, innermost first, in place of a recursion.
-/

namespace Wire

/-- The wire types. -/
def varintType : ℕ := 0
def fixed64Type : ℕ := 1
def bytesType : ℕ := 2
def startGroupType : ℕ := 3
def endGroupType : ℕ := 4
def fixed32Type : ℕ := 5

/-- The largest field number of a message. -/
def maxValidNumber : ℕ := 2 ^ 29 - 1

/-- The largest field number that is skipped in a group. -/
def maxInt32 : ℕ := 2 ^ 31 - 1

/-- How deep groups may be nested. -/
def recursionLimit : ℕ := 10000

/-- A number in groups of seven bits, least ones first, with `left` bytes at most: its value, and
what follows it. The last of ten bytes has room for one bit. -/
def consumeVarintIn : (left : ℕ) → List UInt8 → Option (ℕ × List UInt8)
  | 0, _ => none
  | _, [] => none
  | left + 1, b :: bs =>
    if b < 0x80 then if left = 0 ∧ 1 < b then none else some (b.toNat, bs)
    else (consumeVarintIn left bs).map fun r => (b.toNat - 0x80 + 0x80 * r.1, r.2)

/-- `ConsumeVarint`. -/
def consumeVarint (bs : List UInt8) : Option (ℕ × List UInt8) := consumeVarintIn 10 bs

/-- `ConsumeTag`: the number of the field, the wire type, and what follows the tag. -/
def consumeTag (maxNumber : ℕ) (bs : List UInt8) : Option (ℕ × ℕ × List UInt8) :=
  match consumeVarint bs with
  | none => none
  | some (v, bs) => if v / 8 = 0 ∨ maxNumber < v / 8 then none else some (v / 8, v % 8, bs)

/-- A number of bytes, and what follows them. -/
def consumeCount (n : ℕ) (bs : List UInt8) : Option (List UInt8 × List UInt8) :=
  if n ≤ bs.length then some (bs.take n, bs.drop n) else none

/-- `ConsumeBytes`: as many bytes as the number before them says, and what follows them. -/
def consumeBytes (bs : List UInt8) : Option (List UInt8 × List UInt8) :=
  match consumeVarint bs with
  | none => none
  | some (n, bs) => consumeCount n bs

/-- What follows a value that is not a group. -/
def skipScalar (type : ℕ) (bs : List UInt8) : Option (List UInt8) :=
  if type = varintType then (consumeVarint bs).map Prod.snd
  else if type = fixed64Type then (consumeCount 8 bs).map Prod.snd
  else if type = bytesType then (consumeBytes bs).map Prod.snd
  else if type = fixed32Type then (consumeCount 4 bs).map Prod.snd
  else none

/-- What follows the open groups. The first argument bounds the number of tags. -/
def skipGroups : ℕ → (openGroups : List ℕ) → List UInt8 → Option (List UInt8)
  | _, [], bs => some bs
  | 0, _ :: _, _ => none
  | n + 1, num :: outer, bs =>
    match consumeTag maxInt32 bs with
    | none => none
    | some (num', type, bs) =>
      if type = endGroupType then if num' = num then skipGroups n outer bs else none
      else if type = startGroupType then
        if recursionLimit < outer.length + 1 then none
        else skipGroups n (num' :: num :: outer) bs
      else
        match skipScalar type bs with
        | none => none
        | some bs => skipGroups n (num :: outer) bs

/-- `ConsumeFieldValue`: what follows the value of a field. -/
def consumeFieldValue (num type : ℕ) (bs : List UInt8) : Option (List UInt8) :=
  if type = startGroupType then skipGroups (bs.length + 1) [num] bs else skipScalar type bs

/-! ## Progress -/

/-- A number takes a byte or more. -/
theorem consumeVarintIn_rest {left v : ℕ} {bs rest : List UInt8}
    (h : consumeVarintIn left bs = some (v, rest)) : rest <:+ bs ∧ rest.length < bs.length := by
  induction left generalizing v bs with
  | zero => simp [consumeVarintIn] at h
  | succ left ih =>
    cases bs with
    | nil => simp [consumeVarintIn] at h
    | cons b bs =>
      rw [consumeVarintIn] at h
      split_ifs at h
      · cases h
        exact ⟨List.suffix_cons b _, Nat.lt_succ_self _⟩
      · obtain ⟨⟨w, rest'⟩, hw, heq⟩ := Option.map_eq_some_iff.1 h
        cases heq
        obtain ⟨hsuffix, hlength⟩ := ih hw
        exact ⟨hsuffix.trans (List.suffix_cons b bs), Nat.lt_succ_of_lt hlength⟩

theorem consumeTag_rest {maxNumber num type : ℕ} {bs rest : List UInt8}
    (h : consumeTag maxNumber bs = some (num, type, rest)) :
    rest <:+ bs ∧ rest.length < bs.length := by
  rw [consumeTag] at h
  cases hv : consumeVarint bs with
  | none => simp [hv] at h
  | some r =>
    obtain ⟨v, rest'⟩ := r
    simp only [hv] at h
    split_ifs at h
    cases h
    exact consumeVarintIn_rest hv

theorem consumeCount_suffix {n : ℕ} {bs v rest : List UInt8}
    (h : consumeCount n bs = some (v, rest)) : rest <:+ bs := by
  rw [consumeCount] at h
  split_ifs at h
  cases h
  exact List.drop_suffix n bs

theorem consumeBytes_suffix {bs v rest : List UInt8} (h : consumeBytes bs = some (v, rest)) :
    rest <:+ bs := by
  rw [consumeBytes] at h
  cases hn : consumeVarint bs with
  | none => simp [hn] at h
  | some r =>
    simp only [hn] at h
    exact (consumeCount_suffix h).trans (consumeVarintIn_rest hn).1

theorem consumeBytes_subset {bs v rest : List UInt8} (h : consumeBytes bs = some (v, rest)) :
    v ⊆ bs := by
  rw [consumeBytes] at h
  cases hn : consumeVarint bs with
  | none => simp [hn] at h
  | some r =>
    simp only [hn, consumeCount] at h
    split_ifs at h
    cases h
    intro b hb
    exact (consumeVarintIn_rest hn).1.subset (List.mem_of_mem_take hb)

theorem skipScalar_suffix {type : ℕ} {bs rest : List UInt8} (h : skipScalar type bs = some rest) :
    rest <:+ bs := by
  rw [skipScalar] at h
  split_ifs at h <;> obtain ⟨r, hr, rfl⟩ := Option.map_eq_some_iff.1 h
  · exact (consumeVarintIn_rest hr).1
  · exact consumeCount_suffix hr
  · exact consumeBytes_suffix hr
  · exact consumeCount_suffix hr

/-- **The bound does not matter**: each tag takes a byte, so with more tags than bytes allowed the
result is the same. -/
theorem skipGroups_congr {m n : ℕ} {openGroups : List ℕ} {bs : List UInt8} (hm : bs.length < m)
    (hn : bs.length < n) : skipGroups m openGroups bs = skipGroups n openGroups bs := by
  induction m generalizing n openGroups bs with
  | zero => omega
  | succ m ih =>
    cases n with
    | zero => omega
    | succ n =>
      cases openGroups with
      | nil => simp [skipGroups]
      | cons num outer =>
        simp only [skipGroups]
        cases htag : consumeTag maxInt32 bs with
        | none => rfl
        | some r =>
          obtain ⟨num', type, rest⟩ := r
          have hrest := (consumeTag_rest htag).2
          have hsame : ∀ gs, skipGroups m gs rest = skipGroups n gs rest := fun gs =>
            ih (by omega) (by omega)
          simp only [hsame]
          cases hskip : skipScalar type rest with
          | none => rfl
          | some rest' =>
            have hrest' := (skipScalar_suffix hskip).length_le
            simp only [ih (show rest'.length < m by omega) (show rest'.length < n by omega)]

theorem consumeFieldValue_group {n num : ℕ} {bs : List UInt8} (hn : bs.length < n) :
    consumeFieldValue num startGroupType bs = skipGroups n [num] bs := by
  rw [consumeFieldValue, if_pos rfl]
  exact skipGroups_congr (Nat.lt_succ_self _) hn

/-- What is skipped ends with the tag that ends the outermost group. -/
theorem exists_endGroup_of_skipGroups {n num : ℕ} {openGroups : List ℕ} {bs rest : List UInt8}
    (h : skipGroups n openGroups bs = some rest) (hnum : num ∈ openGroups.getLast?) :
    ∃ bs', bs' <:+ bs ∧ consumeTag maxInt32 bs' = some (num, endGroupType, rest) := by
  induction n generalizing openGroups bs with
  | zero =>
    cases openGroups with
    | nil => simp at hnum
    | cons inner outer => simp [skipGroups] at h
  | succ n ih =>
    cases openGroups with
    | nil => simp at hnum
    | cons inner outer =>
      simp only [skipGroups] at h
      cases htag : consumeTag maxInt32 bs with
      | none => simp [htag] at h
      | some r =>
        obtain ⟨num', type, rest'⟩ := r
        have hrest := (consumeTag_rest htag).1
        simp only [htag] at h
        split_ifs at h with hend heq
        · cases outer with
          | nil =>
            -- The outermost group ends here.
            have hn : inner = num := by simpa using hnum
            cases n <;> cases h <;> exact ⟨bs, List.suffix_rfl, by rw [htag, hend, heq, hn]⟩
          | cons next outer =>
            obtain ⟨bs', hbs', htag'⟩ := ih h (by simpa using hnum)
            exact ⟨bs', hbs'.trans hrest, htag'⟩
        · obtain ⟨bs', hbs', htag'⟩ := ih h (by simpa using hnum)
          exact ⟨bs', hbs'.trans hrest, htag'⟩
        · cases hskip : skipScalar type rest' with
          | none => simp [hskip] at h
          | some rest'' =>
            simp only [hskip] at h
            obtain ⟨bs', hbs', htag'⟩ := ih h hnum
            exact ⟨bs', hbs'.trans ((skipScalar_suffix hskip).trans hrest), htag'⟩

/-- A group that is skipped ends with its tag. -/
theorem exists_endGroup_of_consumeFieldValue {num : ℕ} {bs rest : List UInt8}
    (h : consumeFieldValue num startGroupType bs = some rest) :
    ∃ bs', bs' <:+ bs ∧ consumeTag maxInt32 bs' = some (num, endGroupType, rest) := by
  rw [consumeFieldValue_group (Nat.lt_succ_self _)] at h
  exact exists_endGroup_of_skipGroups h (by simp)

theorem skipGroups_suffix {n : ℕ} {openGroups : List ℕ} {bs rest : List UInt8}
    (h : skipGroups n openGroups bs = some rest) : rest <:+ bs := by
  cases openGroups with
  | nil =>
    cases n <;> cases h <;> exact List.suffix_rfl
  | cons num outer =>
    obtain ⟨bs', hbs', htag⟩ := exists_endGroup_of_skipGroups h
      (List.getLast_mem_getLast? (List.cons_ne_nil num outer))
    exact (consumeTag_rest htag).1.trans hbs'

/-- The value of a field is followed by a part of what the value began. -/
theorem consumeFieldValue_suffix {num type : ℕ} {bs rest : List UInt8}
    (h : consumeFieldValue num type bs = some rest) : rest <:+ bs := by
  rw [consumeFieldValue] at h
  split_ifs at h
  · exact skipGroups_suffix h
  · exact skipScalar_suffix h

/-! ## Messages -/

/-- What becomes of a field: it is not one of the message, or its value is malformed, or it is
decoded. In the last two cases the message has changed. -/
inductive Decoded (α : Type) where
  | unknown
  | failed (v : α)
  | done (v : α) (rest : List UInt8)

variable {α β : Type}

/-- What the decoding of a part of a message makes of the message. -/
def Decoded.map (f : α → β) : Decoded α → Decoded β
  | .unknown => .unknown
  | .failed v => .failed (f v)
  | .done v rest => .done (f v) rest

/-- A field that a message does not know. Its bytes are kept. -/
structure UnknownField where
  number : ℕ
  type : ℕ
  bytes : List UInt8
deriving DecidableEq, Repr

/-- A message with the fields it does not know. -/
structure Message (α : Type) where
  value : α
  unknownFields : List UnknownField := []
deriving DecidableEq, Repr

/-- The loop over the fields of a message: whether they all are well formed, and the message so far.
The first argument bounds the number of tags. -/
def unmarshalFields (field : ℕ → ℕ → List UInt8 → α → Decoded α) :
    ℕ → List UInt8 → Message α → Bool × Message α
  | 0, _, m => (false, m)
  | _ + 1, [], m => (true, m)
  | n + 1, b :: bs, m =>
    match consumeTag maxValidNumber (b :: bs) with
    | none => (false, m)
    | some (num, type, bs) =>
      if type = endGroupType then (false, m)
      else
        match field num type bs m.value with
        | .failed v => (false, { m with value := v })
        | .done v rest => unmarshalFields field n rest { m with value := v }
        | .unknown =>
          match consumeFieldValue num type bs with
          | none => (false, m)
          | some rest =>
            let skipped : UnknownField := ⟨num, type, bs.take (bs.length - rest.length)⟩
            unmarshalFields field n rest { m with unknownFields := m.unknownFields ++ [skipped] }

/-- `Unmarshal` of a message with the given fields into a value. -/
def unmarshal (field : ℕ → ℕ → List UInt8 → α → Decoded α) (bs : List UInt8) (v : α) :
    Bool × Message α :=
  unmarshalFields field (bs.length + 1) bs { value := v }

/-! ## Fields -/

/-- A field that is a number. -/
def number (ofNat : ℕ → α) (type : ℕ) (bs : List UInt8) (old : α) : Decoded α :=
  if type = varintType then
    match consumeVarint bs with
    | none => .failed old
    | some (n, rest) => .done (ofNat n) rest
  else .unknown

/-- A field that is made of bytes. -/
def ofBytes (decode : List UInt8 → α → Bool × α) (type : ℕ) (bs : List UInt8) (old : α) :
    Decoded α :=
  if type = bytesType then
    match consumeBytes bs with
    | none => .failed old
    | some (v, rest) =>
      match decode v old with
      | (false, new) => .failed new
      | (true, new) => .done new rest
  else .unknown

/-- A text, which is valid UTF-8. -/
def text : ℕ → List UInt8 → String → Decoded String :=
  ofBytes fun v old =>
    match String.fromUTF8? ⟨v.toArray⟩ with
    | none => (false, old)
    | some s => (true, s)

/-- A message in a field. The fields it does not know are not kept here. -/
def submessage (field : ℕ → ℕ → List UInt8 → α → Decoded α) : ℕ → List UInt8 → α → Decoded α :=
  ofBytes fun v old =>
    let (ok, m) := unmarshal field v old
    (ok, m.value)

/-- A message behind a pointer, which may be nil. -/
def pointer (field : ℕ → ℕ → List UInt8 → α → Decoded α) (empty : α) :
    ℕ → List UInt8 → Option α → Decoded (Option α) :=
  ofBytes fun v old =>
    let (ok, m) := unmarshal field v (old.getD empty)
    (ok, some m.value)

/-- A repeated field. -/
def repeated (value : ℕ → List UInt8 → α → Decoded α) (empty : α) (type : ℕ) (bs : List UInt8)
    (old : List α) : Decoded (List α) :=
  match value type bs empty with
  | .unknown => .unknown
  | .failed _ => .failed old
  | .done v rest => .done (old ++ [v]) rest

/-- An entry of a map is a message with a key and a value. -/
def entryField (value : ℕ → List UInt8 → α → Decoded α) (num type : ℕ) (bs : List UInt8)
    (entry : String × α) : Decoded (String × α) :=
  match num with
  | 1 => (text type bs entry.1).map fun k => (k, entry.2)
  | 2 => (value type bs entry.2).map fun v => (entry.1, v)
  | _ => .unknown

/-- An entry of a map. A malformed one is not added. -/
def mapEntry (insert : String → α → β → β) (value : ℕ → List UInt8 → α → Decoded α) (empty : α)
    (type : ℕ) (bs : List UInt8) (m : β) : Decoded β :=
  match submessage (entryField value) type bs ("", empty) with
  | .unknown => .unknown
  | .failed _ => .failed m
  | .done (k, v) rest => .done (insert k v m) rest

/-! ## The bound -/

/-- At most `n` bytes follow. -/
def Decoded.Within (d : Decoded α) (n : ℕ) : Prop := ∀ v rest, d = .done v rest → rest.length ≤ n

/-- What follows a decoded value is a part of the given bytes. -/
def Decoded.Leaves (d : Decoded α) (bs : List UInt8) : Prop :=
  ∀ v rest, d = .done v rest → rest <:+ bs

theorem Decoded.Leaves.within {d : Decoded α} {bs : List UInt8} (h : d.Leaves bs) :
    d.Within bs.length := by
  intro v rest heq
  exact (h v rest heq).length_le

theorem Decoded.Leaves.map {d : Decoded α} {bs : List UInt8} (h : d.Leaves bs) (f : α → β) :
    (d.map f).Leaves bs := by
  intro v rest heq
  cases d with
  | done w rest' =>
    cases heq
    exact h w rest rfl
  | _ => cases heq

theorem leaves_unknown (bs : List UInt8) : (Decoded.unknown : Decoded α).Leaves bs := by
  intro v rest h
  cases h

theorem leaves_number (ofNat : ℕ → α) (type : ℕ) (bs : List UInt8) (old : α) :
    (number ofNat type bs old).Leaves bs := by
  intro v rest h
  rw [number] at h
  split_ifs at h
  cases hn : consumeVarint bs with
  | none => simp [hn] at h
  | some r =>
    simp only [hn] at h
    cases h
    exact (consumeVarintIn_rest hn).1

theorem leaves_ofBytes (decode : List UInt8 → α → Bool × α) (type : ℕ) (bs : List UInt8) (old : α) :
    (ofBytes decode type bs old).Leaves bs := by
  intro v rest h
  rw [ofBytes] at h
  split_ifs at h
  cases hv : consumeBytes bs with
  | none => simp [hv] at h
  | some r =>
    simp only [hv] at h
    split at h
    · cases h
    · cases h
      exact consumeBytes_suffix hv

theorem leaves_text (type : ℕ) (bs : List UInt8) (old : String) :
    (text type bs old).Leaves bs := leaves_ofBytes _ type bs old

theorem leaves_pointer (field : ℕ → ℕ → List UInt8 → α → Decoded α) (empty : α) (type : ℕ)
    (bs : List UInt8) (old : Option α) : (pointer field empty type bs old).Leaves bs :=
  leaves_ofBytes _ type bs old

theorem leaves_repeated {value : ℕ → List UInt8 → α → Decoded α} {empty : α} {type : ℕ}
    {bs : List UInt8} (h : (value type bs empty).Leaves bs) (old : List α) :
    (repeated value empty type bs old).Leaves bs := by
  intro v rest heq
  rw [repeated] at heq
  cases hv : value type bs empty with
  | done w rest' =>
    simp only [hv] at heq
    cases heq
    exact h w rest hv
  | _ => simp [hv] at heq

theorem leaves_mapEntry (insert : String → α → β → β) (value : ℕ → List UInt8 → α → Decoded α)
    (empty : α) (type : ℕ) (bs : List UInt8) (m : β) :
    (mapEntry insert value empty type bs m).Leaves bs := by
  intro v rest heq
  rw [mapEntry] at heq
  cases hentry : submessage (entryField value) type bs ("", empty) with
  | done entry rest' =>
    simp only [hentry] at heq
    cases heq
    exact leaves_ofBytes _ type bs _ entry rest hentry
  | _ => simp [hentry] at heq

/-- **The bound does not matter** for a message either. -/
theorem unmarshalFields_congr {field : ℕ → ℕ → List UInt8 → α → Decoded α}
    (hfield : ∀ num type bs v, (field num type bs v).Within bs.length) {m n : ℕ} {bs : List UInt8}
    (hm : bs.length < m) (hn : bs.length < n) (msg : Message α) :
    unmarshalFields field m bs msg = unmarshalFields field n bs msg := by
  induction m generalizing n bs msg with
  | zero => omega
  | succ m ih =>
    cases n with
    | zero => omega
    | succ n =>
      cases bs with
      | nil => rfl
      | cons b bs =>
        simp only [unmarshalFields]
        cases htag : consumeTag maxValidNumber (b :: bs) with
        | none => rfl
        | some r =>
          obtain ⟨num, type, rest⟩ := r
          have hrest := (consumeTag_rest htag).2
          simp only
          split_ifs
          · rfl
          · cases hv : field num type rest msg.value with
            | failed v => rfl
            | done v rest' =>
              have hrest' := hfield num type rest msg.value v rest' hv
              exact ih (by omega) (by omega) _
            | unknown =>
              cases hskip : consumeFieldValue num type rest with
              | none => rfl
              | some rest' =>
                have hrest' := (consumeFieldValue_suffix hskip).length_le
                exact ih (by omega) (by omega) _

/-! ## Invariants -/

/-- The property holds of what a field makes of the message. -/
def Decoded.All (P : α → Prop) : Decoded α → Prop
  | .unknown => True
  | .failed v => P v
  | .done v _ => P v

theorem Decoded.all_map {P : β → Prop} {f : α → β} (h : ∀ v, P (f v)) (d : Decoded α) :
    (d.map f).All P := by
  cases d with
  | unknown => trivial
  | failed v => exact h v
  | done v rest => exact h v

/-- **Invariants of a message.** What every field keeps holds of the message in the end. The tags
of the fields are read from parts of the given bytes. -/
theorem unmarshalFields_invariant {field : ℕ → ℕ → List UInt8 → α → Decoded α}
    (hleaves : ∀ num type bs v, (field num type bs v).Leaves bs) {P : α → Prop}
    {bytes : List UInt8}
    (hfield : ∀ num type bs rest v, bs <:+ bytes →
      consumeTag maxValidNumber bs = some (num, type, rest) → P v → (field num type rest v).All P)
    {bs : List UInt8} (hbs : bs <:+ bytes) (n : ℕ) {m : Message α} (hm : P m.value) :
    P (unmarshalFields field n bs m).2.value := by
  induction n generalizing bs m with
  | zero => exact hm
  | succ n ih =>
    cases bs with
    | nil => exact hm
    | cons b bs =>
      rw [unmarshalFields]
      cases htag : consumeTag maxValidNumber (b :: bs) with
      | none => exact hm
      | some r =>
        obtain ⟨num, type, rest⟩ := r
        have hrest : rest <:+ bytes := (consumeTag_rest htag).1.trans hbs
        have hkept := hfield num type (b :: bs) rest m.value hbs htag hm
        simp only
        split_ifs
        · exact hm
        · cases hv : field num type rest m.value with
          | failed v =>
            rw [hv] at hkept
            exact hkept
          | done v rest' =>
            rw [hv] at hkept
            exact ih ((hleaves num type rest m.value v rest' hv).trans hrest) hkept
          | unknown =>
            cases hskip : consumeFieldValue num type rest with
            | none => exact hm
            | some rest' => exact ih ((consumeFieldValue_suffix hskip).trans hrest) hm

/-- A number from bytes that are not small is not small. -/
theorem le_of_consumeVarintIn {lo left v : ℕ} {bs rest : List UInt8}
    (hbs : ∀ b ∈ bs, lo ≤ b.toNat) (h : consumeVarintIn left bs = some (v, rest)) : lo ≤ v := by
  induction left generalizing v bs with
  | zero => simp [consumeVarintIn] at h
  | succ left ih =>
    cases bs with
    | nil => simp [consumeVarintIn] at h
    | cons b bs =>
      rw [consumeVarintIn] at h
      split_ifs at h
      · cases h
        exact hbs b List.mem_cons_self
      · obtain ⟨⟨w, rest'⟩, hw, heq⟩ := Option.map_eq_some_iff.1 h
        cases heq
        have hle := ih (fun b hb => hbs b (List.mem_cons_of_mem _ hb)) hw
        show lo ≤ b.toNat - 0x80 + 0x80 * w
        omega

/-- The tag is at least the least of its bytes, so the number of the field is an eighth of it. -/
theorem le_of_consumeTag {lo maxNumber num type : ℕ} {bs rest : List UInt8}
    (hbs : ∀ b ∈ bs, lo ≤ b.toNat) (h : consumeTag maxNumber bs = some (num, type, rest)) :
    lo / 8 ≤ num := by
  rw [consumeTag] at h
  cases hv : consumeVarint bs with
  | none => simp [hv] at h
  | some r =>
    obtain ⟨v, rest'⟩ := r
    simp only [hv] at h
    split_ifs at h
    cases h
    exact Nat.div_le_div_right (le_of_consumeVarintIn hbs hv)

/-! ## Fields that are not known -/

/-- Unknown fields stay in the message. -/
theorem unknownFields_prefix (field : ℕ → ℕ → List UInt8 → α → Decoded α) (n : ℕ)
    (bs : List UInt8) (m : Message α) :
    m.unknownFields <+: (unmarshalFields field n bs m).2.unknownFields := by
  induction n generalizing bs m with
  | zero => exact List.prefix_rfl
  | succ n ih =>
    cases bs with
    | nil => exact List.prefix_rfl
    | cons b bs =>
      rw [unmarshalFields]
      cases htag : consumeTag maxValidNumber (b :: bs) with
      | none => exact List.prefix_rfl
      | some r =>
        obtain ⟨num, type, rest⟩ := r
        simp only
        split_ifs
        · exact List.prefix_rfl
        · cases hfield : field num type rest m.value with
          | failed v => exact List.prefix_rfl
          | done v rest' => exact ih rest' { m with value := v }
          | unknown =>
            cases hskip : consumeFieldValue num type rest with
            | none => exact List.prefix_rfl
            | some rest' =>
              exact (List.prefix_append _ _).trans (ih rest' { m with unknownFields := _ })

variable {field : ℕ → ℕ → List UInt8 → α → Decoded α} {num type : ℕ} {b : UInt8}
  {bs rest : List UInt8} {v : α}

/-- A message that begins with an unknown field is rejected at once when the field does not end. -/
theorem unmarshal_of_skip_eq_none
    (htag : consumeTag maxValidNumber (b :: bs) = some (num, type, rest))
    (htype : type ≠ endGroupType) (hfield : field num type rest v = .unknown)
    (hskip : consumeFieldValue num type rest = none) :
    unmarshal field (b :: bs) v = (false, { value := v }) := by
  simp only [unmarshal, unmarshalFields, htag, if_neg htype, hfield, hskip]

/-- A message that begins with an unknown field keeps the field when it ends. -/
theorem unmarshal_of_skip_eq_some {rest' : List UInt8}
    (htag : consumeTag maxValidNumber (b :: bs) = some (num, type, rest))
    (htype : type ≠ endGroupType) (hfield : field num type rest v = .unknown)
    (hskip : consumeFieldValue num type rest = some rest') :
    (unmarshal field (b :: bs) v).2.unknownFields ≠ [] := by
  simp only [unmarshal, unmarshalFields, htag, if_neg htype, hfield, hskip, List.nil_append]
  intro hnil
  have hprefix := unknownFields_prefix field (bs.length + 1) rest'
    { value := v, unknownFields := [⟨num, type, rest.take (rest.length - rest'.length)⟩] }
  rw [List.length_cons] at hnil
  rw [hnil] at hprefix
  exact absurd (List.prefix_nil.1 hprefix) (List.cons_ne_nil _ _)

end Wire
