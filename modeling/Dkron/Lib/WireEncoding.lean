import Dkron.Lib.Wire

/-!
# Writing messages

How the Go package `proto` writes what `Wire` reads. A field with the empty value is left out, the
entries of a map come in any order, and each of them has its key and its value even when those are
empty.

`Reads field bs v v'` says that the bytes, wherever they stand in a message, take the value `v` to
the value `v'`. Such facts compose along the concatenation of bytes (`Reads.append`), so a message
that is written field by field is read back field by field (`Reads.unmarshal`).
-/

namespace Wire

/-! ## Numbers, tags and bytes -/

/-- A number in groups of seven bits, least ones first, with `left` bytes at most. -/
def appendVarintIn : (left : ℕ) → ℕ → List UInt8
  | 0, _ => []
  | left + 1, v =>
    if v < 0x80 then [UInt8.ofNat v]
    else UInt8.ofNat (v % 0x80 + 0x80) :: appendVarintIn left (v / 0x80)

/-- `AppendVarint`. -/
def appendVarint (v : ℕ) : List UInt8 := appendVarintIn 10 v

/-- `AppendTag`. -/
def appendTag (num type : ℕ) : List UInt8 := appendVarint (num * 8 + type)

/-- `AppendBytes`. -/
def appendBytes (v : List UInt8) : List UInt8 := appendVarint v.length ++ v

theorem toNat_ofNat_of_lt {n : ℕ} (h : n < 0x100) : (UInt8.ofNat n).toNat = n := by
  rw [UInt8.toNat_ofNat']
  exact Nat.mod_eq_of_lt h

/-- The last byte holds a bit less than the others when there are ten of them. -/
theorem consumeVarintIn_append {left v : ℕ} (hv : v < 2 * 0x80 ^ left) (rest : List UInt8) :
    consumeVarintIn (left + 1) (appendVarintIn (left + 1) v ++ rest) = some (v, rest) := by
  induction left generalizing v with
  | zero =>
    have hbyte : (UInt8.ofNat v).toNat = v := toNat_ofNat_of_lt (by omega)
    have hsmall : UInt8.ofNat v < 0x80 := UInt8.lt_iff_toNat_lt.2 (by rw [hbyte]; simp; omega)
    have hone : ¬1 < UInt8.ofNat v := fun h => by
      have hlt := UInt8.lt_iff_toNat_lt.1 h
      rw [hbyte] at hlt
      simp at hlt
      omega
    rw [appendVarintIn, if_pos (by omega), List.singleton_append, consumeVarintIn, if_pos hsmall,
      if_neg (fun h => hone h.2), hbyte]
  | succ left ih =>
    rw [appendVarintIn]
    split_ifs with h
    · have hbyte : (UInt8.ofNat v).toNat = v := toNat_ofNat_of_lt (by omega)
      have hsmall : UInt8.ofNat v < 0x80 := UInt8.lt_iff_toNat_lt.2 (by rw [hbyte]; simpa using h)
      rw [List.singleton_append, consumeVarintIn, if_pos hsmall, if_neg (by simp), hbyte]
    · have hbyte : (UInt8.ofNat (v % 0x80 + 0x80)).toNat = v % 0x80 + 0x80 :=
        toNat_ofNat_of_lt (by omega)
      have hlarge : ¬UInt8.ofNat (v % 0x80 + 0x80) < 0x80 := fun h => by
        have hlt := UInt8.lt_iff_toNat_lt.1 h
        rw [hbyte] at hlt
        exact absurd hlt (Nat.not_lt.2 (Nat.le_add_left _ _))
      have hnext : v / 0x80 < 2 * 0x80 ^ left := by
        rw [pow_succ] at hv
        omega
      rw [List.cons_append, consumeVarintIn, if_neg hlarge, ih hnext, Option.map_some, hbyte]
      congr 2
      omega

/-- Numbers of 64 bits are read back. -/
theorem consumeVarint_append {v : ℕ} (hv : v < 2 ^ 64) (rest : List UInt8) :
    consumeVarint (appendVarint v ++ rest) = some (v, rest) := by
  have hbound : 2 * 0x80 ^ 9 = 2 ^ 64 := rfl
  exact consumeVarintIn_append (hbound ▸ hv) rest

theorem appendTag_ne_nil (num type : ℕ) : appendTag num type ≠ [] := by
  rw [appendTag, appendVarint, appendVarintIn]
  split_ifs <;> simp

theorem consumeTag_append {num type : ℕ} (hnum : 0 < num ∧ num ≤ maxValidNumber) (htype : type < 8)
    (rest : List UInt8) :
    consumeTag maxValidNumber (appendTag num type ++ rest) = some (num, type, rest) := by
  have hmax : maxValidNumber = 536870911 := rfl
  have hdiv : (num * 8 + type) / 8 = num := by omega
  have hmod : (num * 8 + type) % 8 = type := by omega
  rw [consumeTag, appendTag, consumeVarint_append (by omega)]
  simp only [hdiv, hmod]
  rw [if_neg (by omega)]

theorem consumeBytes_append {v : List UInt8} (hv : v.length < 2 ^ 64) (rest : List UInt8) :
    consumeBytes (appendBytes v ++ rest) = some (v, rest) := by
  rw [consumeBytes, appendBytes, List.append_assoc, consumeVarint_append hv]
  simp [consumeCount]

/-! ## Messages -/

variable {α β : Type} {field : ℕ → ℕ → List UInt8 → α → Decoded α} {num : ℕ}

/-- The loop over the fields, with a bound that leaves room for all of them. -/
def loop (field : ℕ → ℕ → List UInt8 → α → Decoded α) (bs : List UInt8) (m : Message α) :
    Bool × Message α :=
  unmarshalFields field (bs.length + 1) bs m

/-- Reading the bytes takes the value `v` to the value `v'`, whatever follows them. -/
def Reads (field : ℕ → ℕ → List UInt8 → α → Decoded α) (bs : List UInt8) (v v' : α) : Prop :=
  bs.length < 2 ^ 64 →
    ∀ rest unknown, loop field (bs ++ rest) ⟨v, unknown⟩ = loop field rest ⟨v', unknown⟩

theorem Reads.nil (v : α) : Reads field [] v v := fun _ _ _ => rfl

theorem Reads.append {as bs : List UInt8} {v w x : α} (ha : Reads field as v w)
    (hb : Reads field bs w x) : Reads field (as ++ bs) v x := by
  intro hlength rest unknown
  rw [List.length_append] at hlength
  rw [List.append_assoc, ha (by omega), hb (by omega)]

/-- A message that is written field by field is read back. -/
theorem Reads.unmarshal {bs : List UInt8} {v v' : α} (h : Reads field bs v v')
    (hbs : bs.length < 2 ^ 64) : unmarshal field bs v = (true, { value := v' }) := by
  have hloop := h hbs [] []
  rw [List.append_nil] at hloop
  exact hloop

/-- A field whose value is read. -/
theorem reads_field (hleaves : ∀ num type bs v, (field num type bs v).Leaves bs) {type : ℕ}
    {value : List UInt8} {v v' : α} (hnum : 0 < num ∧ num ≤ maxValidNumber)
    (htype : type < 8 ∧ type ≠ endGroupType)
    (h : value.length < 2 ^ 64 → ∀ rest, field num type (value ++ rest) v = .done v' rest) :
    Reads field (appendTag num type ++ value) v v' := by
  intro hlength rest unknown
  rw [List.length_append] at hlength
  have htag := consumeTag_append hnum htype.1 (value ++ rest)
  rw [← List.append_assoc] at htag
  obtain ⟨b, bs, hbs⟩ : ∃ b bs, appendTag num type ++ value ++ rest = b :: bs := by
    rw [← List.ne_nil_iff_exists_cons, List.append_assoc]
    exact List.append_ne_nil_of_left_ne_nil (appendTag_ne_nil num type) _
  have hless := (consumeTag_rest htag).2
  rw [hbs] at htag hless
  have hrest : rest.length < (b :: bs).length := by
    rw [List.length_append] at hless
    omega
  rw [hbs, loop, unmarshalFields]
  simp only [htag, if_neg htype.2, h (by omega) rest]
  exact unmarshalFields_congr (fun num type bs v => (hleaves num type bs v).within) hrest
    (Nat.lt_succ_self _) _

/-! ## Fields -/

/-- A field that is a number, left out when it is zero. -/
def appendNumber (num n : ℕ) : List UInt8 :=
  if n = 0 then [] else appendTag num varintType ++ appendVarint n

/-- A field made of bytes, left out when there are none. -/
def appendNonempty (num : ℕ) (v : List UInt8) : List UInt8 :=
  if v = [] then [] else appendTag num bytesType ++ appendBytes v

/-- The bytes of a text. -/
def textBytes (s : String) : List UInt8 := s.toByteArray.data.toList

/-- A field that is a text, left out when it is empty. -/
def appendString (num : ℕ) (s : String) : List UInt8 :=
  if s = "" then [] else appendTag num bytesType ++ appendBytes (textBytes s)

/-- A field that is a message behind a pointer, left out when the pointer is nil. -/
def appendMessage (num : ℕ) : Option (List UInt8) → List UInt8
  | none => []
  | some v => appendTag num bytesType ++ appendBytes v

/-- A repeated field of texts. -/
def appendStrings (num : ℕ) (ss : List String) : List UInt8 :=
  ss.flatMap fun s => appendTag num bytesType ++ appendBytes (textBytes s)

/-- An entry of a map: its key and its value. -/
def entryBytes (key : String) (value : List UInt8) : List UInt8 :=
  appendTag 1 bytesType ++ appendBytes (textBytes key) ++
    (appendTag 2 bytesType ++ appendBytes value)

/-- A field that is a map. The bytes of its values are given. -/
def appendMap (num : ℕ) (m : List (String × List UInt8)) : List UInt8 :=
  m.flatMap fun r => appendTag num bytesType ++ appendBytes (entryBytes r.1 r.2)

theorem ofBytes_append {decode : List UInt8 → α → Bool × α} {v : List UInt8} {old new : α}
    (hdecode : decode v old = (true, new)) (hv : v.length < 2 ^ 64) (rest : List UInt8) :
    ofBytes decode bytesType (appendBytes v ++ rest) old = .done new rest := by
  rw [ofBytes, if_pos rfl, consumeBytes_append hv]
  simp only [hdecode]

theorem fromUTF8?_textBytes (s : String) : String.fromUTF8? ⟨(textBytes s).toArray⟩ = some s := by
  simp [textBytes, String.fromUTF8?, s.isValidUTF8, String.fromUTF8]

/-- A text is read back. -/
theorem text_append {s : String} (hs : (textBytes s).length < 2 ^ 64) (rest : List UInt8)
    (old : String) : text bytesType (appendBytes (textBytes s) ++ rest) old = .done s rest :=
  ofBytes_append (by simp only [fromUTF8?_textBytes]) hs rest

theorem submessage_append {v : List UInt8} {old new : α} (h : Reads field v old new)
    (hv : v.length < 2 ^ 64) (rest : List UInt8) :
    submessage field bytesType (appendBytes v ++ rest) old = .done new rest :=
  ofBytes_append (by simp only [h.unmarshal hv]) hv rest

theorem number_append (ofNat : ℕ → α) {n : ℕ} (hn : n < 2 ^ 64) (rest : List UInt8) (old : α) :
    number ofNat varintType (appendVarint n ++ rest) old = .done (ofNat n) rest := by
  rw [number, if_pos rfl, consumeVarint_append hn]

theorem length_le_appendBytes (v : List UInt8) : v.length ≤ (appendBytes v).length := by
  rw [appendBytes, List.length_append]
  omega

/-- A member of a message with the value `v`: `read` reads the field with the number `num` from
the value `old` that the member has, and `set` puts a value in its place. -/
structure Slot (field : ℕ → ℕ → List UInt8 → α → Decoded α) (num : ℕ) (v : α)
    (read : ℕ → List UInt8 → β → Decoded β) (old : β) (set : β → α) : Prop where
  leaves : ∀ num type bs v, (field num type bs v).Leaves bs
  number : 0 < num ∧ num ≤ maxValidNumber
  reads : ∀ type bs, field num type bs v = (read type bs old).map set
  same : set old = v

variable {v w : α} {set : β → α}

theorem reads_number {ofNat : ℕ → β} {n : ℕ} (h : Slot field num v (number ofNat) (ofNat 0) set)
    (hn : n < 2 ^ 64) (hw : set (ofNat n) = w) : Reads field (appendNumber num n) v w := by
  rw [appendNumber]
  split_ifs with hzero
  · rw [← hw, hzero, h.same]
    exact Reads.nil v
  · refine reads_field h.leaves h.number (by decide) fun _ rest => ?_
    rw [h.reads, number_append ofNat hn, ← hw]
    rfl

/-- A value made of bytes that the field decodes. -/
theorem reads_bytes {decode : List UInt8 → β → Bool × β} {old new : β} {bs : List UInt8}
    (h : Slot field num v (ofBytes decode) old set)
    (hdecode : bs.length < 2 ^ 64 → decode bs old = (true, new)) (hw : set new = w) :
    Reads field (appendTag num bytesType ++ appendBytes bs) v w := by
  refine reads_field h.leaves h.number (by decide) fun hlength rest => ?_
  have hbs : bs.length < 2 ^ 64 := (length_le_appendBytes bs).trans_lt hlength
  rw [h.reads, ofBytes_append (hdecode hbs) hbs, ← hw]
  rfl

theorem reads_nonempty {decode : List UInt8 → List UInt8 → Bool × List UInt8}
    {set : List UInt8 → α} {bs : List UInt8} (h : Slot field num v (ofBytes decode) [] set)
    (hdecode : decode bs [] = (true, bs)) (hw : set bs = w) :
    Reads field (appendNonempty num bs) v w := by
  rw [appendNonempty]
  split_ifs with hempty
  · rw [← hw, hempty, h.same]
    exact Reads.nil v
  · exact reads_bytes h (fun _ => hdecode) hw

theorem reads_string {set : String → α} {s : String} (h : Slot field num v text "" set)
    (hw : set s = w) : Reads field (appendString num s) v w := by
  rw [appendString]
  split_ifs with hempty
  · rw [← hw, hempty, h.same]
    exact Reads.nil v
  · exact reads_bytes h (fun _ => by simp only [fromUTF8?_textBytes]) hw

/-- A message behind a pointer is read when its own bytes are. -/
theorem reads_message {inner : ℕ → ℕ → List UInt8 → β → Decoded β} {empty : β}
    {set : Option β → α} {m : Option β} {encode : β → List UInt8}
    (h : Slot field num v (pointer inner empty) none set)
    (hm : ∀ x ∈ m, Reads inner (encode x) empty x) (hw : set m = w) :
    Reads field (appendMessage num (m.map encode)) v w := by
  cases m with
  | none =>
    rw [← hw, h.same]
    exact Reads.nil v
  | some x =>
    refine reads_bytes h (fun hlength => ?_) hw
    simp only [Option.getD_none, (hm x rfl).unmarshal hlength]

theorem reads_appendStrings {set : List String → α}
    (h : ∀ done, Slot field num (set done) (repeated text "") done set) (ss done : List String) :
    Reads field (appendStrings num ss) (set done) (set (done ++ ss)) := by
  induction ss generalizing done with
  | nil =>
    rw [List.append_nil]
    exact Reads.nil _
  | cons s ss ih =>
    have hfirst : Reads field (appendTag num bytesType ++ appendBytes (textBytes s)) (set done)
        (set (done ++ [s])) := by
      refine reads_field (h done).leaves (h done).number (by decide) fun hlength rest => ?_
      have hs := (length_le_appendBytes (textBytes s)).trans_lt hlength
      rw [(h done).reads, repeated, text_append hs]
      rfl
    have hrest := ih (done ++ [s])
    rw [List.append_assoc, List.singleton_append] at hrest
    exact hfirst.append hrest

/-- A repeated field of texts is read in the order in which it is written. -/
theorem reads_strings (set : List String → α) {ss : List String}
    (h : ∀ done, Slot field num (set done) (repeated text "") done set) (hv : set [] = v)
    (hw : set ss = w) : Reads field (appendStrings num ss) v w := by
  rw [← hv, ← hw]
  exact reads_appendStrings h ss []

/-! ## Maps -/

theorem leaves_entryField {value : ℕ → List UInt8 → β → Decoded β}
    (hvalue : ∀ type bs v, (value type bs v).Leaves bs) (num type : ℕ) (bs : List UInt8)
    (entry : String × β) : (entryField value num type bs entry).Leaves bs := by
  unfold entryField
  split
  · exact (leaves_text type bs _).map _
  · exact (hvalue type bs _).map _
  · exact leaves_unknown bs

/-- An entry is read when its value is. -/
theorem reads_entry {decode : List UInt8 → β → Bool × β} {empty w : β} {bs : List UInt8}
    (hdecode : bs.length < 2 ^ 64 → decode bs empty = (true, w)) (key : String) :
    Reads (entryField (ofBytes decode)) (entryBytes key bs) ("", empty) (key, w) := by
  have hleaves := leaves_entryField fun type bs v => leaves_ofBytes decode type bs v
  have hkey : Slot (entryField (ofBytes decode)) 1 ("", empty) text "" fun k => (k, empty) :=
    ⟨hleaves, by decide, fun _ _ => rfl, rfl⟩
  have hvalue : Slot (entryField (ofBytes decode)) 2 (key, empty) (ofBytes decode) empty
      fun v => (key, v) := ⟨hleaves, by decide, fun _ _ => rfl, rfl⟩
  exact (reads_bytes hkey (fun _ => by simp only [fromUTF8?_textBytes]) rfl).append
    (reads_bytes hvalue hdecode rfl)

/-- **A map is read** entry by entry, in the order in which its entries are written. -/
theorem reads_map {γ δ : Type} {insert : String → β → δ → δ} {decode : List UInt8 → β → Bool × β}
    {empty : β} {set : δ → α} (encode : γ → List UInt8) (value : γ → β)
    (h : ∀ done, Slot field num (set done) (mapEntry insert (ofBytes decode) empty) done set)
    {m : List (String × γ)} (done : δ)
    (hm : ∀ r ∈ m, (encode r.2).length < 2 ^ 64 → decode (encode r.2) empty = (true, value r.2)) :
    Reads field (appendMap num (m.map fun r => (r.1, encode r.2))) (set done)
      (set (m.foldl (fun m r => insert r.1 (value r.2) m) done)) := by
  induction m generalizing done with
  | nil => exact Reads.nil _
  | cons r m ih =>
    have hfirst : Reads field
        (appendTag num bytesType ++ appendBytes (entryBytes r.1 (encode r.2))) (set done)
        (set (insert r.1 (value r.2) done)) := by
      refine reads_field (h done).leaves (h done).number (by decide) fun hlength rest => ?_
      have hentry := (length_le_appendBytes (entryBytes r.1 (encode r.2))).trans_lt hlength
      rw [(h done).reads, mapEntry,
        submessage_append (reads_entry (hm r List.mem_cons_self) r.1) hentry]
      rfl
    exact hfirst.append (ih _ fun q hq => hm q (List.mem_cons_of_mem r hq))

end Wire
