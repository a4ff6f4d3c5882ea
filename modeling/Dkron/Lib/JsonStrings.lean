import Dkron.Lib.Record

/-!
# The characters of a text

A text is made of the strings of its value and of characters that JSON writes itself. A character
that JSON does not write, such as a bar, stands in a text only when one of the strings has it
(`mem_render`). For records this is a fact about each field (`Codec.lacks_struct`).
-/

namespace Json

mutual

/-- The strings of a value, the keys of its objects among them. -/
def strings : Json → List String
  | .str s => [s]
  | .arr items => stringsItems items
  | .obj members => stringsMembers members
  | _ => []

def stringsItems : JsonItems → List String
  | .nil => []
  | .cons v items => strings v ++ stringsItems items

def stringsMembers : JsonMembers → List String
  | .nil => []
  | .cons k v members => k :: strings v ++ stringsMembers members

end

/-- JSON writes the character itself: in brackets, separators, numbers, words or escapes. -/
def Own (c : Char) : Prop := c.isDigit ∨ c ∈ "{}[]:,\"\\-abcdeflnrstu".toList

instance (c : Char) : Decidable (Own c) := inferInstanceAs (Decidable (_ ∨ _))

variable {c : Char}

theorem own_digitChar {n : ℕ} (h : n < 16) : Own n.digitChar := by
  revert n
  decide

theorem own_hexEscape (n : ℕ) : ∀ d ∈ hexEscape n, Own d := by
  have hdigit (m : ℕ) : Own (m % 16).digitChar := own_digitChar (Nat.mod_lt m (by omega))
  simp only [hexEscape, List.forall_mem_cons]
  exact ⟨by decide, by decide, hdigit _, hdigit _, hdigit _, hdigit _, by simp⟩

theorem own_shortEscape {d e : Char} (h : shortEscape d = some e) : Own e := by
  unfold shortEscape at h
  split_ifs at h <;> cases h <;> decide

/-- A character is written as itself or with characters of JSON. -/
theorem mem_escapeChar {d : Char} (hc : ¬Own c) (h : c ∈ escapeChar d) : c = d := by
  unfold escapeChar at h
  cases hshort : shortEscape d with
  | some e =>
    simp only [hshort, List.mem_cons, List.not_mem_nil, or_false] at h
    rcases h with rfl | rfl
    · exact absurd (by decide) hc
    · exact absurd (own_shortEscape hshort) hc
  | none =>
    simp only [hshort] at h
    split_ifs at h
    · exact absurd (own_hexEscape _ c h) hc
    · exact List.mem_singleton.1 h

theorem mem_renderString {s : String} (hc : ¬Own c) (h : c ∈ renderString s) : c ∈ s.toList := by
  simp only [renderString, List.mem_cons, List.mem_append, List.mem_flatMap, List.not_mem_nil,
    or_false] at h
  rcases h with rfl | ⟨d, hd, h⟩ | rfl
  · exact absurd (by decide) hc
  · exact mem_escapeChar hc h ▸ hd
  · exact absurd (by decide) hc

theorem own_renderInt (n : Int) : ∀ d ∈ renderInt n, Own d := by
  have hrepr (n : ℕ) : ∀ d ∈ (Nat.repr n).toList, Own d := fun d hd =>
    .inl (Decimal.isDigit_of_mem_repr hd)
  cases n with
  | ofNat n => exact hrepr n
  | negSucc n => exact List.forall_mem_cons.2 ⟨by decide, hrepr (n + 1)⟩

/-- One of the strings has the character. -/
def Has (c : Char) (ss : List String) : Prop := ∃ s ∈ ss, c ∈ s.toList

theorem Has.cons {ss : List String} (h : Has c ss) (s : String) : Has c (s :: ss) := by
  obtain ⟨t, ht, hc⟩ := h
  exact ⟨t, List.mem_cons_of_mem s ht, hc⟩

theorem Has.append_left {ss ts : List String} (h : Has c ss) : Has c (ss ++ ts) := by
  obtain ⟨s, hs, hc⟩ := h
  exact ⟨s, List.mem_append_left ts hs, hc⟩

theorem Has.append_right {ss ts : List String} (h : Has c ts) : Has c (ss ++ ts) := by
  obtain ⟨s, hs, hc⟩ := h
  exact ⟨s, List.mem_append_right ss hs, hc⟩

/-- A character that JSON does not write stands in what remains. -/
theorem mem_of_mem_own_cons {d : Char} {cs : List Char} (hc : ¬Own c) (hd : Own d)
    (h : c ∈ d :: cs) : c ∈ cs := by
  rcases List.mem_cons.1 h with rfl | h
  · exact absurd hd hc
  · exact h

theorem not_mem_own {ds : List Char} (hc : ¬Own c) (hds : ds.all (Own ·)) : c ∉ ds :=
  fun h => hc (of_decide_eq_true (List.all_eq_true.1 hds c h))

mutual

/-- **The characters of a text.** A character that JSON does not write comes from a string. -/
theorem mem_render (hc : ¬Own c) : ∀ v : Json, c ∈ render v → Has c (strings v)
  | null, h => absurd h (not_mem_own hc (by decide))
  | bool true, h => absurd h (not_mem_own hc (by decide))
  | bool false, h => absurd h (not_mem_own hc (by decide))
  | num n, h => absurd (own_renderInt n c h) hc
  | str s, h => ⟨s, List.mem_singleton_self s, mem_renderString hc h⟩
  | arr items, h => mem_renderItems hc items (mem_of_mem_own_cons hc (by decide) h)
  | obj members, h => mem_renderMembers hc members (mem_of_mem_own_cons hc (by decide) h)

theorem mem_renderItems (hc : ¬Own c) :
    ∀ items : JsonItems, c ∈ renderItems items → Has c (stringsItems items)
  | .nil, h => absurd h (not_mem_own hc (by decide))
  | .cons v .nil, h => by
    rw [renderItems] at h
    rcases List.mem_append.1 h with h | h
    · exact (mem_render hc v h).append_left
    · exact absurd h (not_mem_own hc (by decide))
  | .cons v (.cons w items), h => by
    rw [renderItems] at h
    rcases List.mem_append.1 h with h | h
    · exact (mem_render hc v h).append_left
    · exact (mem_renderItems hc (.cons w items)
        (mem_of_mem_own_cons hc (by decide) h)).append_right

theorem mem_renderMembers (hc : ¬Own c) :
    ∀ members : JsonMembers, c ∈ renderMembers members → Has c (stringsMembers members)
  | .nil, h => absurd h (not_mem_own hc (by decide))
  | .cons k v .nil, h => by
    rw [renderMembers, List.append_assoc, List.mem_append] at h
    rcases h with h | h
    · exact ⟨k, List.mem_cons_self, mem_renderString hc h⟩
    · rcases List.mem_append.1 (mem_of_mem_own_cons (d := ':') hc (by decide) h) with h | h
      · exact ((mem_render hc v h).cons k).append_left
      · exact absurd h (not_mem_own hc (by decide))
  | .cons k v (.cons k' v' members), h => by
    rw [renderMembers, List.append_assoc, List.mem_append] at h
    rcases h with h | h
    · exact ⟨k, List.mem_cons_self, mem_renderString hc h⟩
    · rcases List.mem_append.1 (mem_of_mem_own_cons (d := ':') hc (by decide) h) with h | h
      · exact ((mem_render hc v h).cons k).append_left
      · exact (mem_renderMembers hc (.cons k' v' members)
          (mem_of_mem_own_cons hc (by decide) h)).append_right

end

/-! ## Records -/

theorem has_ofMembers {ms : List (String × Json)} (h : Has c (stringsMembers (ofMembers ms))) :
    ∃ m ∈ ms, c ∈ m.1.toList ∨ Has c (strings m.2) := by
  induction ms with
  | nil =>
    obtain ⟨s, hs, -⟩ := h
    cases hs
  | cons m ms ih =>
    obtain ⟨s, hs, hc⟩ := h
    rcases List.mem_append.1 hs with hs | hs
    · refine ⟨m, List.mem_cons_self, ?_⟩
      rcases List.mem_cons.1 hs with rfl | hs
      · exact .inl hc
      · exact .inr ⟨s, hs, hc⟩
    · obtain ⟨m', hm', h⟩ := ih ⟨s, hs, hc⟩
      exact ⟨m', List.mem_cons_of_mem m hm', h⟩

theorem has_ofItems {vs : List Json} (h : Has c (stringsItems (ofItems vs))) :
    ∃ v ∈ vs, Has c (strings v) := by
  induction vs with
  | nil =>
    obtain ⟨s, hs, -⟩ := h
    cases hs
  | cons v vs ih =>
    obtain ⟨s, hs, hc⟩ := h
    rcases List.mem_append.1 hs with hs | hs
    · exact ⟨v, List.mem_cons_self, s, hs, hc⟩
    · obtain ⟨v', hv', h⟩ := ih ⟨s, hs, hc⟩
      exact ⟨v', List.mem_cons_of_mem v hv', h⟩

namespace Codec

variable {α : Type}

/-- What the value is written as has no string with the character. -/
def Lacks (c : Char) (codec : Codec α) (v : α) : Prop := ¬Has c (strings (codec.write v))

/-- The field of a struct has the character neither in its name nor in its value. -/
def FieldLacks (c : Char) (f : String × Option Json) : Prop :=
  c ∉ f.1.toList ∧ ∀ v ∈ f.2, ¬Has c (strings v)

theorem lacks_string {s : String} (h : c ∉ s.toList) : string.Lacks c s := by
  intro ⟨t, ht, hc⟩
  cases List.mem_singleton.1 ht
  exact h hc

theorem not_has_nil : ¬Has c [] := by
  intro ⟨s, hs, _⟩
  cases hs

theorem lacks_boolean (b : Bool) : boolean.Lacks c b := not_has_nil

theorem lacks_integer {lo hi : Int} {toInt : α → Int} {ofInt : Int → α} (n : α) :
    (integer lo hi toInt ofInt).Lacks c n := not_has_nil

theorem lacks_slice {codec : Codec α} {vs : List α} (h : ∀ v ∈ vs, codec.Lacks c v) :
    (slice codec).Lacks c vs := by
  intro hhas
  obtain ⟨j, hj, hc⟩ := has_ofItems hhas
  obtain ⟨v, hv, rfl⟩ := List.mem_map.1 hj
  exact h v hv hc

theorem lacks_pointer {codec : Codec α} {o : Option α} (h : ∀ v ∈ o, codec.Lacks c v) :
    (pointer codec).Lacks c o := by
  cases o with
  | none => exact not_has_nil
  | some v => exact h v rfl

theorem lacks_map {codec : Codec α} {m : List (String × α)}
    (h : ∀ r ∈ m, c ∉ r.1.toList ∧ codec.Lacks c r.2) : (map codec).Lacks c m := by
  intro hhas
  obtain ⟨j, hj, hc⟩ := has_ofMembers hhas
  obtain ⟨r, hr, rfl⟩ := List.mem_map.1 hj
  exact hc.elim (h r hr).1 (h r hr).2

theorem fieldLacks_field [DecidableEq α] {key : String} {codec : Codec α} {v : α}
    (hkey : c ∉ key.toList) (h : codec.Lacks c v) : FieldLacks c (field key codec v) := by
  refine ⟨hkey, fun j hj => ?_⟩
  simp only [field] at hj
  split_ifs at hj
  · cases hj
  · cases hj
    exact h

/-- The text of an object with fields that have no such character. -/
theorem not_has_present {fields : List (String × Option Json)}
    (h : ∀ f ∈ fields, FieldLacks c f) : ¬Has c (strings (.obj (ofMembers (present fields)))) := by
  intro hhas
  obtain ⟨m, hm, hc⟩ := has_ofMembers hhas
  obtain ⟨f, hf, hmap⟩ := List.mem_filterMap.1 hm
  obtain ⟨v, hv, rfl⟩ := Option.map_eq_some_iff.1 hmap
  exact hc.elim (h f hf).1 ((h f hf).2 v hv)

/-- A struct has the character only if one of its fields has it. -/
theorem lacks_struct {empty : α} {fields : α → List (String × Option Json)}
    {readFields : List (String × Json) → α → Option α} {v : α}
    (h : ∀ f ∈ fields v, FieldLacks c f) : (struct empty fields readFields).Lacks c v :=
  not_has_present h

end Codec

end Json
