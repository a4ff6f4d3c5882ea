import Mathlib.Data.List.TakeDrop
import Dkron.Lib.Decimal

/-!
# JSON

Values and their compact text, as Go's `encoding/json` writes it: no white space, integers only, and
the characters `<`, `>`, `&` and the two line separators written as escapes like the control
characters. The parser reads this form. A value that is written and read again is the same value,
whatever its strings hold (`parse_render`).
-/

mutual

/-- A JSON value. -/
inductive Json where
  | null
  | bool (b : Bool)
  | num (n : Int)
  | str (s : String)
  | arr (items : JsonItems)
  | obj (members : JsonMembers)

/-- The items of an array. -/
inductive JsonItems where
  | nil
  | cons (head : Json) (tail : JsonItems)

/-- The members of an object. -/
inductive JsonMembers where
  | nil
  | cons (key : String) (value : Json) (tail : JsonMembers)

end

namespace Json

/-! ## Text -/

/-- `\u` and the four hexadecimal digits of a number. -/
def hexEscape (n : ℕ) : List Char :=
  ['\\', 'u', (n / 4096 % 16).digitChar, (n / 256 % 16).digitChar, (n / 16 % 16).digitChar,
    (n % 16).digitChar]

/-- The letter of the short escape of a character, if it has one. -/
def shortEscape (c : Char) : Option Char :=
  if c = '"' then some '"'
  else if c = '\\' then some '\\'
  else if c = Char.ofNat 8 then some 'b'
  else if c = Char.ofNat 12 then some 'f'
  else if c = '\n' then some 'n'
  else if c = '\r' then some 'r'
  else if c = '\t' then some 't'
  else none

/-- The character is written as a hexadecimal escape. -/
def NeedsHex (c : Char) : Prop :=
  c.toNat < 0x20 ∨ c = '<' ∨ c = '>' ∨ c = '&' ∨ c.toNat = 0x2028 ∨ c.toNat = 0x2029

instance (c : Char) : Decidable (NeedsHex c) := by unfold NeedsHex; infer_instance

/-- A character of a string. -/
def escapeChar (c : Char) : List Char :=
  match shortEscape c with
  | some e => ['\\', e]
  | none => if NeedsHex c then hexEscape c.toNat else [c]

/-- A string between quotes. -/
def renderString (s : String) : List Char := '"' :: (s.toList.flatMap escapeChar ++ ['"'])

/-- The decimal digits of an integer. -/
def renderInt : Int → List Char
  | .ofNat n => (Nat.repr n).toList
  | .negSucc n => '-' :: (Nat.repr (n + 1)).toList

mutual

/-- The text of a value. -/
def render : Json → List Char
  | null => ['n', 'u', 'l', 'l']
  | bool true => ['t', 'r', 'u', 'e']
  | bool false => ['f', 'a', 'l', 's', 'e']
  | num n => renderInt n
  | str s => renderString s
  | arr items => '[' :: renderItems items
  | obj members => '{' :: renderMembers members

/-- Items with the bracket that ends the array. -/
def renderItems : JsonItems → List Char
  | .nil => [']']
  | .cons v .nil => render v ++ [']']
  | .cons v (.cons w ws) => render v ++ ',' :: renderItems (.cons w ws)

/-- Members with the brace that ends the object. -/
def renderMembers : JsonMembers → List Char
  | .nil => ['}']
  | .cons k v .nil => renderString k ++ ':' :: render v ++ ['}']
  | .cons k v (.cons k' v' ms) =>
    renderString k ++ ':' :: render v ++ ',' :: renderMembers (.cons k' v' ms)

end

/-! ## Parsing -/

/-- The value of a hexadecimal digit. -/
def hexValue (c : Char) : Option ℕ :=
  if '0' ≤ c ∧ c ≤ '9' then some (c.toNat - '0'.toNat)
  else if 'a' ≤ c ∧ c ≤ 'f' then some (c.toNat - 'a'.toNat + 10)
  else if 'A' ≤ c ∧ c ≤ 'F' then some (c.toNat - 'A'.toNat + 10)
  else none

/-- The character of a short escape. -/
def unescapeShort (e : Char) : Option Char :=
  if e = '"' ∨ e = '\\' ∨ e = '/' then some e
  else if e = 'b' then some (Char.ofNat 8)
  else if e = 'f' then some (Char.ofNat 12)
  else if e = 'n' then some '\n'
  else if e = 'r' then some '\r'
  else if e = 't' then some '\t'
  else none

/-- Where the parser stands in a string: between characters, after a backslash, or in a hexadecimal
escape with the number of digits left after the next one and the value so far. -/
inductive Place where
  | plain
  | slash
  | hex (left value : ℕ)

/-- A character in front of the rest of a string. -/
def consChar (c : Char) (r : Option (List Char × List Char)) : Option (List Char × List Char) :=
  r.map fun r => (c :: r.1, r.2)

/-- The rest of a string: its characters, and what follows the closing quote. -/
def parseString : Place → List Char → Option (List Char × List Char)
  | _, [] => none
  | .plain, c :: rest =>
    if c = '"' then some ([], rest)
    else if c = '\\' then parseString .slash rest
    else consChar c (parseString .plain rest)
  | .slash, c :: rest =>
    if c = 'u' then parseString (.hex 3 0) rest
    else
      match unescapeShort c with
      | none => none
      | some d => consChar d (parseString .plain rest)
  | .hex left value, c :: rest =>
    match hexValue c with
    | none => none
    | some d =>
      if left = 0 then consChar (Char.ofNat (value * 16 + d)) (parseString .plain rest)
      else parseString (.hex (left - 1) (value * 16 + d)) rest

/-- Decimal digits, and what follows them. -/
def parseNat (cs : List Char) : Option (ℕ × List Char) :=
  let (digits, rest) := cs.span Char.isDigit
  if digits = [] then none else some (Nat.ofDigitChars 10 digits 0, rest)

/-- An integer, and what follows it. -/
def parseInt : List Char → Option (Int × List Char)
  | [] => none
  | c :: rest =>
    if c = '-' then (parseNat rest).map fun r => (-r.1, r.2)
    else (parseNat (c :: rest)).map fun r => (r.1, r.2)

/-- The text after a word it begins with. -/
def parseWord (word : String) (cs : List Char) : Option (List Char) :=
  if word.toList <+: cs then some (cs.drop word.length) else none

mutual

/-- A value, and what follows it. The first argument bounds the depth of the recursion. -/
def parseValue : ℕ → List Char → Option (Json × List Char)
  | 0, _ => none
  | _ + 1, [] => none
  | n + 1, c :: rest =>
    if c = '"' then (parseString .plain rest).map fun r => (str (String.ofList r.1), r.2)
    else if c = '{' then
      if rest.head? = some '}' then some (obj .nil, rest.tail)
      else (parseMembers n rest).map fun r => (obj r.1, r.2)
    else if c = '[' then
      if rest.head? = some ']' then some (arr .nil, rest.tail)
      else (parseItems n rest).map fun r => (arr r.1, r.2)
    else if c = 'n' then (parseWord "null" (c :: rest)).map fun rest => (null, rest)
    else if c = 't' then (parseWord "true" (c :: rest)).map fun rest => (bool true, rest)
    else if c = 'f' then (parseWord "false" (c :: rest)).map fun rest => (bool false, rest)
    else (parseInt (c :: rest)).map fun r => (num r.1, r.2)

/-- The items of an array that has some, and what follows the array. -/
def parseItems : ℕ → List Char → Option (JsonItems × List Char)
  | 0, _ => none
  | n + 1, cs =>
    match parseValue n cs with
    | none => none
    | some (v, rest) =>
      match rest with
      | [] => none
      | c :: rest =>
        if c = ']' then some (.cons v .nil, rest)
        else if c = ',' then (parseItems n rest).map fun r => (.cons v r.1, r.2)
        else none

/-- The members of an object that has some, and what follows the object. -/
def parseMembers : ℕ → List Char → Option (JsonMembers × List Char)
  | 0, _ => none
  | _ + 1, [] => none
  | n + 1, q :: cs =>
    if q ≠ '"' then none
    else
      match parseString .plain cs with
      | none => none
      | some (_, []) => none
      | some (k, colon :: cs) =>
        if colon ≠ ':' then none
        else
          match parseValue n cs with
          | none => none
          | some (_, []) => none
          | some (v, c :: rest) =>
            if c = '}' then some (.cons (String.ofList k) v .nil, rest)
            else if c = ',' then
              (parseMembers n rest).map fun r => (.cons (String.ofList k) v r.1, r.2)
            else none

end

/-- The value with the given text. -/
def parse (cs : List Char) : Option Json :=
  match parseValue cs.length cs with
  | some (v, []) => some v
  | _ => none

/-! ## Strings -/

theorem unescapeShort_of_shortEscape {c e : Char} (h : shortEscape c = some e) :
    e ≠ 'u' ∧ unescapeShort e = some c := by
  unfold shortEscape at h
  split_ifs at h with h1 h2 h3 h4 h5 h6 h7 <;> cases h <;> subst_vars <;> decide

theorem ne_of_shortEscape_eq_none {c : Char} (h : shortEscape c = none) : c ≠ '"' ∧ c ≠ '\\' := by
  constructor <;> rintro rfl <;> exact absurd h (by decide)

theorem hexValue_digitChar {n : ℕ} (h : n < 16) : hexValue n.digitChar = some n := by
  revert n
  decide

theorem parseString_digit (left value n : ℕ) (cs : List Char) :
    parseString (.hex left value) ((n % 16).digitChar :: cs) =
      if left = 0 then consChar (Char.ofNat (value * 16 + n % 16)) (parseString .plain cs)
      else parseString (.hex (left - 1) (value * 16 + n % 16)) cs := by
  rw [parseString, hexValue_digitChar (Nat.mod_lt n (by omega))]

/-- The four digits of a character. -/
theorem parseString_hexEscape {c : Char} (h : c.toNat < 65536) (cs : List Char) :
    parseString .plain (hexEscape c.toNat ++ cs) = consChar c (parseString .plain cs) := by
  have hvalue : (((0 * 16 + c.toNat / 4096 % 16) * 16 + c.toNat / 256 % 16) * 16 +
      c.toNat / 16 % 16) * 16 + c.toNat % 16 = c.toNat := by omega
  simp only [hexEscape, List.cons_append, List.nil_append]
  rw [parseString, if_neg (by decide), if_pos rfl, parseString, if_pos rfl,
    parseString_digit, if_neg (by decide), parseString_digit, if_neg (by decide),
    parseString_digit, if_neg (by decide), parseString_digit, if_pos rfl, hvalue, Char.ofNat_toNat]

theorem NeedsHex.toNat_lt {c : Char} (h : NeedsHex c) : c.toNat < 65536 := by
  rcases h with h | rfl | rfl | rfl | h | h
  · omega
  · decide
  · decide
  · decide
  · omega
  · omega

/-- One character of a string. -/
theorem parseString_escapeChar (c : Char) (cs : List Char) :
    parseString .plain (escapeChar c ++ cs) = consChar c (parseString .plain cs) := by
  unfold escapeChar
  cases hshort : shortEscape c with
  | some e =>
    obtain ⟨hu, hback⟩ := unescapeShort_of_shortEscape hshort
    simp only [List.cons_append, List.nil_append]
    rw [parseString, if_neg (by decide), if_pos rfl, parseString, if_neg hu, hback]
  | none =>
    obtain ⟨hquote, hslash⟩ := ne_of_shortEscape_eq_none hshort
    by_cases hhex : NeedsHex c
    · simp only [if_pos hhex]
      exact parseString_hexEscape hhex.toNat_lt cs
    · simp only [if_neg hhex, List.cons_append, List.nil_append]
      rw [parseString, if_neg hquote, if_neg hslash]

/-- **Strings are read back.** -/
theorem parseString_render (cs rest : List Char) :
    parseString .plain (cs.flatMap escapeChar ++ '"' :: rest) = some (cs, rest) := by
  induction cs with
  | nil => rfl
  | cons c cs ih => rw [List.flatMap_cons, List.append_assoc, parseString_escapeChar, ih]; rfl

/-! ## Numbers and words -/

/-- What follows a number does not go on with it. -/
def Ends (rest : List Char) : Prop := ∀ c ∈ rest.head?, ¬c.isDigit

theorem ends_cons {c : Char} (h : ¬c.isDigit) (rest : List Char) : Ends (c :: rest) := by
  intro d hd
  simp only [List.head?_cons, Option.mem_some_iff] at hd
  exact hd ▸ h

theorem parseNat_repr (n : ℕ) {rest : List Char} (h : Ends rest) :
    parseNat ((Nat.repr n).toList ++ rest) = some (n, rest) := by
  have hspan : ((Nat.repr n).toList ++ rest).span Char.isDigit = ((Nat.repr n).toList, rest) := by
    rw [List.span_eq_takeWhile_dropWhile, List.takeWhile_append_of_pos,
      List.dropWhile_append_of_pos]
    · cases rest with
      | nil => simp
      | cons c rest =>
        have hc : ¬c.isDigit := h c (by simp)
        simp [hc]
    · exact fun c hc => Decimal.isDigit_of_mem_repr hc
    · exact fun c hc => Decimal.isDigit_of_mem_repr hc
  have hvalue : Nat.ofDigitChars 10 (Nat.repr n).toList 0 = n :=
    Decimal.value_zeros_append 0 n
  simp only [parseNat, hspan, if_neg (Decimal.repr_toList_ne_nil n), hvalue]

/-- **Integers are read back.** -/
theorem parseInt_render (n : Int) {rest : List Char} (h : Ends rest) :
    parseInt (renderInt n ++ rest) = some (n, rest) := by
  cases n with
  | ofNat n =>
    obtain ⟨d, ds, hds⟩ := List.exists_cons_of_ne_nil (Decimal.repr_toList_ne_nil n)
    have hd : d.isDigit :=
      Decimal.isDigit_of_mem_repr (n := n) (by rw [hds]; exact List.mem_cons_self)
    have hminus : d ≠ '-' := fun hne => absurd (hne ▸ hd) (by decide)
    have hnat := parseNat_repr n h
    simp only [renderInt]
    rw [hds, List.cons_append] at hnat ⊢
    rw [parseInt, if_neg hminus, hnat]
    rfl
  | negSucc n =>
    simp only [renderInt, List.cons_append]
    rw [parseInt, if_pos rfl, parseNat_repr _ h]
    rfl

theorem parseWord_append {word : String} {cs : List Char} (h : word.toList = cs)
    (rest : List Char) : parseWord word (cs ++ rest) = some rest := by
  have hlen : word.length = cs.length := by rw [← h, String.length_toList]
  rw [parseWord, h, if_pos (List.prefix_append cs rest), hlen, List.drop_left]

/-! ## Values -/

mutual

/-- The depth of the recursion that reads a value. -/
def size : Json → ℕ
  | arr items => sizeItems items + 1
  | obj members => sizeMembers members + 1
  | _ => 1

def sizeItems : JsonItems → ℕ
  | .nil => 0
  | .cons v items => size v + sizeItems items + 1

def sizeMembers : JsonMembers → ℕ
  | .nil => 0
  | .cons _ v members => size v + sizeMembers members + 1

end

theorem size_pos (v : Json) : 0 < v.size := by cases v <;> simp [size]

theorem renderInt_ne_nil (n : Int) : renderInt n ≠ [] := by
  cases n with
  | ofNat n => exact Decimal.repr_toList_ne_nil n
  | negSucc n => exact List.cons_ne_nil _ _

/-- The first character of a value that is neither an object nor an array. -/
theorem head_renderInt (n : Int) {c : Char} (h : c ∈ (renderInt n).head?) :
    c = '-' ∨ c.isDigit := by
  cases n with
  | ofNat n =>
    obtain ⟨d, ds, hds⟩ := List.exists_cons_of_ne_nil (Decimal.repr_toList_ne_nil n)
    rw [renderInt, hds] at h
    simp only [List.head?_cons, Option.mem_some_iff] at h
    exact .inr (h ▸ Decimal.isDigit_of_mem_repr (n := n) (by rw [hds]; exact List.mem_cons_self))
  | negSucc n =>
    simp only [renderInt, List.head?_cons, Option.mem_some_iff] at h
    exact .inl h.symm

/-- No value begins with a bracket that closes. -/
theorem exists_render_cons (v : Json) : ∃ c cs, render v = c :: cs ∧ c ≠ ']' := by
  cases v with
  | null => exact ⟨_, _, rfl, by decide⟩
  | bool b => cases b <;> exact ⟨_, _, rfl, by decide⟩
  | num n =>
    obtain ⟨c, cs, hcs⟩ := List.exists_cons_of_ne_nil (renderInt_ne_nil n)
    refine ⟨c, cs, hcs, ?_⟩
    rintro rfl
    have hhead := head_renderInt n (c := ']') (by rw [hcs]; rfl)
    revert hhead
    decide
  | str s => exact ⟨_, _, rfl, by decide⟩
  | arr items => exact ⟨_, _, rfl, by decide⟩
  | obj members => exact ⟨_, _, rfl, by decide⟩

theorem parseValue_num {n : ℕ} (k : Int) {rest : List Char} (h : Ends rest) :
    parseValue (n + 1) (renderInt k ++ rest) = some (num k, rest) := by
  obtain ⟨c, cs, hcs⟩ := List.exists_cons_of_ne_nil (renderInt_ne_nil k)
  have hhead := head_renderInt k (c := c) (by rw [hcs]; rfl)
  have hparse := parseInt_render k h
  rw [hcs, List.cons_append] at hparse ⊢
  have hne : ∀ d : Char, d ≠ '-' → ¬d.isDigit → c ≠ d := by
    rintro d hminus hdigit rfl
    exact hhead.elim hminus hdigit
  rw [parseValue, if_neg (hne _ (by decide) (by decide)), if_neg (hne _ (by decide) (by decide)),
    if_neg (hne _ (by decide) (by decide)), if_neg (hne _ (by decide) (by decide)),
    if_neg (hne _ (by decide) (by decide)), if_neg (hne _ (by decide) (by decide)), hparse]
  rfl

theorem exists_renderItems_cons (v : Json) (items : JsonItems) :
    ∃ c cs, renderItems (.cons v items) = c :: cs ∧ c ≠ ']' := by
  obtain ⟨c, cs, hcs, hc⟩ := exists_render_cons v
  cases items with
  | nil => exact ⟨c, cs ++ [']'], by rw [renderItems, hcs]; rfl, hc⟩
  | cons w items =>
    exact ⟨c, cs ++ ',' :: renderItems (.cons w items), by rw [renderItems, hcs]; rfl, hc⟩

theorem exists_renderMembers_cons (k : String) (v : Json) (members : JsonMembers) :
    ∃ cs, renderMembers (.cons k v members) = '"' :: cs := by
  cases members with
  | nil => exact ⟨_, rfl⟩
  | cons k' v' members => exact ⟨_, rfl⟩

/-- What is read back with depth `n`: values at the head of any text that does not go on with a
digit, and the items and members of values that are not empty. -/
structure ReadsBack (n : ℕ) : Prop where
  value : ∀ v rest, size v ≤ n → Ends rest → parseValue n (render v ++ rest) = some (v, rest)
  items : ∀ v items rest, sizeItems (.cons v items) ≤ n →
    parseItems n (renderItems (.cons v items) ++ rest) = some (.cons v items, rest)
  members : ∀ k v members rest, sizeMembers (.cons k v members) ≤ n →
    parseMembers n (renderMembers (.cons k v members) ++ rest) = some (.cons k v members, rest)

theorem parseValue_str (n : ℕ) (s : String) (rest : List Char) :
    parseValue (n + 1) (renderString s ++ rest) = some (str s, rest) := by
  simp only [renderString, List.cons_append, List.append_assoc, List.nil_append]
  rw [parseValue, if_pos rfl, parseString_render]
  simp

variable {n : ℕ}

theorem ReadsBack.value_succ (h : ReadsBack n) (v : Json) (rest : List Char)
    (hv : size v ≤ n + 1) (hrest : Ends rest) :
    parseValue (n + 1) (render v ++ rest) = some (v, rest) := by
  cases v with
  | null =>
    have hword : parseWord "null" (['n', 'u', 'l', 'l'] ++ rest) = some rest :=
      parseWord_append (by decide) rest
    simp only [render, List.cons_append, List.nil_append] at hword ⊢
    rw [parseValue, hword]
    rfl
  | bool b =>
    cases b with
    | true =>
      have hword : parseWord "true" (['t', 'r', 'u', 'e'] ++ rest) = some rest :=
        parseWord_append (by decide) rest
      simp only [render, List.cons_append, List.nil_append] at hword ⊢
      rw [parseValue, hword]
      rfl
    | false =>
      have hword : parseWord "false" (['f', 'a', 'l', 's', 'e'] ++ rest) = some rest :=
        parseWord_append (by decide) rest
      simp only [render, List.cons_append, List.nil_append] at hword ⊢
      rw [parseValue, hword]
      rfl
  | num k => exact parseValue_num k hrest
  | str s => exact parseValue_str n s rest
  | arr items =>
    simp only [render, List.cons_append]
    rw [parseValue, if_neg (by decide), if_neg (by decide), if_pos rfl]
    cases items with
    | nil => rfl
    | cons w items =>
      obtain ⟨c, cs, hcs, hc⟩ := exists_renderItems_cons w items
      have hhead : (renderItems (.cons w items) ++ rest).head? ≠ some ']' := by
        rw [hcs]
        simpa using hc
      rw [if_neg hhead, h.items w items rest (by simpa [size] using hv)]
      rfl
  | obj members =>
    simp only [render, List.cons_append]
    rw [parseValue, if_neg (by decide), if_pos rfl]
    cases members with
    | nil => rfl
    | cons k w members =>
      obtain ⟨cs, hcs⟩ := exists_renderMembers_cons k w members
      have hhead : (renderMembers (.cons k w members) ++ rest).head? ≠ some '}' := by
        rw [hcs]
        simp
      rw [if_neg hhead, h.members k w members rest (by simpa [size] using hv)]
      rfl

theorem ReadsBack.items_succ (h : ReadsBack n) (v : Json) (items : JsonItems) (rest : List Char)
    (hn : sizeItems (.cons v items) ≤ n + 1) :
    parseItems (n + 1) (renderItems (.cons v items) ++ rest) = some (.cons v items, rest) := by
  rw [sizeItems] at hn
  cases items with
  | nil =>
    simp only [renderItems, List.append_assoc, List.cons_append, List.nil_append]
    rw [parseItems, h.value v _ (by omega) (ends_cons (by decide) rest)]
    simp
  | cons w items =>
    simp only [renderItems, List.append_assoc, List.cons_append]
    rw [parseItems, h.value v _ (by omega) (ends_cons (by decide) _)]
    simp only [Char.reduceEq, if_false, if_true]
    rw [h.items w items rest (by omega)]
    rfl

theorem ReadsBack.members_succ (h : ReadsBack n) (k : String) (v : Json) (members : JsonMembers)
    (rest : List Char) (hn : sizeMembers (.cons k v members) ≤ n + 1) :
    parseMembers (n + 1) (renderMembers (.cons k v members) ++ rest) =
      some (.cons k v members, rest) := by
  rw [sizeMembers] at hn
  cases members with
  | nil =>
    simp only [renderMembers, renderString, List.append_assoc, List.cons_append, List.nil_append]
    simp only [parseMembers, parseString_render]
    rw [h.value v _ (by omega) (ends_cons (by decide) rest)]
    simp
  | cons k' v' members =>
    simp only [renderMembers, renderString, List.append_assoc, List.cons_append, List.nil_append]
    simp only [parseMembers, parseString_render]
    rw [h.value v _ (by omega) (ends_cons (by decide) _)]
    simp only [ne_eq, not_true_eq_false, Char.reduceEq, if_false, if_true]
    rw [h.members k' v' members rest (by omega)]
    simp

theorem readsBack (n : ℕ) : ReadsBack n := by
  induction n with
  | zero =>
    refine ⟨fun v rest hv => ?_, fun v items rest hn => ?_, fun k v members rest hn => ?_⟩
    · exact absurd hv (Nat.not_le.2 (size_pos v))
    · simp [sizeItems] at hn
    · simp [sizeMembers] at hn
  | succ n ih => exact ⟨ih.value_succ, ih.items_succ, ih.members_succ⟩

mutual

theorem size_le_length : ∀ v : Json, size v ≤ (render v).length
  | null => by simp [size, render]
  | bool true => by simp [size, render]
  | bool false => by simp [size, render]
  | num n => List.length_pos_iff.2 (renderInt_ne_nil n)
  | str s => by simp [size, render, renderString]
  | arr items => by
    have h := sizeItems_le_length items
    simp only [size, render, List.length_cons]
    omega
  | obj members => by
    have h := sizeMembers_le_length members
    simp only [size, render, List.length_cons]
    omega

theorem sizeItems_le_length : ∀ items : JsonItems, sizeItems items ≤ (renderItems items).length
  | .nil => by simp [sizeItems]
  | .cons v .nil => by
    have h := size_le_length v
    simp only [sizeItems, renderItems, List.length_append, List.length_singleton]
    omega
  | .cons v (.cons w items) => by
    have h := size_le_length v
    have hs := sizeItems_le_length (.cons w items)
    rw [sizeItems, renderItems, List.length_append, List.length_cons]
    omega

theorem sizeMembers_le_length :
    ∀ members : JsonMembers, sizeMembers members ≤ (renderMembers members).length
  | .nil => by simp [sizeMembers]
  | .cons k v .nil => by
    have h := size_le_length v
    simp only [sizeMembers, renderMembers, List.length_append, List.length_cons]
    omega
  | .cons k v (.cons k' v' members) => by
    have h := size_le_length v
    have hs := sizeMembers_le_length (.cons k' v' members)
    rw [sizeMembers, renderMembers]
    simp only [List.length_append, List.length_cons]
    omega

end

/-- **Round trip.** A value is the one that its text is read as. -/
theorem parse_render (v : Json) : parse (render v) = some v := by
  have h := (readsBack _).value v [] (size_le_length v) (by simp [Ends])
  rw [List.append_nil] at h
  rw [parse, h]

/-! ## Characters -/

/-- No character is a control character. -/
def Printable (cs : List Char) : Prop := ∀ c ∈ cs, 0x20 ≤ c.toNat

instance (cs : List Char) : Decidable (Printable cs) := List.decidableBAll _ cs

theorem printable_cons {c : Char} {cs : List Char} :
    Printable (c :: cs) ↔ 0x20 ≤ c.toNat ∧ Printable cs := List.forall_mem_cons

theorem printable_append {cs ds : List Char} :
    Printable (cs ++ ds) ↔ Printable cs ∧ Printable ds := List.forall_mem_append

theorem printable_digitChar {n : ℕ} (h : n < 16) : 0x20 ≤ n.digitChar.toNat := by
  revert n
  decide

theorem printable_hexEscape (n : ℕ) : Printable (hexEscape n) := by
  simp only [hexEscape, printable_cons]
  refine ⟨by decide, by decide, ?_, ?_, ?_, ?_, by decide⟩
  all_goals exact printable_digitChar (Nat.mod_lt _ (by omega))

theorem printable_shortEscape {c e : Char} (h : shortEscape c = some e) : 0x20 ≤ e.toNat := by
  unfold shortEscape at h
  split_ifs at h <;> cases h <;> decide

theorem printable_escapeChar (c : Char) : Printable (escapeChar c) := by
  unfold escapeChar
  cases hshort : shortEscape c with
  | some e =>
    simp only [printable_cons]
    exact ⟨by decide, printable_shortEscape hshort, by decide⟩
  | none =>
    by_cases hhex : NeedsHex c
    · simp only [if_pos hhex]
      exact printable_hexEscape c.toNat
    · simp only [if_neg hhex, printable_cons]
      refine ⟨?_, by decide⟩
      have hlt : ¬c.toNat < 0x20 := fun hlt => hhex (.inl hlt)
      omega

theorem printable_renderString (s : String) : Printable (renderString s) := by
  rw [renderString, printable_cons, printable_append]
  refine ⟨by decide, ?_, by decide⟩
  intro d hd
  obtain ⟨c, -, hd⟩ := List.mem_flatMap.1 hd
  exact printable_escapeChar c d hd

theorem printable_repr (n : ℕ) : Printable (Nat.repr n).toList := by
  intro c hc
  have hdigit := Decimal.isDigit_of_mem_repr hc
  simp only [Char.isDigit, Bool.and_eq_true, decide_eq_true_eq, ge_iff_le] at hdigit
  have hle : (48 : UInt32).toNat ≤ c.val.toNat := UInt32.le_iff_toNat_le.1 hdigit.1
  show 0x20 ≤ c.val.toNat
  simp only [UInt32.reduceToNat] at hle
  omega

theorem printable_renderInt (n : Int) : Printable (renderInt n) := by
  cases n with
  | ofNat n => exact printable_repr n
  | negSucc n => exact printable_cons.2 ⟨by decide, printable_repr (n + 1)⟩

mutual

/-- **Texts are printable.** -/
theorem printable_render : ∀ v : Json, Printable (render v)
  | null => by decide
  | bool true => by decide
  | bool false => by decide
  | num n => printable_renderInt n
  | str s => printable_renderString s
  | arr items => printable_cons.2 ⟨by decide, printable_renderItems items⟩
  | obj members => printable_cons.2 ⟨by decide, printable_renderMembers members⟩

theorem printable_renderItems : ∀ items : JsonItems, Printable (renderItems items)
  | .nil => by decide
  | .cons v .nil => by
    rw [renderItems]
    exact printable_append.2 ⟨printable_render v, by decide⟩
  | .cons v (.cons w items) => by
    rw [renderItems]
    exact printable_append.2 ⟨printable_render v,
      printable_cons.2 ⟨by decide, printable_renderItems (.cons w items)⟩⟩

theorem printable_renderMembers : ∀ members : JsonMembers, Printable (renderMembers members)
  | .nil => by decide
  | .cons k v .nil => by
    rw [renderMembers, printable_append, printable_append]
    exact ⟨⟨printable_renderString k, printable_cons.2 ⟨by decide, printable_render v⟩⟩, by decide⟩
  | .cons k v (.cons k' v' members) => by
    rw [renderMembers, printable_append, printable_append]
    exact ⟨⟨printable_renderString k, printable_cons.2 ⟨by decide, printable_render v⟩⟩,
      printable_cons.2 ⟨by decide, printable_renderMembers (.cons k' v' members)⟩⟩

end

end Json
