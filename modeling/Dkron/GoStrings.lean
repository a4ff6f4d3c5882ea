import Mathlib

/-!
# Go's strings

The functions of Go's `strings`, `strconv` and `unicode` packages that the model needs. A Go
string is valid UTF-8 everywhere here, so its bytes and a Lean string's characters agree on
prefixes, on occurrences and on order.
-/

namespace Dkron

/-- `strings.HasPrefix`. -/
def hasPrefix (s pre : String) : Bool := pre.toList.isPrefixOf s.toList

/-- `strings.Contains`. -/
def containsText (s sub : String) : Bool := decide (sub.toList <:+: s.toList)

/-- `s[n:]`, for a prefix of `n` characters that was checked before. -/
def dropPrefix (s : String) (n : Nat) : String := String.ofList (s.toList.drop n)

/-- `unicode.IsSpace`. -/
def isSpace (c : Char) : Bool :=
  (9 ≤ c.toNat ∧ c.toNat ≤ 13) ∨ (0x2000 ≤ c.toNat ∧ c.toNat ≤ 0x200a) ∨
    c.toNat ∈ [0x20, 0x85, 0xA0, 0x1680, 0x2028, 0x2029, 0x202f, 0x205f, 0x3000]

/-- `strings.Fields`. -/
def fields (s : String) : List String :=
  ((s.toList.splitOnP isSpace).filter (· ≠ [])).map String.ofList

/-- `strings.TrimSpace`. -/
def trimSpace (s : String) : String :=
  String.ofList ((s.toList.dropWhile isSpace).reverse.dropWhile isSpace).reverse

/-- `unicode.ToUpper`, as far as the result is compared with ASCII text: besides the ASCII letters
only the dotless i and the long s have an ASCII upper case. -/
def toUpperChar (c : Char) : Char :=
  if c = Char.ofNat 0x131 then 'I' else if c = Char.ofNat 0x17f then 'S' else c.toUpper

/-- `strings.Split(s, sep)`, for a separator of one character. -/
def splitText (sep : Char) (s : String) : List String :=
  (s.toList.splitOn sep).map String.ofList

/-- `strings.ToUpper`, see `toUpperChar`. -/
def toUpper (s : String) : String := String.ofList (s.toList.map toUpperChar)

/-- The value of a string of decimal digits. -/
def digitsValue (cs : List Char) : Nat := cs.foldl (fun n c => 10 * n + (c.toNat - 48)) 0

/-- `strconv.ParseInt(s, 10, 64)`: an optional sign and digits, in the range of an `int64`. -/
def parseInt (s : String) : Option Int :=
  let (neg, ds) := match s.toList with
    | '-' :: ds => (true, ds)
    | '+' :: ds => (false, ds)
    | ds => (false, ds)
  if ds = [] ∨ ¬ds.all Char.isDigit then none
  else
    let n : Int := if neg then -digitsValue ds else digitsValue ds
    if -2 ^ 63 ≤ n ∧ n < 2 ^ 63 then some n else none

/-- `int64` arithmetic wraps. -/
def wrap64 (n : Int) : Int := Int.bmod n (2 ^ 64)

/-! ## Prefixes -/

theorem hasPrefix_iff {s pre : String} : hasPrefix s pre ↔ pre.toList <+: s.toList := by
  rw [hasPrefix, List.isPrefixOf_iff_prefix]

theorem append_left_cancel {a b c : String} (h : a ++ b = a ++ c) : b = c := by
  have hl := congrArg String.toList h
  rw [String.toList_append, String.toList_append] at hl
  exact String.toList_inj.1 (List.append_cancel_left hl)

/-! ## Parts -/

theorem splitText_of_not_mem {sep : Char} {s : String} (h : sep ∉ s.toList) :
    splitText sep s = [s] := by
  have hsplit : s.toList.splitOn sep = [s.toList] :=
    List.splitOnP_eq_singleton fun c hc => by simpa using fun heq : c = sep => h (heq ▸ hc)
  rw [splitText, hsplit]
  simp

/-- The text is cut at its first separator, and the rest is split. -/
theorem splitText_append {sep : Char} {s : String} (h : sep ∉ s.toList) (rest : List Char) :
    splitText sep (String.ofList (s.toList ++ sep :: rest)) =
      s :: splitText sep (String.ofList rest) := by
  have hsplit := splitText_of_not_mem h
  simp only [splitText, List.splitOn] at hsplit ⊢
  rw [String.toList_ofList, List.splitOnP_append_cons _ _ (by simp), List.map_append, hsplit,
    String.toList_ofList]
  rfl

theorem mem_dropWhile_iff {p : Char → Bool} {c : Char} (hc : ¬p c) (cs : List Char) :
    c ∈ cs.dropWhile p ↔ c ∈ cs := by
  induction cs with
  | nil => rfl
  | cons b cs ih =>
    by_cases hb : p b
    · have hne : c ≠ b := fun heq => hc (heq ▸ hb)
      rw [List.dropWhile_cons_of_pos hb, ih, List.mem_cons]
      simp [hne]
    · rw [List.dropWhile_cons_of_neg hb]

/-- Trimming loses nothing but spaces. -/
theorem mem_trimSpace_iff {c : Char} (hc : ¬isSpace c) (s : String) :
    c ∈ (trimSpace s).toList ↔ c ∈ s.toList := by
  rw [trimSpace, String.toList_ofList, List.mem_reverse, mem_dropWhile_iff hc, List.mem_reverse,
    mem_dropWhile_iff hc]

/-! ## Fields -/

/-- The fields of a list of characters. -/
def fieldsOf (cs : List Char) : List (List Char) := (cs.splitOnP isSpace).filter (· ≠ [])

theorem fields_eq (s : String) : fields s = (fieldsOf s.toList).map String.ofList := rfl

theorem fieldsOf_cons_space {c : Char} (hc : isSpace c) (cs : List Char) :
    fieldsOf (c :: cs) = fieldsOf cs := by
  rw [fieldsOf, List.splitOnP_cons_eq_if_modifyHead, if_pos hc]
  rfl

theorem fieldsOf_append_space {c : Char} (hc : isSpace c) (cs : List Char) :
    fieldsOf (cs ++ [c]) = fieldsOf cs := by
  rw [fieldsOf, List.splitOnP_append_cons cs [] hc, List.filter_append]
  simp [fieldsOf]

theorem fieldsOf_dropWhile (cs : List Char) : fieldsOf (cs.dropWhile isSpace) = fieldsOf cs := by
  induction cs with
  | nil => rfl
  | cons c cs ih =>
    by_cases hc : isSpace c
    · rw [List.dropWhile_cons_of_pos hc, ih, fieldsOf_cons_space hc]
    · rw [List.dropWhile_cons_of_neg hc]

theorem fieldsOf_reverse_dropWhile (cs : List Char) :
    fieldsOf (cs.dropWhile isSpace).reverse = fieldsOf cs.reverse := by
  induction cs with
  | nil => rfl
  | cons c cs ih =>
    by_cases hc : isSpace c
    · rw [List.dropWhile_cons_of_pos hc, ih, List.reverse_cons, fieldsOf_append_space hc]
    · rw [List.dropWhile_cons_of_neg hc]

/-- Trimming loses no field. -/
theorem fields_trimSpace (s : String) : fields (trimSpace s) = fields s := by
  rw [fields_eq, trimSpace, String.toList_ofList, fieldsOf_reverse_dropWhile, List.reverse_reverse,
    fieldsOf_dropWhile, fields_eq]

/-- The first field of a text that begins with a character other than a space begins with it. -/
theorem exists_field_of_cons {c : Char} (hc : ¬isSpace c) (cs : List Char) :
    ∃ ds, c :: ds ∈ fieldsOf (c :: cs) := by
  obtain ⟨ds, rest, hsplit⟩ := List.exists_cons_of_ne_nil (List.splitOnP_ne_nil isSpace cs)
  refine ⟨ds, List.mem_filter.2 ⟨?_, by simp⟩⟩
  rw [List.splitOnP_cons_eq_if_modifyHead, if_neg hc, hsplit, List.modifyHead_cons]
  exact List.mem_cons_self

end Dkron
