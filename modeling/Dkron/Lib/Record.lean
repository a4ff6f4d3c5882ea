import Mathlib.Data.List.Sort
import Mathlib.Data.String.Basic
import Mathlib.Data.List.Perm.Basic
import Mathlib.Data.Option.Basic
import Dkron.Lib.Json

/-!
# Records in JSON

How Go's `encoding/json` writes and reads values of the types a struct is made of. All fields are
written with `omitempty`: an empty value is left out. Reading changes a value that is already there:
a field that is missing in the text keeps its value, an object is read into the struct behind a
pointer, and the pairs of an object are added to a map.

A codec brings both directions together. A field that is read from what a struct was written as has
the value it had there (`Codec.readField_present`), so a struct is read back field by field.
-/

namespace Json

/-- An object with the given members. -/
def ofMembers : List (String × Json) → JsonMembers
  | [] => .nil
  | (k, v) :: ms => .cons k v (ofMembers ms)

/-- The members of an object. -/
def toMembers : JsonMembers → List (String × Json)
  | .nil => []
  | .cons k v ms => (k, v) :: toMembers ms

/-- An array with the given items. -/
def ofItems : List Json → JsonItems
  | [] => .nil
  | v :: vs => .cons v (ofItems vs)

/-- The items of an array. -/
def toItems : JsonItems → List Json
  | .nil => []
  | .cons v vs => v :: toItems vs

@[simp] theorem toMembers_ofMembers (ms : List (String × Json)) :
    toMembers (ofMembers ms) = ms := by
  induction ms with
  | nil => rfl
  | cons m ms ih => rw [ofMembers, toMembers, ih]

@[simp] theorem toItems_ofItems (vs : List Json) : toItems (ofItems vs) = vs := by
  induction vs with
  | nil => rfl
  | cons v vs ih => rw [ofItems, toItems, ih]

/-- How values of a type are written, and read into a value that is there already. -/
structure Codec (α : Type) where
  empty : α
  write : α → Json
  read : Json → α → Option α

variable {α β : Type}

namespace Codec

/-- The value is read as what it was written from. -/
def ReadsBack (c : Codec α) (v : α) : Prop := c.read (c.write v) c.empty = some v

/-! ## Scalars -/

def string : Codec String where
  empty := ""
  write s := .str s
  read v old :=
    match v with
    | .str s => some s
    | .null => some old
    | _ => none

def boolean : Codec Bool where
  empty := false
  write b := .bool b
  read v old :=
    match v with
    | .bool b => some b
    | .null => some old
    | _ => none

/-- Integers from `lo` up to `hi`. -/
def integer (lo hi : Int) (toInt : α → Int) (ofInt : Int → α) : Codec α where
  empty := ofInt 0
  write n := .num (toInt n)
  read v old :=
    match v with
    | .num n => if lo ≤ n ∧ n ≤ hi then some (ofInt n) else none
    | .null => some old
    | _ => none

theorem readsBack_string (s : String) : string.ReadsBack s := rfl

theorem readsBack_boolean (b : Bool) : boolean.ReadsBack b := rfl

theorem readsBack_integer {lo hi : Int} {toInt : α → Int} {ofInt : Int → α} {n : α}
    (hlo : lo ≤ toInt n) (hhi : toInt n ≤ hi) (hback : ofInt (toInt n) = n) :
    (integer lo hi toInt ofInt).ReadsBack n := by
  show (if lo ≤ toInt n ∧ toInt n ≤ hi then some (ofInt (toInt n)) else none) = some n
  rw [if_pos ⟨hlo, hhi⟩, hback]

/-! ## Slices, pointers and maps -/

/-- A slice. -/
def slice (c : Codec α) : Codec (List α) where
  empty := []
  write vs := .arr (ofItems (vs.map c.write))
  read v _ :=
    match v with
    | .arr items => (toItems items).mapM fun v => c.read v c.empty
    | .null => some []
    | _ => none

/-- A pointer, which may be nil. -/
def pointer (c : Codec α) : Codec (Option α) where
  empty := none
  write v := (v.map c.write).getD .null
  read v old :=
    match v with
    | .null => some none
    | v => (c.read v (old.getD c.empty)).map some

/-- `m[k] = v`, for a map whose pairs are listed in the order of the keys. -/
def insert (k : String) (v : α) : List (String × α) → List (String × α)
  | [] => [(k, v)]
  | (k', v') :: m =>
    if k < k' then (k, v) :: (k', v') :: m
    else if k = k' then (k, v) :: m
    else (k', v') :: insert k v m

/-- A pair of an object in a map. -/
def readPair (c : Codec α) (m : List (String × α)) (pair : String × Json) :
    Option (List (String × α)) :=
  (c.read pair.2 c.empty).map fun v => insert pair.1 v m

/-- A map. It is written in the order of the keys. -/
def map (c : Codec α) : Codec (List (String × α)) where
  empty := []
  write m := .obj (ofMembers (m.map fun r => (r.1, c.write r.2)))
  read v old :=
    match v with
    | .obj ms => (toMembers ms).foldlM (readPair c) old
    | .null => some []
    | _ => none

theorem readsBack_slice {c : Codec α} {vs : List α} (h : ∀ v ∈ vs, c.ReadsBack v) :
    (slice c).ReadsBack vs := by
  show (toItems (ofItems (vs.map c.write))).mapM (fun v => c.read v c.empty) = some vs
  rw [toItems_ofItems]
  induction vs with
  | nil => rfl
  | cons v vs ih =>
    have hv : c.read (c.write v) c.empty = some v := h v List.mem_cons_self
    rw [List.map_cons, List.mapM_cons, hv, ih fun w hw => h w (List.mem_cons_of_mem v hw)]
    rfl

/-- The pairs of a map stand in the order of the keys, and no key stands twice. -/
def Sorted (m : List (String × α)) : Prop := (m.map Prod.fst).Pairwise (· < ·)

instance (m : List (String × α)) : Decidable (Sorted m) := by unfold Sorted; infer_instance

theorem insert_of_forall_lt {m : List (String × α)} {k : String} (h : ∀ r ∈ m, r.1 < k) (v : α) :
    insert k v m = m ++ [(k, v)] := by
  induction m with
  | nil => rfl
  | cons r m ih =>
    have hr : r.1 < k := h r List.mem_cons_self
    have hne : k ≠ r.1 := by
      intro heq
      rw [← heq] at hr
      exact String.lt_irrefl k hr
    rw [insert, if_neg (String.lt_asymm hr), if_neg hne,
      ih fun r hr => h r (List.mem_cons_of_mem _ hr)]
    rfl

theorem foldlM_readPair {c : Codec α} {m done : List (String × α)} (hm : Sorted (done ++ m))
    (h : ∀ r ∈ m, c.ReadsBack r.2) :
    (m.map fun r => (r.1, c.write r.2)).foldlM (readPair c) done = some (done ++ m) := by
  induction m generalizing done with
  | nil => simp
  | cons r m ih =>
    have hr : c.read (c.write r.2) c.empty = some r.2 := h r List.mem_cons_self
    have hlast : ∀ q ∈ done, q.1 < r.1 := by
      intro q hq
      rw [Sorted, List.map_append, List.pairwise_append] at hm
      exact hm.2.2 q.1 (List.mem_map_of_mem hq) r.1 (by simp)
    have hstep : readPair c done (r.1, c.write r.2) = some (done ++ [r]) := by
      rw [readPair, hr, Option.map_some, insert_of_forall_lt hlast]
    have hsorted : Sorted (done ++ [r] ++ m) := by simpa using hm
    have hrest := ih hsorted fun q hq => h q (List.mem_cons_of_mem r hq)
    rw [List.map_cons, List.foldlM_cons, hstep]
    simpa using hrest

theorem readsBack_map {c : Codec α} {m : List (String × α)} (hm : Sorted m)
    (h : ∀ r ∈ m, c.ReadsBack r.2) : (map c).ReadsBack m := by
  show (toMembers (ofMembers (m.map fun r => (r.1, c.write r.2)))).foldlM (readPair c) [] = some m
  rw [toMembers_ofMembers]
  exact foldlM_readPair hm h

/-- Values under different keys are put in a map in any order. -/
theorem insert_comm {k k' : String} (h : k ≠ k') (v v' : α) (m : List (String × α)) :
    insert k v (insert k' v' m) = insert k' v' (insert k v m) := by
  induction m with
  | nil =>
    rcases lt_or_gt_of_ne h with hlt | hlt
    · simp [insert, hlt, h.symm, String.lt_asymm hlt]
    · simp [insert, hlt, h, String.lt_asymm hlt]
  | cons r m ih =>
    simp only [insert]
    rcases lt_trichotomy k r.1 with hk | hk | hk <;>
      rcases lt_trichotomy k' r.1 with hk' | hk' | hk' <;> grind [insert]

theorem foldl_insert_of_sorted {m : List (String × α)} (done : List (String × α))
    (hm : Sorted (done ++ m)) : m.foldl (fun m r => insert r.1 r.2 m) done = done ++ m := by
  induction m generalizing done with
  | nil => simp
  | cons r m ih =>
    have hlast : ∀ q ∈ done, q.1 < r.1 := by
      intro q hq
      rw [Sorted, List.map_append, List.pairwise_append] at hm
      exact hm.2.2 q.1 (List.mem_map_of_mem hq) r.1 (by simp)
    have hsorted : Sorted (done ++ [r] ++ m) := by simpa using hm
    rw [List.foldl_cons, insert_of_forall_lt hlast, ih _ hsorted]
    simp

/-- **The order of insertion does not matter**: the pairs of a map, put in another map one by one in
any order, make the map again. -/
theorem foldl_insert_of_perm {m m' : List (String × α)} (hm : Sorted m) (h : m'.Perm m) :
    m'.foldl (fun m r => insert r.1 r.2 m) [] = m := by
  have hkeys : (m.map Prod.fst).Nodup := hm.imp fun hlt => ne_of_lt hlt
  have hinj : ∀ r ∈ m, ∀ q ∈ m, ∀ z : List (String × α),
      insert q.1 q.2 (insert r.1 r.2 z) = insert r.1 r.2 (insert q.1 q.2 z) := by
    intro r hr q hq z
    by_cases heq : q.1 = r.1
    · rw [List.inj_on_of_nodup_map hkeys hq hr heq]
    · exact insert_comm heq q.2 r.2 z
  rw [← h.symm.foldl_eq' hinj]
  exact foldl_insert_of_sorted [] hm
/-! ## Structs -/

/-- A field of a struct: its name, and its value if it is not left out. -/
def field [DecidableEq α] (key : String) (c : Codec α) (v : α) : String × Option Json :=
  (key, if v = c.empty then none else some (c.write v))

/-- The fields that are not left out. -/
def present (fields : List (String × Option Json)) : List (String × Json) :=
  fields.filterMap fun f => f.2.map fun v => (f.1, v)

/-- A field read from all members of its name. -/
def readField (members : List (String × Json)) (key : String) (c : Codec α) (old : α) : Option α :=
  (members.filter fun m => m.1 = key).foldlM (fun old m => c.read m.2 old) old

/-- A struct, from its fields and from the reading of all fields. -/
def struct (empty : α) (fields : α → List (String × Option Json))
    (readFields : List (String × Json) → α → Option α) : Codec α where
  empty := empty
  write v := .obj (ofMembers (present (fields v)))
  read v old :=
    match v with
    | .obj ms => readFields (toMembers ms) old
    | .null => some old
    | _ => none

/-- There is no member of a name that no field has. -/
theorem filter_present_of_notMem {fields : List (String × Option Json)} {key : String}
    (hkey : key ∉ fields.map Prod.fst) : (present fields).filter (fun m => m.1 = key) = [] := by
  rw [List.filter_eq_nil_iff]
  intro m hm
  obtain ⟨f, hf, hfm⟩ := List.mem_filterMap.1 hm
  obtain ⟨v, hv, rfl⟩ := Option.map_eq_some_iff.1 hfm
  simp only [decide_eq_true_eq]
  rintro rfl
  exact hkey (List.mem_map_of_mem hf)

theorem filter_present {fields : List (String × Option Json)}
    (hnodup : (fields.map Prod.fst).Nodup) {key : String} {value : Option Json}
    (hmem : (key, value) ∈ fields) :
    (present fields).filter (fun m => m.1 = key) = value.toList.map fun v => (key, v) := by
  induction fields with
  | nil => simp at hmem
  | cons f fields ih =>
    obtain ⟨k, w⟩ := f
    simp only [List.map_cons, List.nodup_cons] at hnodup
    have hcons : present ((k, w) :: fields) = (w.toList.map fun v => (k, v)) ++ present fields := by
      cases w <;> rfl
    rw [hcons, List.filter_append]
    rcases List.mem_cons.1 hmem with heq | hrest
    · -- No other field has this name.
      obtain ⟨rfl, rfl⟩ := Prod.mk.inj heq
      rw [filter_present_of_notMem hnodup.1, List.append_nil]
      cases value <;> simp
    · have hk : k ≠ key := by
        rintro rfl
        exact hnodup.1 (List.mem_map_of_mem (f := Prod.fst) hrest)
      rw [ih hnodup.2 hrest]
      cases w <;> simp [hk]

/-- A field that is missing keeps its value. -/
theorem readField_of_filter_eq_nil {members : List (String × Json)} {key : String}
    (h : members.filter (fun m => m.1 = key) = []) (c : Codec α) (old : α) :
    readField members key c old = some old := by
  rw [readField, h]
  rfl

/-- A field is read into a value that is there already: it keeps that value if it was left out. -/
theorem readField_present_onto [DecidableEq α] {fields : List (String × Option Json)}
    (hnodup : (fields.map Prod.fst).Nodup) {c : Codec α} {key : String} {v old : α}
    (hmem : field key c v ∈ fields) (hv : v ≠ c.empty → c.read (c.write v) old = some v) :
    readField (present fields) key c old = some (if v = c.empty then old else v) := by
  rw [readField, filter_present hnodup hmem]
  by_cases hempty : v = c.empty
  · simp [hempty]
  · simp [hempty, hv hempty]

/-- **A field is read back** from the struct it was written with. -/
theorem readField_present [DecidableEq α] {fields : List (String × Option Json)}
    (hnodup : (fields.map Prod.fst).Nodup) {c : Codec α} {key : String} {v : α}
    (hmem : field key c v ∈ fields) (hv : c.ReadsBack v) :
    readField (present fields) key c c.empty = some v := by
  rw [readField_present_onto hnodup hmem fun _ => hv]
  split_ifs with hempty
  · rw [hempty]
  · rfl

theorem readsBack_struct {empty : α} {fields : α → List (String × Option Json)}
    {readFields : List (String × Json) → α → Option α} {v : α}
    (h : readFields (present (fields v)) empty = some v) :
    (struct empty fields readFields).ReadsBack v := by
  show readFields (toMembers (ofMembers (present (fields v)))) empty = some v
  rw [toMembers_ofMembers, h]

theorem write_struct_ne_null (empty : α) (fields : α → List (String × Option Json))
    (readFields : List (String × Json) → α → Option α) (v : α) :
    (struct empty fields readFields).write v ≠ .null := by
  intro h
  cases h

/-- A pointer to a value that is not written as `null`. -/
theorem readsBack_pointer {c : Codec α} {v : Option α} (hnull : ∀ w, c.write w ≠ .null)
    (h : ∀ w ∈ v, c.ReadsBack w) : (pointer c).ReadsBack v := by
  cases v with
  | none => rfl
  | some w =>
    have hw : c.read (c.write w) c.empty = some w := h w rfl
    show (match c.write w with
      | .null => some none
      | v => (c.read v c.empty).map some) = some (some w)
    split
    · exact absurd ‹c.write w = .null› (hnull w)
    · rw [hw]
      rfl

end Codec

end Json
