import Mathlib.Logic.Function.Basic

/-!
# Two indexes of one set of records

Records that are found by either of two keys are kept in two maps, and each change writes both. The
maps agree when they hold the same records, each under its own keys. A record that is put in or
taken out keeps them in agreement if and only if it *fits*: whatever the one map has under its key
has the same key in the other map (`agree_insert_iff`, `agree_erase_iff`). Otherwise an entry is
left behind in one of them.
-/

/-- A map for each key. -/
structure Indexes (ρ κ₁ κ₂ : Type*) where
  first : κ₁ → Option ρ
  second : κ₂ → Option ρ

namespace Indexes

variable {ρ κ₁ κ₂ : Type*}

/-- The maps hold the same records, each under its own keys. -/
structure Agree (k₁ : ρ → κ₁) (k₂ : ρ → κ₂) (m : Indexes ρ κ₁ κ₂) : Prop where
  same : ∀ r, (∃ a, m.first a = some r) ↔ ∃ b, m.second b = some r
  first_key : ∀ a r, m.first a = some r → k₁ r = a
  second_key : ∀ b r, m.second b = some r → k₂ r = b

/-- What has one of the keys of the record has both. -/
structure Fits (k₁ : ρ → κ₁) (k₂ : ρ → κ₂) (m : Indexes ρ κ₁ κ₂) (r : ρ) : Prop where
  first : ∀ q, m.first (k₁ r) = some q → k₂ q = k₂ r
  second : ∀ q, m.second (k₂ r) = some q → k₁ q = k₁ r

/-- The maps in the other order. -/
def swap (m : Indexes ρ κ₁ κ₂) : Indexes ρ κ₂ κ₁ := ⟨m.second, m.first⟩

variable {k₁ : ρ → κ₁} {k₂ : ρ → κ₂} {m : Indexes ρ κ₁ κ₂} {q r : ρ}

theorem Agree.swap (h : Agree k₁ k₂ m) : Agree k₂ k₁ m.swap :=
  ⟨fun r => (h.same r).symm, h.second_key, h.first_key⟩

theorem Fits.swap (h : Fits k₁ k₂ m r) : Fits k₂ k₁ m.swap r := ⟨h.second, h.first⟩

theorem Agree.first_of_second (h : Agree k₁ k₂ m) {b : κ₂} (hr : m.second b = some r) :
    m.first (k₁ r) = some r := by
  obtain ⟨a, ha⟩ := (h.same r).2 ⟨b, hr⟩
  rw [h.first_key a r ha]
  exact ha

variable [DecidableEq κ₁] [DecidableEq κ₂] (k₁ k₂)

/-- A record is put into both maps. -/
def insert (r : ρ) (m : Indexes ρ κ₁ κ₂) : Indexes ρ κ₁ κ₂ :=
  ⟨Function.update m.first (k₁ r) (some r), Function.update m.second (k₂ r) (some r)⟩

/-- What has the keys of a record is taken out of both maps. -/
def erase (r : ρ) (m : Indexes ρ κ₁ κ₂) : Indexes ρ κ₁ κ₂ :=
  ⟨Function.update m.first (k₁ r) none, Function.update m.second (k₂ r) none⟩

variable {k₁ k₂}

/-- If the maps agree after a record was written, the record under its second key had its first
key. `x` is what the entries are written with. -/
theorem Agree.key_of_update {x : Option ρ} (hx : ∀ q, x = some q → q = r) (h : Agree k₁ k₂ m)
    (h' : Agree k₁ k₂ ⟨Function.update m.first (k₁ r) x, Function.update m.second (k₂ r) x⟩)
    (hq : m.second (k₂ r) = some q) : k₁ q = k₁ r := by
  by_contra hne
  have hkept : Function.update m.first (k₁ r) x (k₁ q) = some q := by
    rw [Function.update_of_ne hne]
    exact h.first_of_second hq
  obtain ⟨b, hb⟩ := (h'.same q).1 ⟨k₁ q, hkept⟩
  have hkey : b = k₂ r := (h'.second_key b q hb).symm.trans (h.second_key _ q hq)
  rw [hkey] at hb
  have hx' : x = some q := by simpa using hb
  exact hne (by rw [hx q hx'])

theorem Agree.fits_of_update {x : Option ρ} (hx : ∀ q, x = some q → q = r) (h : Agree k₁ k₂ m)
    (h' : Agree k₁ k₂ ⟨Function.update m.first (k₁ r) x, Function.update m.second (k₂ r) x⟩) :
    Fits k₁ k₂ m r :=
  ⟨fun _ hq => h.swap.key_of_update hx h'.swap hq, fun _ hq => h.key_of_update hx h' hq⟩

omit [DecidableEq κ₁] in
/-- A record under another first key has another second key, and is not touched. -/
theorem Agree.second_update {x : Option ρ} (h : Agree k₁ k₂ m) (hr : Fits k₁ k₂ m r) {a : κ₁}
    (ha : a ≠ k₁ r) (hq : m.first a = some q) :
    Function.update m.second (k₂ r) x (k₂ q) = some q := by
  have hsecond : m.second (k₂ q) = some q := h.swap.first_of_second hq
  rw [Function.update_of_ne]
  · exact hsecond
  · intro heq
    rw [heq] at hsecond
    exact ha ((h.first_key a q hq).symm.trans (hr.second q hsecond))

/-- The records of the first map are in the second one after a write that fits. -/
theorem Agree.exists_second {x : Option ρ} (h : Agree k₁ k₂ m) (hr : Fits k₁ k₂ m r) {a : κ₁}
    (hq : Function.update m.first (k₁ r) x a = some q) :
    ∃ b, Function.update m.second (k₂ r) x b = some q := by
  by_cases ha : a = k₁ r
  · rw [ha, Function.update_self] at hq
    exact ⟨k₂ r, by rw [Function.update_self, hq]⟩
  · rw [Function.update_of_ne ha] at hq
    exact ⟨k₂ q, h.second_update hr ha hq⟩

omit [DecidableEq κ₂] in
theorem Agree.key_of_mem {x : Option ρ} (hx : ∀ q, x = some q → q = r) (h : Agree k₁ k₂ m)
    {a : κ₁} (hq : Function.update m.first (k₁ r) x a = some q) : k₁ q = a := by
  by_cases ha : a = k₁ r
  · rw [ha, Function.update_self] at hq
    rw [hx q hq, ha]
  · rw [Function.update_of_ne ha] at hq
    exact h.first_key a q hq

/-- A write that fits keeps the maps in agreement. -/
theorem Agree.update {x : Option ρ} (hx : ∀ q, x = some q → q = r) (h : Agree k₁ k₂ m)
    (hr : Fits k₁ k₂ m r) :
    Agree k₁ k₂ ⟨Function.update m.first (k₁ r) x, Function.update m.second (k₂ r) x⟩ where
  same _ := ⟨fun ⟨_, ha⟩ => h.exists_second hr ha, fun ⟨_, hb⟩ => h.swap.exists_second hr.swap hb⟩
  first_key _ _ hq := h.key_of_mem hx hq
  second_key _ _ hq := h.swap.key_of_mem hx hq

/-- **Putting a record in** keeps the maps in agreement if and only if it fits. -/
theorem agree_insert_iff (h : Agree k₁ k₂ m) : Agree k₁ k₂ (m.insert k₁ k₂ r) ↔ Fits k₁ k₂ m r :=
  ⟨h.fits_of_update fun _ hq => (Option.some.inj hq).symm,
    h.update fun _ hq => (Option.some.inj hq).symm⟩

/-- **Taking a record out** keeps the maps in agreement if and only if it fits. -/
theorem agree_erase_iff (h : Agree k₁ k₂ m) : Agree k₁ k₂ (m.erase k₁ k₂ r) ↔ Fits k₁ k₂ m r :=
  have hnone : ∀ q, (none : Option ρ) = some q → q = r := fun _ hq => by cases hq
  ⟨h.fits_of_update hnone, h.update hnone⟩

end Indexes
