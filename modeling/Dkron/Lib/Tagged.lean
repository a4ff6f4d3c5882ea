import Mathlib.Data.List.Sort
import Mathlib.Order.Basic

/-!
# Texts of tagged values

A list of values under different keys is written as one text: each value behind a tag that names
its key, with a separator between two parts. Nothing is escaped, so a value that contains a
separator and a tag reads like two parts.

`encode_inj`: lists without such values have different texts. `unique_iff`: a list is the only one
with its text exactly when it has no part, or one part that cannot be read as two.
-/

namespace Tagged

variable {α K : Type*}

/-- The first list is below the second at the first position where they differ, and both have
this position. -/
def Diverges [LT α] : List α → List α → Prop
  | a :: as, b :: bs => a < b ∨ (a = b ∧ Diverges as bs)
  | _, _ => False

instance instDecidableDiverges [LT α] [DecidableEq α] [DecidableLT α] :
    ∀ as bs : List α, Decidable (Diverges as bs)
  | [], _ => isFalse (by simp [Diverges])
  | _ :: _, [] => isFalse (by simp [Diverges])
  | a :: as, b :: bs =>
    @instDecidableOr _ _ _ (@instDecidableAnd _ _ _ (instDecidableDiverges as bs))

section

variable [Preorder α] {as bs : List α}

/-- What comes behind does not matter. -/
theorem Diverges.append (h : Diverges as bs) (xs ys : List α) :
    Diverges (as ++ xs) (bs ++ ys) := by
  induction as generalizing bs with
  | nil => cases h
  | cons a as ih =>
    cases bs with
    | nil => cases h
    | cons b bs =>
      rcases h with h | ⟨rfl, h⟩
      · exact Or.inl h
      · exact Or.inr ⟨rfl, ih h⟩

theorem Diverges.irrefl (as : List α) : ¬Diverges as as := by
  induction as with
  | nil => exact not_false
  | cons a as ih =>
    rintro (h | ⟨-, h⟩)
    · exact lt_irrefl a h
    · exact ih h

theorem Diverges.asymm (h : Diverges as bs) : ¬Diverges bs as := by
  induction as generalizing bs with
  | nil => cases h
  | cons a as ih =>
    cases bs with
    | nil => cases h
    | cons b bs =>
      rintro (h' | ⟨heq, h'⟩)
      · rcases h with h | ⟨rfl, -⟩
        · exact lt_asymm h h'
        · exact lt_irrefl _ h'
      · subst heq
        rcases h with h | ⟨-, h⟩
        · exact lt_irrefl _ h
        · exact ih h h'

theorem Diverges.append_ne (h : Diverges as bs) (xs ys : List α) : as ++ xs ≠ bs ++ ys := by
  intro heq
  have hdiv := h.append xs ys
  rw [heq] at hdiv
  exact Diverges.irrefl _ hdiv

theorem Diverges.lt (h : Diverges as bs) : as < bs := by
  induction as generalizing bs with
  | nil => cases h
  | cons a as ih =>
    cases bs with
    | nil => cases h
    | cons b bs =>
      rcases h with h | ⟨rfl, h⟩
      · exact List.Lex.rel h
      · exact List.Lex.cons (ih h)

end

/-- Tags for keys, no two of which agree up to the end of one, and a separator that is in none. -/
structure Tagging (α K : Type*) [LT α] where
  tag : K → List α
  sep : α
  apart : ∀ k k', k = k' ∨ Diverges (tag k) (tag k') ∨ Diverges (tag k') (tag k)
  tag_ne_nil : ∀ k, tag k ≠ []
  sep_not_mem : ∀ k, sep ∉ tag k

namespace Tagging

variable [Preorder α] (T : Tagging α K)

/-- The tag of the first key comes before that of the second. -/
def Before (k k' : K) : Prop := Diverges (T.tag k) (T.tag k')

/-- The parts behind the first. -/
def rest : List (K × List α) → List α
  | [] => []
  | p :: ps => T.sep :: (T.tag p.1 ++ (p.2 ++ rest ps))

/-- The text of a list of parts. -/
def encode : List (K × List α) → List α
  | [] => []
  | p :: ps => T.tag p.1 ++ (p.2 ++ T.rest ps)

/-- Keys in the order of their tags, and no empty value. -/
structure Valid (ps : List (K × List α)) : Prop where
  ordered : ps.Pairwise fun p q => T.Before p.1 q.1
  ne_nil : ∀ p ∈ ps, p.2 ≠ []

/-- The value contains a separator and the tag of a later key. -/
def Splits (p : K × List α) : Prop :=
  ∃ k u w, T.Before p.1 k ∧ u ≠ [] ∧ p.2 = u ++ T.sep :: (T.tag k ++ w)

/-- And a value for this key. -/
def SplitsWhole (p : K × List α) : Prop :=
  ∃ k u w, T.Before p.1 k ∧ u ≠ [] ∧ w ≠ [] ∧ p.2 = u ++ T.sep :: (T.tag k ++ w)

variable {T} {p : K × List α} {ps qs : List (K × List α)}

/-- The text is that of the parts with the separator between them. -/
theorem encode_eq_intercalate (ps : List (K × List α)) :
    T.encode ps = [T.sep].intercalate (ps.map fun p => T.tag p.1 ++ p.2) := by
  induction ps with
  | nil => rfl
  | cons p ps ih =>
    cases ps with
    | nil => simp [encode, rest]
    | cons q qs =>
      rw [List.map_cons] at ih
      rw [List.map_cons, List.map_cons, List.intercalate_cons_cons, ← ih]
      simp [encode, rest]

theorem valid_cons : T.Valid (p :: ps) ↔
    (∀ q ∈ ps, T.Before p.1 q.1) ∧ p.2 ≠ [] ∧ T.Valid ps := by
  constructor
  · rintro ⟨ho, hn⟩
    rw [List.pairwise_cons] at ho
    rw [List.forall_mem_cons] at hn
    exact ⟨ho.1, hn.1, ho.2, hn.2⟩
  · rintro ⟨hb, hp, ho, hn⟩
    exact ⟨List.pairwise_cons.2 ⟨hb, ho⟩, List.forall_mem_cons.2 ⟨hp, hn⟩⟩

/-- A list is determined by its parts: the tags order them. -/
theorem Valid.eq_of_mem_iff (hps : T.Valid ps) (hqs : T.Valid qs) (h : ∀ p, p ∈ ps ↔ p ∈ qs) :
    ps = qs := by
  have hirrefl : Std.Irrefl fun p q : K × List α => T.Before p.1 q.1 :=
    ⟨fun p => Diverges.irrefl _⟩
  have hantisymm : Std.Antisymm fun p q : K × List α => T.Before p.1 q.1 :=
    ⟨fun p q hpq hqp => absurd hqp hpq.asymm⟩
  exact List.Pairwise.eq_of_mem_iff hps.ordered hqs.ordered h

theorem encode_eq_nil : T.encode ps = [] ↔ ps = [] := by
  cases ps with
  | nil => exact iff_of_true rfl rfl
  | cons p ps => simp [encode, T.tag_ne_nil]

theorem rest_eq_nil : T.rest ps = [] ↔ ps = [] := by
  cases ps with
  | nil => exact iff_of_true rfl rfl
  | cons p ps => simp [rest]

theorem encode_eq_of_rest_eq (h : T.rest ps = T.rest qs) : T.encode ps = T.encode qs := by
  cases ps with
  | nil =>
    obtain rfl := rest_eq_nil.1 h.symm
    rfl
  | cons p ps =>
    cases qs with
    | nil => exact absurd (rest_eq_nil.1 h) (by simp)
    | cons q qs => exact (List.cons.inj h).2

/-- The tag at the beginning of a text is determined. -/
theorem eq_of_tag_append {k k' : K} {xs ys : List α} (h : T.tag k ++ xs = T.tag k' ++ ys) :
    k = k' ∧ xs = ys := by
  rcases T.apart k k' with rfl | hdiv | hdiv
  · exact ⟨rfl, List.append_cancel_left h⟩
  · exact absurd h (hdiv.append_ne xs ys)
  · exact absurd h.symm (hdiv.append_ne ys xs)

/-- What begins the parts behind the first, and is followed by such parts, ends in a value. -/
theorem eq_sep_tag_append {xs : List α} (hxs : xs ≠ []) (h : T.rest ps = xs ++ T.rest qs) :
    ∃ p ps' w, ps = p :: ps' ∧ xs = T.sep :: (T.tag p.1 ++ w) := by
  cases ps with
  | nil => exact absurd (List.append_eq_nil_iff.1 h.symm).1 hxs
  | cons p ps =>
    cases xs with
    | nil => exact absurd rfl hxs
    | cons x xs =>
      rw [rest, List.cons_append] at h
      obtain ⟨rfl, htail⟩ := List.cons.inj h
      refine ⟨p, ps, ?_⟩
      rcases List.append_eq_append_iff.1 htail with ⟨w, hw, -⟩ | ⟨c, hc, hrest⟩
      · exact ⟨w, rfl, by rw [hw]⟩
      · cases c with
        | nil => exact ⟨[], rfl, by rw [List.append_nil, hc, List.append_nil]⟩
        | cons b c =>
          -- the parts that follow begin with a separator, which is not in a tag
          cases qs with
          | nil => cases hrest
          | cons q qs =>
            have hb : T.sep = b := (List.cons.inj hrest).1
            exact absurd (by rw [hc, hb]; simp) (T.sep_not_mem p.1)

/-- Two ways to cut a text into a value and further parts: one, or the longer value splits. -/
theorem cut_cases {v v' : List α} (h : v ++ T.rest ps = v' ++ T.rest qs) :
    (v = v' ∧ T.rest ps = T.rest qs) ∨
      (∃ p ps' w, ps = p :: ps' ∧ v' = v ++ T.sep :: (T.tag p.1 ++ w)) ∨
      ∃ q qs' w, qs = q :: qs' ∧ v = v' ++ T.sep :: (T.tag q.1 ++ w) := by
  rcases List.append_eq_append_iff.1 h with ⟨xs, hv, hrest⟩ | ⟨xs, hv, hrest⟩
  · by_cases hxs : xs = []
    · subst hxs
      rw [List.append_nil] at hv
      exact Or.inl ⟨hv.symm, hrest⟩
    · obtain ⟨p, ps', w, rfl, rfl⟩ := eq_sep_tag_append hxs hrest
      exact Or.inr (Or.inl ⟨p, ps', w, rfl, hv⟩)
  · by_cases hxs : xs = []
    · subst hxs
      rw [List.append_nil] at hv
      exact Or.inl ⟨hv, hrest.symm⟩
    · obtain ⟨q, qs', w, rfl, rfl⟩ := eq_sep_tag_append hxs hrest
      exact Or.inr (Or.inr ⟨q, qs', w, rfl, hv⟩)

/-- **Lists without values that split are told apart by their texts.** -/
theorem encode_inj (hps : T.Valid ps) (hqs : T.Valid qs) (hps' : ∀ p ∈ ps, ¬T.Splits p)
    (hqs' : ∀ q ∈ qs, ¬T.Splits q) (h : T.encode ps = T.encode qs) : ps = qs := by
  induction ps generalizing qs with
  | nil => exact (encode_eq_nil.1 h.symm).symm
  | cons p ps ih =>
    cases qs with
    | nil => exact absurd (encode_eq_nil.1 h) (by simp)
    | cons q qs =>
      obtain ⟨hkey, htail⟩ := eq_of_tag_append h
      rw [valid_cons] at hps hqs
      rw [List.forall_mem_cons] at hps' hqs'
      rcases cut_cases htail with ⟨hv, hrest⟩ | ⟨r, rs, w, rfl, hv⟩ | ⟨r, rs, w, rfl, hv⟩
      · rw [ih hps.2.2 hqs.2.2 hps'.2 hqs'.2 (encode_eq_of_rest_eq hrest), Prod.ext hkey hv]
      · refine absurd ⟨r.1, p.2, w, ?_, hps.2.1, hv⟩ hqs'.1
        rw [← hkey]
        exact hps.1 r List.mem_cons_self
      · refine absurd ⟨r.1, q.2, w, ?_, hqs.2.1, hv⟩ hps'.1
        rw [hkey]
        exact hqs.1 r List.mem_cons_self

/-- **When a list is the only one with its text.** -/
theorem unique_iff (hps : T.Valid ps) :
    (∀ qs, T.Valid qs → T.encode qs = T.encode ps → qs = ps) ↔
      ps = [] ∨ ∃ p, ps = [p] ∧ ¬T.SplitsWhole p := by
  constructor
  · intro h
    cases ps with
    | nil => exact Or.inl rfl
    | cons p ps =>
      rw [valid_cons] at hps
      cases ps with
      | nil =>
        refine Or.inr ⟨p, rfl, ?_⟩
        rintro ⟨k, u, w, hk, hu, hw, hp⟩
        have hvalid : T.Valid [(p.1, u), (k, w)] :=
          ⟨by simpa using hk, by simp [hu, hw]⟩
        have := h _ hvalid (by simp [encode, rest, hp])
        simp at this
      | cons q ps =>
        obtain ⟨hbefore, hp, hvalid⟩ := hps
        have hq := valid_cons.1 hvalid
        have hmerged : T.Valid ((p.1, p.2 ++ T.sep :: (T.tag q.1 ++ q.2)) :: ps) :=
          valid_cons.2 ⟨fun r hr => hbefore r (List.mem_cons_of_mem _ hr), by simp, hq.2.2⟩
        have hlength := congrArg List.length (h _ hmerged (by simp [encode, rest]))
        simp at hlength
  · rintro (rfl | ⟨p, rfl, hp⟩) qs hqs h
    · exact encode_eq_nil.1 h
    · cases qs with
      | nil => exact absurd (encode_eq_nil.1 h.symm) (by simp)
      | cons q qs =>
        obtain ⟨hkey, htail⟩ := eq_of_tag_append h
        rw [rest, List.append_nil] at htail
        rw [valid_cons] at hqs
        cases qs with
        | nil =>
          rw [rest, List.append_nil] at htail
          rw [Prod.ext hkey htail]
        | cons r qs =>
          have hr := valid_cons.1 hqs.2.2
          refine absurd ⟨r.1, q.2, r.2 ++ T.rest qs, ?_, hqs.2.1, ?_, ?_⟩ hp
          · rw [← hkey]
            exact hqs.1 r List.mem_cons_self
          · simp [hr.2.1]
          · rw [← htail, rest]

end Tagging

end Tagged
