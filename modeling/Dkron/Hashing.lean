import Dkron.CronParser
import Dkron.Lib.Decimal

/-!
# The hash symbol

`scheduleHash` (dkron/job.go) puts a number for every `~` of a schedule: one of the range of its
cron field, made of the name of the job. It finds the position of a field by splitting the schedule
at single spaces, while the cron parser splits it at runs of white space. So the number is the one
of its field only if as many single spaces stand before the field as there are fields before it, up
to fields with the same range.

Main results: `scheduleHash_eq_hashed_iff` and `exists_cronText`.
-/

namespace Dkron

/-! ## Fields of a text -/

theorem fieldsOf_append_cons_space {c : Char} (hc : isSpace c) (xs ys : List Char) :
    fieldsOf (xs ++ c :: ys) = fieldsOf xs ++ fieldsOf ys := by
  rw [fieldsOf, List.splitOnP_append_cons xs ys hc, List.filter_append]
  rfl

theorem fieldsOf_gap_append {gap : List Char} (hgap : ∀ c ∈ gap, isSpace c) (cs : List Char) :
    fieldsOf (gap ++ cs) = fieldsOf cs := by
  induction gap with
  | nil => rfl
  | cons c gap ih =>
    rw [List.cons_append, fieldsOf_cons_space (hgap c List.mem_cons_self)]
    exact ih fun d hd => hgap d (List.mem_cons_of_mem _ hd)

theorem fieldsOf_word {word : List Char} (hne : word ≠ []) (hword : ∀ c ∈ word, ¬isSpace c) :
    fieldsOf word = [word] := by
  have hsplit : word.splitOnP isSpace = [word] :=
    List.splitOnP_eq_singleton fun c hc => by simpa using hword c hc
  rw [fieldsOf, hsplit]
  simp [hne]

/-- A word ends where white space begins. -/
theorem fieldsOf_word_append {word rest : List Char} (hne : word ≠ [])
    (hword : ∀ c ∈ word, ¬isSpace c) (hrest : ∀ c ∈ rest.head?, isSpace c) :
    fieldsOf (word ++ rest) = word :: fieldsOf rest := by
  cases rest with
  | nil =>
    rw [List.append_nil, fieldsOf_word hne hword]
    rfl
  | cons c rest =>
    have hc : isSpace c := hrest c rfl
    rw [fieldsOf_append_cons_space hc, fieldsOf_word hne hword, fieldsOf_cons_space hc]
    rfl

/-- The first word of a text is one of its fields. -/
theorem takeWhile_mem_fieldsOf {cs : List Char} (h : cs.takeWhile (¬isSpace ·) ≠ []) :
    cs.takeWhile (¬isSpace ·) ∈ fieldsOf cs := by
  have hword : ∀ c ∈ cs.takeWhile (¬isSpace ·), ¬isSpace c := fun c hc => by
    simpa using List.mem_takeWhile_imp hc
  have hcs := List.takeWhile_append_dropWhile (p := (¬isSpace ·)) (l := cs)
  cases hrest : cs.dropWhile (¬isSpace ·) with
  | nil =>
    rw [hrest, List.append_nil] at hcs
    have hf := fieldsOf_word h hword
    rw [hcs] at hf ⊢
    simp [hf]
  | cons c rest =>
    have hc : isSpace c := by
      have hhead := List.head?_dropWhile_not (¬isSpace ·) cs
      rw [hrest] at hhead
      simpa using hhead
    rw [hrest] at hcs
    have hf := fieldsOf_append_cons_space hc (cs.takeWhile (¬isSpace ·)) rest
    rw [hcs, fieldsOf_word h hword] at hf
    simp [hf]

/-- A field of a part is a field of the text. -/
theorem fieldsOf_eq_flatMap (cs : List Char) :
    fieldsOf cs = (cs.splitOn ' ').flatMap fieldsOf := by
  have hjoin : ∀ parts : List (List Char),
      fieldsOf ([' '].intercalate parts) = parts.flatMap fieldsOf := by
    intro parts
    induction parts with
    | nil => rfl
    | cons part parts ih =>
      cases parts with
      | nil => simp
      | cons next parts =>
        rw [List.intercalate_cons_cons, List.append_assoc, List.singleton_append,
          fieldsOf_append_cons_space (by decide), ih, List.flatMap_cons, List.flatMap_cons,
          List.flatMap_cons]
  rw [← hjoin, List.intercalate_splitOn]

/-! ## What the loop computes -/

/-- `strings.ReplaceAll` of the hash symbol by a number. -/
def replaceHash (n : ℕ) (cs : List Char) : List Char :=
  cs.flatMap fun c => if c = '~' then (Nat.repr n).toList else [c]

/-- The part is neither a predefined schedule nor a zone. -/
def PlainPart (part : List Char) : Prop :=
  part.head? ≠ some '@' ∧ ¬"TZ=".toList <+: part ∧ ¬"CRON_TZ=".toList <+: part

/-- The parts from the given index on, with numbers for the hash symbols. -/
def replaceParts (hash : ℕ) : ℕ → List (List Char) → List (List Char)
  | _, [] => []
  | i, part :: parts => replaceHash (partHash hash i) part :: replaceParts hash (i + 1) parts

/-- The same on the text: every space begins the next part. -/
def hashChars (hash : ℕ) : ℕ → List Char → List Char
  | _, [] => []
  | i, c :: cs =>
    if c = ' ' then ' ' :: hashChars hash (i + 1) cs
    else replaceHash (partHash hash i) [c] ++ hashChars hash i cs

section

variable {hash i n : ℕ} {cs : List Char}

theorem replaceHash_append (n : ℕ) (xs ys : List Char) :
    replaceHash n (xs ++ ys) = replaceHash n xs ++ replaceHash n ys := List.flatMap_append

theorem replaceHash_of_not_mem (h : '~' ∉ cs) : replaceHash n cs = cs := by
  induction cs with
  | nil => rfl
  | cons c cs ih =>
    simp only [List.mem_cons, not_or] at h
    have hc : c ≠ '~' := fun hc => h.1 hc.symm
    rw [← List.singleton_append, replaceHash_append, ih h.2]
    simp [replaceHash, hc]

theorem hashParts_of_plain (hash i : ℕ) {parts : List (List Char)}
    (h : ∀ part ∈ parts, PlainPart part) :
    hashParts hash i parts = some (replaceParts hash i parts) := by
  induction parts generalizing i with
  | nil => rfl
  | cons part parts ih =>
    obtain ⟨hat, htz, hcron⟩ := h part List.mem_cons_self
    have hzone : ¬("TZ=".toList.isPrefixOf part ∨ "CRON_TZ=".toList.isPrefixOf part) := by
      simp only [List.isPrefixOf_iff_prefix]
      exact not_or.2 ⟨htz, hcron⟩
    rw [hashParts, if_neg hat, if_neg hzone, ih (i + 1) fun p hp => h p (List.mem_cons_of_mem _ hp)]
    rfl

theorem hashParts_zone {zone : List Char} {parts : List (List Char)}
    (h : "TZ=".toList <+: zone ∨ "CRON_TZ=".toList <+: zone) :
    hashParts hash i (zone :: parts) = (hashParts hash i parts).map (zone :: ·) := by
  have hat : zone.head? ≠ some '@' := by
    rcases h with ⟨rest, rfl⟩ | ⟨rest, rfl⟩ <;> simp
  rw [hashParts, if_neg hat, if_pos (by simpa only [List.isPrefixOf_iff_prefix] using h)]

theorem intercalate_replaceParts (hash i : ℕ) (cs : List Char) :
    [' '].intercalate (replaceParts hash i (cs.splitOn ' ')) = hashChars hash i cs := by
  induction cs generalizing i with
  | nil => rfl
  | cons c cs ih =>
    rw [List.splitOn_cons_eq_if_modifyHead, hashChars]
    obtain ⟨part, parts, hsplit⟩ := List.exists_cons_of_ne_nil (List.splitOn_ne_nil ' ' cs)
    by_cases hc : c = ' '
    · rw [if_pos (by simpa using hc), if_pos hc, ← ih, hsplit]
      simp [replaceParts, replaceHash]
    · have hcons := replaceHash_append (partHash hash i) [c] part
      rw [if_neg (by simpa using hc), if_neg hc, ← ih, hsplit, List.modifyHead_cons,
        replaceParts, replaceParts, ← List.singleton_append (x := c), hcons]
      cases replaceParts hash (i + 1) parts <;> simp

theorem hashChars_append (hash i : ℕ) (xs ys : List Char) :
    hashChars hash i (xs ++ ys) = hashChars hash i xs ++ hashChars hash (i + xs.count ' ') ys := by
  induction xs generalizing i with
  | nil => rfl
  | cons c xs ih =>
    rw [List.cons_append, hashChars, hashChars]
    by_cases hc : c = ' '
    · rw [if_pos hc, if_pos hc, ih, hc, List.count_cons_self]
      simp [Nat.add_comm, Nat.add_left_comm]
    · rw [if_neg hc, if_neg hc, ih, List.count_cons_of_ne hc, List.append_assoc]

theorem hashChars_of_not_mem_space (h : ' ' ∉ cs) :
    hashChars hash i cs = replaceHash (partHash hash i) cs := by
  induction cs with
  | nil => rfl
  | cons c cs ih =>
    simp only [List.mem_cons, not_or] at h
    rw [hashChars, if_neg fun hc => h.1 hc.symm, ih h.2, ← replaceHash_append,
      List.singleton_append]

theorem hashChars_of_not_mem_hash (h : '~' ∉ cs) : hashChars hash i cs = cs := by
  induction cs generalizing i with
  | nil => rfl
  | cons c cs ih =>
    simp only [List.mem_cons, not_or] at h
    have hone : '~' ∉ [c] := by simpa using h.1
    rw [hashChars, ih h.2, ih h.2, replaceHash_of_not_mem hone]
    split_ifs with hc <;> simp [hc]

end

/-! ## Layouts -/

/-- A schedule made of six cron fields: a zone, if any, that ends at the first space; the fields,
each after a gap of white space; and white space at the end. -/
structure CronText where
  zone : List Char
  words : List (List Char × List Char)
  trail : List Char
  zone_eq : zone = [] ∨
    ("TZ=".toList <+: zone ∨ "CRON_TZ=".toList <+: zone) ∧ ' ' ∉ zone ∧
      ∃ gap word words', words = (' ' :: gap, word) :: words'
  length_eq : words.length = 6
  gap_space : ∀ w ∈ words, ∀ c ∈ w.1, isSpace c
  gap_ne : ∀ w ∈ words.tail, w.1 ≠ []
  field_ne : ∀ w ∈ words, w.2 ≠ []
  field_space : ∀ w ∈ words, ∀ c ∈ w.2, ¬isSpace c
  field_plain : ∀ w ∈ words, PlainPart w.2
  trail_space : ∀ c ∈ trail, isSpace c

/-- Gaps and fields, put together. -/
def wordsText (words : List (List Char × List Char)) : List Char :=
  words.flatMap fun w => w.1 ++ w.2

/-- The fields with the `i`-th number for their hash symbols. -/
def hashWords (n : ℕ → ℕ) (words : List (List Char × List Char)) :
    List (List Char × List Char) :=
  words.mapIdx fun i w => (w.1, replaceHash (n i) w.2)

/-- The part that the loop takes the field for, when it has counted `k` parts before: the single
spaces up to the field. -/
def spacesBefore (k : ℕ) (words : List (List Char × List Char)) (i : ℕ) : ℕ :=
  k + ((words.take (i + 1)).map fun w => w.1.count ' ').sum

namespace CronText

/-- The schedule. -/
def text (T : CronText) : String := String.ofList (T.zone ++ wordsText T.words ++ T.trail)

/-- The schedule with the `i`-th number for every hash symbol of the field `i`. -/
def hashed (T : CronText) (n : ℕ → ℕ) : String :=
  String.ofList (T.zone ++ wordsText (hashWords n T.words) ++ T.trail)

/-- The text of a field. -/
def field (T : CronText) (i : ℕ) : List Char := (T.words.getD i ([], [])).2

/-- The part of the schedule that begins the field: the space after a zone does not count. -/
def partIndex (T : CronText) (i : ℕ) : ℕ :=
  spacesBefore 0 T.words i - if T.zone = [] then 0 else 1

end CronText

/-- The numbers a field may have: seconds, minutes, hours, days, months and weekdays. -/
def InRange : ℕ → ℕ → Prop
  | 0, n => n ≤ 59
  | 1, n => n ≤ 59
  | 2, n => n ≤ 23
  | 3, n => 1 ≤ n ∧ n ≤ 28
  | 4, n => 1 ≤ n ∧ n ≤ 12
  | 5, n => n ≤ 6
  | _, _ => False

theorem inRange_partHash (hash : ℕ) {i : ℕ} (h : i < 6) : InRange i (partHash hash i) := by
  interval_cases i <;> simp only [InRange, partHash] <;> omega

section

variable {hash k : ℕ} {words : List (List Char × List Char)}

theorem wordsText_cons (w : List Char × List Char) :
    wordsText (w :: words) = w.1 ++ w.2 ++ wordsText words := rfl

theorem spacesBefore_zero (k : ℕ) (w : List Char × List Char) :
    spacesBefore k (w :: words) 0 = k + w.1.count ' ' := by
  simp [spacesBefore]

theorem spacesBefore_succ (k : ℕ) (w : List Char × List Char) (i : ℕ) :
    spacesBefore k (w :: words) (i + 1) = spacesBefore (k + w.1.count ' ') words i := by
  simp [spacesBefore, Nat.add_assoc]

/-- The loop on the fields: each has the number of its part. -/
theorem hashChars_wordsText (hash k : ℕ) (hgap : ∀ w ∈ words, ∀ c ∈ w.1, isSpace c)
    (hword : ∀ w ∈ words, ∀ c ∈ w.2, ¬isSpace c) {trail : List Char}
    (htrail : ∀ c ∈ trail, isSpace c) :
    hashChars hash k (wordsText words ++ trail) =
      wordsText (hashWords (fun i => partHash hash (spacesBefore k words i)) words) ++ trail := by
  have hspace : ∀ gap : List Char, (∀ c ∈ gap, isSpace c) → '~' ∉ gap :=
    fun gap h hmem => absurd (h _ hmem) (by decide)
  induction words generalizing k with
  | nil => exact hashChars_of_not_mem_hash (hspace _ htrail)
  | cons w words ih =>
    have hw : ' ' ∉ w.2 := fun hmem => hword w List.mem_cons_self _ hmem (by decide)
    have hih := ih (k + w.1.count ' ') (fun v hv => hgap v (List.mem_cons_of_mem _ hv))
      fun v hv => hword v (List.mem_cons_of_mem _ hv)
    have hg := hspace _ (hgap w List.mem_cons_self)
    simp only [wordsText, hashWords, List.flatMap_cons, List.mapIdx_cons, List.append_assoc,
      spacesBefore_zero, spacesBefore_succ] at hih ⊢
    rw [hashChars_append, hashChars_of_not_mem_hash hg, hashChars_append,
      hashChars_of_not_mem_space hw, List.count_eq_zero.2 hw, Nat.add_zero, hih]

/-- What stands between white space comes back as the fields. -/
theorem fieldsOf_wordsText (hgap : ∀ w ∈ words, ∀ c ∈ w.1, isSpace c)
    (hne : ∀ w ∈ words.tail, w.1 ≠ []) (hfne : ∀ w ∈ words, w.2 ≠ [])
    (hword : ∀ w ∈ words, ∀ c ∈ w.2, ¬isSpace c) {trail : List Char}
    (htrail : ∀ c ∈ trail, isSpace c) :
    fieldsOf (wordsText words ++ trail) = words.map Prod.snd := by
  induction words with
  | nil =>
    have hgap := fieldsOf_gap_append htrail []
    rwa [List.append_nil] at hgap
  | cons w words ih =>
    have hih := ih (fun v hv => hgap v (List.mem_cons_of_mem _ hv))
      (fun v hv => hne v (List.mem_of_mem_tail hv)) (fun v hv => hfne v (List.mem_cons_of_mem _ hv))
      fun v hv => hword v (List.mem_cons_of_mem _ hv)
    have hhead : ∀ c ∈ (wordsText words ++ trail).head?, isSpace c := by
      intro c hc
      cases words with
      | nil => exact htrail c (List.mem_of_mem_head? hc)
      | cons v words =>
        have hv : v ∈ v :: words := List.mem_cons_self
        obtain ⟨d, ds, hd⟩ := List.exists_cons_of_ne_nil (hne v hv)
        have hcd : d = c := by simpa [wordsText, hd] using hc
        exact hgap v (List.mem_cons_of_mem _ hv) c (by simp [hd, hcd])
    rw [wordsText_cons, List.append_assoc, List.append_assoc,
      fieldsOf_gap_append (hgap w List.mem_cons_self),
      fieldsOf_word_append (hfne w List.mem_cons_self) (hword w List.mem_cons_self) hhead]
    exact congrArg (w.2 :: ·) hih

end

/-! ## Numbers in place of the symbols -/

section

variable {n m : ℕ} {cs : List Char}

theorem repr_not_space : ∀ c ∈ (Nat.repr n).toList, ¬isSpace c := by
  intro c hc
  have hdigit := Decimal.isDigit_of_mem_repr hc
  rw [Char.isDigit, Bool.and_eq_true, decide_eq_true_eq, decide_eq_true_eq] at hdigit
  have hlow : 48 ≤ c.toNat := hdigit.1
  have hhigh : c.toNat ≤ 57 := hdigit.2
  simp only [isSpace, List.mem_cons, List.not_mem_nil, or_false, Bool.decide_or, Bool.or_eq_true,
    decide_eq_true_eq]
  omega

theorem length_replaceHash (n : ℕ) (cs : List Char) :
    (replaceHash n cs).length + cs.count '~' =
      cs.length + cs.count '~' * (Nat.repr n).toList.length := by
  induction cs with
  | nil => simp [replaceHash]
  | cons c cs ih =>
    rw [← List.singleton_append, replaceHash_append, List.length_append, List.length_append,
      List.count_append]
    by_cases hc : c = '~'
    · have hone : replaceHash n [c] = (Nat.repr n).toList := by simp [replaceHash, hc]
      rw [hone, hc, List.count_singleton_self, Nat.add_mul, Nat.one_mul]
      simp only [List.length_cons, List.length_nil]
      omega
    · rw [replaceHash_of_not_mem (by simpa using Ne.symm hc),
        List.count_eq_zero.2 (by simpa using Ne.symm hc)]
      simp only [List.length_cons, List.length_nil, Nat.zero_add]
      omega

/-- Two numbers make the same text only where there is no symbol, or if they are the same. -/
theorem replaceHash_eq_iff : replaceHash n cs = replaceHash m cs ↔ ('~' ∈ cs → n = m) := by
  refine ⟨fun h hmem => ?_, fun h => ?_⟩
  · have hn := length_replaceHash n cs
    have hm := length_replaceHash m cs
    have hpos : 0 < cs.count '~' := List.count_pos_iff.2 hmem
    rw [h] at hn
    have hmul : cs.count '~' * (Nat.repr n).toList.length =
        cs.count '~' * (Nat.repr m).toList.length := by omega
    have hlen := Nat.eq_of_mul_eq_mul_left hpos hmul
    obtain ⟨xs, ys, rfl⟩ := List.append_of_mem hmem
    have hxs := length_replaceHash n xs
    have hxs' := length_replaceHash m xs
    rw [hlen] at hxs
    have hsplit : ∀ k, replaceHash k (xs ++ '~' :: ys) =
        replaceHash k xs ++ ((Nat.repr k).toList ++ replaceHash k ys) := fun k => by
      rw [replaceHash_append]
      rfl
    rw [hsplit, hsplit] at h
    have htail := List.append_inj_right h (by omega)
    exact Decimal.repr_toList_inj (List.append_inj_left htail hlen)
  · by_cases hmem : '~' ∈ cs
    · rw [h hmem]
    · rw [replaceHash_of_not_mem hmem, replaceHash_of_not_mem hmem]

theorem replaceHash_not_space (h : ∀ c ∈ cs, ¬isSpace c) : ∀ c ∈ replaceHash n cs, ¬isSpace c := by
  intro c hc
  obtain ⟨d, hd, hcd⟩ := List.mem_flatMap.1 hc
  split_ifs at hcd with hhash
  · exact repr_not_space c hcd
  · rw [List.mem_singleton.1 hcd]
    exact h d hd

theorem replaceHash_ne_nil (h : cs ≠ []) : replaceHash n cs ≠ [] := by
  obtain ⟨c, cs, rfl⟩ := List.exists_cons_of_ne_nil h
  rw [← List.singleton_append, replaceHash_append]
  by_cases hc : c = '~'
  · simp [replaceHash, hc]
  · rw [replaceHash_of_not_mem (by simpa using Ne.symm hc)]
    simp

end

namespace CronText

variable (T : CronText) {n m : ℕ → ℕ} {hash : ℕ}

theorem mem_hashWords {w : List Char × List Char} (h : w ∈ hashWords n T.words) :
    ∃ v ∈ T.words, w.1 = v.1 ∧ ∃ k, w.2 = replaceHash k v.2 := by
  obtain ⟨i, hi, rfl⟩ := List.mem_mapIdx.1 h
  exact ⟨T.words[i], List.getElem_mem hi, rfl, n i, rfl⟩

theorem mem_tail_hashWords {w : List Char × List Char} (h : w ∈ (hashWords n T.words).tail) :
    ∃ v ∈ T.words.tail, w.1 = v.1 := by
  cases hws : T.words with
  | nil => simp [hashWords, hws] at h
  | cons v ws =>
    rw [hws, hashWords, List.mapIdx_cons, List.tail_cons] at h
    obtain ⟨i, hi, rfl⟩ := List.mem_mapIdx.1 h
    exact ⟨ws[i], List.getElem_mem hi, rfl⟩

/-- The fields of the schedule with numbers. -/
theorem fieldsOf_hashWords (n : ℕ → ℕ) :
    fieldsOf (wordsText (hashWords n T.words) ++ T.trail) =
      (hashWords n T.words).map Prod.snd := by
  refine fieldsOf_wordsText ?_ ?_ ?_ ?_ T.trail_space
  · intro w hw
    obtain ⟨v, hv, hgap, -⟩ := T.mem_hashWords hw
    rw [hgap]
    exact T.gap_space v hv
  · intro w hw
    obtain ⟨v, hv, hgap⟩ := T.mem_tail_hashWords hw
    rw [hgap]
    exact T.gap_ne v hv
  · intro w hw
    obtain ⟨v, hv, -, k, hword⟩ := T.mem_hashWords hw
    rw [hword]
    exact replaceHash_ne_nil (T.field_ne v hv)
  · intro w hw
    obtain ⟨v, hv, -, k, hword⟩ := T.mem_hashWords hw
    rw [hword]
    exact replaceHash_not_space (T.field_space v hv)

theorem field_eq {i : ℕ} (hi : i < 6) : ∃ w ∈ T.words, T.words[i]? = some w ∧ T.field i = w.2 := by
  have hlt : i < T.words.length := by
    rw [T.length_eq]
    exact hi
  refine ⟨T.words[i], List.getElem_mem hlt, List.getElem?_eq_getElem hlt, ?_⟩
  rw [field, List.getD_eq_getElem _ _ hlt]

/-- The numbers can be read off the schedule, wherever there is a symbol. -/
theorem hashed_eq_iff : T.hashed n = T.hashed m ↔ ∀ i < 6, '~' ∈ T.field i → n i = m i := by
  refine ⟨fun h i hi => ?_, fun h => ?_⟩
  · have htext := congrArg String.toList h
    rw [hashed, hashed, String.toList_ofList, String.toList_ofList, List.append_assoc,
      List.append_assoc] at htext
    have hf := congrArg fieldsOf (List.append_cancel_left htext)
    rw [fieldsOf_hashWords, fieldsOf_hashWords] at hf
    obtain ⟨w, -, hget, hfield⟩ := T.field_eq hi
    have hi' := congrArg (·[i]?) hf
    simp only [hashWords, List.getElem?_map, List.getElem?_mapIdx, hget, Option.map_some,
      Option.some.injEq] at hi'
    rw [hfield]
    exact replaceHash_eq_iff.1 hi'
  · have hwords : hashWords n T.words = hashWords m T.words := by
      apply List.mapIdx_eq_mapIdx_iff.2
      intro i hi
      have hi' : i < 6 := T.length_eq ▸ hi
      obtain ⟨w, -, hget, hfield⟩ := T.field_eq hi'
      have hw : T.words[i] = w := (List.getElem?_eq_some_iff.1 hget).2
      have hnm := h i hi'
      rw [hfield] at hnm
      rw [hw, replaceHash_eq_iff.2 hnm]
    rw [hashed, hashed, hwords]

/-! ## The loop on a layout -/

theorem hashWords_of_not_mem {words : List (List Char × List Char)}
    (h : ∀ w ∈ words, '~' ∉ w.2) : hashWords n words = words := by
  induction words generalizing n with
  | nil => rfl
  | cons w words ih =>
    have htail := ih (n := fun i => n (i + 1)) fun v hv => h v (List.mem_cons_of_mem _ hv)
    rw [hashWords, List.mapIdx_cons, replaceHash_of_not_mem (h w List.mem_cons_self)]
    exact congrArg (w :: ·) htail

theorem prefix_takeWhile {pre part : List Char} (hpre : ∀ c ∈ pre, ¬isSpace c)
    (h : pre <+: part) : pre <+: part.takeWhile (¬isSpace ·) := by
  obtain ⟨rest, rfl⟩ := h
  rw [List.takeWhile_append_of_pos fun c hc => by simpa using hpre c hc]
  exact List.prefix_append _ _

/-- The parts that follow the zone are no zones and no predefined schedules. -/
theorem plain_of_mem_splitOn {part : List Char}
    (h : part ∈ (wordsText T.words ++ T.trail).splitOn ' ') : PlainPart part := by
  have hword : PlainPart (part.takeWhile (¬isSpace ·)) := by
    by_cases hne : part.takeWhile (¬isSpace ·) = []
    · rw [hne]
      exact ⟨by simp, by decide, by decide⟩
    have hmem : part.takeWhile (¬isSpace ·) ∈ fieldsOf (wordsText T.words ++ T.trail) := by
      rw [fieldsOf_eq_flatMap]
      exact List.mem_flatMap.2 ⟨part, h, takeWhile_mem_fieldsOf hne⟩
    rw [fieldsOf_wordsText T.gap_space T.gap_ne T.field_ne T.field_space T.trail_space] at hmem
    obtain ⟨w, hw, hweq⟩ := List.mem_map.1 hmem
    rw [← hweq]
    exact T.field_plain w hw
  refine ⟨fun hat => hword.1 ?_, fun htz => hword.2.1 (prefix_takeWhile ?_ htz),
    fun hcron => hword.2.2 (prefix_takeWhile ?_ hcron)⟩
  · obtain ⟨cs, rfl⟩ : ∃ cs, part = '@' :: cs := List.head?_eq_some_iff.1 hat
    rw [List.takeWhile_cons_of_pos (by decide)]
    rfl
  all_goals simp [isSpace]

/-- The zone is kept, and the space that ends it does not count. -/
theorem hashParts_text (hash : ℕ) :
    (hashParts hash 0 ((T.zone ++ wordsText T.words ++ T.trail).splitOn ' ')).map
        ([' '].intercalate ·) =
      some (T.zone ++ wordsText (hashWords (fun i => partHash hash (T.partIndex i)) T.words) ++
        T.trail) := by
  rcases T.zone_eq with hzone | ⟨hzone, hspace, gap, word, words, hwords⟩
  · have hparts := hashParts_of_plain hash 0 fun part => T.plain_of_mem_splitOn
    have hchars := hashChars_wordsText hash 0 T.gap_space T.field_space
      T.trail_space
    simp only [hzone, List.nil_append, partIndex, if_pos, Nat.sub_zero]
    rw [hparts, Option.map_some, intercalate_replaceParts, hchars]
  · have hne : T.zone ≠ [] := by
      rintro hnil
      rw [hnil] at hzone
      exact absurd hzone (by decide)
    -- without the space that ends the zone, the rest is a schedule without a zone
    have hbody : wordsText T.words ++ T.trail =
        ' ' :: (wordsText ((gap, word) :: words) ++ T.trail) := by
      rw [hwords, wordsText_cons, wordsText_cons]
      rfl
    have hplain : ∀ part ∈ (wordsText ((gap, word) :: words) ++ T.trail).splitOn ' ',
        PlainPart part := by
      intro part hpart
      apply T.plain_of_mem_splitOn
      rw [hbody, List.splitOn_cons_eq_if_modifyHead, if_pos (by rfl)]
      exact List.mem_cons_of_mem _ hpart
    have hgap := T.gap_space
    have hword := T.field_space
    rw [hwords, List.forall_mem_cons] at hgap hword
    have hgap' : ∀ w ∈ (gap, word) :: words, ∀ c ∈ w.1, isSpace c :=
      List.forall_mem_cons.2 ⟨fun c hc => hgap.1 c (List.mem_cons_of_mem _ hc), hgap.2⟩
    have hword' : ∀ w ∈ (gap, word) :: words, ∀ c ∈ w.2, ¬isSpace c :=
      List.forall_mem_cons.2 ⟨hword.1, hword.2⟩
    have hchars := hashChars_wordsText hash 0 hgap' hword' T.trail_space
    have hindex : ∀ i, T.partIndex i = spacesBefore 0 ((gap, word) :: words) i := by
      intro i
      rw [partIndex, if_neg hne, hwords]
      simp [spacesBefore]
    rw [List.append_assoc, hbody, List.splitOn_append_cons_self_of_not_mem hspace,
      hashParts_zone hzone, hashParts_of_plain hash 0 hplain, Option.map_some, Option.map_some]
    obtain ⟨part, parts, hsplit⟩ := List.exists_cons_of_ne_nil
      (List.splitOn_ne_nil ' ' (wordsText ((gap, word) :: words) ++ T.trail))
    have hjoin := intercalate_replaceParts hash 0 (wordsText ((gap, word) :: words) ++ T.trail)
    rw [hsplit, replaceParts] at hjoin ⊢
    rw [List.intercalate_cons_cons, hjoin, hchars]
    simp only [hindex, hwords, hashWords, List.mapIdx_cons, wordsText_cons]
    simp

/-- The loop of `scheduleHash` on a schedule of six fields. -/
theorem scheduleHash_text (job : Job) :
    { job with schedule := T.text }.scheduleHash =
      T.hashed fun i => partHash (nameHash job.name) (T.partIndex i) := by
  have hparts := T.hashParts_text (nameHash job.name)
  rw [Job.scheduleHash]
  simp only [text, String.toList_ofList]
  by_cases hmem : '~' ∈ T.zone ++ wordsText T.words ++ T.trail
  · rw [if_pos (by simpa using hmem)]
    obtain ⟨parts, hsome, hjoin⟩ := Option.map_eq_some_iff.1 hparts
    rw [hsome]
    exact congrArg String.ofList hjoin
  · have hwords : hashWords (fun i => partHash (nameHash job.name) (T.partIndex i)) T.words =
        T.words := by
      refine hashWords_of_not_mem fun w hw hhash => hmem ?_
      have hbody : '~' ∈ wordsText T.words :=
        List.mem_flatMap.2 ⟨w, hw, List.mem_append_right _ hhash⟩
      simp [hbody]
    rw [if_neg (by simpa using hmem), hashed, hwords]

end CronText

/-! ## Every schedule of six fields has a layout -/

/-- A text is gaps and fields. -/
theorem exists_words (cs : List Char) : ∃ words trail, cs = wordsText words ++ trail ∧
    (∀ w ∈ words, ∀ c ∈ w.1, isSpace c) ∧ (∀ w ∈ words.tail, w.1 ≠ []) ∧
    (∀ w ∈ words, w.2 ≠ [] ∧ ∀ c ∈ w.2, ¬isSpace c) ∧ ∀ c ∈ trail, isSpace c := by
  induction cs with
  | nil => exact ⟨[], [], rfl, by simp, by simp, by simp, by simp⟩
  | cons c cs ih =>
    obtain ⟨words, trail, rfl, hgap, hne, hfield, htrail⟩ := ih
    by_cases hc : isSpace c
    · cases words with
      | nil => exact ⟨[], c :: trail, rfl, by simp, by simp, by simp, by simpa [hc] using htrail⟩
      | cons w words =>
        rw [List.forall_mem_cons] at hgap hfield
        exact ⟨(c :: w.1, w.2) :: words, trail, rfl,
          List.forall_mem_cons.2 ⟨by simpa [hc] using hgap.1, hgap.2⟩, hne,
          List.forall_mem_cons.2 hfield, htrail⟩
    · match words, hgap, hne, hfield with
      | [], _, _, _ =>
        refine ⟨[([], [c])], trail, rfl, by simp, by simp, ?_, htrail⟩
        simpa using hc
      | ([], word) :: words, hgap, hne, hfield =>
        rw [List.forall_mem_cons] at hgap hfield
        refine ⟨([], c :: word) :: words, trail, rfl, List.forall_mem_cons.2 ⟨by simp, hgap.2⟩, hne,
          List.forall_mem_cons.2 ⟨⟨by simp, ?_⟩, hfield.2⟩, htrail⟩
        simpa [hc] using hfield.1.2
      | (d :: gap, word) :: words, hgap, hne, hfield =>
        refine ⟨([], [c]) :: (d :: gap, word) :: words, trail, rfl,
          List.forall_mem_cons.2 ⟨by simp, hgap⟩, List.forall_mem_cons.2 ⟨by simp, hne⟩,
          List.forall_mem_cons.2 ⟨by simpa using hc, hfield⟩, htrail⟩

/-- A schedule with six fields, none of which begins like a zone or a predefined schedule, is the
text of a layout, and the fields of the layout are those the cron parser splits it into. -/
theorem exists_cronText {zone cs : List Char} (hzone : zone = [] ∨
      ("TZ=".toList <+: zone ∨ "CRON_TZ=".toList <+: zone) ∧ ' ' ∉ zone ∧ cs.head? = some ' ')
    (hlen : (fieldsOf cs).length = 6) (hplain : ∀ f ∈ fieldsOf cs, PlainPart f) :
    ∃ T : CronText, T.text = String.ofList (zone ++ cs) ∧ T.zone = zone ∧
      T.words.map Prod.snd = fieldsOf cs := by
  obtain ⟨words, trail, rfl, hgap, hne, hfield, htrail⟩ := exists_words cs
  rw [fieldsOf_wordsText hgap hne (fun w hw => (hfield w hw).1) (fun w hw => (hfield w hw).2)
    htrail] at hlen hplain ⊢
  rw [List.length_map] at hlen
  have hhead : zone = [] ∨
      ("TZ=".toList <+: zone ∨ "CRON_TZ=".toList <+: zone) ∧ ' ' ∉ zone ∧
        ∃ gap word words', words = (' ' :: gap, word) :: words' := by
    refine hzone.imp_right fun h => ⟨h.1, h.2.1, ?_⟩
    match words, hlen, hfield, h.2.2 with
    | ([], word) :: words, _, hfield, hcs =>
      obtain ⟨hwne, hword⟩ := hfield ([], word) List.mem_cons_self
      obtain ⟨c, word, rfl⟩ := List.exists_cons_of_ne_nil hwne
      have hc : c = ' ' := by simpa [wordsText_cons] using hcs
      exact absurd (hword c List.mem_cons_self) (by rw [hc]; decide)
    | (c :: gap, word) :: words, _, _, hcs =>
      have hc : c = ' ' := by simpa [wordsText_cons] using hcs
      exact ⟨gap, word, words, by rw [hc]⟩
  refine ⟨⟨zone, words, trail, hhead, hlen, hgap, hne, fun w hw => (hfield w hw).1,
    fun w hw => (hfield w hw).2, fun w hw => hplain _ (List.mem_map_of_mem hw), htrail⟩,
    ?_, rfl, rfl⟩
  simp [CronText.text]

/-- Every field has a number of its own range, and it is the one of its position exactly if there is
no symbol in it or its part has the same number. -/
theorem scheduleHash_eq_hashed_iff (job : Job) (T : CronText) :
    (∀ i < 6, InRange i (partHash (nameHash job.name) i)) ∧
      ({ job with schedule := T.text }.scheduleHash =
          T.hashed (partHash (nameHash job.name)) ↔
        ∀ i < 6, '~' ∈ T.field i →
          partHash (nameHash job.name) (T.partIndex i) = partHash (nameHash job.name) i) := by
  refine ⟨fun i => inRange_partHash _, ?_⟩
  rw [T.scheduleHash_text job, T.hashed_eq_iff]

/-- With one space in every gap the fields are the parts. -/
theorem CronText.partIndex_of_single_spaces (T : CronText)
    (hhead : ∀ w ∈ T.words.head?, w.1.count ' ' = if T.zone = [] then 0 else 1)
    (htail : ∀ w ∈ T.words.tail, w.1.count ' ' = 1) {i : ℕ} (hi : i < 6) : T.partIndex i = i := by
  have hlen := T.length_eq
  rw [partIndex]
  cases hwords : T.words with
  | nil => simp [hwords] at hlen
  | cons w words =>
    rw [hwords] at hhead htail hlen
    rw [spacesBefore, List.take_succ_cons, List.map_cons, List.sum_cons, hhead w rfl]
    have hones : (words.take i).map (fun w => w.1.count ' ') = List.replicate i 1 := by
      refine List.eq_replicate_iff.2 ⟨?_, fun n hn => ?_⟩
      · rw [List.length_map, List.length_take]
        rw [List.length_cons] at hlen
        omega
      · obtain ⟨v, hv, rfl⟩ := List.mem_map.1 hn
        exact htail v (List.mem_of_mem_take hv)
    rw [hones, List.sum_replicate]
    split_ifs <;> simp

/-- Hours from the hash symbol, after minutes at the end of the given gap. -/
def hourlyText (gap : List Char) (hne : gap ≠ []) (hgap : ∀ c ∈ gap, isSpace c) : CronText where
  zone := []
  words :=
    [([], ['0']), (gap, ['0']), ([' '], ['~']), ([' '], ['*']), ([' '], ['*']), ([' '], ['*'])]
  trail := []
  zone_eq := Or.inl rfl
  length_eq := rfl
  gap_space := by simpa [isSpace] using hgap
  gap_ne := by simpa using hne
  field_ne := by simp
  field_space := by simp [isSpace]
  field_plain := by simp [PlainPart]
  trail_space := by simp

/-- No choice of numbers is right for one space and for two: `0 0 ~ * * *` and `0  0 ~ * * *` have
the hours `1` and `14` in a job with the name `a`. -/
theorem no_numbers_for_fields :
    ¬∃ f : String → ℕ → ℕ, ∀ (job : Job) (T : CronText),
      { job with schedule := T.text }.scheduleHash = T.hashed (f job.name) := by
  rintro ⟨f, hf⟩
  have hone := hf { name := "a" } (hourlyText [' '] (by simp) (by simp [isSpace]))
  have htwo := hf { name := "a" } (hourlyText [' ', ' '] (by simp) (by simp [isSpace]))
  rw [CronText.scheduleHash_text, CronText.hashed_eq_iff] at hone htwo
  have h1 : 1 = f "a" 2 := hone 2 (by decide) (by decide)
  have h2 : 14 = f "a" 2 := htwo 2 (by decide) (by decide)
  omega

end Dkron
