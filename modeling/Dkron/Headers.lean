import Dkron.RaftPeers

/-!
# Custom headers

The HTTP executor and the two webhooks add headers that are configured as texts `name: value`.
Each has its own copy of one loop, which splits a text at its colons and takes the first two
parts. The webhooks set the host of the request instead of a header of that name.

**Theorem (`headers_iff`).** The loops set what the texts say exactly when every text that is not
empty has one colon: without a colon there is no second part, and the index is out of range; from a
second colon on the value is lost.

What is set is compared as the list of settings in their order; that a request keeps the last value
of a header is not looked at.
-/

namespace Dkron

/-! ## The loops -/

/-- A setting of the request: `req.Host` or `req.Header.Set`. -/
inductive HeaderSetting where
  | host (value : String)
  | header (name value : String)
deriving DecidableEq, Repr

/-- The loop, with what is done with a name and a value. There is no result when `kv[1]` is out of
range. -/
def setHeaders (assign : String → String → HeaderSetting) :
    List String → Option (List HeaderSetting)
  | [] => some []
  | h :: hs =>
    if h = "" then setHeaders assign hs
    else
      match splitText ':' h with
      | name :: value :: _ => (setHeaders assign hs).map (assign name (trimSpace value) :: ·)
      | _ => none

/-- `req.Host` for the host, and else a header. -/
def hostOrHeader (fold : Char → Char) (name value : String) : HeaderSetting :=
  if equalFold fold name "host" then .host value else .header name value

/-- The headers in `ExecuteImpl`. -/
def executeImplHeaders : List String → Option (List HeaderSetting) := setHeaders .header

/-- The headers in `callPreExecutionWebhook`. -/
def callPreExecutionWebhookHeaders (fold : Char → Char) :
    List String → Option (List HeaderSetting) := setHeaders (hostOrHeader fold)

/-- The headers in `callExecutionWebhook`. -/
def callExecutionWebhookHeaders (fold : Char → Char) :
    List String → Option (List HeaderSetting) := setHeaders (hostOrHeader fold)

/-! ## What the texts say -/

/-- The name before the first colon, and all behind it. -/
def wantedHeader (assign : String → String → HeaderSetting) (h : String) :
    Option HeaderSetting :=
  if ':' ∈ h.toList then
    let name := String.ofList (h.toList.takeWhile (· ≠ ':'))
    let value := String.ofList ((h.toList.dropWhile (· ≠ ':')).drop 1)
    some (assign name (trimSpace value))
  else none

/-- A text without a colon is skipped. -/
def wantedHeaders (assign : String → String → HeaderSetting) (hs : List String) :
    List HeaderSetting :=
  hs.filterMap (wantedHeader assign)

/-! ## One text -/

section

variable {assign : String → String → HeaderSetting} {hs : List String} {name : String}
  {rest : List Char}

/-- A text with a colon, cut at its first one. -/
theorem exists_header_name {h : String} (hcolon : ':' ∈ h.toList) :
    ∃ (name : String) (rest : List Char),
      h = String.ofList (name.toList ++ ':' :: rest) ∧ ':' ∉ name.toList := by
  obtain ⟨pre, rest, heq, hpre⟩ := List.eq_append_cons_of_mem hcolon
  refine ⟨String.ofList pre, rest, ?_, ?_⟩
  · rw [String.toList_ofList, ← heq, String.ofList_toList]
  · rwa [String.toList_ofList]

theorem wantedHeader_of_name (hname : ':' ∉ name.toList) :
    wantedHeader assign (String.ofList (name.toList ++ ':' :: rest)) =
      some (assign name (trimSpace (String.ofList rest))) := by
  have hpos : ∀ c ∈ name.toList, decide (c ≠ ':') = true := by
    intro c hc
    simpa using fun heq : c = ':' => hname (heq ▸ hc)
  rw [wantedHeader, String.toList_ofList, if_pos (by simp)]
  simp only [List.takeWhile_append_of_pos hpos, List.dropWhile_append_of_pos hpos]
  simp

/-- Without a colon there is no second part. -/
theorem setHeaders_of_not_mem {h : String} (hne : h ≠ "") (hcolon : ':' ∉ h.toList) :
    setHeaders assign (h :: hs) = none := by
  rw [setHeaders, if_neg hne, splitText_of_not_mem hcolon]

theorem ofList_append_cons_ne {cs : List Char} (c : Char) :
    String.ofList (cs ++ c :: rest) ≠ "" := by
  intro h
  have := congrArg String.toList h
  rw [String.toList_ofList] at this
  simp at this

/-- With one colon the value is the whole rest. -/
theorem setHeaders_of_one_colon (hname : ':' ∉ name.toList) (hrest : ':' ∉ rest) :
    setHeaders assign (String.ofList (name.toList ++ ':' :: rest) :: hs) =
      (setHeaders assign hs).map (assign name (trimSpace (String.ofList rest)) :: ·) := by
  rw [setHeaders, if_neg (ofList_append_cons_ne ':'), splitText_append hname,
    splitText_of_not_mem (by rwa [String.toList_ofList])]

/-- With a second colon the value ends there. -/
theorem setHeaders_of_two_colons {pre : List Char} (hname : ':' ∉ name.toList) (hpre : ':' ∉ pre) :
    setHeaders assign (String.ofList (name.toList ++ ':' :: (pre ++ ':' :: rest)) :: hs) =
      (setHeaders assign hs).map (assign name (trimSpace (String.ofList pre)) :: ·) := by
  have hvalue : ':' ∉ (String.ofList pre).toList := by rwa [String.toList_ofList]
  have hsplit := splitText_append hvalue rest
  rw [String.toList_ofList] at hsplit
  rw [setHeaders, if_neg (ofList_append_cons_ne ':'), splitText_append hname, hsplit]

/-- What ends at the second colon is not the whole value. -/
theorem trimSpace_ne_of_colon {pre : List Char} (hpre : ':' ∉ pre) (rest : List Char) :
    trimSpace (String.ofList pre) ≠ trimSpace (String.ofList (pre ++ ':' :: rest)) := by
  intro h
  have hspace : ¬isSpace ':' := by decide
  have hmem : ':' ∈ (trimSpace (String.ofList (pre ++ ':' :: rest))).toList := by
    rw [mem_trimSpace_iff hspace, String.toList_ofList]
    simp
  rw [← h, mem_trimSpace_iff hspace, String.toList_ofList] at hmem
  exact hpre hmem

end

/-! ## The settings -/

/-- **The loop sets what the texts say exactly when each has one colon**, for any use of names and
values that does not forget the value. -/
theorem setHeaders_eq_iff {assign : String → String → HeaderSetting}
    (hassign : ∀ name value value', assign name value = assign name value' → value = value')
    (hs : List String) :
    setHeaders assign hs = some (wantedHeaders assign hs) ↔
      ∀ h ∈ hs, h ≠ "" → h.toList.count ':' = 1 := by
  induction hs with
  | nil => simp [setHeaders, wantedHeaders]
  | cons h hs ih =>
    rw [List.forall_mem_cons, ← ih, wantedHeaders, List.filterMap_cons]
    by_cases hne : h = ""
    · subst hne
      rw [setHeaders, if_pos rfl]
      simp [wantedHeader, wantedHeaders]
    · by_cases hcolon : ':' ∈ h.toList
      · obtain ⟨name, rest, rfl, hname⟩ := exists_header_name hcolon
        have hcount : (name.toList ++ ':' :: rest).count ':' = rest.count ':' + 1 := by
          rw [List.count_append, List.count_eq_zero.2 hname, List.count_cons_self, Nat.zero_add]
        rw [wantedHeader_of_name hname, String.toList_ofList, hcount]
        by_cases hrest : ':' ∈ rest
        · obtain ⟨pre, rest, rfl, hpre⟩ := List.eq_append_cons_of_mem hrest
          have hdiffers := trimSpace_ne_of_colon hpre rest
          rw [setHeaders_of_two_colons hname hpre]
          constructor
          · intro h
            obtain ⟨settings, -, hcons⟩ := Option.map_eq_some_iff.1 h
            exact absurd (hassign _ _ _ (List.cons.inj hcons).1) hdiffers
          · intro h
            have hone := h.1 (ofList_append_cons_ne ':')
            rw [List.count_append, List.count_cons_self] at hone
            omega
        · rw [setHeaders_of_one_colon hname hrest]
          simp [List.count_eq_zero.2 hrest, wantedHeaders]
      · rw [setHeaders_of_not_mem hne hcolon]
        simp [hne, List.count_eq_zero.2 hcolon]

theorem hostOrHeader_value {fold : Char → Char} (name value value' : String)
    (h : hostOrHeader fold name value = hostOrHeader fold name value') : value = value' := by
  rw [hostOrHeader, hostOrHeader] at h
  split_ifs at h
  · exact HeaderSetting.host.inj h
  · exact (HeaderSetting.header.inj h).2

/-- **The three loops**, for every notion of letter case. -/
theorem headers_iff (fold : Char → Char) (hs : List String) :
    (executeImplHeaders hs = some (wantedHeaders .header hs) ↔
        ∀ h ∈ hs, h ≠ "" → h.toList.count ':' = 1) ∧
      (callPreExecutionWebhookHeaders fold hs = some (wantedHeaders (hostOrHeader fold) hs) ↔
        ∀ h ∈ hs, h ≠ "" → h.toList.count ':' = 1) ∧
      (callExecutionWebhookHeaders fold hs = some (wantedHeaders (hostOrHeader fold) hs) ↔
        ∀ h ∈ hs, h ≠ "" → h.toList.count ':' = 1) :=
  ⟨setHeaders_eq_iff (fun _ _ _ h => (HeaderSetting.header.inj h).2) hs,
    setHeaders_eq_iff hostOrHeader_value hs, setHeaders_eq_iff hostOrHeader_value hs⟩

/-- A text without a colon is an index out of range, and a value with a colon is cut. -/
theorem headers_broken :
    (executeImplHeaders ["Accept"] = none ∧ wantedHeaders .header ["Accept"] = []) ∧
      (executeImplHeaders ["Referer: http://a"] = some [.header "Referer" "http"] ∧
        wantedHeaders .header ["Referer: http://a"] = [.header "Referer" "http://a"]) ∧
      ¬∀ hs, executeImplHeaders hs = some (wantedHeaders .header hs) := by
  refine ⟨by decide, by decide, ?_⟩
  intro h
  have := h ["Accept"]
  revert this
  decide

/-- The executor never sets the host, whatever the name is. -/
theorem executeImplHeaders_no_host {hs : List String} {settings : List HeaderSetting}
    (h : executeImplHeaders hs = some settings) : ∀ value, .host value ∉ settings := by
  induction hs generalizing settings with
  | nil =>
    obtain rfl := Option.some.inj h
    simp
  | cons text hs ih =>
    rw [executeImplHeaders, setHeaders] at h
    split_ifs at h with hempty
    · exact ih h
    · split at h
      · obtain ⟨rest, hrest, rfl⟩ := Option.map_eq_some_iff.1 h
        intro value hvalue
        rcases List.mem_cons.1 hvalue with heq | hmem
        · cases heq
        · exact ih hrest value hmem
      · cases h

end Dkron
