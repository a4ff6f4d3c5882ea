import Dkron.GoStrings
import Dkron.Lib.Tagged
import Dkron.Proto

/-!
# The pool of HTTP clients

The HTTP executor keeps its clients under a hash of the settings that a client depends on: the
settings that are not empty, as `key=value`, sorted and joined with `|`. Nothing is escaped.

**Theorem (`clientKey_iff`).** If the hash is injective, a configuration shares its key with no
configuration of other settings exactly when it has no such setting, or a single one that cannot
be read as two. Two configurations without values that contain `|` and a later `key=` never share
a key.

The keys diverge before their ends, so sorting orders the parts by their keys whatever the values
are (`sort_keyParts`), and the hashed text is that of `Tagged.Tagging.encode`.
-/

namespace Dkron

open Tagged

/-! ## The key of a client -/

/-- The settings that affect a client. -/
inductive ClientSetting where
  | timeout | tlsNoVerifyPeer | tlsRootCAsFile | tlsCertificateFile | tlsCertificateKeyFile
deriving DecidableEq, Repr

/-- The key in the configuration. -/
def ClientSetting.key : ClientSetting → String
  | .timeout => "timeout"
  | .tlsNoVerifyPeer => "tlsNoVerifyPeer"
  | .tlsRootCAsFile => "tlsRootCAsFile"
  | .tlsCertificateFile => "tlsCertificateFile"
  | .tlsCertificateKeyFile => "tlsCertificateKeyFile"

def relevantKeys : List ClientSetting :=
  [.timeout, .tlsNoVerifyPeer, .tlsRootCAsFile, .tlsCertificateFile, .tlsCertificateKeyFile]

/-- `fmt.Sprintf("%s=%s", key, value)`. -/
def keyPart (key value : String) : String := key ++ "=" ++ value

def keyParts (config : StrMap) : List String :=
  relevantKeys.filterMap fun k =>
    match config.lookup k.key with
    | some value => if value ≠ "" then some (keyPart k.key value) else none
    | none => none

/-- The text that is hashed. -/
def clientText (config : StrMap) : String :=
  String.ofList (['|'].intercalate (((keyParts config).insertionSort (· ≤ ·)).map String.toList))

/-- `generateClientKey`, with the hexadecimal text of a SHA-256. -/
def generateClientKey (sha256 : String → String) (config : StrMap) : String :=
  sha256 (clientText config)

/-- The configurations have the same values; an absent one counts as empty. -/
def SameSettings (c c' : StrMap) : Prop := ∀ k ∈ relevantKeys, c.at k.key = c'.at k.key

instance (c c' : StrMap) : Decidable (SameSettings c c') :=
  inferInstanceAs (Decidable (∀ k ∈ relevantKeys, c.at k.key = c'.at k.key))

/-! ## The order of the parts -/

/-- The keys behind their tags. -/
def clientTagging : Tagging Char ClientSetting where
  tag k := k.key.toList ++ ['=']
  sep := '|'
  apart k k' := by cases k <;> cases k' <;> decide
  tag_ne_nil k := by simp
  sep_not_mem k := by cases k <;> decide

/-- The keys as they are sorted. -/
def sortedKeys : List ClientSetting :=
  [.timeout, .tlsCertificateFile, .tlsCertificateKeyFile, .tlsNoVerifyPeer, .tlsRootCAsFile]

/-- The settings that are not empty. -/
def settings (config : StrMap) : List (ClientSetting × List Char) :=
  sortedKeys.filterMap fun k =>
    if config.at k.key = "" then none else some (k, (config.at k.key).toList)

theorem sortedKeys_ordered : sortedKeys.Pairwise clientTagging.Before := by
  unfold Tagging.Before
  decide

theorem mem_sortedKeys (k : ClientSetting) : k ∈ sortedKeys := by
  cases k <;> decide

theorem mem_relevantKeys (k : ClientSetting) : k ∈ relevantKeys := by
  cases k <;> decide

theorem mem_settings {config : StrMap} {p : ClientSetting × List Char} :
    p ∈ settings config ↔ config.at p.1.key = String.ofList p.2 ∧ p.2 ≠ [] := by
  obtain ⟨k, v⟩ := p
  simp only [settings, List.mem_filterMap]
  constructor
  · rintro ⟨k', -, h⟩
    split_ifs at h with hempty
    obtain ⟨rfl, rfl⟩ := Prod.mk.inj (Option.some.inj h)
    refine ⟨by simp, ?_⟩
    simpa using hempty
  · rintro ⟨hv, hne⟩
    refine ⟨k, mem_sortedKeys k, ?_⟩
    rw [hv, if_neg (by simpa using hne), String.toList_ofList]

theorem settings_valid (config : StrMap) : clientTagging.Valid (settings config) := by
  constructor
  · refine List.Pairwise.filterMap _ ?_ sortedKeys_ordered
    rintro k k' hbefore p hp q hq
    split_ifs at hp with hk
    split_ifs at hq with hk'
    obtain rfl := Option.some.inj hp
    obtain rfl := Option.some.inj hq
    exact hbefore
  · intro p hp
    exact (mem_settings.1 hp).2

theorem keyParts_perm (config : StrMap) :
    (keyParts config).Perm
      ((settings config).map fun p => keyPart p.1.key (String.ofList p.2)) := by
  have hkeys : relevantKeys.Perm sortedKeys := by decide
  have hparts : keyParts config = relevantKeys.filterMap fun k =>
      if config.at k.key = "" then none else some (keyPart k.key (config.at k.key)) := by
    apply List.filterMap_congr
    intro k _
    rw [StrMap.at]
    cases config.lookup k.key with
    | none => rfl
    | some value => by_cases hv : value = "" <;> simp [hv]
  rw [hparts, settings, List.map_filterMap]
  refine (hkeys.filterMap _).trans (List.Perm.of_eq (List.filterMap_congr fun k _ => ?_))
  split_ifs <;> simp

/-- **Sorting orders the parts by their keys.** -/
theorem sort_keyParts (config : StrMap) :
    (keyParts config).insertionSort (· ≤ ·) =
      (settings config).map fun p => keyPart p.1.key (String.ofList p.2) := by
  refine List.Perm.eq_of_pairwise' (r := (· ≤ ·)) (List.pairwise_insertionSort _ _) ?_
    ((List.perm_insertionSort _ _).trans (keyParts_perm config))
  rw [List.pairwise_map]
  refine (settings_valid config).ordered.imp fun {p q} h => le_of_lt ?_
  have hlt := (Diverges.append h p.2 q.2).lt
  rw [String.lt_iff_toList_lt]
  simpa [keyPart, clientTagging] using hlt

/-- The hashed text is the text of the settings. -/
theorem toList_clientText (config : StrMap) :
    (clientText config).toList = clientTagging.encode (settings config) := by
  rw [clientText, sort_keyParts, String.toList_ofList, Tagging.encode_eq_intercalate,
    List.map_map]
  congr 1
  apply List.map_congr_left
  intro p _
  simp [keyPart, clientTagging]

/-! ## Configurations and their settings -/

theorem sameSettings_iff {c c' : StrMap} : SameSettings c c' ↔ settings c' = settings c := by
  constructor
  · intro h
    apply List.filterMap_congr
    intro k _
    rw [h k (mem_relevantKeys k)]
  · intro h k _
    by_contra hne
    have hat : ∀ {d d' : StrMap}, settings d' = settings d → d.at k.key ≠ "" →
        d'.at k.key = d.at k.key := by
      intro d d' hd hk
      have hmem : (k, (d.at k.key).toList) ∈ settings d :=
        mem_settings.2 ⟨by simp, by simpa using hk⟩
      rw [← hd, mem_settings] at hmem
      simpa using hmem.1
    by_cases hk : c.at k.key = ""
    · by_cases hk' : c'.at k.key = ""
      · exact hne (hk.trans hk'.symm)
      · exact hne (hat h.symm hk')
    · exact hne (hat h hk).symm

/-- A configuration with the given settings. -/
def ofSettings (ps : List (ClientSetting × List Char)) : StrMap :=
  ps.map fun p => (p.1.key, String.ofList p.2)

theorem key_inj {k k' : ClientSetting} (h : k.key = k'.key) : k = k' := by
  cases k <;> cases k' <;> first | rfl | exact absurd h (by decide)

theorem lookup_ofSettings {ps : List (ClientSetting × List Char)}
    (hps : clientTagging.Valid ps) (k : ClientSetting) (v : List Char) :
    (ofSettings ps).lookup k.key = some (String.ofList v) ↔ (k, v) ∈ ps := by
  induction ps with
  | nil => simp [ofSettings]
  | cons p ps ih =>
    obtain ⟨hbefore, -, hvalid⟩ := Tagging.valid_cons.1 hps
    rw [ofSettings, List.map_cons, List.lookup_cons]
    by_cases hk : k = p.1
    · have hnot : (k, v) ∉ ps := fun hmem => Diverges.irrefl _ (hk ▸ hbefore _ hmem)
      rw [hk, beq_self_eq_true]
      rw [hk] at hnot
      simp only [Option.some.injEq, List.mem_cons, hnot, or_false, Prod.ext_iff, true_and]
      constructor
      · intro h
        exact (String.ofList_inj.1 h).symm
      · rintro rfl
        rfl
    · have hne : (k.key == p.1.key) = false := by simpa using fun h => hk (key_inj h)
      have hcons : (k, v) ≠ p := fun h => hk (congrArg Prod.fst h)
      rw [hne, List.mem_cons, or_iff_right hcons]
      exact ih hvalid

/-- Every list of settings is that of a configuration. -/
theorem settings_ofSettings {ps : List (ClientSetting × List Char)}
    (hps : clientTagging.Valid ps) : settings (ofSettings ps) = ps := by
  apply (settings_valid _).eq_of_mem_iff hps
  rintro ⟨k, v⟩
  rw [mem_settings, StrMap.at, ← lookup_ofSettings hps]
  constructor
  · rintro ⟨h, hv⟩
    cases hlookup : (ofSettings ps).lookup k.key with
    | none => simp [hlookup, hv] at h
    | some value => simpa [hlookup] using h
  · intro h
    have hmem := (lookup_ofSettings hps k v).1 h
    exact ⟨by rw [h]; rfl, hps.ne_nil _ hmem⟩

/-! ## Collisions -/

/-- The value of the setting contains `|` and `key=` of a later key. -/
def Splits (p : ClientSetting × List Char) : Prop := clientTagging.Splits p

/-- It has no setting, or one that does not read as two. -/
def ReadsAsOne (config : StrMap) : Prop :=
  settings config = [] ∨ ∃ p, settings config = [p] ∧ ¬clientTagging.SplitsWhole p

theorem clientText_eq_iff {c c' : StrMap} :
    clientText c = clientText c' ↔
      clientTagging.encode (settings c) = clientTagging.encode (settings c') := by
  rw [← toList_clientText, ← toList_clientText, String.toList_inj]

/-- **When clients are not shared.** -/
theorem clientKey_iff (sha256 : String → String) (hsha256 : Function.Injective sha256) :
    (∀ c, (∀ c', generateClientKey sha256 c = generateClientKey sha256 c' → SameSettings c c') ↔
        ReadsAsOne c) ∧
      ∀ c c', (∀ p ∈ settings c, ¬Splits p) → (∀ p ∈ settings c', ¬Splits p) →
        generateClientKey sha256 c = generateClientKey sha256 c' → SameSettings c c' := by
  constructor
  · intro c
    rw [ReadsAsOne, ← Tagging.unique_iff (settings_valid c)]
    simp only [generateClientKey, hsha256.eq_iff, clientText_eq_iff, sameSettings_iff]
    constructor
    · intro h qs hqs heq
      rw [← settings_ofSettings hqs]
      apply h
      rw [settings_ofSettings hqs, heq]
    · intro h c' heq
      exact h _ (settings_valid c') heq.symm
  · intro c c' hc hc' heq
    rw [generateClientKey, generateClientKey, hsha256.eq_iff, clientText_eq_iff] at heq
    rw [sameSettings_iff]
    exact (Tagging.encode_inj (settings_valid c) (settings_valid c') hc hc' heq).symm

/-- SHA-256 on one text, and an injective function on the others. -/
def sha256OfTimeout (s : String) : String :=
  if s = "timeout=30" then "80d7c837c7cc6a400a3f4eb67cea2ac0fc72a70928aaddb60bf6f95513b0bd29"
  else "hash of " ++ s

theorem sha256OfTimeout_injective : Function.Injective sha256OfTimeout := by
  have hne : ∀ s, "80d7c837c7cc6a400a3f4eb67cea2ac0fc72a70928aaddb60bf6f95513b0bd29" ≠
      "hash of " ++ s := by
    intro s h
    have hhead := congrArg (fun t : String => t.toList.head?) h
    simp at hhead
  intro s t h
  rw [sha256OfTimeout, sha256OfTimeout] at h
  split_ifs at h with hs ht ht
  · rw [hs, ht]
  · exact absurd h (hne t)
  · exact absurd h.symm (hne s)
  · exact append_left_cancel h

/-- The client of a timeout of 30 seconds is used with this timeout only. -/
theorem timeout_not_shared :
    ReadsAsOne [("timeout", "30")] ∧
      ∀ c', generateClientKey sha256OfTimeout [("timeout", "30")] =
        generateClientKey sha256OfTimeout c' → SameSettings [("timeout", "30")] c' := by
  have hone : ReadsAsOne [("timeout", "30")] := by
    refine Or.inr ⟨(.timeout, ['3', '0']), by decide, ?_⟩
    rintro ⟨k, u, w, -, -, -, h⟩
    have hmem : '|' ∈ ['3', '0'] := by
      show '|' ∈ ((.timeout, ['3', '0']) : ClientSetting × List Char).2
      rw [h]
      exact List.mem_append_right _ List.mem_cons_self
    exact absurd hmem (by decide)
  exact ⟨hone, ((clientKey_iff sha256OfTimeout sha256OfTimeout_injective).1 _).2 hone⟩

/-- A timeout that reads like a timeout and a setting without certificate checks. -/
def longTimeout : StrMap := [("timeout", "30|tlsNoVerifyPeer=true")]

def uncheckedPeer : StrMap := [("timeout", "30"), ("tlsNoVerifyPeer", "true")]

/-- They share their key, whatever the hash is. -/
theorem clientKey_shared :
    ¬∃ sha256 : String → String, ∀ c c',
      generateClientKey sha256 c = generateClientKey sha256 c' → SameSettings c c' := by
  have htext : clientText longTimeout = clientText uncheckedPeer := by
    rw [clientText_eq_iff]
    decide
  rintro ⟨sha256, h⟩
  have hsame := h longTimeout uncheckedPeer (by rw [generateClientKey, htext, generateClientKey])
  exact absurd hsame (by decide)

end Dkron
