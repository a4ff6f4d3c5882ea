import Dkron.AddrParts
import Dkron.RetryJoin

/-!
# The advertised address

An agent that starts resolves the templates of its addresses and completes the one it advertises:
`normalizeAdvertise` appends the default port to an address that lacks one, and puts an address with
a colon into brackets before. `setupSerf` then takes the addresses apart again with `AddrParts`.

An address in brackets lacks a port as well, and is put into brackets once more. `AddrParts` loops
for ever over what results (`start_returns_iff`).
-/

namespace Dkron

/-! ## The standard library -/

/-- `net.JoinHostPort`. -/
def joinHostPort (host port : String) : String :=
  if ':' ∈ host.toList then "[" ++ host ++ "]:" ++ port else host ++ ":" ++ port

/-- `AddrError.Error`. -/
def AddrError.text (e : AddrError) : String :=
  if e.addr ≠ "" then "address " ++ e.addr ++ ": " ++ e.err else e.err

/-- Text without brackets. -/
def Bracketless (cs : List Char) : Prop := '[' ∉ cs ∧ ']' ∉ cs

instance (cs : List Char) : Decidable (Bracketless cs) := inferInstanceAs (Decidable (_ ∧ _))

/-- What `net.IP` says of an address. -/
structure ResolvedIP where
  /-- `String`. -/
  text : String
  bracketless : Bracketless text.toList
  isLinkLocalUnicast : Bool
  isGlobalUnicast : Bool
  isLoopback : Bool

/-- What the agent asks. -/
structure Network where
  /-- `template.Parse`. -/
  parse : String → Except String String
  /-- The template for a private address gives one, or nothing. -/
  bracketless : ∀ out, parse "\x7b\x7b GetPrivateIP \x7d\x7d" = .ok out → Bracketless out.toList
  lookupIP : String → Except String (List ResolvedIP)
  /-- `net.ResolveTCPAddr`. -/
  resolve : String → Except String (String × Nat)

/-! ## The addresses of an agent -/

/-- `isMissingPort` looks for the words in the whole text. -/
def isMissingPort (e : AddrError) : Bool := containsText e.text missingPort

def isTooManyColons (e : AddrError) : Bool := containsText e.text tooManyColons

/-- The errors of `normalizeAdvertise`. -/
inductive AdvertiseError where
  /-- "Error parsing advertise address template". -/
  | template (e : TemplateError)
  /-- "Error parsing advertise address". -/
  | address (addr : String) (e : AddrError)
  /-- `ErrResolvingHost`. -/
  | resolvingHost
  /-- "defaulting advertise to localhost is unsafe, please set advertise manually". -/
  | localhost
  /-- "unable to parse default advertise address". -/
  | default (e : TemplateError)
deriving DecidableEq, Repr

/-- `normalizeAdvertise`. -/
def normalizeAdvertise (net : Network) (addr bind : String) (defport : Nat) (dev : Bool) :
    Except AdvertiseError String :=
  match parseSingleIPTemplate net.parse addr with
  | .error e => .error (.template e)
  | .ok addr =>
    if addr ≠ "" then
      match splitHostPort addr with
      | .ok _ => .ok addr
      | .error e =>
        if ¬isMissingPort e ∧ ¬isTooManyColons e then .error (.address addr e)
        else .ok (joinHostPort addr (Nat.repr defport))
    else
      let bindHost := match splitHostPort bind with
        | .ok (host, _) => host
        | .error _ => bind
      match net.lookupIP bindHost with
      | .error _ => .error .resolvingHost
      | .ok ips =>
        match ips.find? fun ip => ip.isLinkLocalUnicast || ip.isGlobalUnicast || ip.isLoopback with
        | some ip =>
          if ip.isLinkLocalUnicast ∨ ip.isGlobalUnicast ∨ dev then
            .ok (joinHostPort ip.text (Nat.repr defport))
          else .error .localhost
        | none =>
          match parseSingleIPTemplate net.parse "\x7b\x7b GetPrivateIP \x7d\x7d" with
          | .error e => .error (.default e)
          | .ok addr => .ok (joinHostPort addr (Nat.repr defport))

/-- The addresses in the configuration. -/
structure AddrConfig where
  bindAddr : String
  httpAddr : String
  advertiseAddr : String
  devMode : Bool
deriving DecidableEq, Repr

/-- The errors of `normalizeAddrs`. -/
inductive NormalizeError where
  /-- "bind address resolution failed". -/
  | bind (e : TemplateError)
  /-- "HTTP address resolution failed". -/
  | http (e : TemplateError)
  /-- "failed to parse advertise address". -/
  | advertise (e : AdvertiseError)
deriving DecidableEq, Repr

/-- An address of the configuration that is not empty is a template. -/
def resolveAddr (net : Network) (addr : String) : Except TemplateError String :=
  if addr ≠ "" then parseSingleIPTemplate net.parse addr else .ok addr

/-- `normalizeAddrs`, with the configuration it leaves. -/
def AddrConfig.normalizeAddrs (net : Network) (c : AddrConfig) :
    Option NormalizeError × AddrConfig :=
  match resolveAddr net c.bindAddr with
  | .error e => (some (.bind e), c)
  | .ok bindAddr =>
    let c := { c with bindAddr := bindAddr }
    match resolveAddr net c.httpAddr with
    | .error e => (some (.http e), c)
    | .ok httpAddr =>
      let c := { c with httpAddr := httpAddr }
      match normalizeAdvertise net c.advertiseAddr c.bindAddr defaultBindPort c.devMode with
      | .error e => (some (.advertise e), c)
      | .ok addr => (none, { c with advertiseAddr := addr })

/-- `setupSerf` gets past its addresses, or returns because of one. -/
def AddrConfig.SetupReturns (net : Network) (c : AddrConfig) : Prop :=
  ∃ bind, AddrParts net.resolve c.bindAddr bind ∧
    ((∃ e, bind.result = .error e) ∨ c.advertiseAddr = "" ∨
      ∃ advertise, AddrParts net.resolve c.advertiseAddr advertise)

/-- `Start` goes on with the configuration: a host that cannot be resolved does not stop it. -/
def AddrConfig.StartsWith (net : Network) (c c' : AddrConfig) : Prop :=
  c.normalizeAddrs net = (none, c') ∨
    c.normalizeAddrs net = (some (.advertise .resolvingHost), c')

/-- `Start` gets past the addresses, or returns because of one. -/
def AddrConfig.StartReturns (net : Network) (c : AddrConfig) : Prop :=
  ∀ c', c.StartsWith net c' → c'.SetupReturns net

/-! ## Joining and splitting -/

/-- In the joined address a bracket is followed by another character than a colon. -/
def WrapsBracket (cs : List Char) : Prop :=
  if ':' ∈ cs then ']' ∈ cs ∧ (cs ++ [']'])[cs.idxOf ']' + 1]? ≠ some ':' else TrailsBracket cs

theorem toList_joinHostPort (host : String) :
    (joinHostPort host (Nat.repr defaultBindPort)).toList =
      if ':' ∈ host.toList then '[' :: (host.toList ++ ']' :: portSuffix)
      else host.toList ++ portSuffix := by
  unfold joinHostPort
  split_ifs <;> simp [portSuffix]

theorem trailsBracket_joinHostPort_iff (host : String) :
    TrailsBracket (joinHostPort host (Nat.repr defaultBindPort)).toList ↔
      WrapsBracket host.toList := by
  rw [toList_joinHostPort, WrapsBracket]
  generalize host.toList = cs
  split_ifs with hcolon
  · simp only [TrailsBracket, List.head?_cons, true_and]
    rw [List.idxOf_cons_ne _ (by decide), List.getElem?_cons_succ]
    by_cases hclose : ']' ∈ cs
    · have hlt := List.idxOf_lt_length_of_mem hclose
      rw [List.idxOf_append_of_mem hclose,
        show cs ++ ']' :: portSuffix = (cs ++ [']']) ++ portSuffix by simp,
        List.getElem?_append_left (by simp; omega), List.getElem?_eq_getElem (by simp; omega)]
      simp [hclose]
    · rw [List.idxOf_append_of_notMem hclose]
      simp [hclose, portSuffix]
  · constructor
    · exact fun h => missesPort_append_iff.1 (missesPort_of_trailsBracket h)
    · exact trailsBracket_append

theorem not_wrapsBracket {cs : List Char} (h : Bracketless cs) : ¬WrapsBracket cs := by
  rw [WrapsBracket]
  split_ifs
  · exact fun hwraps => h.2 hwraps.1
  · exact fun htrails => h.2 htrails.2.1

theorem splitEnd_eq_ok {hostport : String} {host : List Char} {i j k : Nat} {h p : String} :
    splitEnd hostport host i j k = .ok (h, p) ↔
      '[' ∉ hostport.toList.drop j ∧ ']' ∉ hostport.toList.drop k ∧
        String.ofList host = h ∧ String.ofList (hostport.toList.drop (i + 1)) = p := by
  rw [splitEnd]
  split_ifs with hopen hclose
  · simp [hopen]
  · simp [hclose]
  · simp [hopen, hclose]

/-- A host that is split off has no brackets. -/
theorem bracketless_of_splitHostPort {hostport host port : String}
    (h : splitHostPort hostport = .ok (host, port)) : Bracketless host.toList := by
  simp only [splitHostPort] at h
  split_ifs at h with hcolon hhead hclose
  · obtain ⟨hopen, -, rfl, -⟩ := splitEnd_eq_ok.1 h
    rw [String.toList_ofList]
    refine ⟨fun hmem => hopen ?_, fun hmem => ?_⟩
    · rw [List.drop_take] at hmem
      exact List.mem_of_mem_take hmem
    · exact lt_irrefl _ ((List.mem_take_iff_idxOf_lt hclose).1 (List.mem_of_mem_drop hmem))
  · obtain ⟨hopen, hclose, rfl, -⟩ := splitEnd_eq_ok.1 h
    rw [String.toList_ofList]
    exact ⟨fun hmem => hopen (List.mem_of_mem_take hmem),
      fun hmem => hclose (List.mem_of_mem_take hmem)⟩

theorem lastIndex_append {c : Char} (xs : List Char) {ys : List Char} (h : c ∉ ys) :
    lastIndex c (xs ++ c :: ys) = xs.length := by
  rw [lastIndex, List.reverse_append, List.reverse_cons, List.append_assoc,
    List.idxOf_append_of_notMem (by simpa using h)]
  simp

/-- A host without brackets is split off again. -/
theorem splitHostPort_joinHostPort {host : String} (h : Bracketless host.toList) :
    splitHostPort (joinHostPort host (Nat.repr defaultBindPort)) =
      .ok (host, Nat.repr defaultBindPort) := by
  obtain ⟨hopen, hclose⟩ := h
  have hport : ':' ∉ (Nat.repr defaultBindPort).toList := by decide
  have hsuffix : '[' ∉ portSuffix ∧ ']' ∉ portSuffix := by decide
  by_cases hcolon : ':' ∈ host.toList
  · have hlist : (joinHostPort host (Nat.repr defaultBindPort)).toList =
        '[' :: (host.toList ++ ']' :: portSuffix) := by
      rw [toList_joinHostPort, if_pos hcolon]
    have hfirst : ('[' :: (host.toList ++ ']' :: portSuffix)).idxOf ']' =
        host.toList.length + 1 := by
      rw [List.idxOf_cons_ne _ (by decide), List.idxOf_append_of_notMem hclose]
      simp
    have hlast : lastIndex ':' ('[' :: (host.toList ++ ']' :: portSuffix)) =
        host.toList.length + 2 := by
      have h := lastIndex_append ('[' :: (host.toList ++ [']'])) hport
      simpa [portSuffix] using h
    simp only [splitHostPort, hlist, hfirst, hlast]
    rw [if_neg (by simp [hcolon]), List.head?_cons, if_pos rfl, if_neg (by simp),
      if_neg (by simp [portSuffix]), if_pos True.intro, splitEnd_eq_ok, hlist]
    refine ⟨?_, ?_, ?_, ?_⟩
    · simp [hopen, hsuffix.1]
    · simp [hsuffix.2]
    · simp
    · rw [show '[' :: (host.toList ++ ']' :: portSuffix) =
        ('[' :: (host.toList ++ [']', ':'])) ++ (Nat.repr defaultBindPort).toList by
          simp [portSuffix], List.drop_left' (by simp), String.ofList_toList]
  · have hlist : (joinHostPort host (Nat.repr defaultBindPort)).toList =
        host.toList ++ portSuffix := by
      rw [toList_joinHostPort, if_neg hcolon]
    have hlast : lastIndex ':' (host.toList ++ portSuffix) = host.toList.length :=
      lastIndex_append _ hport
    have hhead : (host.toList ++ portSuffix).head? ≠ some '[' := by
      intro h
      exact (List.mem_append.1 (List.mem_of_head? h)).elim hopen hsuffix.1
    simp only [splitHostPort, hlist, hlast]
    rw [if_neg (by simp [portSuffix]), if_neg hhead, List.take_left, if_neg hcolon,
      splitEnd_eq_ok, hlist]
    refine ⟨?_, ?_, ?_, ?_⟩
    · simp [hopen, hsuffix.1]
    · simp [hclose, hsuffix.2]
    · simp
    · rw [show host.toList ++ portSuffix =
        (host.toList ++ [':']) ++ (Nat.repr defaultBindPort).toList by simp [portSuffix],
        List.drop_left' (by simp), String.ofList_toList]

/-! ## Starting -/

theorem exists_addrParts_iff (resolve : String → Except String (String × Nat)) (address : String) :
    (∃ r, AddrParts resolve address r) ↔ ¬TrailsBracket address.toList := by
  constructor
  · rintro ⟨r, hr⟩ htrails
    exact not_returns_of_trailsBracket htrails r hr
  · intro htrails
    by_cases hmiss : MissesPort address.toList
    · have hnext : ¬MissesPort (AddrState.withPort ⟨address, 0⟩).checkAddr.toList := by
        rw [toList_withPort, missesPort_append_iff]
        exact htrails
      obtain ⟨r, hr, -⟩ := addrPartsStep_of_not_missesPort resolve hnext
      have hstep : addrPartsStep resolve ⟨address, 0⟩ = .inl (AddrState.withPort ⟨address, 0⟩) :=
        addrPartsStep_of_missesPort hmiss
      exact ⟨r, (Loops.returns_inl hstep).2 ((Loops.returns_inr hr).2 rfl)⟩
    · obtain ⟨r, hr, -⟩ := addrPartsStep_of_not_missesPort resolve (s := ⟨address, 0⟩) hmiss
      exact ⟨r, (Loops.returns_inr hr).2 rfl⟩

/-- `AddrParts` returns parts of the address. -/
def Resolves (net : Network) (address : String) : Prop :=
  ∃ r x, AddrParts net.resolve address r ∧ r.result = .ok x

/-- The splitting reports an error that makes `normalizeAdvertise` append the port. -/
def LacksPort (addr : String) : Prop :=
  ∃ e, splitHostPort addr = .error e ∧ (isMissingPort e ∨ isTooManyColons e)

variable {net : Network} {c c' : AddrConfig}

theorem setupReturns_iff :
    c.SetupReturns net ↔ ¬TrailsBracket c.bindAddr.toList ∧
      (Resolves net c.bindAddr → ¬TrailsBracket c.advertiseAddr.toList) := by
  simp only [← exists_addrParts_iff net.resolve]
  constructor
  · rintro ⟨bind, hbind, hrest⟩
    refine ⟨⟨bind, hbind⟩, ?_⟩
    rintro ⟨r, x, hr, hx⟩
    obtain rfl := hbind.unique hr
    obtain ⟨e, he⟩ | hempty | hadvertise := hrest
    · rw [hx] at he
      cases he
    · rw [hempty, exists_addrParts_iff]
      exact fun h => by simpa using h.2.1
    · exact hadvertise
  · rintro ⟨⟨bind, hbind⟩, hadvertise⟩
    refine ⟨bind, hbind, ?_⟩
    cases hresult : bind.result with
    | error e => exact .inl ⟨e, rfl⟩
    | ok x => exact .inr (.inr (hadvertise ⟨bind, x, hbind, hresult⟩))

theorem parseSingleIPTemplate_eq_ok {parse : String → Except String String} {ipTmpl ip : String}
    (h : parseSingleIPTemplate parse ipTmpl = .ok ip) : parse ipTmpl = .ok ip := by
  unfold parseSingleIPTemplate at h
  cases hparse : parse ipTmpl with
  | error e =>
    rw [hparse] at h
    cases h
  | ok out =>
    rw [hparse] at h
    simp only at h
    split at h
    · cases h
    · rename_i ip' hsplit
      cases h
      obtain ⟨part, hpart, rfl⟩ := List.map_eq_singleton_iff.1 hsplit
      have hout : [' '].intercalate (out.toList.splitOn ' ') = out.toList :=
        List.intercalate_splitOn ' '
      rw [hpart] at hout
      rw [show part = out.toList by simpa using hout, String.ofList_toList]
    · cases h

/-- What `normalizeAdvertise` takes from a configured address is that address, or joined with the
default port if it lacks one. -/
theorem normalizeAdvertise_of_ne {addr bind a : String} {dev : Bool}
    (hparse : parseSingleIPTemplate net.parse addr = .ok a) (ha : a ≠ "") {r : String} :
    normalizeAdvertise net addr bind defaultBindPort dev = .ok r ↔
      (∃ hostport, splitHostPort a = .ok hostport) ∧ r = a ∨
        LacksPort a ∧ r = joinHostPort a (Nat.repr defaultBindPort) := by
  unfold normalizeAdvertise LacksPort
  rw [hparse]
  simp only [if_pos ha]
  cases splitHostPort a with
  | ok hostport =>
    simp only [Except.ok.injEq, exists_eq', true_and, reduceCtorEq, false_and, exists_false,
      or_false]
    exact eq_comm
  | error e =>
    simp only [reduceCtorEq, exists_false, false_and, false_or, Except.error.injEq,
      exists_eq_left']
    split_ifs with hneither
    · simp [hneither.1, hneither.2]
    · rw [Except.ok.injEq, and_iff_right (by simpa [Classical.or_iff_not_imp_left] using hneither)]
      exact eq_comm

/-- The address it makes up has a host without brackets. -/
theorem normalizeAdvertise_of_empty {addr bind r : String} {dev : Bool}
    (hparse : parseSingleIPTemplate net.parse addr = .ok "")
    (h : normalizeAdvertise net addr bind defaultBindPort dev = .ok r) :
    ∃ host, Bracketless host.toList ∧ r = joinHostPort host (Nat.repr defaultBindPort) := by
  unfold normalizeAdvertise at h
  rw [hparse] at h
  simp only [ne_eq, not_true_eq_false, if_false] at h
  split at h
  · cases h
  · split at h
    · rename_i ip hip
      split_ifs at h
      cases h
      exact ⟨ip.text, ip.bracketless, rfl⟩
    · split at h
      · cases h
      · rename_i host hhost
        cases h
        exact ⟨host, net.bracketless host (parseSingleIPTemplate_eq_ok hhost), rfl⟩

theorem advertiseAddr_of_normalizeAddrs (h : c.normalizeAddrs net = (none, c')) :
    normalizeAdvertise net c.advertiseAddr c'.bindAddr defaultBindPort c.devMode =
      .ok c'.advertiseAddr := by
  unfold AddrConfig.normalizeAddrs at h
  split at h
  · cases h
  · simp only at h
    split at h
    · cases h
    · split at h
      · cases h
      · rename_i haddr
        cases h
        exact haddr

/-- An address that can be split does not loop. -/
theorem not_trailsBracket_of_split {hostport : String} {parts : String × String}
    (h : splitHostPort hostport = .ok parts) : ¬TrailsBracket hostport.toList := by
  intro htrails
  obtain ⟨e, he, -⟩ :=
    (splitHostPort_missingPort_iff hostport).2 (missesPort_of_trailsBracket htrails)
  rw [h] at he
  cases he

/-- **Which agents get past their addresses.** `Start` returns unless the bind address, or else the
address to advertise, has a bracket that is followed by another character than a colon. For an
address to advertise that has been normalized this means that the configured one lacks a port and
that joining it with the default port wraps such a bracket, as it does any address in brackets with
a colon. A configured address that lacks a port is split into itself and the default port exactly
if it has no brackets. -/
theorem start_returns_iff (net : Network) (c : AddrConfig) :
    (c.StartReturns net ↔ ∀ c', c.StartsWith net c' →
      ¬TrailsBracket c'.bindAddr.toList ∧
        (Resolves net c'.bindAddr → ¬TrailsBracket c'.advertiseAddr.toList)) ∧
    ∀ c', c.normalizeAddrs net = (none, c') →
      (TrailsBracket c'.advertiseAddr.toList ↔
        ∃ a, parseSingleIPTemplate net.parse c.advertiseAddr = .ok a ∧ LacksPort a ∧
          WrapsBracket a.toList) ∧
      ∀ a, parseSingleIPTemplate net.parse c.advertiseAddr = .ok a → LacksPort a → a ≠ "" →
        (splitHostPort c'.advertiseAddr = .ok (a, Nat.repr defaultBindPort) ↔
          Bracketless a.toList) := by
  refine ⟨forall₂_congr fun c' _ => setupReturns_iff, fun c' hc' => ?_⟩
  have hadvertise := advertiseAddr_of_normalizeAddrs hc'
  obtain ⟨a, hparse⟩ : ∃ a, parseSingleIPTemplate net.parse c.advertiseAddr = .ok a := by
    cases hparse : parseSingleIPTemplate net.parse c.advertiseAddr with
    | ok a => exact ⟨a, rfl⟩
    | error e =>
      rw [normalizeAdvertise, hparse] at hadvertise
      cases hadvertise
  simp only [hparse, Except.ok.injEq, exists_eq_left', forall_eq']
  by_cases ha : a = ""
  · subst ha
    obtain ⟨host, hhost, heq⟩ := normalizeAdvertise_of_empty hparse hadvertise
    refine ⟨?_, fun _ hne => absurd rfl hne⟩
    rw [heq, trailsBracket_joinHostPort_iff]
    refine iff_of_false (not_wrapsBracket hhost) fun h => ?_
    exact not_wrapsBracket (by decide) h.2
  · obtain ⟨⟨parts, hsplit⟩, heq⟩ | ⟨hlacks, heq⟩ :=
      (normalizeAdvertise_of_ne hparse ha).1 hadvertise
    · have hnot : ¬LacksPort a := by
        rintro ⟨e, he, -⟩
        rw [hsplit] at he
        cases he
      rw [heq]
      exact ⟨iff_of_false (not_trailsBracket_of_split hsplit) fun h => hnot h.1,
        fun h => absurd h hnot⟩
    · rw [heq, trailsBracket_joinHostPort_iff]
      exact ⟨(and_iff_right hlacks).symm,
        fun _ _ => ⟨bracketless_of_splitHostPort, splitHostPort_joinHostPort⟩⟩

/-- An address in brackets without a port. -/
example : LacksPort "[::1]" ∧ WrapsBracket "[::1]".toList :=
  ⟨⟨⟨missingPort, "[::1]"⟩, by decide, by decide⟩, by rw [WrapsBracket, if_pos (by decide)]; decide⟩

end Dkron
