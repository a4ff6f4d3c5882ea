import Dkron.GoStrings
import Dkron.Lib.Loops

/-!
# The parts of an address

`Config.AddrParts` splits an address into host and port, and when the splitting reports that the
port is missing it appends the default port and starts over. The splitting is that of Go's
standard library, and it also reports a missing port when a closing bracket is followed by
something other than a colon; a port behind that changes nothing.

**Theorem (`addrParts_terminates_iff`).** The loop ends, after at most one appended port, unless the
address begins with `[` and its first `]` is followed by another character than `:`; then it does
not end.

The port is missing in two ways (`splitHostPort_missingPort_iff`): there is no colon, or the
address is bracketed without a colon behind. Appending the port ends the first and keeps the
second, unless the bracket closes the address (`missesPort_append_iff`).
-/

namespace Dkron

/-! ## Splitting -/

/-- `net.AddrError`. -/
structure AddrError where
  err : String
  addr : String
deriving DecidableEq, Repr

def missingPort : String := "missing port in address"

def tooManyColons : String := "too many colons in address"

/-- `bytealg.LastIndexByteString`, for a character that occurs. -/
def lastIndex (c : Char) (cs : List Char) : Nat := cs.length - 1 - cs.reverse.idxOf c

/-- The end of `net.SplitHostPort`: brackets from `j` and `k` on are unexpected. -/
def splitEnd (hostport : String) (host : List Char) (i j k : Nat) :
    Except AddrError (String × String) :=
  let cs := hostport.toList
  if '[' ∈ cs.drop j then .error ⟨"unexpected '[' in address", hostport⟩
  else if ']' ∈ cs.drop k then .error ⟨"unexpected ']' in address", hostport⟩
  else .ok (String.ofList host, String.ofList (cs.drop (i + 1)))

/-- `net.SplitHostPort`, of Go's standard library. -/
def splitHostPort (hostport : String) : Except AddrError (String × String) :=
  let cs := hostport.toList
  if ':' ∉ cs then .error ⟨missingPort, hostport⟩
  else
    -- The port starts after the last colon.
    let i := lastIndex ':' cs
    if cs.head? = some '[' then
      -- Expect the first ']' just before the last ':'.
      if ']' ∉ cs then .error ⟨"missing ']' in address", hostport⟩
      else
        let last := cs.idxOf ']'
        if last + 1 = cs.length then .error ⟨missingPort, hostport⟩
        else if last + 1 = i then splitEnd hostport ((cs.take last).drop 1) i 1 (last + 1)
        else if cs[last + 1]? = some ':' then .error ⟨tooManyColons, hostport⟩
        else .error ⟨missingPort, hostport⟩
    else
      let host := cs.take i
      if ':' ∈ host then .error ⟨tooManyColons, hostport⟩
      else splitEnd hostport host i 0 0

/-! ## The loop -/

def defaultBindPort : Nat := 8946

/-- The loop of `AddrParts` at its label, with the number of ports appended. -/
structure AddrState where
  checkAddr : String
  appended : Nat
deriving DecidableEq, Repr

/-- `fmt.Sprintf("%s:%d", checkAddr, DefaultBindPort)`. -/
def AddrState.withPort (s : AddrState) : AddrState :=
  ⟨s.checkAddr ++ ":" ++ Nat.repr defaultBindPort, s.appended + 1⟩

/-- The errors of `AddrParts`. -/
inductive AddrPartsError where
  | split (e : AddrError)
  | resolve (err : String)
deriving DecidableEq, Repr

/-- What `AddrParts` returns, with the number of ports appended. -/
structure AddrResult where
  result : Except AddrPartsError (String × Nat)
  appended : Nat

/-- From the label `START` on; `resolve` is `net.ResolveTCPAddr`, with the text of the IP address
and the port. -/
def addrPartsStep (resolve : String → Except String (String × Nat)) (s : AddrState) :
    AddrState ⊕ AddrResult :=
  match splitHostPort s.checkAddr with
  | .error e =>
    if e.err = missingPort then .inl s.withPort
    else .inr ⟨.error (.split e), s.appended⟩
  | .ok _ => .inr ⟨(resolve s.checkAddr).mapError .resolve, s.appended⟩

/-- `AddrParts` returns the result. -/
def AddrParts (resolve : String → Except String (String × Nat)) (address : String)
    (r : AddrResult) : Prop :=
  Loops.Returns (addrPartsStep resolve) ⟨address, 0⟩ r

/-! ## When the port is missing -/

/-- The splitting reports a missing port. -/
def MissesPort (cs : List Char) : Prop :=
  ':' ∉ cs ∨ (cs.head? = some '[' ∧ ']' ∈ cs ∧ cs[cs.idxOf ']' + 1]? ≠ some ':')

/-- The address begins with `[`, and its first `]` is followed by another character than `:`. -/
def TrailsBracket (cs : List Char) : Prop :=
  cs.head? = some '[' ∧ ']' ∈ cs ∧ ∃ c, c ≠ ':' ∧ cs[cs.idxOf ']' + 1]? = some c

theorem getElem?_lastIndex {c : Char} {cs : List Char} (h : c ∈ cs) :
    cs[lastIndex c cs]? = some c := by
  have hlt : cs.reverse.idxOf c < cs.reverse.length :=
    List.idxOf_lt_length_of_mem (List.mem_reverse.2 h)
  have hget := List.getElem_idxOf hlt
  rw [List.getElem_reverse] at hget
  rw [lastIndex, List.getElem?_eq_getElem (by rw [List.length_reverse] at hlt; omega), hget]

theorem splitEnd_error {hostport : String} {host : List Char} {i j k : Nat} {e : AddrError}
    (h : splitEnd hostport host i j k = .error e) : e.err ≠ missingPort := by
  rw [splitEnd] at h
  split_ifs at h
  · cases h
    show "unexpected '[' in address" ≠ missingPort
    decide
  · cases h
    show "unexpected ']' in address" ≠ missingPort
    decide

theorem splitHostPort_missingPort_iff (hostport : String) :
    (∃ e, splitHostPort hostport = .error e ∧ e.err = missingPort) ↔
      MissesPort hostport.toList := by
  have hend : ∀ host i j k,
      ¬∃ e, splitEnd hostport host i j k = .error e ∧ e.err = missingPort := by
    rintro host i j k ⟨e, he, hmissing⟩
    exact splitEnd_error he hmissing
  rw [MissesPort]
  simp only [splitHostPort]
  by_cases hcolon : ':' ∈ hostport.toList
  · have hlast := getElem?_lastIndex hcolon
    by_cases hhead : hostport.toList.head? = some '['
    · by_cases hclose : ']' ∈ hostport.toList
      · by_cases hlen : hostport.toList.idxOf ']' + 1 = hostport.toList.length
        · simp [hcolon, hhead, hclose, hlen]
        · by_cases hi : hostport.toList.idxOf ']' + 1 = lastIndex ':' hostport.toList
          · rw [← hi] at hlast
            simp only [hcolon, hhead, hclose, hlast, if_neg hlen, if_pos hi, not_true_eq_false,
              if_true, if_false, hend]
            simp
          · by_cases hnext : hostport.toList[hostport.toList.idxOf ']' + 1]? = some ':'
            · simp [hcolon, hhead, hclose, hlen, hi, hnext, missingPort, tooManyColons]
            · simp [hcolon, hhead, hclose, hlen, hi, hnext]
      · simp [hcolon, hhead, hclose, missingPort]
    · simp only [hcolon, hhead, not_true_eq_false, if_false, false_and, or_self, iff_false]
      split_ifs
      · simp [missingPort, tooManyColons]
      · exact hend _ _ _ _
  · simp [hcolon]

/-! ## Appending the port -/

/-- What is appended. -/
def portSuffix : List Char := ':' :: (Nat.repr defaultBindPort).toList

theorem toList_withPort (s : AddrState) :
    s.withPort.checkAddr.toList = s.checkAddr.toList ++ portSuffix := by
  rw [AddrState.withPort, String.toList_append, String.toList_append, List.append_assoc]
  rfl

theorem missesPort_of_trailsBracket {cs : List Char} (h : TrailsBracket cs) : MissesPort cs := by
  obtain ⟨hhead, hclose, c, hc, hnext⟩ := h
  refine Or.inr ⟨hhead, hclose, ?_⟩
  rw [hnext]
  simpa using hc

/-- Behind another character the port does not help, and nothing else lacks it any more. -/
theorem missesPort_append_iff {cs : List Char} :
    MissesPort (cs ++ portSuffix) ↔ TrailsBracket cs := by
  have hclose : ']' ∉ portSuffix := by decide
  have hcolon : ':' ∈ cs ++ portSuffix := List.mem_append_right _ (by decide)
  simp only [MissesPort, TrailsBracket, not_true_eq_false, hcolon, false_or, List.mem_append,
    hclose, or_false]
  cases cs with
  | nil => simp [portSuffix]
  | cons b cs =>
    rw [List.cons_append, List.head?_cons, List.head?_cons, ← List.cons_append]
    refine and_congr_right fun _ => and_congr_right fun hmem => ?_
    have hlt := List.idxOf_lt_length_of_mem hmem
    rw [List.idxOf_append_of_mem hmem]
    by_cases hlast : (b :: cs).idxOf ']' + 1 = (b :: cs).length
    · rw [hlast, List.getElem?_append_right le_rfl, List.getElem?_eq_none le_rfl]
      simp [portSuffix]
    · rw [List.getElem?_append_left (by omega), List.getElem?_eq_getElem (by omega)]
      simp

theorem trailsBracket_append {cs : List Char} (h : TrailsBracket cs) :
    TrailsBracket (cs ++ portSuffix) := by
  obtain ⟨hhead, hclose, c, hc, hnext⟩ := h
  obtain ⟨hlt, -⟩ := List.getElem?_eq_some_iff.1 hnext
  refine ⟨?_, List.mem_append_left _ hclose, c, hc, ?_⟩
  · rw [List.head?_append, hhead]
    rfl
  · rw [List.idxOf_append_of_mem hclose, List.getElem?_append_left hlt, hnext]

/-! ## Termination -/

variable {resolve : String → Except String (String × Nat)}

theorem addrPartsStep_of_missesPort {s : AddrState} (h : MissesPort s.checkAddr.toList) :
    addrPartsStep resolve s = .inl s.withPort := by
  obtain ⟨e, he, hmissing⟩ := (splitHostPort_missingPort_iff s.checkAddr).2 h
  rw [addrPartsStep, he]
  exact if_pos hmissing

/-- Otherwise the loop ends, with what it has appended so far. -/
theorem addrPartsStep_of_not_missesPort (resolve : String → Except String (String × Nat))
    {s : AddrState} (h : ¬MissesPort s.checkAddr.toList) :
    ∃ r, addrPartsStep resolve s = .inr r ∧ r.appended = s.appended := by
  rw [← splitHostPort_missingPort_iff] at h
  rw [addrPartsStep]
  cases hsplit : splitHostPort s.checkAddr with
  | error e => exact ⟨_, if_neg fun he => h ⟨e, hsplit, he⟩, rfl⟩
  | ok hp => exact ⟨_, rfl, rfl⟩

/-- From a bracket that is followed by another character the loop goes on for ever. -/
theorem not_returns_of_trailsBracket {s : AddrState} (h : TrailsBracket s.checkAddr.toList)
    (r : AddrResult) : ¬Loops.Returns (addrPartsStep resolve) s r := by
  apply Loops.not_returns_of_invariant (I := fun s => TrailsBracket s.checkAddr.toList) ?_ h
  intro s hs
  refine ⟨_, addrPartsStep_of_missesPort (missesPort_of_trailsBracket hs), ?_⟩
  rw [toList_withPort]
  exact trailsBracket_append hs

/-- **Which addresses can be parsed.** -/
theorem addrParts_terminates_iff (resolve : String → Except String (String × Nat))
    (address : String) :
    (∃ r, AddrParts resolve address r ∧ r.appended ≤ 1) ↔ ¬TrailsBracket address.toList := by
  constructor
  · rintro ⟨r, hr, -⟩ htrails
    exact not_returns_of_trailsBracket htrails r hr
  · intro htrails
    by_cases hmiss : MissesPort address.toList
    · have hstep : addrPartsStep resolve ⟨address, 0⟩ = .inl (AddrState.withPort ⟨address, 0⟩) :=
        addrPartsStep_of_missesPort hmiss
      have hnext : ¬MissesPort (AddrState.withPort ⟨address, 0⟩).checkAddr.toList := by
        rw [toList_withPort, missesPort_append_iff]
        exact htrails
      obtain ⟨r, hr, happended⟩ := addrPartsStep_of_not_missesPort resolve hnext
      exact ⟨r, (Loops.returns_inl hstep).2 ((Loops.returns_inr hr).2 rfl), happended.le⟩
    · obtain ⟨r, hr, happended⟩ :=
        addrPartsStep_of_not_missesPort resolve (s := ⟨address, 0⟩) hmiss
      exact ⟨r, (Loops.returns_inr hr).2 rfl, happended.le.trans (Nat.zero_le 1)⟩

/-- The address of a bracketed host with a letter behind it is never parsed. -/
theorem addrParts_hangs :
    ¬∀ (resolve : String → Except String (String × Nat)) (address : String),
      ∃ r, AddrParts resolve address r ∧ r.appended ≤ 1 := by
  intro h
  have := (addrParts_terminates_iff (fun _ => .error "no such host") "[::1]x").1 (h _ _)
  exact this ⟨by decide, by decide, 'x', by decide, by decide⟩

/-- Brackets without a port are what the default port is for. -/
example : splitHostPort "[::1]" = .error ⟨missingPort, "[::1]"⟩ ∧
    splitHostPort "[::1]:8946" = .ok ("::1", "8946") := by decide

end Dkron
