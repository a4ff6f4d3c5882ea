import Dkron.GoStrings
import Dkron.Targets
import Dkron.Lib.Loops

/-!
# Joining with retries

An agent that is configured with `retry-join` resolves its addresses and joins what they yield,
again and again until a join succeeds; `retry-max`, the maximum number of join attempts, ends
this. An attempt that resolves no address does not call join but counts, and the counter is
compared after it was incremented, with `>`: an attempt too many is made.

**Theorem (`retryJoin_iff`).** The bound is kept exactly when a join succeeds in time: the first
success comes at most one attempt late, and then an earlier attempt has resolved no address.

`Loops.returns_iff_first` gives the run: it ends with the first attempt that joins or exhausts the
counter. Up to there it has called join once for each attempt that resolved an address.
-/

namespace Dkron

/-! ## One attempt -/

/-- What the outside answers during one attempt. -/
structure JoinRound where
  /-- `disco.Addrs`. -/
  discover : String → Except String (List String)
  /-- `template.Parse`. -/
  parse : String → Except String String
  join : List String → Except String Nat

/-- The errors of `ParseSingleIPTemplate`, with what their texts quote. -/
inductive TemplateError where
  /-- "unable to parse address template". -/
  | unparsed (ipTmpl err : String)
  /-- "no addresses found, please configure one". -/
  | noAddress
  /-- "multiple addresses found, please configure one". -/
  | multiple (out : String)
deriving DecidableEq, Repr

/-- `ParseSingleIPTemplate`. -/
def parseSingleIPTemplate (parse : String → Except String String) (ipTmpl : String) :
    Except TemplateError String :=
  match parse ipTmpl with
  | .error err => .error (.unparsed ipTmpl err)
  | .ok out =>
    match (out.toList.splitOn ' ').map String.ofList with
    | [] => .error .noAddress
    | [ip] => .ok ip
    | _ => .error (.multiple out)

/-- What one configured address yields: an address that fails to be resolved is skipped. -/
def JoinRound.resolve (r : JoinRound) (addr : String) : List String :=
  if containsText addr "provider=" then
    match r.discover addr with
    | .ok servers => servers
    | .error _ => []
  else
    match parseSingleIPTemplate r.parse addr with
    | .ok ipAddr => [ipAddr]
    | .error _ => []

/-- The addresses of an attempt. -/
def JoinRound.resolved (r : JoinRound) (addrs : List String) : List String :=
  addrs.flatMap r.resolve

/-- A call of join. -/
structure JoinCall where
  addrs : List String
  result : Except String Nat

/-- `err == nil`. -/
def JoinCall.succeeded (c : JoinCall) : Bool := c.result.isOk

/-- The call an attempt makes, when there is an address to join. -/
def JoinRound.calls (r : JoinRound) (addrs : List String) : List JoinCall :=
  if r.resolved addrs = [] then [] else [⟨r.resolved addrs, r.join (r.resolved addrs)⟩]

/-- The attempt joins. -/
def JoinRound.Joins (r : JoinRound) (addrs : List String) : Prop :=
  r.resolved addrs ≠ [] ∧ (r.join (r.resolved addrs)).isOk

instance (r : JoinRound) (addrs : List String) : Decidable (r.Joins addrs) :=
  inferInstanceAs (Decidable (_ ∧ _))

/-! ## The loop -/

/-- `retryJoiner`, with what the loop looks at. -/
structure RetryJoiner where
  cluster : String
  addrs : List String
  maxAttempts : Int
deriving Repr

/-- A run of `retryJoin` that has ended. -/
structure JoinRun where
  err : Option String
  calls : List JoinCall
  /-- The attempts made. -/
  attempts : Nat

/-- A run that goes on. -/
structure JoinState where
  attempt : Int
  calls : List JoinCall
  /-- The errors that the warnings between the attempts show. -/
  warned : List (Option String)
  attempts : Nat

def errNoServers : String := "no servers to join"

def RetryJoiner.errExhausted (r : RetryJoiner) : String :=
  "agent: max join " ++ r.cluster ++ " retry exhausted, exiting"

/-- The outer `err` after an attempt. The errors of discovery, of the templates and of join are
those of inner variables of this name. -/
def JoinRound.err (round : JoinRound) (addrs : List String) : Option String :=
  if round.resolved addrs = [] then some errNoServers else none

/-- The body of the loop, with what happens outside during each attempt. -/
def RetryJoiner.step (r : RetryJoiner) (rounds : Nat → JoinRound) (s : JoinState) :
    JoinState ⊕ JoinRun :=
  let round := rounds s.attempts
  let calls := s.calls ++ round.calls r.addrs
  if round.Joins r.addrs then .inr ⟨none, calls, s.attempts + 1⟩
  else
    let attempt := wrap64 (s.attempt + 1)
    if r.maxAttempts > 0 ∧ attempt > r.maxAttempts then
      .inr ⟨some r.errExhausted, calls, s.attempts + 1⟩
    else .inl ⟨attempt, calls, s.warned ++ [round.err r.addrs], s.attempts + 1⟩

/-- `retryJoin` within the given number of rounds of its loop; `newErr` is the error of
`discover.New`. -/
def RetryJoiner.retryJoin (r : RetryJoiner) (newErr : Option String) (rounds : Nat → JoinRound)
    (n : Nat) : Option JoinRun :=
  if r.addrs = [] then some ⟨none, [], 0⟩
  else
    match newErr with
    | some err => some ⟨some err, [], 0⟩
    | none => Loops.run (r.step rounds) n ⟨0, [], [], 0⟩

namespace RetryJoiner

variable {r : RetryJoiner} {rounds : Nat → JoinRound}

/-! ## The attempts of a run -/

/-- The calls of the first attempts. -/
def callsBefore (r : RetryJoiner) (rounds : Nat → JoinRound) (n : Nat) : List JoinCall :=
  (List.range n).flatMap fun i => (rounds i).calls r.addrs

/-- The loop after `n` attempts that did not end it. -/
def stateAfter (r : RetryJoiner) (rounds : Nat → JoinRound) (n : Nat) : JoinState :=
  ⟨wrap64 n, r.callsBefore rounds n, (List.range n).map fun i => (rounds i).err r.addrs, n⟩

/-- Attempt `i`, counted from 0, uses the counter up. -/
def Exhausts (r : RetryJoiner) (i : Nat) : Prop :=
  r.maxAttempts > 0 ∧ wrap64 ((i : Int) + 1) > r.maxAttempts

instance (i : Nat) : Decidable (r.Exhausts i) := inferInstanceAs (Decidable (_ ∧ _))

/-- The result of a run that ends with attempt `i`. -/
def runUpTo (r : RetryJoiner) (rounds : Nat → JoinRound) (i : Nat) : JoinRun :=
  ⟨if (rounds i).Joins r.addrs then none else some r.errExhausted,
    r.callsBefore rounds (i + 1), i + 1⟩

theorem callsBefore_succ (n : Nat) :
    r.callsBefore rounds (n + 1) = r.callsBefore rounds n ++ (rounds n).calls r.addrs := by
  simp [callsBefore, List.range_succ]

theorem wrap64_wrap64_add_one (n : Nat) : wrap64 (wrap64 n + 1) = wrap64 ((n : Int) + 1) := by
  rw [wrap64, wrap64, wrap64, Int.bmod_add_bmod]

theorem step_stateAfter_of_joins {i : Nat} (h : (rounds i).Joins r.addrs) :
    r.step rounds (r.stateAfter rounds i) = .inr (r.runUpTo rounds i) := by
  rw [step, runUpTo, if_pos h, callsBefore_succ]
  exact if_pos h

theorem step_stateAfter_of_exhausts {i : Nat} (h : ¬(rounds i).Joins r.addrs)
    (hx : r.Exhausts i) : r.step rounds (r.stateAfter rounds i) = .inr (r.runUpTo rounds i) := by
  rw [runUpTo, if_neg h, callsBefore_succ]
  simp only [step, stateAfter, wrap64_wrap64_add_one]
  rw [if_neg h]
  exact if_pos hx

theorem step_stateAfter {i : Nat} (h : ¬(rounds i).Joins r.addrs) (hx : ¬r.Exhausts i) :
    r.step rounds (r.stateAfter rounds i) = .inl (r.stateAfter rounds (i + 1)) := by
  simp only [step, stateAfter, wrap64_wrap64_add_one, callsBefore_succ]
  rw [if_neg h]
  show (if r.Exhausts i then _ else _) = _
  rw [if_neg hx]
  simp [List.range_succ]

/-- **The run ends with the first attempt that joins or uses the counter up.** -/
theorem returns_iff (run : JoinRun) :
    Loops.Returns (r.step rounds) ⟨0, [], [], 0⟩ run ↔
      ∃ i, ((rounds i).Joins r.addrs ∨ r.Exhausts i) ∧
        (∀ j < i, ¬((rounds j).Joins r.addrs ∨ r.Exhausts j)) ∧ run = r.runUpTo rounds i := by
  apply Loops.returns_iff_first (f := r.stateAfter rounds)
  · intro i hi
    rw [not_or] at hi
    exact step_stateAfter hi.1 hi.2
  · intro i hi
    by_cases h : (rounds i).Joins r.addrs
    · exact step_stateAfter_of_joins h
    · exact step_stateAfter_of_exhausts h (hi.resolve_left h)

/-- The warnings never show an error of join: it is shadowed. -/
theorem warned_stateAfter (n : Nat) :
    ∀ e ∈ (r.stateAfter rounds n).warned, e = none ∨ e = some errNoServers := by
  intro e he
  obtain ⟨i, -, rfl⟩ := List.mem_map.1 he
  rw [JoinRound.err]
  split_ifs <;> simp

/-! ## The calls of a run -/

/-- How many of the first `n` attempts resolve no address. -/
def skipped (r : RetryJoiner) (rounds : Nat → JoinRound) (n : Nat) : Nat :=
  (List.range n).countP fun i => (rounds i).resolved r.addrs = []

theorem skipped_succ (n : Nat) :
    r.skipped rounds (n + 1) =
      r.skipped rounds n + if (rounds n).resolved r.addrs = [] then 1 else 0 := by
  simp [skipped, List.range_succ]

/-- Every attempt calls join or resolves no address. -/
theorem length_callsBefore (r : RetryJoiner) (rounds : Nat → JoinRound) (n : Nat) :
    (r.callsBefore rounds n).length + r.skipped rounds n = n := by
  induction n with
  | zero => rfl
  | succ n ih =>
    rw [callsBefore_succ, skipped_succ, List.length_append, JoinRound.calls]
    split_ifs <;> simp <;> omega

theorem succeeds_iff_joins {round : JoinRound} {addrs : List String} :
    (∃ c ∈ round.calls addrs, c.succeeded) ↔ round.Joins addrs := by
  rw [JoinRound.calls, JoinRound.Joins]
  split_ifs with h <;> simp [h, JoinCall.succeeded]

theorem succeeds_callsBefore_iff {n : Nat} :
    (∃ c ∈ r.callsBefore rounds n, c.succeeded) ↔ ∃ i < n, (rounds i).Joins r.addrs := by
  simp only [callsBefore, List.mem_flatMap, List.mem_range, ← succeeds_iff_joins]
  constructor
  · rintro ⟨c, ⟨i, hi, hc⟩, hs⟩
    exact ⟨i, hi, c, hc, hs⟩
  · rintro ⟨i, hi, c, hc, hs⟩
    exact ⟨c, ⟨i, hi, hc⟩, hs⟩

/-! ## The counter -/

theorem wrap64_le_self {n : Int} (hn : 0 ≤ n) : wrap64 n ≤ n := by
  rw [wrap64, Int.bmod]
  split_ifs <;> omega

theorem wrap64_le_maxInt (n : Int) : wrap64 n ≤ maxInt := by
  rw [wrap64, Int.bmod, maxInt]
  split_ifs <;> omega

/-- The counter is not used up before attempt `maxAttempts`, and never when `maxAttempts` is the
largest `int`. -/
theorem not_exhausts_before_iff (hr : 0 < r.maxAttempts) (i : Nat) :
    (∀ j < i, ¬r.Exhausts j) ↔ (i : Int) ≤ r.maxAttempts ∨ maxInt ≤ r.maxAttempts := by
  constructor
  · intro h
    by_contra hlt
    rw [not_or, not_le, not_le, maxInt] at hlt
    apply h r.maxAttempts.toNat (by omega)
    apply And.intro hr
    have hself : wrap64 (r.maxAttempts + 1) = r.maxAttempts + 1 := by
      rw [wrap64]
      exact Int.bmod_eq_of_le (by omega) (by omega)
    rw [Int.toNat_of_nonneg hr.le, hself]
    omega
  · rintro h j hj ⟨-, hx⟩
    have hself := wrap64_le_self (n := (j : Int) + 1) (by omega)
    have hmax := wrap64_le_maxInt ((j : Int) + 1)
    omega

/-- The first attempt that uses the counter up is one attempt late. -/
theorem eq_of_exhausts (hr : 0 < r.maxAttempts) {i : Nat} (h : r.Exhausts i)
    (hfirst : ∀ j < i, ¬r.Exhausts j) : (i : Int) = r.maxAttempts ∧ r.maxAttempts < maxInt := by
  have hself := wrap64_le_self (n := (i : Int) + 1) (by omega)
  have hmax := wrap64_le_maxInt ((i : Int) + 1)
  have hx := h.2
  have := (not_exhausts_before_iff hr i).1 hfirst
  omega

theorem exhausts_of_eq (hr : 0 < r.maxAttempts) (hlt : r.maxAttempts < maxInt) {i : Nat}
    (hi : (i : Int) = r.maxAttempts) : r.Exhausts i := by
  rw [maxInt] at hlt
  apply And.intro hr
  rw [wrap64, Int.bmod_eq_of_le (by omega) (by omega)]
  omega

end RetryJoiner

/-! ## The bound -/

/-- Join is called at most `maxAttempts` times, and nil is returned exactly when a call succeeds. -/
structure CallsBounded (maxAttempts : Int) (run : JoinRun) : Prop where
  calls_le : run.calls.length ≤ maxAttempts
  nil_iff : run.err = none ↔ ∃ c ∈ run.calls, c.succeeded

/-- And an error is returned after the last allowed attempt. -/
structure AttemptsBounded (maxAttempts : Int) (run : JoinRun) : Prop
    extends CallsBounded maxAttempts run where
  attempts_eq : run.err ≠ none → run.attempts = maxAttempts

/-- `retryJoin` returns, with a result that has the property. -/
def RetryJoiner.Ends (r : RetryJoiner) (newErr : Option String) (rounds : Nat → JoinRound)
    (P : JoinRun → Prop) : Prop :=
  ∃ n run, r.retryJoin newErr rounds n = some run ∧ P run

namespace RetryJoiner

variable {r : RetryJoiner} {rounds : Nat → JoinRound}

/-- A join succeeds for the first time in attempt `i`, before the counter is used up, and enough
of the attempts before it resolve no address. -/
def JoinsInTime (r : RetryJoiner) (rounds : Nat → JoinRound) : Prop :=
  ∃ i : Nat, (rounds i).Joins r.addrs ∧ (∀ j < i, ¬(rounds j).Joins r.addrs) ∧
    (i ≤ r.maxAttempts ∨ maxInt ≤ r.maxAttempts) ∧ i < r.maxAttempts + r.skipped rounds i

/-- No join succeeds in the attempts that are made, one of which resolves no address. -/
def SkipsOne (r : RetryJoiner) (rounds : Nat → JoinRound) : Prop :=
  r.maxAttempts < maxInt ∧ (∀ j : Nat, j ≤ r.maxAttempts → ¬(rounds j).Joins r.addrs) ∧
    ∃ j : Nat, j ≤ r.maxAttempts ∧ (rounds j).resolved r.addrs = []

theorem runUpTo_nil_iff {i : Nat} (hfirst : ∀ j < i, ¬(rounds j).Joins r.addrs) :
    (r.runUpTo rounds i).err = none ↔ ∃ c ∈ (r.runUpTo rounds i).calls, c.succeeded := by
  rw [runUpTo, succeeds_callsBefore_iff]
  constructor
  · intro h
    refine ⟨i, by omega, ?_⟩
    by_contra hj
    simp [hj] at h
  · rintro ⟨j, hj, hjoin⟩
    obtain rfl : j = i := by
      by_contra hne
      exact hfirst j (by omega) hjoin
    simp [hjoin]

theorem skipped_pos_iff (r : RetryJoiner) (rounds : Nat → JoinRound) (n : Nat) :
    0 < r.skipped rounds n ↔ ∃ i < n, (rounds i).resolved r.addrs = [] := by
  simp [skipped, List.countP_pos_iff]

/-- An attempt that joins resolves an address. -/
theorem skipped_succ_of_joins {i : Nat} (h : (rounds i).Joins r.addrs) :
    r.skipped rounds (i + 1) = r.skipped rounds i := by
  rw [skipped_succ, if_neg h.1, Nat.add_zero]

/-- How the loop can end: an attempt joins before the counter is used up, or the first
`maxAttempts + 1` attempts do not join. -/
theorem exists_returned_iff (hr : 0 < r.maxAttempts) (P : JoinRun → Prop) :
    (∃ run, Loops.Returns (r.step rounds) ⟨0, [], [], 0⟩ run ∧ P run) ↔
      (∃ i : Nat, (rounds i).Joins r.addrs ∧ (∀ j < i, ¬(rounds j).Joins r.addrs) ∧
        (i ≤ r.maxAttempts ∨ maxInt ≤ r.maxAttempts) ∧ P (r.runUpTo rounds i)) ∨
      ∃ i : Nat, (i : Int) = r.maxAttempts ∧ r.maxAttempts < maxInt ∧
        (∀ j ≤ i, ¬(rounds j).Joins r.addrs) ∧ P (r.runUpTo rounds i) := by
  simp only [returns_iff, not_or]
  constructor
  · rintro ⟨run, ⟨i, hend, hfirst, rfl⟩, hP⟩
    have hjoins : ∀ j < i, ¬(rounds j).Joins r.addrs := fun j hj => (hfirst j hj).1
    have hcounter : ∀ j < i, ¬r.Exhausts j := fun j hj => (hfirst j hj).2
    by_cases hj : (rounds i).Joins r.addrs
    · exact Or.inl ⟨i, hj, hjoins, (not_exhausts_before_iff hr i).1 hcounter, hP⟩
    · obtain ⟨heq, hlt⟩ := eq_of_exhausts hr (hend.resolve_left hj) hcounter
      refine Or.inr ⟨i, heq, hlt, fun j hji => ?_, hP⟩
      rcases Nat.lt_or_eq_of_le hji with h | rfl
      · exact hjoins j h
      · exact hj
  · rintro (⟨i, hj, hjoins, hcounter, hP⟩ | ⟨i, heq, hlt, hjoins, hP⟩)
    · have hcounter := (not_exhausts_before_iff hr i).2 hcounter
      exact ⟨_, ⟨i, Or.inl hj, fun j hji => ⟨hjoins j hji, hcounter j hji⟩, rfl⟩, hP⟩
    · have hcounter := (not_exhausts_before_iff hr i).2 (Or.inl heq.le)
      refine ⟨_, ⟨i, Or.inr (exhausts_of_eq hr hlt heq), fun j hji => ?_, rfl⟩, hP⟩
      exact ⟨hjoins j hji.le, hcounter j hji⟩

theorem ends_iff (newErr : Option String) (P : JoinRun → Prop) :
    r.Ends newErr rounds P ↔
      (r.addrs = [] ∧ P ⟨none, [], 0⟩) ∨
      (r.addrs ≠ [] ∧ ∃ err, newErr = some err ∧ P ⟨some err, [], 0⟩) ∨
      (r.addrs ≠ [] ∧ newErr = none ∧
        ∃ run, Loops.Returns (r.step rounds) ⟨0, [], [], 0⟩ run ∧ P run) := by
  rw [Ends]
  by_cases ha : r.addrs = []
  · simp [retryJoin, ha]
  · cases newErr with
    | some err => simp [retryJoin, ha]
    | none =>
      simp only [retryJoin, ha, if_false, false_and, false_or, Loops.Returns, not_false_iff,
        true_and, ne_eq, reduceCtorEq, exists_false]
      constructor
      · rintro ⟨n, run, hn, hP⟩
        exact ⟨run, ⟨n, hn⟩, hP⟩
      · rintro ⟨run, ⟨n, hn⟩, hP⟩
        exact ⟨n, run, hn, hP⟩

/-- A run is within the bound if enough of its attempts resolved no address. -/
theorem callsBounded_runUpTo_iff {i : Nat} (hfirst : ∀ j < i, ¬(rounds j).Joins r.addrs) :
    CallsBounded r.maxAttempts (r.runUpTo rounds i) ↔
      i < r.maxAttempts + r.skipped rounds (i + 1) := by
  have hlen := length_callsBefore r rounds (i + 1)
  have hcalls : ((r.callsBefore rounds (i + 1)).length : Int) ≤ r.maxAttempts ↔
      i < r.maxAttempts + r.skipped rounds (i + 1) := by omega
  rw [← hcalls]
  exact ⟨fun h => h.calls_le, fun h => ⟨h, runUpTo_nil_iff hfirst⟩⟩

theorem callsBounded_of_joins_iff {i : Nat} (hj : (rounds i).Joins r.addrs)
    (hfirst : ∀ j < i, ¬(rounds j).Joins r.addrs) :
    CallsBounded r.maxAttempts (r.runUpTo rounds i) ↔
      i < r.maxAttempts + r.skipped rounds i := by
  rw [callsBounded_runUpTo_iff hfirst, skipped_succ_of_joins hj]

theorem attemptsBounded_of_joins_iff {i : Nat} (hj : (rounds i).Joins r.addrs) :
    AttemptsBounded r.maxAttempts (r.runUpTo rounds i) ↔
      CallsBounded r.maxAttempts (r.runUpTo rounds i) := by
  constructor
  · intro h
    exact h.toCallsBounded
  · intro h
    refine ⟨h, fun herr => ?_⟩
    exact absurd (if_pos hj) herr

/-- A run that ends without a join has made one attempt more than is allowed. -/
theorem not_attemptsBounded {i : Nat} (hi : (i : Int) = r.maxAttempts)
    (hj : ¬(rounds i).Joins r.addrs) : ¬AttemptsBounded r.maxAttempts (r.runUpTo rounds i) := by
  intro h
  have herr : (r.runUpTo rounds i).err ≠ none := by simp [runUpTo, hj]
  have heq : ((i + 1 : Nat) : Int) = r.maxAttempts := h.attempts_eq herr
  omega

theorem callsBounded_of_exhausted_iff {i : Nat} (hi : (i : Int) = r.maxAttempts)
    (hjoins : ∀ j ≤ i, ¬(rounds j).Joins r.addrs) :
    CallsBounded r.maxAttempts (r.runUpTo rounds i) ↔
      ∃ j ≤ i, (rounds j).resolved r.addrs = [] := by
  have hpos := skipped_pos_iff r rounds (i + 1)
  simp only [Nat.lt_succ_iff] at hpos
  rw [callsBounded_runUpTo_iff fun j hj => hjoins j hj.le, ← hpos, hi]
  omega

theorem returns_attemptsBounded_iff (hr : 0 < r.maxAttempts) :
    (∃ run, Loops.Returns (r.step rounds) ⟨0, [], [], 0⟩ run ∧
      AttemptsBounded r.maxAttempts run) ↔ r.JoinsInTime rounds := by
  rw [exists_returned_iff hr]
  constructor
  · rintro (⟨i, hj, hfirst, hcounter, hP⟩ | ⟨i, heq, -, hjoins, hP⟩)
    · exact ⟨i, hj, hfirst, hcounter, (callsBounded_of_joins_iff hj hfirst).1 hP.toCallsBounded⟩
    · exact absurd hP (not_attemptsBounded heq (hjoins i le_rfl))
  · rintro ⟨i, hj, hfirst, hcounter, hlt⟩
    refine Or.inl ⟨i, hj, hfirst, hcounter, (attemptsBounded_of_joins_iff hj).2 ?_⟩
    exact (callsBounded_of_joins_iff hj hfirst).2 hlt

theorem returns_callsBounded_iff (hr : 0 < r.maxAttempts) :
    (∃ run, Loops.Returns (r.step rounds) ⟨0, [], [], 0⟩ run ∧
      CallsBounded r.maxAttempts run) ↔ r.JoinsInTime rounds ∨ r.SkipsOne rounds := by
  rw [exists_returned_iff hr]
  apply or_congr
  · apply exists_congr
    intro i
    constructor
    · rintro ⟨hj, hfirst, hcounter, hP⟩
      exact ⟨hj, hfirst, hcounter, (callsBounded_of_joins_iff hj hfirst).1 hP⟩
    · rintro ⟨hj, hfirst, hcounter, hlt⟩
      exact ⟨hj, hfirst, hcounter, (callsBounded_of_joins_iff hj hfirst).2 hlt⟩
  · constructor
    · rintro ⟨i, heq, hlt, hjoins, hP⟩
      obtain ⟨j, hji, hempty⟩ := (callsBounded_of_exhausted_iff heq hjoins).1 hP
      exact ⟨hlt, fun j hj => hjoins j (by omega), j, by omega, hempty⟩
    · rintro ⟨hlt, hjoins, j, hj, hempty⟩
      have heq : (r.maxAttempts.toNat : Int) = r.maxAttempts := Int.toNat_of_nonneg hr.le
      have hjoins' : ∀ j ≤ r.maxAttempts.toNat, ¬(rounds j).Joins r.addrs :=
        fun j hj => hjoins j (by omega)
      refine ⟨r.maxAttempts.toNat, heq, hlt, hjoins', ?_⟩
      exact (callsBounded_of_exhausted_iff heq hjoins').2 ⟨j, by omega, hempty⟩

/-- Nil without a call, for the empty list of addresses. -/
theorem not_callsBounded_nil (maxAttempts : Int) (attempts : Nat) :
    ¬CallsBounded maxAttempts ⟨none, [], attempts⟩ := by
  intro h
  simpa using h.nil_iff

/-- An error before the first attempt. -/
theorem callsBounded_error {maxAttempts : Int} (h : 0 < maxAttempts) (err : String) :
    CallsBounded maxAttempts ⟨some err, [], 0⟩ ∧
      ¬AttemptsBounded maxAttempts ⟨some err, [], 0⟩ := by
  constructor
  · exact ⟨by simpa using h.le, by simp⟩
  · intro hbounded
    have heq : ((0 : Nat) : Int) = maxAttempts := hbounded.attempts_eq (by simp)
    omega

/-- **The attempts are bounded exactly when a join succeeds in time.** The calls alone are bounded
also when discovery cannot be set up and when one of the attempts resolves no address. -/
theorem retryJoin_iff (r : RetryJoiner) (newErr : Option String) (rounds : Nat → JoinRound)
    (hr : 0 < r.maxAttempts) :
    (r.Ends newErr rounds (AttemptsBounded r.maxAttempts) ↔
        r.addrs ≠ [] ∧ newErr = none ∧ r.JoinsInTime rounds) ∧
      (r.Ends newErr rounds (CallsBounded r.maxAttempts) ↔
        r.addrs ≠ [] ∧ (newErr ≠ none ∨ r.JoinsInTime rounds ∨ r.SkipsOne rounds)) := by
  have hnil := not_callsBounded_nil r.maxAttempts 0
  have hnil' : ¬AttemptsBounded r.maxAttempts ⟨none, [], 0⟩ := fun h => hnil h.toCallsBounded
  rw [ends_iff, ends_iff, returns_attemptsBounded_iff hr, returns_callsBounded_iff hr]
  cases newErr with
  | none => simp [hnil, hnil']
  | some err => simp [hnil, hnil', callsBounded_error hr err]

/-- A server that is reached at the second of two attempts. -/
def secondAttempt : Nat → JoinRound := fun i =>
  ⟨fun _ => .error "no provider", .ok, fun _ => if i = 1 then .ok 1 else .error "refused"⟩

theorem joins_at_second_attempt :
    (⟨"LAN", ["10.0.0.1"], 2⟩ : RetryJoiner).Ends none secondAttempt (AttemptsBounded 2) :=
  (retryJoin_iff ⟨"LAN", ["10.0.0.1"], 2⟩ none secondAttempt (by decide)).1.2
    ⟨by decide, rfl, 1, by decide, by decide, by decide, by decide⟩

/-- A server that is never reached. -/
def neverReached : Nat → JoinRound := fun _ =>
  ⟨fun _ => .error "no provider", .ok, fun _ => .error "refused"⟩

/-- It is called twice where one attempt is allowed. -/
theorem one_attempt_too_many :
    ¬∀ (r : RetryJoiner) (rounds : Nat → JoinRound), r.addrs ≠ [] → 0 < r.maxAttempts →
      r.maxAttempts ≤ maxInt → r.Ends none rounds (CallsBounded r.maxAttempts) := by
  intro h
  obtain ⟨n, run, hn, hbounded⟩ :=
    h ⟨"LAN", ["10.0.0.1"], 1⟩ neverReached (by decide) (by decide) (by decide)
  have htwo : (⟨"LAN", ["10.0.0.1"], 1⟩ : RetryJoiner).retryJoin none neverReached 2 = some
      ⟨some "agent: max join LAN retry exhausted, exiting",
        [⟨["10.0.0.1"], .error "refused"⟩, ⟨["10.0.0.1"], .error "refused"⟩], 2⟩ := rfl
  have hreturns : Loops.Returns (RetryJoiner.step _ neverReached) _ run := ⟨n, hn⟩
  obtain rfl := hreturns.unique ⟨2, htwo⟩
  exact absurd hbounded.calls_le (by decide)

end RetryJoiner

end Dkron
