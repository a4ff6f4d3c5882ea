import Dkron.JobListing

/-!
# Pages of the job list

`jobsHandler` lists the jobs that pass the filters of the request and returns a part of them: the
parameters `_start` and `_end` are read as numbers, whatever they are, and used as the bounds of
a slice. Only the end is cut, and only from above.

**Theorem (`jobsHandler_iff`).** The handler answers with the jobs at the positions from `_start`
to `_end` exactly when the start it reads is neither negative nor behind the end of the part; else
the slice is out of range and the handler panics.
-/

namespace Dkron

/-! ## Numbers -/

/-- The digits in `strconv.ParseUint`: none on a character that is no digit, and the largest
number as soon as the digits exceed it. -/
def scanUint : Nat → List Char → Option Nat
  | n, [] => some n
  | n, c :: cs =>
    if ¬c.isDigit then none
    else
      let n' := 10 * n + (c.toNat - 48)
      if 2 ^ 64 ≤ n' then some (2 ^ 64 - 1) else scanUint n' cs

/-- The number that `strconv.Atoi` returns, beside an error that the handler does not look at: 0
for what is no number, and the nearest `int` for a number out of range. -/
def atoiValue (s : String) : Int :=
  let (neg, ds) := match s.toList with
    | '-' :: ds => (true, ds)
    | '+' :: ds => (false, ds)
    | ds => (false, ds)
  if ds = [] then 0
  else
    match scanUint 0 ds with
    | none => 0
    | some n => if neg then max (-n) (-2 ^ 63) else min n (2 ^ 63 - 1)

/-! ## The handler -/

/-- The parameters of the request; none where one is absent. -/
structure JobsQuery where
  metadata : StrMap := []
  sort : Option String := none
  order : Option String := none
  q : Option String := none
  status : Option String := none
  disabled : Option String := none
  start : Option String := none
  stop : Option String := none
deriving DecidableEq, Repr

/-- The options for `GetJobs`. -/
def JobsQuery.options (query : JobsQuery) : JobOptions where
  metadata := query.metadata
  sort := if query.sort.getD "id" = "id" then "name" else query.sort.getD "id"
  order := query.order.getD "ASC"
  query := query.q.getD ""
  status := query.status.getD ""
  disabled := query.disabled.getD ""

/-- The `_start` that is read. -/
def JobsQuery.startValue (query : JobsQuery) : Int := atoiValue (query.start.getD "0")

/-- The `_end` that is read, for a list of the given length. -/
def JobsQuery.endValue (query : JobsQuery) (length : Nat) : Int :=
  match query.stop with
  | none => length
  | some stop => atoiValue stop

/-- `xs[s:e]`: none when the bounds are out of range, which is a panic. -/
def slice {α : Type} (xs : List α) (s e : Int) : Option (List α) :=
  if 0 ≤ s ∧ s ≤ e ∧ e ≤ xs.length then some ((xs.take e.toNat).drop s.toNat) else none

/-- How the handler ends. -/
inductive JobsAnswer where
  /-- Status 500. -/
  | unreachable
  | panicked
  /-- Status 200, with the header `X-Total-Count`. -/
  | listed (totalCount : Nat) (jobs : List Job)
deriving DecidableEq, Repr

/-- `jobsHandler`. -/
def jobsHandler (bunt : BuntDB) (db : DB) (query : JobsQuery) : JobsAnswer :=
  match bunt.getJobs (some query.options) db with
  | none => .unreachable
  | some jobs =>
    let s := query.startValue
    let e := if query.endValue jobs.length > jobs.length then (jobs.length : Int)
      else query.endValue jobs.length
    match slice jobs s e with
    | none => .panicked
    | some page => .listed jobs.length page

/-! ## Positions -/

/-- The elements at the positions from `lo` on and below `hi`. -/
def positions {α : Type} (xs : List α) (lo hi : Int) : List α :=
  (xs.zipIdx.filter fun p => lo ≤ (p.2 : Int) ∧ (p.2 : Int) < hi).map Prod.fst

theorem positions_eq {α : Type} (xs : List α) (lo hi : Int) :
    positions xs lo hi = (xs.take hi.toNat).drop lo.toNat := by
  have hfrom : ∀ (xs : List α) (k : Nat),
      ((xs.zipIdx k).filter fun p => lo ≤ (p.2 : Int) ∧ (p.2 : Int) < hi).map Prod.fst =
        (xs.take (hi - k).toNat).drop (lo - k).toNat := by
    intro xs
    induction xs with
    | nil => simp
    | cons x xs ih =>
      intro k
      rw [List.zipIdx_cons, List.filter_cons]
      by_cases hhi : (k : Int) < hi
      · have hstop : (hi - k).toNat = (hi - (k + 1 : Nat)).toNat + 1 := by omega
        rw [hstop, List.take_succ_cons]
        by_cases hlo : lo ≤ k
        · have hzero : (lo - k).toNat = 0 := by omega
          have hzero' : (lo - (k + 1 : Nat)).toNat = 0 := by omega
          rw [if_pos (by simp [hlo, hhi]), List.map_cons, ih, hzero, hzero', List.drop_zero,
            List.drop_zero]
        · have hstart : (lo - k).toNat = (lo - (k + 1 : Nat)).toNat + 1 := by omega
          rw [hstart, List.drop_succ_cons, ← ih, if_neg (by simp [hlo])]
      · have hstop : (hi - k).toNat = 0 := by omega
        have hstop' : (hi - (k + 1 : Nat)).toNat = 0 := by omega
        rw [if_neg (by simp [hhi]), ih, hstop, hstop', List.take_zero, List.take_zero]
        simp
  have hall := hfrom xs 0
  rwa [Nat.cast_zero, sub_zero, sub_zero] at hall

/-- The answer that the request asks for. -/
def wantedJobs (jobs : List Job) (query : JobsQuery) : JobsAnswer :=
  .listed jobs.length
    (positions jobs (max 0 query.startValue) (min (query.endValue jobs.length) jobs.length))

/-- The handler answers as wanted or panics. -/
theorem jobsHandler_eq {bunt : BuntDB} {db : DB} {query : JobsQuery} {jobs : List Job}
    (hjobs : bunt.getJobs (some query.options) db = some jobs) :
    jobsHandler bunt db query =
      if 0 ≤ query.startValue ∧ query.startValue ≤ min (query.endValue jobs.length) jobs.length then
        wantedJobs jobs query
      else .panicked := by
  have hcut : (if query.endValue jobs.length > jobs.length then (jobs.length : Int)
      else query.endValue jobs.length) = min (query.endValue jobs.length) jobs.length := by
    rw [min_def]
    split_ifs <;> omega
  simp only [jobsHandler, hjobs, hcut, slice, min_le_right, and_true]
  by_cases h : 0 ≤ query.startValue ∧
      query.startValue ≤ min (query.endValue jobs.length) jobs.length
  · rw [if_pos h, if_pos h, wantedJobs, positions_eq, max_eq_right h.1]
  · rw [if_neg h, if_neg h]

end Dkron
