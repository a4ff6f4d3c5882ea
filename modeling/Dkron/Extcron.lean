import Dkron.Execution
import Dkron.GoStrings

/-!
# Schedules

`extcron` extends the cron parser with `@manually`, `@minutely`, `@at` and `@after`. What it calls
outside the repository, and what the rest of the server takes from its host, is the record `Env`:
the cron parser, the time zone database, the parsers of Go's `time` package, floating point, the
Unicode tables and the slice sort. Every result below holds for every `Env`.
-/

namespace Dkron

/-- A schedule of `robfig/cron`: the first activation after an instant, on a server whose local
zone is the given one. -/
structure CronSchedule where
  next : Zone → Time → Time

/-- The code outside the repository. -/
structure Env where
  /-- Membership in `unicode.Ll`, the lower case letters. -/
  isLowercase : Char → Bool
  isLowercase_colon : isLowercase ':' = false
  /-- The cron parser, with seconds and descriptors. -/
  cronParse : String → Except String CronSchedule
  /-- `time.Parse(time.RFC3339, s)`. -/
  parseRFC3339 : String → Except String Time
  /-- `time.LoadLocation`. -/
  loadLocation : String → Except String Zone
  /-- `time.ParseDuration`, in nanoseconds. -/
  parseDuration : String → Except String Int
  /-- `strconv.ParseFloat(s, 64)`: the exact value of the nearest float. -/
  parseFloat : String → Option ℚ
  /-- `time.Duration(seconds * float64(time.Second))` of a parsed number of seconds. -/
  parseSeconds : String → Option Int
  /-- `sort.Slice` by an instant. It is not stable: the order of equal elements is its own. -/
  sortSlice : (Execution → Time) → List Execution → List Execution
  sortSlice_perm : ∀ f l, (sortSlice f l).Perm l
  sortSlice_sorted : ∀ f l, (sortSlice f l).Pairwise fun a b => f a ≤ f b

/-! ## ISO 8601 durations -/

/-- The nanoseconds of `time.Hour`. -/
def hourNanos : Int := 3600 * 10 ^ 9

/-- An optional group `(?:(\d+)U)?` of the duration syntax: its digits, if any, and the rest. -/
def unitGroup (unit : Char) (cs : List Char) : List Char × List Char :=
  match cs.span Char.isDigit with
  | ([], _) => ([], cs)
  | (ds, c :: rest) => if c = unit then (ds, rest) else ([], cs)
  | (_, []) => ([], cs)

/-- The group `(?:(\d+(?:\.\d+)?)S)?`. -/
def secondsGroup (cs : List Char) : List Char × List Char :=
  match cs.span Char.isDigit with
  | (d :: ds, 'S' :: rest) => (d :: ds, rest)
  | (d :: ds, '.' :: rest) =>
    match rest.span Char.isDigit with
    | (f :: fs, 'S' :: rest') => (d :: ds ++ '.' :: f :: fs, rest')
    | _ => ([], cs)
  | _ => ([], cs)

/-- The submatches of `iso8601DurationRegex`: years, months, days, hours, minutes, seconds. -/
def durationMatches (s : String) : Option (List (List Char)) :=
  match s.toList with
  | 'P' :: cs =>
    let (ys, cs) := unitGroup 'Y' cs
    let (ms, cs) := unitGroup 'M' cs
    let (ds, cs) := unitGroup 'D' cs
    match cs with
    | [] => some [ys, ms, ds, [], [], []]
    | 'T' :: cs =>
      let (hs, cs) := unitGroup 'H' cs
      let (mins, cs) := unitGroup 'M' cs
      let (ss, cs) := secondsGroup cs
      if cs = [] then some [ys, ms, ds, hs, mins, ss] else none
    | _ => none
  | _ => none

/-- One component of a duration, added to what was read so far; `Atoi` rejects what does not fit
into an `int`, and the product and the sum wrap. -/
def addUnit (label : String) (unit : Int) (duration : Int) (ds : List Char) : Except String Int :=
  if ds = [] then .ok duration
  else
    match parseInt (String.ofList ds) with
    | none => .error ("invalid " ++ label ++ " value: " ++ String.ofList ds)
    | some n => .ok (wrap64 (duration + wrap64 (n * unit)))

/-- `ParseISO8601Duration`. -/
def parseISO8601Duration (env : Env) (s : String) : Except String Int := do
  if s = "" then throw "empty duration string"
  match durationMatches s with
  | some [ys, ms, ds, hs, mins, ss] =>
    let d ← addUnit "year" (365 * 24 * hourNanos) 0 ys
    let d ← addUnit "month" (30 * 24 * hourNanos) d ms
    let d ← addUnit "day" (24 * hourNanos) d ds
    let d ← addUnit "hour" hourNanos d hs
    let d ← addUnit "minute" (60 * 10 ^ 9) d mins
    let d ← if ss = [] then pure d else
      match env.parseSeconds (String.ofList ss) with
      | none => throw ("invalid second value: " ++ String.ofList ss)
      | some n => pure (wrap64 (d + n))
    if d = 0 then throw "duration must be greater than zero"
    return d
  | _ => throw ("invalid ISO8601 duration format: " ++ s)

/-! ## Schedules -/

/-- What a specification parses to. -/
inductive Schedule where
  /-- `SimpleSchedule`. -/
  | simple (date : Time)
  /-- `AfterSchedule`, when made. -/
  | after (date : Time) (gracePeriod : Int)
  /-- Anything the cron parser knows. -/
  | cron (c : CronSchedule)

/-- `SimpleSchedule.Next`. -/
def simpleNext (date t : Time) : Time := if t < date then date else zeroTime

/-- `AfterSchedule.Next`: the result and the new value of `consumed`. -/
def afterNext (date : Time) (gracePeriod : Int) (consumed : Bool) (t : Time) : Time × Bool :=
  if consumed then (zeroTime, consumed)
  else if t < date then (date, consumed)
  else if t ≤ date + gracePeriod then (t + 1, true)
  else (zeroTime, consumed)

/-- `Next` of a schedule that was just parsed. -/
def Schedule.next (zone : Zone) (t : Time) : Schedule → Time
  | .simple date => simpleNext date t
  | .after date gracePeriod => (afterNext date gracePeriod false t).1
  | .cron c => c.next zone t

/-- `ExtParser.Parse`. -/
def parse (env : Env) (spec : String) : Except String Schedule := do
  if spec = "@manually" then return .simple zeroTime
  let spec := if spec = "@minutely" then "0 * * * * *" else spec
  if hasPrefix spec "@at " then
    match env.parseRFC3339 (dropPrefix spec 4) with
    | .error err => throw ("failed to parse date " ++ spec ++ ": " ++ err)
    | .ok date => return .simple date
  if hasPrefix spec "@after " then
    match fields (dropPrefix spec 7) with
    | [datetime, grace] =>
      let date ← match env.parseRFC3339 datetime with
        | .error err => throw ("failed to parse date in @after: " ++ datetime ++ ": " ++ err)
        | .ok date => pure date
      if ¬hasPrefix grace "<" then throw ("grace period must start with '<', got: " ++ grace)
      let durationStr := dropPrefix grace 1
      match parseISO8601Duration env durationStr with
      | .error err =>
        throw ("failed to parse grace period in @after: " ++ durationStr ++ ": " ++ err)
      | .ok gracePeriod => return .after date gracePeriod
    | _ =>
      throw ("@after requires format: @after <RFC3339 datetime> <ISO8601 duration>, got: " ++ spec)
  return .cron (← env.cronParse spec)

/-! ## A small host -/

/-- A host that knows ASCII letters, UTC and the schedule `@every 1h`: enough to run examples. -/
def Env.small : Env where
  isLowercase c := 'a' ≤ c ∧ c ≤ 'z'
  isLowercase_colon := by decide
  cronParse spec :=
    if spec = "@every 1h" then .ok ⟨fun _ t => t + (hourNanos - t % 10 ^ 9)⟩
    else .error ("failed to parse " ++ spec)
  parseRFC3339 s := .error ("cannot parse " ++ s)
  loadLocation name :=
    if name = "" ∨ name = "UTC" then .ok fun _ => 0 else .error ("unknown time zone " ++ name)
  parseDuration s := .error ("time: invalid duration " ++ s)
  parseFloat _ := none
  parseSeconds _ := none
  sortSlice f l := l.mergeSort fun a b => f a ≤ f b
  sortSlice_perm f l := List.mergeSort_perm l _
  sortSlice_sorted f l := by
    have htrans : ∀ a b c : Execution, decide (f a ≤ f b) → decide (f b ≤ f c) →
        decide (f a ≤ f c) := by
      simp only [decide_eq_true_eq]
      exact fun a b c => le_trans
    have htotal : ∀ a b : Execution, decide (f a ≤ f b) || decide (f b ≤ f a) := by
      simp only [Bool.or_eq_true, decide_eq_true_eq]
      exact fun a b => le_total (f a) (f b)
    exact (List.pairwise_mergeSort htrans htotal l).imp of_decide_eq_true

end Dkron
