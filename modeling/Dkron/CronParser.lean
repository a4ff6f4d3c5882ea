import Dkron.ParentLinks
import Dkron.Scheduler

/-!
# One job, two parses

Validation, `GetNext` and `AddJob` parse the same schedule, but `AddJob` may put the job's time zone
in front of it. The parser of `robfig/cron` takes a zone named in front up to the first space, trims
the rest and splits it into fields, so whatever is accepted without the zone is accepted with it: a
job that was stored never keeps the scheduler from starting.

The activations are another matter. `GetNext` does not look at the time zone of the job, so what it
shows is the scheduled run only where the zone makes no difference.

Main results: `stored_job_schedulable` and `getNext_eq_scheduled_iff`.
-/

namespace Dkron

open Store Scheduler

/-! ## The parser of the cron library -/

/-- A `*time.Location`: `time.Local`, which is the zone of the server, or another one. -/
inductive Location where
  | server
  | named (z : Zone)

/-- The zone in force on a server with the given local zone. -/
def Location.zone (home : Zone) : Location → Zone
  | server => home
  | named z => z

/-- The schedule names its zone. -/
def namesZone (schedule : String) : Bool :=
  hasPrefix schedule "TZ=" ∨ hasPrefix schedule "CRON_TZ="

/-- The zone a schedule names, up to the first space, and the rest from there. -/
def zoneOf (schedule : String) : String × String :=
  let (name, rest) := ((schedule.toList.dropWhile (· ≠ '=')).drop 1).span (· ≠ ' ')
  (String.ofList name, String.ofList rest)

/-- The parts the cron parser is made of: `time.LoadLocation`, the descriptors, and the fields with
the activations they have in a zone. -/
structure CronParts where
  loadLocation : String → Option Location
  parseDescriptor : String → Location → Option CronSchedule
  parseFields : List String → Option (Zone → Time → Time)

/-- What follows the zone: a descriptor or fields. -/
def CronParts.parseSpec (c : CronParts) (loc : Location) (spec : String) : Option CronSchedule :=
  if hasPrefix spec "@" then c.parseDescriptor spec loc
  else (c.parseFields (fields spec)).map fun next => ⟨fun server => next (loc.zone server)⟩

/-- `Parse`. A zone without a space after it is out of bounds. -/
def CronParts.parse (c : CronParts) (spec : String) : Option CronSchedule :=
  if spec = "" then none
  else if namesZone spec then
    let (name, rest) := zoneOf spec
    if rest = "" then none
    else (c.loadLocation name).bind fun loc => c.parseSpec loc (trimSpace rest)
  else c.parseSpec .server spec

/-- The cron parser of the environment is made of such parts. No zone that can be loaded has a space
in its name, and no field begins with the mark of a descriptor. -/
structure CronParser (env : Env) extends CronParts where
  parse_eq : ∀ spec, (env.cronParse spec).toOption = toCronParts.parse spec
  loads_iff : ∀ name, (loadLocation name).isSome ↔ ∃ z, env.loadLocation name = .ok z
  space_not_mem : ∀ name loc, loadLocation name = some loc → ' ' ∉ name.toList
  not_at : ∀ fs next, parseFields fs = some next → ∀ f ∈ fs, ¬hasPrefix f "@"

/-! ## The zone in front -/

/-- `AddJob` puts the time zone of the job in front of its schedule. -/
def AddsZone (job : Job) : Prop :=
  job.timezone ≠ "" ∧ ¬hasPrefix job.scheduleHash "@" ∧ ¬namesZone job.scheduleHash

instance (job : Job) : Decidable (AddsZone job) := inferInstanceAs (Decidable (_ ∧ _ ∧ _))

section

variable {env : Env} {job : Job}

theorem cronSpec_of_addsZone (h : AddsZone job) :
    cronSpec job = "CRON_TZ=" ++ job.timezone ++ " " ++ job.scheduleHash := by
  obtain ⟨htz, hat, hzone⟩ := h
  simp only [namesZone, Bool.decide_or, Bool.decide_eq_true, Bool.or_eq_true, not_or] at hzone
  exact if_pos ⟨htz, hat, hzone⟩

theorem cronSpec_of_not_addsZone (h : ¬AddsZone job) : cronSpec job = job.scheduleHash := by
  refine if_neg fun ⟨htz, hat, hzone⟩ => h ⟨htz, hat, ?_⟩
  simpa [namesZone] using hzone

/-- The mark of a descriptor at the front of a text. -/
theorem hasPrefix_at_iff {s : String} : hasPrefix s "@" ↔ ∃ cs, s.toList = '@' :: cs := by
  rw [hasPrefix_iff]
  refine ⟨fun ⟨cs, hcs⟩ => ⟨cs, hcs.symm⟩, fun ⟨cs, hcs⟩ => ⟨cs, hcs.symm⟩⟩

/-- What is no descriptor goes to the cron parser. -/
theorem parse_of_not_at {spec : String} (h : ¬hasPrefix spec "@") :
    parse env spec = (env.cronParse spec).map Schedule.cron := by
  have hmark : ∀ pre cs, pre.toList = '@' :: cs → ¬hasPrefix spec pre := by
    intro pre cs hpre hspec
    rw [hasPrefix_iff, hpre] at hspec
    obtain ⟨ds, hds⟩ := hspec
    exact h (hasPrefix_at_iff.2 ⟨cs ++ ds, hds.symm⟩)
  have hne : ∀ pre cs, pre.toList = '@' :: cs → spec ≠ pre := by
    intro pre cs hpre hspec
    exact h (hasPrefix_at_iff.2 ⟨cs, by rw [hspec, hpre]⟩)
  have hat : ¬hasPrefix spec "@at " := hmark _ _ rfl
  have hafter : ¬hasPrefix spec "@after " := hmark _ _ rfl
  have hmanually : spec ≠ "@manually" := hne _ _ rfl
  have hminutely : spec ≠ "@minutely" := hne _ _ rfl
  unfold parse
  simp only [if_neg hmanually, if_neg hminutely, if_neg hat, if_neg hafter]
  cases env.cronParse spec <;> rfl

/-- The empty text is no schedule. -/
theorem CronParser.parse_empty_ne (cron : CronParser env) (s : Schedule) :
    parse env "" ≠ .ok s := by
  have hparse := cron.parse_eq ""
  rw [parse_of_not_at (by decide)]
  intro h
  cases hc : env.cronParse "" with
  | error msg =>
    rw [hc] at h
    cases h
  | ok c =>
    rw [hc] at hparse
    cases hparse

/-- A schedule without a mark or a zone that is accepted is made of fields. -/
theorem CronParser.fields_of_parse (cron : CronParser env) {spec : String} {s : Schedule}
    (hat : ¬hasPrefix spec "@") (hzone : ¬namesZone spec) (h : parse env spec = .ok s) :
    ∃ next, cron.parseFields (fields spec) = some next ∧ s = .cron ⟨next⟩ := by
  have hparse := cron.parse_eq spec
  have hempty : spec ≠ "" := by
    rintro rfl
    exact cron.parse_empty_ne s h
  rw [parse_of_not_at hat] at h
  rw [CronParts.parse, if_neg hempty, if_neg hzone, CronParts.parseSpec, if_neg hat] at hparse
  cases hc : env.cronParse spec with
  | error msg =>
    rw [hc] at h
    cases h
  | ok c =>
    rw [hc] at h hparse
    cases h
    cases hf : cron.parseFields (fields spec) with
    | none =>
      rw [hf] at hparse
      cases hparse
    | some next =>
      rw [hf] at hparse
      cases hparse
      exact ⟨next, rfl, rfl⟩

/-- The zone in front of a schedule is read back. -/
theorem zoneOf_cronTZ {tz : String} (h : ' ' ∉ tz.toList) (schedule : String) :
    zoneOf ("CRON_TZ=" ++ tz ++ " " ++ schedule) = (tz, " " ++ schedule) := by
  have hlist : ("CRON_TZ=" ++ tz ++ " " ++ schedule).toList =
      "CRON_TZ=".toList ++ (tz.toList ++ ' ' :: schedule.toList) := by
    simp [String.toList_append]
  have hname : ∀ c ∈ tz.toList, decide (c ≠ ' ') = true := by
    intro c hc
    exact decide_eq_true fun heq => h (heq ▸ hc)
  have hspan : (tz.toList ++ ' ' :: schedule.toList).span (· ≠ ' ') =
      (tz.toList, ' ' :: schedule.toList) := by
    rw [List.span_eq_takeWhile_dropWhile, List.takeWhile_append_of_pos hname,
      List.dropWhile_append_of_pos hname]
    simp
  have hdrop : (("CRON_TZ=" ++ tz ++ " " ++ schedule).toList.dropWhile (· ≠ '=')).drop 1 =
      tz.toList ++ ' ' :: schedule.toList := by
    rw [hlist]
    rfl
  rw [zoneOf, hdrop, hspan]
  simp only [String.ofList_toList, Prod.mk.injEq, true_and]
  exact String.toList_inj.1 (by simp [String.toList_append])

theorem fields_trimSpace_space (schedule : String) :
    fields (trimSpace (" " ++ schedule)) = fields schedule := by
  rw [fields_trimSpace, fields_eq, fields_eq, String.toList_append]
  exact congrArg _ (fieldsOf_cons_space (by decide) _)

/-- Fields stay fields when they are trimmed. -/
theorem CronParser.not_at_trimSpace (cron : CronParser env) {schedule : String}
    {next : Zone → Time → Time} (h : cron.parseFields (fields schedule) = some next) :
    ¬hasPrefix (trimSpace (" " ++ schedule)) "@" := by
  intro hat
  obtain ⟨cs, hcs⟩ := hasPrefix_at_iff.1 hat
  obtain ⟨ds, hds⟩ := exists_field_of_cons (c := '@') (by decide) cs
  have hfield : String.ofList ('@' :: ds) ∈ fields schedule := by
    rw [← fields_trimSpace_space, fields_eq, hcs]
    exact List.mem_map_of_mem hds
  exact cron.not_at _ _ h _ hfield (hasPrefix_at_iff.2 ⟨ds, String.toList_ofList⟩)

/-- **The zone in front.** Where `AddJob` adds the zone, an accepted schedule is made of fields, and
it is accepted with the zone: its activations are those of the fields in that zone. -/
theorem CronParser.parse_cronSpec (cron : CronParser env) {s : Schedule} (hz : AddsZone job)
    (hs : parse env job.scheduleHash = .ok s) (htz : ∃ z, env.loadLocation job.timezone = .ok z) :
    ∃ loc next, cron.loadLocation job.timezone = some loc ∧
      cron.parseFields (fields job.scheduleHash) = some next ∧ s = .cron ⟨next⟩ ∧
      parse env (cronSpec job) = .ok (.cron ⟨fun home => next (loc.zone home)⟩) := by
  obtain ⟨next, hnext, hcron⟩ := cron.fields_of_parse hz.2.1 hz.2.2 hs
  obtain ⟨loc, hloc⟩ := Option.isSome_iff_exists.1 ((cron.loads_iff _).2 htz)
  refine ⟨loc, next, hloc, hnext, hcron, ?_⟩
  have hlist : (cronSpec job).toList =
      "CRON_TZ=".toList ++ (job.timezone ++ " " ++ job.scheduleHash).toList := by
    rw [cronSpec_of_addsZone hz]
    simp [String.toList_append]
  have hat : ¬hasPrefix (cronSpec job) "@" := by
    rw [hasPrefix_at_iff, hlist]
    simp
  have hnames : namesZone (cronSpec job) := by
    have hpre : hasPrefix (cronSpec job) "CRON_TZ=" := hasPrefix_iff.2 ⟨_, hlist.symm⟩
    rw [namesZone, hpre]
    simp
  have hempty : cronSpec job ≠ "" := by
    intro h
    rw [h] at hlist
    cases hlist
  have hrest : " " ++ job.scheduleHash ≠ "" := by
    intro h
    have hl := congrArg String.toList h
    rw [String.toList_append] at hl
    cases hl
  have hparse := cron.parse_eq (cronSpec job)
  have hzone : zoneOf (cronSpec job) = (job.timezone, " " ++ job.scheduleHash) := by
    rw [cronSpec_of_addsZone hz]
    exact zoneOf_cronTZ (cron.space_not_mem _ _ hloc) _
  rw [CronParts.parse, if_neg hempty, if_pos hnames, hzone] at hparse
  simp only [if_neg hrest, hloc, Option.bind_some, CronParts.parseSpec,
    if_neg (cron.not_at_trimSpace hnext), fields_trimSpace_space, hnext, Option.map_some] at hparse
  rw [parse_of_not_at hat]
  cases hc : env.cronParse (cronSpec job) with
  | error msg =>
    rw [hc] at hparse
    cases hparse
  | ok c =>
    rw [hc] at hparse
    cases hparse
    rfl

/-! ## Accepted jobs can be scheduled -/

/-- The schedule of an accepted job without parent is parsed, and it is not empty. -/
theorem CronParser.schedule_of_validate (cron : CronParser env) (hv : job.validate env = .ok ())
    (hp : job.parentJob = "") : job.schedule ≠ "" ∧ ∃ s, parse env job.scheduleHash = .ok s := by
  have hsched := (Job.validate_eq_ok hv).2.1
  rw [Job.validateSchedule, if_pos (Or.inr hp)] at hsched
  cases hparse : parse env job.scheduleHash with
  | error msg =>
    rw [hparse] at hsched
    cases hsched
  | ok s =>
    refine ⟨fun hempty => cron.parse_empty_ne s ?_, s, rfl⟩
    have hhash : job.scheduleHash = "" := by
      rw [Job.scheduleHash, hempty]
      rfl
    rw [← hhash, hparse]

/-- The time zone of an accepted job can be loaded. -/
theorem loadLocation_of_validate (hv : job.validate env = .ok ()) :
    ∃ z, env.loadLocation job.timezone = .ok z := by
  have hsettings := (Job.validate_eq_ok hv).2.2
  rw [Job.validateSettings] at hsettings
  cases hload : env.loadLocation job.timezone with
  | ok z => exact ⟨z, rfl⟩
  | error msg =>
    rw [hload] at hsettings
    by_cases hconc : job.concurrency ≠ "allow" ∧ job.concurrency ≠ "forbid" ∧ job.concurrency ≠ ""
    · rw [if_pos hconc] at hsettings
      cases hsettings
    · rw [if_neg hconc] at hsettings
      cases hsettings

/-- The engine takes every accepted job. -/
theorem CronParser.schedulable (cron : CronParser env) (hv : job.validate env = .ok ()) :
    Schedulable env job := by
  intro hskip
  have hp : job.parentJob = "" := not_not.1 fun hp => hskip (.inr hp)
  obtain ⟨-, s, hs⟩ := cron.schedule_of_validate hv hp
  by_cases hz : AddsZone job
  · obtain ⟨loc, next, -, -, -, hspec⟩ :=
      cron.parse_cronSpec hz hs (loadLocation_of_validate hv)
    exact ⟨_, hspec⟩
  · exact ⟨s, by rw [cronSpec_of_not_addsZone hz, hs]⟩

/-- `AddJob` accepts what validation accepts. -/
theorem CronParser.addJob_ok (cron : CronParser env) (hv : job.validate env = .ok ()) (c : Cron) :
    ∃ c', addJob env job c = (.ok (), c') := by
  rw [addJob, insertJob]
  by_cases hskip : job.disabled ∨ job.parentJob ≠ ""
  · exact ⟨_, if_pos hskip⟩
  · obtain ⟨s, hs⟩ := cron.schedulable hv hskip
    rw [if_neg hskip, Cron.addJob, hs]
    exact ⟨_, rfl⟩

theorem CronParser.addJobs_ok (cron : CronParser env) {jobs : List Job}
    (h : ∀ job ∈ jobs, job.validate env = .ok ()) (c : Cron) :
    ∃ c', addJobs env jobs c = (.ok (), c') := by
  induction jobs generalizing c with
  | nil => exact ⟨c, rfl⟩
  | cons job jobs ih =>
    obtain ⟨c', hc'⟩ := cron.addJob_ok (h job List.mem_cons_self) c
    rw [addJobs, hc']
    exact ih (fun k hk => h k (List.mem_cons_of_mem _ hk)) c'

theorem mem_getJobs {db : DB} :
    job ∈ getJobs db ↔ ∃ n p, db.job? n = some p ∧ newJobFromProto p = job := by
  rw [getJobs, List.mem_filterMap]
  refine ⟨fun ⟨⟨k, v⟩, hmem, hjob⟩ => ?_, fun ⟨n, p, hp, hjob⟩ => ?_⟩
  · have hget := DB.mem_ascend.1 hmem
    cases v with
    | job p =>
      have hkey : jobKey p.name = k := DB.key_of_get hget
      exact ⟨p.name, p, DB.job?_eq_some.2 (hkey ▸ hget), Option.some.inj hjob⟩
    | execution e => cases hjob
    | stat t => cases hjob
  · exact ⟨(jobKey n, .job p), DB.mem_ascend.2 (DB.job?_eq_some.1 hp), by rw [← hjob]⟩

/-- What `SetJob` accepts is valid. -/
theorem validate_of_setJob {clk : Clock} {copyDependentJobs : Bool} {db : DB}
    (h : (setJob env clk job copyDependentJobs db).1 = .ok ()) : job.validate env = .ok () := by
  cases hv : job.validate env with
  | ok u => rfl
  | error e =>
    rw [setJob_of_invalid clk copyDependentJobs db hv] at h
    cases h

/-- The job does not wait for its `StartsAt`. -/
def Due (job : Job) (now : Time) : Prop := ∀ start ∈ job.startsAt, start ≤ now

/-- `GetNext` is the first activation of the schedule that `AddJob` registers, on a server in the
given zone. -/
def NextIsScheduled (env : Env) (job : Job) (zone : Zone) (now : Time) : Prop :=
  ∃ s, parse env (cronSpec job) = .ok s ∧ job.getNext env zone now = .ok (s.next zone now)

/-- The time zone of the job makes no difference: `AddJob` does not add it, it is that of the
server, or the fields of the schedule have the same activations in every zone. -/
def ZoneIrrelevant (cron : CronParser env) (job : Job) : Prop :=
  ¬AddsZone job ∨ cron.loadLocation job.timezone = some .server ∨
    ∀ next, cron.parseFields (fields job.scheduleHash) = some next →
      ∀ home home' now, Due job now → next home now = next home' now

/-- `GetNext` of a job that is due. -/
theorem getNext_of_due {s : Schedule} {zone : Zone} {now : Time} (hdue : Due job now)
    (hne : job.schedule ≠ "") (hs : parse env job.scheduleHash = .ok s) :
    job.getNext env zone now = .ok (s.next zone now) := by
  have hscheduled : Job.getNext.scheduled env zone now job = .ok (s.next zone now) := by
    rw [Job.getNext.scheduled, if_neg hne, hs]
  rw [Job.getNext]
  cases hstart : job.startsAt with
  | none => exact hscheduled
  | some start =>
    have hle : start ≤ now := hdue start (by rw [hstart]; rfl)
    simp only [if_neg (not_lt.2 hle)]
    exact hscheduled

/-- **The next run that is shown.** For an accepted job without parent `GetNext` is the scheduled
activation, on every server and at every instant from `StartsAt` on, if and only if the time zone of
the job makes no difference. -/
theorem getNext_eq_scheduled_iff (cron : CronParser env) (hv : job.validate env = .ok ())
    (hp : job.parentJob = "") :
    (∀ zone now, Due job now → NextIsScheduled env job zone now) ↔ ZoneIrrelevant cron job := by
  obtain ⟨hne, s, hs⟩ := cron.schedule_of_validate hv hp
  by_cases hz : AddsZone job
  · obtain ⟨loc, next, hloc, hnext, rfl, hspec⟩ :=
      cron.parse_cronSpec hz hs (loadLocation_of_validate hv)
    have hagrees : ∀ zone now, Due job now →
        (NextIsScheduled env job zone now ↔ next zone now = next (loc.zone zone) now) := by
      intro zone now hdue
      rw [NextIsScheduled, hspec, getNext_of_due hdue hne hs]
      simp [Schedule.next]
    refine ⟨fun h => ?_, fun h zone now hdue => (hagrees zone now hdue).2 ?_⟩
    · cases loc with
      | server => exact .inr (.inl hloc)
      | named z =>
        refine .inr (.inr fun next' hnext' home home' now hdue => ?_)
        obtain rfl : next = next' := Option.some.inj (hnext.symm.trans hnext')
        calc next home now = next z now := (hagrees home now hdue).1 (h home now hdue)
          _ = next home' now := ((hagrees home' now hdue).1 (h home' now hdue)).symm
    · rcases h with hz' | hserver | hfree
      · exact absurd hz hz'
      · obtain rfl : loc = .server := Option.some.inj (hloc.symm.trans hserver)
        rfl
      · exact hfree next hnext _ _ now hdue
  · refine iff_of_true (fun zone now hdue => ⟨s, ?_, getNext_of_due hdue hne hs⟩) (.inl hz)
    rw [cronSpec_of_not_addsZone hz, hs]

end

/-! ## A small cron library -/

/-- The first noon in the zone after an instant, the zone's offset taken at that instant. -/
def nextNoon (zone : Zone) (t : Time) : Time :=
  let noon := truncateDay (t + zone t) + 12 * hourNanos
  (if t + zone t < noon then noon else noon + dayNanos) - zone t

/-- It knows two zones besides that of the server, and the schedule of every noon. -/
def CronParts.small : CronParts where
  loadLocation name :=
    if name = "Local" then some .server
    else if name = "" ∨ name = "UTC" then some (.named fun _ => 0)
    else if name = "Asia/Tokyo" then some (.named fun _ => 9 * hourNanos)
    else none
  parseDescriptor _ _ := none
  parseFields fs := if fs = ["0", "0", "12", "*", "*", "*"] then some nextNoon else none

/-- A host with that library. -/
def Env.cron : Env :=
  { Env.small with
    cronParse := fun spec =>
      match CronParts.small.parse spec with
      | some c => .ok c
      | none => .error ("failed to parse " ++ spec)
    loadLocation := fun name =>
      match CronParts.small.loadLocation name with
      | some loc => .ok (loc.zone fun _ => 0)
      | none => .error ("unknown time zone " ++ name) }

/-- The library is one. -/
def CronParser.small : CronParser Env.cron where
  toCronParts := CronParts.small
  parse_eq spec := by
    simp only [Env.cron]
    cases CronParts.small.parse spec <;> rfl
  loads_iff name := by
    simp only [Env.cron]
    cases CronParts.small.loadLocation name <;> simp
  space_not_mem name loc h := by
    simp only [CronParts.small] at h
    split_ifs at h with hlocal hutc htokyo
    · rw [hlocal]
      decide
    · rcases hutc with rfl | rfl <;> decide
    · rw [htokyo]
      decide
  not_at fs next h := by
    simp only [CronParts.small] at h
    split_ifs at h with hfs
    rw [hfs]
    decide

/-- A job for every noon in Tokyo. -/
def noonInTokyo : Job := { name := "a", schedule := "0 0 12 * * *", timezone := "Asia/Tokyo" }

theorem noonInTokyo_valid : noonInTokyo.validate Env.cron = .ok () := by decide

theorem noonInTokyo_next_iff :
    (∀ zone now, Due noonInTokyo now → NextIsScheduled Env.cron noonInTokyo zone now) ↔
      ZoneIrrelevant CronParser.small noonInTokyo :=
  getNext_eq_scheduled_iff CronParser.small noonInTokyo_valid rfl

/-- On a server in UTC the next run shown is noon there, not in Tokyo. -/
theorem next_shown_not_scheduled :
    noonInTokyo.validate Env.cron = .ok () ∧ Due noonInTokyo 0 ∧
      ¬NextIsScheduled Env.cron noonInTokyo (fun _ => 0) 0 := by
  refine ⟨noonInTokyo_valid, fun start h => absurd h (by simp [noonInTokyo]), ?_⟩
  rintro ⟨s, hs, hnext⟩
  have hscheduled : (parse Env.cron (cronSpec noonInTokyo)).toOption.map
      (fun s => s.next (fun _ => 0) 0) = some (3 * hourNanos) := by decide
  have hshown : (noonInTokyo.getNext Env.cron (fun _ => 0) 0).toOption = some (12 * hourNanos) := by
    decide
  rw [hs] at hscheduled
  rw [hnext] at hshown
  have heq := hscheduled.symm.trans hshown
  revert heq
  decide

end Dkron
