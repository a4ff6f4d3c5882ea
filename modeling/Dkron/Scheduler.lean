import Dkron.Store

/-!
# The scheduler

`dkron/scheduler.go`. A scheduler holds one cron engine, and the engine holds entries: a schedule
and the job it runs. An entry is found by the name of its job, in the order the engine has the
entries in at that moment, and is removed by its number.

What the engine does with its entries, and the variables for `expvar`, are left out.
-/

namespace Dkron

/-- `cron.Entry`. -/
structure Entry where
  id : ℕ
  schedule : Schedule
  job : Job

/-- `cron.Cron`: the entries, and the number of the last one made. -/
structure Cron where
  entries : List Entry := []
  nextID : ℕ := 0

namespace Cron

/-- `Remove`. -/
def remove (id : ℕ) (c : Cron) : Cron :=
  { c with entries := c.entries.filter fun e => e.id ≠ id }

/-- `Schedule`: a new entry. -/
def schedule (s : Schedule) (job : Job) (c : Cron) : Cron where
  entries := c.entries ++ [⟨c.nextID + 1, s, job⟩]
  nextID := c.nextID + 1

/-- `AddJob` of the engine, with the extended parser. -/
def addJob (env : Env) (spec : String) (job : Job) (c : Cron) : Except Err Unit × Cron :=
  match parse env spec with
  | .error msg => (.error (.text msg), c)
  | .ok s => (.ok (), c.schedule s job)

/-- The engine sorts its entries, by their next activations. -/
def sort (le : Entry → Entry → Bool) (c : Cron) : Cron :=
  { c with entries := c.entries.mergeSort le }

end Cron

namespace Scheduler

/-- `GetEntryJob`. -/
def getEntryJob (jobName : String) (c : Cron) : Option Entry :=
  c.entries.find? fun e => e.job.name = jobName

/-- `RemoveJob`. -/
def removeJob (jobName : String) (c : Cron) : Cron :=
  match getEntryJob jobName c with
  | some e => c.remove e.id
  | none => c

/-- The job's schedule with its time zone in front: unless there is none, the schedule is a
descriptor, or it names a zone itself. -/
def cronSpec (job : Job) : String :=
  let schedule := job.scheduleHash
  if job.timezone ≠ "" ∧ ¬hasPrefix schedule "@" ∧ ¬hasPrefix schedule "TZ=" ∧
      ¬hasPrefix schedule "CRON_TZ=" then
    "CRON_TZ=" ++ job.timezone ++ " " ++ schedule
  else schedule

/-- What `AddJob` does after it has removed the old entry. -/
def insertJob (env : Env) (job : Job) (c : Cron) : Except Err Unit × Cron :=
  if job.disabled ∨ job.parentJob ≠ "" then (.ok (), c)
  else c.addJob env (cronSpec job) job

/-- `AddJob`. -/
def addJob (env : Env) (job : Job) (c : Cron) : Except Err Unit × Cron :=
  insertJob env job (if (getEntryJob job.name c).isSome then removeJob job.name c else c)

/-- `ClearCron`. -/
def clearCron (c : Cron) : Cron := c.entries.foldl (fun c e => removeJob e.job.name c) c

/-- The loop of `Start`: it stops at the first job that is not accepted. -/
def addJobs (env : Env) : List Job → Cron → Except Err Unit × Cron
  | [], c => (.ok (), c)
  | job :: jobs, c =>
    match addJob env job c with
    | (.error e, c) => (.error e, c)
    | (.ok (), c) => addJobs env jobs c

end Scheduler

open Scheduler

/-! ## Entries by name -/

/-- The entries whose job has the given name. -/
def Cron.named (n : String) (c : Cron) : List Entry := c.entries.filter fun e => e.job.name = n

/-- The engine has at most one entry for a name, and the numbers of its entries differ. -/
structure Cron.Wf (c : Cron) : Prop where
  id_le : ∀ e ∈ c.entries, e.id ≤ c.nextID
  id_inj : ∀ e ∈ c.entries, ∀ e' ∈ c.entries, e.id = e'.id → e = e'
  named_le : ∀ n, (c.named n).length ≤ 1

/-- Only entries for the name come and go, and those that come are new. -/
structure Cron.ChangesOnly (n : String) (c c' : Cron) : Prop where
  named_ne : ∀ m, m ≠ n → c'.named m = c.named m
  fresh : ∀ e ∈ c'.entries, e ∈ c.entries ∨ c.nextID < e.id
  nextID_le : c.nextID ≤ c'.nextID

/-- The engine has the entry the job should have: none for a job that is disabled or has a parent,
and otherwise the only one for its name. -/
def Cron.Shows (env : Env) (n : String) (job? : Option Job) (c : Cron) : Prop :=
  match job? with
  | none => c.named n = []
  | some job =>
    if job.disabled ∨ job.parentJob ≠ "" then c.named n = []
    else ∃ e, c.named n = [e] ∧ e.job.schedule = job.schedule ∧ e.job.timezone = job.timezone ∧
      parse env (cronSpec job) = .ok e.schedule

/-- The engine takes the job: it is not scheduled at all, or its schedule parses. -/
def Schedulable (env : Env) (job : Job) : Prop :=
  ¬(job.disabled ∨ job.parentJob ≠ "") → ∃ s, parse env (cronSpec job) = .ok s

namespace Cron

variable {env : Env} {c : Cron} {n : String} {job : Job}

theorem mem_named {e : Entry} : e ∈ c.named n ↔ e ∈ c.entries ∧ e.job.name = n := by
  simp [named]

theorem named_eq_nil_iff : c.named n = [] ↔ ∀ e ∈ c.entries, e.job.name ≠ n := by
  simp [named, List.filter_eq_nil_iff]

theorem named_of_entries_eq_nil (h : c.entries = []) (n : String) : c.named n = [] := by
  simp [named, h]

theorem wf_of_entries_eq_nil (h : c.entries = []) : c.Wf := by
  constructor <;> simp [h, named]

/-- Two entries for one name are the same. -/
theorem Wf.eq_of_named (h : c.Wf) {e e' : Entry} (he : e ∈ c.named n) (he' : e' ∈ c.named n) :
    e = e' := by
  have hle := h.named_le n
  match hnamed : c.named n, he, he' with
  | [x], he, he' => rw [List.mem_singleton.1 he, List.mem_singleton.1 he']
  | x :: y :: l, _, _ =>
    rw [hnamed] at hle
    simp at hle

theorem getEntryJob_eq_none_iff : getEntryJob n c = none ↔ c.named n = [] := by
  rw [getEntryJob, List.find?_eq_none, named_eq_nil_iff]
  simp

theorem getEntryJob_eq_some {e : Entry} (h : getEntryJob n c = some e) : e ∈ c.named n := by
  rw [mem_named]
  exact ⟨List.mem_of_find?_eq_some h, by simpa using List.find?_some h⟩

theorem ChangesOnly.refl (n : String) (c : Cron) : c.ChangesOnly n c where
  named_ne _ _ := rfl
  fresh _ he := .inl he
  nextID_le := le_rfl

theorem ChangesOnly.trans {c' c'' : Cron} (h : c.ChangesOnly n c') (h' : c'.ChangesOnly n c'') :
    c.ChangesOnly n c'' where
  named_ne m hm := (h'.named_ne m hm).trans (h.named_ne m hm)
  fresh e he := by
    rcases h'.fresh e he with he' | hid
    · exact h.fresh e he'
    · exact .inr (lt_of_le_of_lt h.nextID_le hid)
  nextID_le := h.nextID_le.trans h'.nextID_le

/-! ### Removing -/

theorem mem_remove {id : ℕ} {e : Entry} :
    e ∈ (c.remove id).entries ↔ e ∈ c.entries ∧ e.id ≠ id := by
  simp [remove]

theorem named_remove (id : ℕ) :
    (c.remove id).named n = (c.named n).filter fun e => e.id ≠ id := by
  simp only [named, remove, List.filter_filter]
  congr 1
  funext e
  rw [Bool.and_comm]

theorem Wf.remove (h : c.Wf) (id : ℕ) : (c.remove id).Wf where
  id_le e he := h.id_le e (mem_remove.1 he).1
  id_inj e he e' he' := h.id_inj e (mem_remove.1 he).1 e' (mem_remove.1 he').1
  named_le m := by
    rw [named_remove]
    exact (List.length_filter_le _ _).trans (h.named_le m)

/-- Removing by the number that just the entries for the name have. -/
theorem changesOnly_remove {id : ℕ} (h : ∀ e ∈ c.entries, e.id = id ↔ e.job.name = n) :
    c.ChangesOnly n (c.remove id) ∧ (c.remove id).named n = [] := by
  refine ⟨⟨fun m hm => ?_, fun e he => .inl (mem_remove.1 he).1, le_rfl⟩, ?_⟩
  · rw [named_remove, List.filter_eq_self]
    intro e he
    obtain ⟨hmem, hname⟩ := mem_named.1 he
    exact decide_eq_true fun hid => hm (hname ▸ (h e hmem).1 hid)
  · rw [named_eq_nil_iff]
    intro e he hname
    obtain ⟨hmem, hid⟩ := mem_remove.1 he
    exact hid ((h e hmem).2 hname)

/-- The number of an entry belongs to its name. -/
theorem Wf.id_iff (h : c.Wf) {e : Entry} (he : e ∈ c.named n) :
    ∀ e' ∈ c.entries, e'.id = e.id ↔ e'.job.name = n := by
  intro e' he'
  obtain ⟨hmem, hname⟩ := mem_named.1 he
  refine ⟨fun hid => ?_, fun hname' => ?_⟩
  · rw [h.id_inj e' he' e hmem hid, hname]
  · rw [h.eq_of_named (mem_named.2 ⟨he', hname'⟩) he]

/-! ### Adding -/

theorem mem_schedule {s : Schedule} {e : Entry} :
    e ∈ (c.schedule s job).entries ↔ e ∈ c.entries ∨ e = ⟨c.nextID + 1, s, job⟩ := by
  simp [schedule]

theorem named_schedule (s : Schedule) :
    (c.schedule s job).named n =
      c.named n ++ if job.name = n then [⟨c.nextID + 1, s, job⟩] else [] := by
  by_cases hn : job.name = n <;> simp [named, schedule, hn]

theorem Wf.schedule (h : c.Wf) (hnone : c.named job.name = []) (s : Schedule) :
    (c.schedule s job).Wf where
  id_le e he := by
    rcases mem_schedule.1 he with he | rfl
    · exact (h.id_le e he).trans (Nat.le_succ _)
    · exact le_rfl
  id_inj e he e' he' hid := by
    rcases mem_schedule.1 he with he | rfl <;> rcases mem_schedule.1 he' with he' | rfl
    · exact h.id_inj e he e' he' hid
    · have hle := h.id_le e he
      simp only at hid
      omega
    · have hle := h.id_le e' he'
      simp only at hid
      omega
    · rfl
  named_le m := by
    rw [named_schedule]
    by_cases hm : job.name = m
    · rw [if_pos hm, ← hm, hnone]
      exact le_rfl
    · rw [if_neg hm, List.append_nil]
      exact h.named_le m

theorem changesOnly_schedule (s : Schedule) : c.ChangesOnly job.name (c.schedule s job) where
  named_ne m hm := by rw [named_schedule, if_neg (Ne.symm hm), List.append_nil]
  fresh e he := by
    rcases mem_schedule.1 he with he | rfl
    · exact .inl he
    · exact .inr (Nat.lt_succ_self _)
  nextID_le := Nat.le_succ _

/-- The last step of `AddJob`, when the engine has no entry for the job and accepts its schedule. -/
theorem insertJob_spec (h : c.Wf) (hnone : c.named job.name = []) (hs : Schedulable env job) :
    ∃ c', insertJob env job c = (.ok (), c') ∧ c'.Wf ∧ c.ChangesOnly job.name c' ∧
      c'.Shows env job.name (some job) := by
  rw [insertJob]
  by_cases hskip : job.disabled ∨ job.parentJob ≠ ""
  · refine ⟨c, if_pos hskip, h, ChangesOnly.refl _ c, ?_⟩
    rw [Shows, if_pos hskip]
    exact hnone
  · obtain ⟨s, hs⟩ := hs hskip
    refine ⟨c.schedule s job, ?_, h.schedule hnone s, changesOnly_schedule s, ?_⟩
    · rw [if_neg hskip, addJob, hs]
    · rw [Shows, if_neg hskip]
      refine ⟨⟨c.nextID + 1, s, job⟩, ?_, rfl, rfl, hs⟩
      rw [named_schedule, if_pos rfl, hnone, List.nil_append]

/-! ### Sorting -/

theorem mem_sort {le : Entry → Entry → Bool} {e : Entry} :
    e ∈ (c.sort le).entries ↔ e ∈ c.entries :=
  (List.mergeSort_perm c.entries le).mem_iff

theorem named_sort (h : c.Wf) (le : Entry → Entry → Bool) (n : String) :
    (c.sort le).named n = c.named n := by
  have hperm : ((c.sort le).named n).Perm (c.named n) := (List.mergeSort_perm c.entries le).filter _
  have hle := h.named_le n
  match hnamed : c.named n, hperm with
  | [], hperm => exact hperm.eq_nil
  | [e], hperm => exact hperm.eq_singleton
  | e :: e' :: l, _ =>
    rw [hnamed] at hle
    simp at hle

theorem Wf.sort (h : c.Wf) (le : Entry → Entry → Bool) : (c.sort le).Wf where
  id_le e he := h.id_le e (mem_sort.1 he)
  id_inj e he e' he' := h.id_inj e (mem_sort.1 he) e' (mem_sort.1 he')
  named_le n := by
    rw [named_sort h]
    exact h.named_le n

/-- What the engine shows for a name depends on the entries for it alone. -/
theorem shows_congr {c' : Cron} (h : c'.named n = c.named n) (job? : Option Job) :
    c'.Shows env n job? ↔ c.Shows env n job? := by
  simp only [Shows, h]

theorem ChangesOnly.shows_iff {c' : Cron} (h : c.ChangesOnly n c') {m : String} (hm : m ≠ n)
    (job? : Option Job) : c'.Shows env m job? ↔ c.Shows env m job? :=
  shows_congr (h.named_ne m hm) job?

end Cron

/-- The engine does the same with both jobs. -/
structure Job.SameEntry (job job' : Job) : Prop where
  name : job.name = job'.name
  schedule : job.schedule = job'.schedule
  timezone : job.timezone = job'.timezone
  disabled : job.disabled = job'.disabled
  parentJob : job.parentJob = job'.parentJob

theorem Job.SameEntry.refl (job : Job) : job.SameEntry job := ⟨rfl, rfl, rfl, rfl, rfl⟩

theorem Job.SameEntry.cronSpec_eq {job job' : Job} (h : job.SameEntry job') :
    cronSpec job = cronSpec job' := by
  have hhash : job.scheduleHash = job'.scheduleHash := by
    rw [Job.scheduleHash, Job.scheduleHash, h.name, h.schedule]
  rw [cronSpec, cronSpec, hhash, h.timezone]

/-- The two jobs have the same entry, or neither is there. -/
abbrev SameTarget : Option Job → Option Job → Prop := Option.Rel Job.SameEntry

theorem SameTarget.refl (job? : Option Job) : SameTarget job? job? := by
  cases job? with
  | none => exact .none
  | some job => exact .some (Job.SameEntry.refl job)

theorem SameTarget.trans {j k l : Option Job} (h : SameTarget j k) (h' : SameTarget k l) :
    SameTarget j l := by
  cases h with
  | none => exact h'
  | some h =>
    cases h' with
    | some h' =>
      exact .some ⟨h.name.trans h'.name, h.schedule.trans h'.schedule,
        h.timezone.trans h'.timezone, h.disabled.trans h'.disabled,
        h.parentJob.trans h'.parentJob⟩

theorem Cron.Shows.congr {env : Env} {c : Cron} {n : String} {j k : Option Job}
    (hshows : c.Shows env n j) (h : SameTarget j k) : c.Shows env n k := by
  cases h with
  | none => exact hshows
  | some h =>
    simp only [Shows, h.disabled, h.parentJob, h.schedule, h.timezone, h.cronSpec_eq] at hshows
    exact hshows

namespace Scheduler

/-- `RemoveJob` changes nothing if and only if there is no entry. -/
theorem removeJob_eq_self_iff {jobName : String} {c : Cron} :
    removeJob jobName c = c ↔ getEntryJob jobName c = none := by
  rw [removeJob]
  cases h : getEntryJob jobName c with
  | none => exact iff_of_true rfl rfl
  | some e =>
    refine iff_of_false (fun heq => ?_) (by simp)
    have hmem : e ∈ (c.remove e.id).entries := by
      simp only at heq
      rw [heq]
      exact List.mem_of_find?_eq_some h
    simp [Cron.remove] at hmem

/-- `AddJob` looks for an entry first, but `RemoveJob` does so again. -/
theorem addJob_eq (env : Env) (job : Job) (c : Cron) :
    addJob env job c = insertJob env job (removeJob job.name c) := by
  rw [addJob]
  cases h : getEntryJob job.name c with
  | none =>
    rw [removeJob_eq_self_iff.2 h]
    rfl
  | some e => rfl

end Scheduler

/-- `Scheduler`. -/
structure Scheduler where
  cron : Cron := {}
  started : Bool := false

/-- `Start`. -/
def Scheduler.start (env : Env) (jobs : List Job) (s : Scheduler) : Except Err Unit × Scheduler :=
  if s.started then
    (.error (.text "scheduler: cron already started, should be stopped first"), s)
  else
    match addJobs env jobs (clearCron s.cron) with
    | (.error e, c) => (.error e, { s with cron := c })
    | (.ok (), c) => (.ok (), ⟨c, true⟩)

/-! ## Starting -/

namespace Scheduler

open Cron

variable {env : Env}

/-- `RemoveJob` takes away an entry of the name if there is one. -/
theorem length_named_removeJob (n : String) (c : Cron) (m : String) :
    ((removeJob n c).named m).length ≤ (c.named m).length - if m = n then 1 else 0 := by
  rw [removeJob]
  cases h : getEntryJob n c with
  | none =>
    by_cases hm : m = n
    · rw [hm, getEntryJob_eq_none_iff.1 h]
      exact Nat.zero_le _
    · rw [if_neg hm]
      exact le_rfl
  | some e =>
    simp only [named_remove]
    by_cases hm : m = n
    · have hlt : ((c.named m).filter fun e' => e'.id ≠ e.id).length < (c.named m).length := by
        refine List.length_filter_lt_length_iff_exists.2 ⟨e, ?_, by simp⟩
        rw [hm]
        exact getEntryJob_eq_some h
      rw [if_pos hm]
      omega
    · rw [if_neg hm]
      exact List.length_filter_le _ _

/-- Removing by name, an entry at a time. -/
theorem removeJobs_entries (es : List Entry) (c : Cron)
    (h : ∀ n, (c.named n).length ≤ (es.filter fun e => e.job.name = n).length) :
    (es.foldl (fun c e => removeJob e.job.name c) c).entries = [] := by
  induction es generalizing c with
  | nil =>
    apply List.eq_nil_iff_forall_not_mem.2
    intro e he
    have hnil : c.named e.job.name = [] := List.length_eq_zero_iff.1 (Nat.le_zero.1 (h _))
    exact named_eq_nil_iff.1 hnil e he rfl
  | cons e es ih =>
    refine ih _ fun n => ?_
    change ((removeJob e.job.name c).named n).length ≤ _
    have hle := length_named_removeJob e.job.name c n
    have hn := h n
    by_cases hname : e.job.name = n
    · rw [if_pos hname.symm] at hle
      simp [hname] at hn
      omega
    · rw [if_neg (Ne.symm hname)] at hle
      simp [hname] at hn
      omega

/-- `ClearCron` leaves nothing, even of an engine with several entries for one name. -/
theorem clearCron_entries (c : Cron) : (clearCron c).entries = [] :=
  removeJobs_entries c.entries c fun _ => le_rfl

theorem addJob_of_named_nil {job : Job} {c : Cron} (h : c.named job.name = []) :
    addJob env job c = insertJob env job c := by
  rw [addJob_eq, removeJob_eq_self_iff.2 (getEntryJob_eq_none_iff.2 h)]

/-- The loop of `Start` over jobs of different names: afterwards the engine shows each of them, and
nothing has changed for other names. -/
theorem addJobs_spec {jobs : List Job} (hnames : jobs.Pairwise fun j k => j.name ≠ k.name)
    (hjobs : ∀ job ∈ jobs, Schedulable env job) {c : Cron} (hwf : c.Wf)
    (hnone : ∀ job ∈ jobs, c.named job.name = []) :
    ∃ c', addJobs env jobs c = (.ok (), c') ∧ c'.Wf ∧
      (∀ job ∈ jobs, c'.Shows env job.name (some job)) ∧
      ∀ n, (∀ job ∈ jobs, job.name ≠ n) → c'.named n = c.named n := by
  induction jobs generalizing c with
  | nil => exact ⟨c, rfl, hwf, fun _ h => absurd h List.not_mem_nil, fun _ _ => rfl⟩
  | cons job jobs ih =>
    obtain ⟨hhead, htail⟩ := List.pairwise_cons.1 hnames
    have hmem := List.mem_cons_self (a := job) (l := jobs)
    obtain ⟨c₁, heq, hwf₁, honly, hshows⟩ := insertJob_spec hwf (hnone job hmem) (hjobs job hmem)
    obtain ⟨c₂, heq₂, hwf₂, hshows₂, hrest⟩ := ih htail
      (fun k hk => hjobs k (List.mem_cons_of_mem _ hk)) hwf₁ fun k hk => by
        rw [honly.named_ne _ (hhead k hk).symm]
        exact hnone k (List.mem_cons_of_mem _ hk)
    refine ⟨c₂, ?_, hwf₂, fun k hk => ?_, fun n hn => ?_⟩
    · rw [addJobs, addJob_of_named_nil (hnone job hmem), heq]
      exact heq₂
    · rcases List.mem_cons.1 hk with rfl | hk
      · exact (shows_congr (hrest _ fun j hj => (hhead j hj).symm) _).2 hshows
      · exact hshows₂ k hk
    · rw [hrest n fun j hj => hn j (List.mem_cons_of_mem _ hj)]
      exact honly.named_ne n (hn job hmem).symm

end Scheduler

end Dkron
