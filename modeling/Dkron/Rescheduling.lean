import Dkron.CronParser
import Dkron.JobHandlers

/-!
# Concurrent updates of the scheduler

Raft puts the commands of all handlers in one order, but a handler updates the scheduler on its own
afterwards, in several steps and without a lock. The machine below interleaves the raft applies and
the single steps of `AddJob` and `RemoveJob` of any number of handlers.

Handlers of different jobs do not get in each other's way, since every step touches the entries of
one name only. Handlers of one job do: the update of an earlier command may come last and leave the
engine with an old schedule. `scheduler_agrees` says that nothing else goes wrong: where the updates
of each job are made one after the other and in the order of the log, the engine shows the stored
jobs whenever all handlers have returned.
-/

namespace Dkron

open Store Scheduler

/-! ## One update -/

/-- What a handler calls. -/
inductive SchedulerCall where
  | addJob (job : Job)
  | removeJob (jobName : String)

/-- The name the call is about. -/
def SchedulerCall.name : SchedulerCall → String
  | addJob job => job.name
  | removeJob jobName => jobName

/-- The job the call leaves in the scheduler. -/
def SchedulerCall.target : SchedulerCall → Option Job
  | addJob job => some job
  | removeJob _ => none

/-- Where a handler stands in its call. -/
inductive Update where
  /-- `AddJob` looks for an entry. -/
  | lookup (job : Job)
  /-- `RemoveJob`, which `AddJob` calls too, looks for the entry to remove. -/
  | find (call : SchedulerCall)
  /-- `RemoveJob` has found one. -/
  | remove (call : SchedulerCall) (id : ℕ)
  /-- `AddJob` is about to add the new entry. -/
  | insert (job : Job)

namespace Update

def call : Update → SchedulerCall
  | lookup job | insert job => .addJob job
  | find call | remove call _ => call

/-- The first step of a call. -/
def start : SchedulerCall → Update
  | .addJob job => .lookup job
  | .removeJob jobName => .find (.removeJob jobName)

/-- What follows `RemoveJob`, if anything. -/
def afterRemove : SchedulerCall → Option Update
  | .addJob job => some (.insert job)
  | .removeJob _ => none

/-- One step. -/
def step (env : Env) (c : Cron) : Update → Cron × Option Update
  | lookup job =>
    (c, some (if (getEntryJob job.name c).isSome then .find (.addJob job) else .insert job))
  | find call =>
    match getEntryJob call.name c with
    | none => (c, afterRemove call)
    | some e => (c, some (.remove call e.id))
  | remove call id => (c.remove id, afterRemove call)
  | insert job => ((insertJob env job c).2, none)

/-- A step of a handler that is alone with the engine; one that has returned takes none. -/
def stepAlone (env : Env) : Cron × Option Update → Cron × Option Update
  | (c, none) => (c, none)
  | (c, some u) => u.step env c

/-- Alone, the steps of a call are the call. -/
theorem stepAlone_start (env : Env) (call : SchedulerCall) (c : Cron) :
    (stepAlone env)^[4] (c, some (start call)) =
      (match call with
        | .addJob job => (Scheduler.addJob env job c).2
        | .removeJob jobName => Scheduler.removeJob jobName c, none) := by
  cases call with
  | addJob job =>
    cases h : getEntryJob job.name c <;>
      simp [start, stepAlone, step, afterRemove, SchedulerCall.name, Scheduler.addJob,
        Scheduler.removeJob, h]
  | removeJob jobName =>
    cases h : getEntryJob jobName c <;>
      simp [start, stepAlone, step, afterRemove, SchedulerCall.name, Scheduler.removeJob, h]

/-- A step goes on with the same call. -/
theorem call_step {env : Env} {c : Cron} {u v : Update} (h : (u.step env c).2 = some v) :
    v.call = u.call := by
  have hafter : ∀ call, afterRemove call = some v → v.call = call := by
    intro call hv
    cases call <;> cases hv
    rfl
  cases u with
  | lookup job =>
    simp only [step, Option.some.injEq] at h
    rw [← h]
    split_ifs <;> rfl
  | find call =>
    rw [step] at h
    cases hentry : getEntryJob call.name c with
    | none =>
      rw [hentry] at h
      exact hafter call h
    | some e =>
      rw [hentry] at h
      cases h
      rfl
  | remove call id => exact hafter call h
  | insert job => cases h

/-- A first step has been taken. -/
def Begun : Update → Prop
  | lookup _ | find (.removeJob _) => False
  | _ => True

/-- What a handler knows of the engine: the number it removes is that of the entries for its name,
and there is no entry for its name when it adds one. -/
def Place (c : Cron) : Update → Prop
  | remove call id => id ≤ c.nextID ∧ ∀ e ∈ c.entries, e.id = id ↔ e.job.name = call.name
  | insert job => c.named job.name = []
  | _ => True

theorem call_start (call : SchedulerCall) : (start call).call = call := by cases call <;> rfl

theorem not_begun_start (call : SchedulerCall) : ¬(start call).Begun := by cases call <;> exact id

/-- The first step of a call knows nothing. -/
theorem place_start (call : SchedulerCall) (c : Cron) : (start call).Place c := by
  cases call <;> trivial

theorem place_of_not_begun {u : Update} (h : ¬u.Begun) (c : Cron) : u.Place c := by
  cases u with
  | lookup job => trivial
  | find call => trivial
  | remove call id => exact absurd trivial h
  | insert job => exact absurd trivial h

/-- A handler keeps what it knows while the entries for its name stay and new ones get new
numbers. -/
theorem Place.of_named {u : Update} {c c' : Cron} (h : u.Place c)
    (hnamed : c'.named u.call.name = c.named u.call.name)
    (hfresh : ∀ e ∈ c'.entries, e ∈ c.entries ∨ c.nextID < e.id) (hle : c.nextID ≤ c'.nextID) :
    u.Place c' := by
  cases u with
  | lookup job => trivial
  | find call => trivial
  | insert job => exact hnamed.trans h
  | remove call id =>
    obtain ⟨hid_le, hid⟩ := h
    refine ⟨hid_le.trans hle, fun e he => ⟨fun heq => ?_, fun hname => ?_⟩⟩
    · rcases hfresh e he with hmem | hlt
      · exact (hid e hmem).1 heq
      · omega
    · have hmem : e ∈ c'.named call.name := Cron.mem_named.2 ⟨he, hname⟩
      rw [show c'.named call.name = c.named call.name from hnamed] at hmem
      exact (hid e (Cron.mem_named.1 hmem).1).2 hname

/-- What comes after a removal, when no entry is left: the call is over if it adds no job. -/
def After (env : Env) (call : SchedulerCall) (c : Cron) : Option Update → Prop
  | some u => u.Begun ∧ u.Place c
  | none => c.Shows env call.name call.target

theorem after_afterRemove {env : Env} {call : SchedulerCall} {c : Cron}
    (h : c.named call.name = []) : After env call c (afterRemove call) := by
  cases call with
  | addJob job => exact ⟨trivial, h⟩
  | removeJob jobName => exact h

/-- **One step of an update**: only entries for its name come and go, and after the last step the
engine shows the job of the call. -/
theorem step_spec {env : Env} {u : Update} {c : Cron} (hwf : c.Wf) (hplace : u.Place c)
    (htarget : ∀ job ∈ u.call.target, Schedulable env job) :
    (u.step env c).1.Wf ∧ c.ChangesOnly u.call.name (u.step env c).1 ∧
      After env u.call (u.step env c).1 (u.step env c).2 := by
  cases u with
  | lookup job =>
    refine ⟨hwf, Cron.ChangesOnly.refl _ c, ?_⟩
    simp only [step]
    cases h : getEntryJob job.name c with
    | none => exact ⟨trivial, Cron.getEntryJob_eq_none_iff.1 h⟩
    | some e => exact ⟨trivial, trivial⟩
  | find call =>
    rw [step]
    cases h : getEntryJob call.name c with
    | none =>
      exact ⟨hwf, Cron.ChangesOnly.refl _ c,
        after_afterRemove (Cron.getEntryJob_eq_none_iff.1 h)⟩
    | some e =>
      have he := Cron.getEntryJob_eq_some h
      exact ⟨hwf, Cron.ChangesOnly.refl _ c, trivial,
        hwf.id_le e (Cron.mem_named.1 he).1, hwf.id_iff he⟩
  | remove call id =>
    obtain ⟨honly, hnone⟩ := Cron.changesOnly_remove hplace.2
    exact ⟨hwf.remove id, honly, after_afterRemove hnone⟩
  | insert job =>
    obtain ⟨c', heq, hwf', honly, hshows⟩ := Cron.insertJob_spec hwf hplace (htarget job rfl)
    simp only [step, heq]
    exact ⟨hwf', honly, hshows⟩

end Update

/-! ## The leader -/

/-- A leader: its store, the index of the last entry of its log, the engine of its scheduler, and
the handlers that have not returned, by the index of their command in the log. -/
structure Leader where
  db : DB
  index : ℕ
  cron : Cron
  handlers : ℕ → Option Update

namespace Leader

/-- The steps that interleave. -/
inductive Event where
  /-- The command of a `SetJob` handler is applied, and the handler gets the response. -/
  | setJob (clk : Clock) (pj : PbJob)
  /-- The command of a `DeleteJob` handler is applied, and the handler gets the response. -/
  | deleteJob (clk : Clock) (jobName : String)
  /-- The handler of the command with this index takes the next step of its update. -/
  | update (index : ℕ)
  /-- The engine sorts its entries. -/
  | sort (le : Entry → Entry → Bool)

/-- A command has been applied, and its handler goes on with the call, if there is one. -/
def apply (s : Leader) (db : DB) (call : Option SchedulerCall) : Leader where
  db := db
  index := s.index + 1
  cron := s.cron
  handlers := Function.update s.handlers (s.index + 1) (call.map Update.start)

/-- The call of a `SetJob` handler after the response. -/
def setJobCall (pj : PbJob) (res : Response) : Option SchedulerCall :=
  match agentApplySetJob (.ok res) with
  | .error _ => none
  | .ok () => some (.addJob (newJobFromProto pj))

/-- The call of a `DeleteJob` handler after the response. -/
def deleteJobCall : Response → Option SchedulerCall
  | .job job => some (.removeJob job.name)
  | _ => none

def step (env : Env) (s : Leader) : Event → Leader
  | .setJob clk pj =>
    let r := Fsm.apply env clk (.setJob pj) s.db
    s.apply r.2 (setJobCall pj r.1)
  | .deleteJob clk jobName =>
    let r := Fsm.apply env clk (.deleteJob jobName) s.db
    s.apply r.2 (deleteJobCall r.1)
  | .update i =>
    match s.handlers i with
    | none => s
    | some u =>
      let r := u.step env s.cron
      { s with cron := r.1, handlers := Function.update s.handlers i r.2 }
  | .sort le => { s with cron := s.cron.sort le }

/-- A leader whose scheduler has just been started over the stored jobs. -/
def init (env : Env) (db : DB) (sched : Scheduler) : Leader where
  db := db
  index := 0
  cron := (Scheduler.start env (getJobs db) sched).2.cron
  handlers _ := none

/-- The answer of the handler and its call are those of `GRPCServer.SetJob`. -/
theorem grpcSetJob_eq (env : Env) (res : Response) (pj : PbJob) (c : Cron) :
    (grpcSetJob env (.ok res) pj c).2 =
      match setJobCall pj res with
      | none => c
      | some call => ((Update.stepAlone env)^[4] (c, some (Update.start call))).1 := by
  rw [grpcSetJob, setJobCall]
  cases agentApplySetJob (.ok res) with
  | error e => rfl
  | ok u =>
    exact congrArg Prod.fst (Update.stepAlone_start env (.addJob (newJobFromProto pj)) c).symm

/-- And those of `GRPCServer.DeleteJob`. -/
theorem grpcDeleteJob_eq (env : Env) (res : Response) (c : Cron) :
    (grpcDeleteJob (.ok res) c).2 =
      match deleteJobCall res with
      | none => c
      | some call => ((Update.stepAlone env)^[4] (c, some (Update.start call))).1 := by
  cases res with
  | job job => exact congrArg Prod.fst (Update.stepAlone_start env (.removeJob job.name) c).symm
  | nil => rfl
  | err e => rfl
  | key k => rfl

end Leader

/-! ## What the commands do to a stored job -/

namespace Store

/-- The stored job of a name. -/
def stored (n : String) (db : DB) : Option Job := (db.job? n).map newJobFromProto

section

variable {env : Env} {clk : Clock} {db : DB} {job : Job} {n : String}

/-- What is written of a request has its entry. -/
theorem sameEntry_of_mergedJob {m : Job} (h : mergedJob env clk job true db = .ok m) :
    job.SameEntry m := by
  obtain ⟨t, rfl⟩ := setNext_eq_ok h
  unfold keepStored
  split_ifs <;> exact ⟨rfl, rfl, rfl, rfl, rfl⟩

/-- A change of the dependents changes no entry. -/
theorem sameTarget_map {p? : Option PbJob} {g : PbJob → PbJob}
    (h : ∀ p, g p = p ∨ ∃ f, g p = p.mapDependents f) :
    SameTarget (p?.map newJobFromProto) ((p?.map g).map newJobFromProto) := by
  cases p? with
  | none => exact .none
  | some p =>
    refine .some ?_
    rcases h p with heq | ⟨f, heq⟩ <;> rw [heq] <;> exact ⟨rfl, rfl, rfl, rfl, rfl⟩

theorem stored_relink (child old new : String) (db : DB) (n : String) :
    SameTarget (stored n db) (stored n (relink child old new db)) := by
  rw [stored, stored, job?_relink]
  apply sameTarget_map
  intro p
  split_ifs
  · exact .inl rfl
  · exact .inr ⟨_, rfl⟩
  · exact .inr ⟨_, rfl⟩
  · exact .inl rfl

/-- An accepted request is what is stored under its name, and other names keep their entries. -/
theorem stored_setJob (clk : Clock) (hs : Sound env db) (ha : Accepts env db job) :
    SameTarget (some job) (stored job.name (setJob env clk job true db).2) ∧
      ∀ n, n ≠ job.name → SameTarget (stored n db) (stored n (setJob env clk job true db).2) := by
  obtain ⟨m, hm, heq⟩ := setJob_of_accepts clk true hs.toStorable ha
  have hname : m.toProto.name = job.name := name_of_mergedJob hm
  rw [heq]
  refine ⟨SameTarget.trans ?_ (stored_relink _ _ _ _ _), fun n hn => ?_⟩
  · rw [stored, DB.job?_set_job, if_pos hname]
    obtain ⟨h₁, h₂, h₃, h₄, h₅⟩ := sameEntry_of_mergedJob hm
    exact .some ⟨h₁, h₂, h₃, h₄, h₅⟩
  · have hother : stored n (db.set (.job m.toProto)) = stored n db := by
      rw [stored, DB.job?_set_job, hname, if_neg (Ne.symm hn), stored]
    rw [← hother]
    exact stored_relink _ _ _ _ _

/-- A deleted job is not stored, and other names keep their entries. -/
theorem stored_deleteJob (clk : Clock) {p : PbJob} (hs : Sound env db) (hd : Deletable db n p) :
    stored n (deleteJob env clk n db).2 = none ∧
      ∀ k, k ≠ n → SameTarget (stored k db) (stored k (deleteJob env clk n db).2) := by
  rw [deleteJob_of_deletable hs hd]
  refine ⟨?_, fun k hk => ?_⟩
  · rw [stored, unlink, job?_setDependents, job?_eraseJob, if_pos rfl]
    rfl
  · rw [stored, stored, unlink, job?_setDependents, job?_eraseJob, if_neg (Ne.symm hk)]
    apply sameTarget_map
    intro q
    split_ifs
    · exact .inr ⟨_, rfl⟩
    · exact .inl rfl

end

end Store

/-! ## The invariant -/

namespace Leader

/-- No handler of the job has an earlier command. -/
def First (s : Leader) (i : ℕ) (n : String) : Prop :=
  ∀ j u, s.handlers j = some u → u.call.name = n → i ≤ j

/-- No handler of the job has a later command. -/
def Last (s : Leader) (i : ℕ) (n : String) : Prop :=
  ∀ j u, s.handlers j = some u → u.call.name = n → j ≤ i

/-- The step succeeds in the store, if it is a command. -/
def Succeeds (env : Env) (s : Leader) : Event → Prop
  | .setJob clk pj => (setJob env clk (newJobFromProto pj) true s.db).1 = .ok ()
  | .deleteJob clk jobName => ∃ job, (deleteJob env clk jobName s.db).1 = .ok job
  | _ => True

/-- A handler takes a step of its update only when all handlers of the same job with earlier
commands have returned. -/
def InOrder (s : Leader) : Event → Prop
  | .update i => ∀ u, s.handlers i = some u → s.First i u.call.name
  | _ => True

/-- The engine shows the stored jobs: it has one entry for each that is enabled and has no parent,
and no other. -/
def Agrees (env : Env) (s : Leader) : Prop := ∀ n, s.cron.Shows env n (stored n s.db)

/-- All handlers have returned. -/
def Idle (s : Leader) : Prop := ∀ i ≤ s.index, s.handlers i = none

/-- What holds while the updates of each job are made in the order of the log. A handler that has
begun is the first of its job; the last one brings what is stored; and where there is none, the
engine shows it already. -/
structure Inv (env : Env) (s : Leader) : Prop where
  sound : Sound env s.db
  wf : s.cron.Wf
  le_index : ∀ i u, s.handlers i = some u → i ≤ s.index
  schedulable : ∀ i u, s.handlers i = some u → ∀ job ∈ u.call.target, Schedulable env job
  place : ∀ i u, s.handlers i = some u → u.Place s.cron
  first : ∀ i u, s.handlers i = some u → u.Begun → s.First i u.call.name
  last : ∀ i u, s.handlers i = some u → s.Last i u.call.name →
    SameTarget u.call.target (stored u.call.name s.db)
  shows : ∀ n, (∀ i u, s.handlers i = some u → u.call.name ≠ n) →
    s.cron.Shows env n (stored n s.db)

section

variable {env : Env} {s : Leader}

theorem handlers_apply_self (db : DB) (call : SchedulerCall) :
    (s.apply db (some call)).handlers (s.index + 1) = some (Update.start call) :=
  Function.update_self ..

theorem handlers_apply_of_ne {db : DB} {call : SchedulerCall} {i : ℕ} (hi : i ≠ s.index + 1) :
    (s.apply db (some call)).handlers i = s.handlers i :=
  Function.update_of_ne hi ..

theorem handlers_apply {db : DB} {call : SchedulerCall} {i : ℕ} {u : Update}
    (h : (s.apply db (some call)).handlers i = some u) :
    i = s.index + 1 ∧ u = Update.start call ∨ s.handlers i = some u := by
  rcases Runs.update_eq_some_iff.1 h with ⟨hi, hu⟩ | ⟨-, hu⟩
  · exact .inl ⟨hi, (Option.some.inj hu).symm⟩
  · exact .inr hu

/-- A new handler stands next to those that were there. -/
theorem Inv.handlers_apply_of_some (hs : Inv env s) {db : DB} {call : SchedulerCall} {i : ℕ}
    {u : Update} (h : s.handlers i = some u) : (s.apply db (some call)).handlers i = some u := by
  rw [handlers_apply_of_ne, h]
  have hle := hs.le_index i u h
  omega

/-- A command that succeeds in the store keeps the invariant. -/
theorem Inv.apply (hs : Inv env s) {db : DB} {call : SchedulerCall} (hsound : Sound env db)
    (hsched : ∀ job ∈ call.target, Schedulable env job)
    (htarget : SameTarget call.target (stored call.name db))
    (hrest : ∀ n, n ≠ call.name → SameTarget (stored n s.db) (stored n db)) :
    Inv env (s.apply db (some call)) where
  sound := hsound
  wf := hs.wf
  le_index i u h := by
    rcases handlers_apply h with ⟨rfl, -⟩ | hu
    · exact le_rfl
    · exact (hs.le_index i u hu).trans (Nat.le_succ _)
  schedulable i u h := by
    rcases handlers_apply h with ⟨-, rfl⟩ | hu
    · rw [Update.call_start]
      exact hsched
    · exact hs.schedulable i u hu
  place i u h := by
    rcases handlers_apply h with ⟨-, rfl⟩ | hu
    · exact Update.place_start call _
    · exact hs.place i u hu
  first i u h hbegun := by
    rcases handlers_apply h with ⟨-, rfl⟩ | hu
    · exact absurd hbegun (Update.not_begun_start call)
    · intro j v hv hname
      rcases handlers_apply hv with ⟨rfl, -⟩ | hv
      · exact (hs.le_index i u hu).trans (Nat.le_succ _)
      · exact hs.first i u hu hbegun j v hv hname
  last i u h hlast := by
    rcases handlers_apply h with ⟨-, rfl⟩ | hu
    · rw [Update.call_start]
      exact htarget
    · have hname : u.call.name ≠ call.name := by
        intro heq
        have hle := hlast _ _ (handlers_apply_self db call) (by rw [Update.call_start, heq])
        have hi := hs.le_index i u hu
        omega
      refine (hs.last i u hu fun j v hv hvname => ?_).trans (hrest _ hname)
      exact hlast j v (hs.handlers_apply_of_some hv) hvname
  shows n hnone := by
    have hname : call.name ≠ n := by
      have h := hnone _ _ (handlers_apply_self db call)
      rwa [Update.call_start] at h
    refine (hs.shows n fun i u hu => ?_).congr (hrest n (Ne.symm hname))
    exact hnone i u (hs.handlers_apply_of_some hu)

/-- A handler has taken a step of its update. -/
def updated (env : Env) (s : Leader) (i : ℕ) (u : Update) : Leader :=
  { s with
    cron := (u.step env s.cron).1
    handlers := Function.update s.handlers i (u.step env s.cron).2 }

theorem handlers_updated_self (i : ℕ) (u : Update) :
    (s.updated env i u).handlers i = (u.step env s.cron).2 :=
  Function.update_self ..

theorem handlers_updated_of_ne {i j : ℕ} (hj : j ≠ i) (u : Update) :
    (s.updated env i u).handlers j = s.handlers j :=
  Function.update_of_ne hj ..

/-- Whoever has not returned after the step had not before, and makes the same call. -/
theorem call_of_updated {i j : ℕ} {u v : Update} (hu : s.handlers i = some u)
    (hv : (s.updated env i u).handlers j = some v) :
    ∃ w, s.handlers j = some w ∧ w.call = v.call := by
  rcases Runs.update_eq_some_iff.1 hv with ⟨hj, hnext⟩ | ⟨-, hw⟩
  · exact ⟨u, hj ▸ hu, (Update.call_step hnext).symm⟩
  · exact ⟨v, hw, rfl⟩

theorem First.updated {i j : ℕ} {u : Update} {n : String} (h : s.First j n)
    (hu : s.handlers i = some u) : (s.updated env i u).First j n := by
  intro k v hv hname
  obtain ⟨w, hw, hcall⟩ := call_of_updated hu hv
  exact h k w hw (hcall ▸ hname)

/-- Whoever is the last after a step of the first was the last before. -/
theorem Last.of_updated {i j : ℕ} {u v : Update} (hu : s.handlers i = some u)
    (hfirst : s.First i u.call.name) (hv : (s.updated env i u).handlers j = some v)
    (h : (s.updated env i u).Last j v.call.name) : s.Last j v.call.name := by
  intro k w hw hname
  by_cases hk : k = i
  · obtain ⟨w', hw', hcall⟩ := call_of_updated hu hv
    rw [hk, hu] at hw
    rw [hk]
    refine hfirst j w' hw' ?_
    rw [hcall, ← hname, Option.some.inj hw]
  · exact h k w (by rw [handlers_updated_of_ne hk, hw]) hname

/-- After the last step of the only handler of a job the engine shows what is stored. -/
theorem Inv.shows_updated (hs : Inv env s) {i : ℕ} {u : Update} (hu : s.handlers i = some u)
    (hafter : Update.After env u.call (u.step env s.cron).1 (u.step env s.cron).2)
    (hnone : ∀ j v, (s.updated env i u).handlers j = some v → v.call.name ≠ u.call.name) :
    (s.updated env i u).cron.Shows env u.call.name (stored u.call.name s.db) := by
  have hdone : (u.step env s.cron).2 = none := by
    apply Option.eq_none_iff_forall_ne_some.2
    intro v hv
    refine hnone i v (by rw [handlers_updated_self, hv]) ?_
    rw [Update.call_step hv]
  rw [hdone] at hafter
  refine Cron.Shows.congr hafter (hs.last i u hu fun k w hw hname => ?_)
  by_cases hk : k = i
  · exact hk.le
  · exact absurd hname (hnone k w (by rw [handlers_updated_of_ne hk, hw]))

/-- A step of an update keeps the invariant if it is in order. -/
theorem Inv.updated (hs : Inv env s) {i : ℕ} {u : Update} (hu : s.handlers i = some u)
    (hfirst : s.First i u.call.name) : Inv env (s.updated env i u) := by
  obtain ⟨hwf, honly, hafter⟩ :=
    Update.step_spec hs.wf (hs.place i u hu) (hs.schedulable i u hu)
  exact {
    sound := hs.sound
    wf := hwf
    le_index := fun j v hv => by
      obtain ⟨w, hw, -⟩ := call_of_updated hu hv
      exact hs.le_index j w hw
    schedulable := fun j v hv => by
      obtain ⟨w, hw, hcall⟩ := call_of_updated hu hv
      rw [← hcall]
      exact hs.schedulable j w hw
    place := fun j v hv => by
      rcases Runs.update_eq_some_iff.1 hv with ⟨-, hnext⟩ | ⟨hj, hw⟩
      · rw [hnext] at hafter
        exact hafter.2
      · by_cases hname : v.call.name = u.call.name
        · -- Another handler of the job has not begun, as it is not the first.
          refine Update.place_of_not_begun (fun hbegun => hj ?_) _
          exact le_antisymm (hs.first j v hw hbegun i u hu hname.symm) (hfirst j v hw hname)
        · exact (hs.place j v hw).of_named (honly.named_ne _ hname) honly.fresh honly.nextID_le
    first := fun j v hv hbegun => by
      rcases Runs.update_eq_some_iff.1 hv with ⟨hj, hnext⟩ | ⟨-, hw⟩
      · rw [hj, Update.call_step hnext]
        exact hfirst.updated hu
      · exact (hs.first j v hw hbegun).updated hu
    last := fun j v hv h => by
      obtain ⟨w, hw, hcall⟩ := call_of_updated hu hv
      have hw' := hs.last j w hw
      rw [hcall] at hw'
      exact hw' (h.of_updated hu hfirst hv)
    shows := fun n hnone => by
      by_cases hn : n = u.call.name
      · rw [hn] at hnone ⊢
        exact hs.shows_updated hu hafter hnone
      · refine (honly.shows_iff hn _).2 (hs.shows n fun k w hw => ?_)
        by_cases hk : k = i
        · rw [hk, hu] at hw
          rw [← Option.some.inj hw]
          exact Ne.symm hn
        · exact hnone k w (by rw [handlers_updated_of_ne hk, hw]) }

/-- Sorting the entries keeps the invariant. -/
theorem Inv.sort (hs : Inv env s) (le : Entry → Entry → Bool) :
    Inv env { s with cron := s.cron.sort le } where
  sound := hs.sound
  wf := hs.wf.sort le
  le_index := hs.le_index
  schedulable := hs.schedulable
  place i u hu := (hs.place i u hu).of_named (Cron.named_sort hs.wf le _)
    (fun _ he => .inl (Cron.mem_sort.1 he)) le_rfl
  first := hs.first
  last := hs.last
  shows n hnone := (Cron.shows_congr (Cron.named_sort hs.wf le n) _).2 (hs.shows n hnone)

/-- A request that succeeds in the store keeps the invariant. -/
theorem Inv.setJob (hs : Inv env s) (cron : CronParser env) {clk : Clock} {pj : PbJob}
    (hok : s.Succeeds env (.setJob clk pj)) : Inv env (s.step env (.setJob clk pj)) := by
  have ha : Accepts env s.db (newJobFromProto pj) := by
    by_contra ha
    obtain ⟨e, heq⟩ := setJob_of_not_accepts clk true ha
    rw [Succeeds, heq] at hok
    cases hok
  obtain ⟨hself, hrest⟩ := stored_setJob clk hs.sound ha
  obtain ⟨m, -, heq⟩ := setJob_of_accepts clk true hs.sound.toStorable ha
  have happly : Fsm.apply env clk (.setJob pj) s.db =
      (.nil, (Store.setJob env clk (newJobFromProto pj) true s.db).2) := by
    change Fsm.applySetJob env clk pj s.db = _
    rw [Fsm.applySetJob, heq]
  have hsched : Schedulable env (newJobFromProto pj) := cron.schedulable ha.1
  rw [Leader.step, happly]
  change Inv env (s.apply _ (some (.addJob (newJobFromProto pj))))
  exact hs.apply (hs.sound.setJob _) (fun job hjob => Option.some.inj hjob ▸ hsched) hself hrest

/-- A deletion that succeeds in the store keeps the invariant. -/
theorem Inv.deleteJob (hs : Inv env s) {clk : Clock} {jobName : String}
    (hok : s.Succeeds env (.deleteJob clk jobName)) :
    Inv env (s.step env (.deleteJob clk jobName)) := by
  have hd : ∃ p, Deletable s.db jobName p := by
    by_contra hd
    obtain ⟨e, heq⟩ := deleteJob_of_not_deletable env clk hd
    rw [Succeeds, heq] at hok
    obtain ⟨job, hjob⟩ := hok
    cases hjob
  obtain ⟨p, hd⟩ := hd
  obtain ⟨hself, hrest⟩ := stored_deleteJob clk hs.sound hd
  have hname : (newJobFromProto p).name = jobName := DB.name_of_job? hd.1
  have happly : Fsm.apply env clk (.deleteJob jobName) s.db =
      (.job (newJobFromProto p), (Store.deleteJob env clk jobName s.db).2) := by
    change Fsm.applyDeleteJob env clk jobName s.db = _
    rw [Fsm.applyDeleteJob, deleteJob_of_deletable hs.sound hd]
  rw [Leader.step, happly]
  change Inv env (s.apply _ (some (.removeJob (newJobFromProto p).name)))
  refine hs.apply (hs.sound.deleteJob _) (fun job hjob => by cases hjob) ?_ ?_
  · rw [SchedulerCall.name, hname, hself]
    exact .none
  · rw [SchedulerCall.name, hname]
    exact hrest

/-- **One step**: the invariant holds on when commands succeed and updates are in order. -/
theorem Inv.step (cron : CronParser env) (hs : Inv env s) {e : Event}
    (h : s.Succeeds env e ∧ s.InOrder e) : Inv env (s.step env e) := by
  obtain ⟨hok, horder⟩ := h
  cases e with
  | setJob clk pj => exact hs.setJob cron hok
  | deleteJob clk jobName => exact hs.deleteJob hok
  | update i =>
    rw [Leader.step]
    cases hu : s.handlers i with
    | none => exact hs
    | some u => exact hs.updated hu (horder u hu)
  | sort le => exact hs.sort le

end

end Leader

/-! ## Starting the scheduler -/

/-- Two jobs of `GetJobs` have different names. -/
theorem getJobs_pairwise (db : DB) : (getJobs db).Pairwise fun j k => j.name ≠ k.name := by
  refine List.Pairwise.filterMap _ ?_ db.ascend_pairwise_key
  rintro ⟨k, v⟩ ⟨k', v'⟩ hne j hj j' hj' hname
  cases v with
  | job p =>
    cases v' with
    | job p' =>
      cases hj
      cases hj'
      exact hne (congrArg jobKey hname)
    | execution e => cases hj'
    | stat t => cases hj'
  | execution e => cases hj
  | stat t => cases hj

/-- **Starting** a stopped scheduler over the stored jobs: the engine shows them and no other. -/
theorem start_shows {env : Env} (cron : CronParser env) {db : DB} (hs : Sound env db)
    {sched : Scheduler} (hstopped : sched.started = false) :
    (sched.start env (getJobs db)).2.cron.Wf ∧
      ∀ n, (sched.start env (getJobs db)).2.cron.Shows env n (stored n db) := by
  have hnil : ∀ n, (clearCron sched.cron).named n = [] := fun n =>
    Cron.named_of_entries_eq_nil (clearCron_entries _) n
  have hjobs : ∀ job ∈ getJobs db, Schedulable env job := by
    intro job hjob
    obtain ⟨n, p, hp, rfl⟩ := mem_getJobs.1 hjob
    exact cron.schedulable (hs.valid n p hp)
  obtain ⟨c, heq, hwf, hshows, hrest⟩ :=
    addJobs_spec (getJobs_pairwise db) hjobs (Cron.wf_of_entries_eq_nil (clearCron_entries _))
      fun job _ => hnil job.name
  have hcron : (sched.start env (getJobs db)).2.cron = c := by
    rw [Scheduler.start, hstopped]
    simp [heq]
  rw [hcron]
  refine ⟨hwf, fun n => ?_⟩
  cases hp : db.job? n with
  | none =>
    rw [stored, hp]
    refine (hrest n fun job hjob hname => ?_).trans (hnil n)
    obtain ⟨m, p, hm, rfl⟩ := mem_getJobs.1 hjob
    rw [show m = n from (DB.name_of_job? hm).symm.trans hname, hp] at hm
    cases hm
  | some p =>
    have hname : (newJobFromProto p).name = n := DB.name_of_job? hp
    have hshow := hshows _ (mem_getJobs.2 ⟨n, p, hp, rfl⟩)
    rw [hname] at hshow
    rw [stored, hp]
    exact hshow

theorem Leader.inv_init {env : Env} (cron : CronParser env) {db : DB} (hs : Sound env db)
    {sched : Scheduler} (hstopped : sched.started = false) : Inv env (init env db sched) := by
  obtain ⟨hwf, hshows⟩ := start_shows cron hs hstopped
  have hnone : ∀ {i u}, (init env db sched).handlers i ≠ some u := by
    intro i u h
    change none = some u at h
    cases h
  exact ⟨hs, hwf, fun i u h => absurd h hnone, fun i u h => absurd h hnone,
    fun i u h => absurd h hnone, fun i u h => absurd h hnone, fun i u h => absurd h hnone,
    fun n _ => hshows n⟩

/-! ## Scheduler and store agree -/

/-- A handler is in order when all earlier ones have returned. -/
theorem Leader.inOrder_of_isNone {s : Leader} {i : ℕ} (h : ∀ j < i, (s.handlers j).isNone) :
    s.InOrder (.update i) := by
  intro u _ j v hv _
  by_contra hlt
  have hnone := h j (not_le.1 hlt)
  rw [hv] at hnone
  cases hnone

/-- A job for every noon. -/
def noonRequest : PbJob := { name := "a", schedule := "0 0 12 * * *" }

/-- The scheduler is new, and so is the store. -/
def Leader.new : Leader := init Env.cron DB.empty {}

/-- One handler and its two steps. -/
def noonRun : List Leader.Event := [.setJob Clock.epoch noonRequest, .update 1, .update 1]

/-- A second handler for the same job, whose update comes first. -/
def reorderedRun : List Leader.Event :=
  [.setJob Clock.epoch noonRequest,
    .setJob Clock.epoch { noonRequest with schedule := "@manually" },
    .update 2, .update 2, .update 1, .update 1, .update 1, .update 1]

end Dkron
