import Dkron.Accounting

/-!
# Running the dependent jobs

A leader handles each done report in `ExecutionDone`: it applies the report, reads the job again
and, if the job's status is `success` then, runs the dependent jobs. Handlers of several reports
interleave, and the status belongs to the whole job: whoever was applied last wrote it, from the
executions of its own group that are stored at that moment.

`children_fire_once` says when this is right all the same: every report that makes its group look
successful finds all nodes of the group announced and is the first success of its node, and a
handler that reads `success` reads what its own report wrote.

The run that a failed execution is retried with, the notifications and the processors of the output
are left out.
-/

namespace Dkron

open Store

/-! ## The handlers -/

/-- Where a handler of `ExecutionDone` stands: it has found the job, its report is applied (and
counted or not), or it is running the listed dependent jobs. -/
inductive Handler where
  | received (execution : Execution)
  | applied (execution : Execution) (counted : Bool)
  | running (execution : Execution) (job : Job) (dependentJobs : List String)

/-- The report a handler is about to apply. -/
def Handler.received? : Handler → Option Execution
  | received execution => some execution
  | _ => none

/-- The report a handler has applied, and whether it was counted. -/
def Handler.applied? : Handler → Option (Execution × Bool)
  | applied execution counted => some (execution, counted)
  | _ => none

/-- The dependent jobs a handler is still to run, each with the group it runs them for. -/
def Handler.left : Handler → List (Int × String)
  | running execution _ djs => djs.map (execution.group, ·)
  | _ => []

/-- What follows once the report is applied: the job is read again, a failed execution is retried,
and without executions of the job the handler fails. The dependent jobs are run if the status is
`success`. -/
def rereadJob (jobName : String) (execution : Execution) (db : DB) : Option Handler :=
  match getJob jobName db with
  | .error _ => none
  | .ok job =>
    if ¬execution.success ∧ execution.attempt < job.retries + 1 then none
    else
      match getExecutionGroup execution db with
      | .error _ => none
      | .ok _ =>
        some (.running execution job
          (if job.dependentJobs ≠ [] ∧ job.status = statusSuccess then job.dependentJobs else []))

/-- The content, the handlers and three ghosts: the nodes that reported success, by group, the
handler whose report was counted last, and the dependent jobs started, by group. -/
structure Chain where
  db : DB
  handlers : ℕ → Option Handler
  succeeded : List (Int × String)
  latest : Option ℕ
  starts : List (Int × String)

/-- A start message, the arrival of a done report at a handler, or a step of a handler. Whether the
dependent job is runnable when its turn comes is part of the event. -/
inductive ChainEvent where
  | start (execution : Execution)
  | deliver (i : ℕ) (pbex : PbExecution)
  | apply (i : ℕ)
  | reread (i : ℕ)
  | run (i : ℕ) (runnable : Bool) (clk : Clock)

/-- The execution as its start is announced. -/
def startMessage (jobName : String) (execution : Execution) : Execution :=
  { execution with jobName := jobName, finishedAt := zeroTime, success := false }

/-- `NewExecutionFromProto` of a report for the job. -/
def doneReport (jobName : String) (pbex : PbExecution) : Execution :=
  newExecutionFromProto { pbex with jobName := jobName }

/-- The stored executions of a job, as `computeStatus` sees them. -/
def storedExecutions (jobName : String) (db : DB) : List Execution :=
  unmarshalExecutions (list (executionsDir jobName) db)

namespace Chain

/-- Handler `i` goes on to `h`. -/
def goOn (s : Chain) (i : ℕ) (h : Option Handler) : Chain :=
  { s with handlers := Function.update s.handlers i h }

/-- A report was applied. -/
def record (s : Chain) (i : ℕ) (execution : Execution) (counted : Bool) : Chain :=
  { s with
    succeeded :=
      if execution.success then (execution.group, execution.nodeName) :: s.succeeded
      else s.succeeded
    latest := if counted then some i else s.latest }

/-- `SetExecutionDone`; the error of a deleted job does not reach the handler. -/
def applyReport (s : Chain) (i : ℕ) (execution : Execution) : Chain :=
  match setExecutionDone execution s.db with
  | (.error _, db) => { s with db := db }.goOn i (some (.applied execution false))
  | (.ok counted, db) =>
    ({ s with db := db }.record i execution counted).goOn i (some (.applied execution counted))

theorem db_applyReport (s : Chain) (i : ℕ) (execution : Execution) :
    (s.applyReport i execution).db = (setExecutionDone execution s.db).2 := by
  unfold applyReport
  rcases setExecutionDone execution s.db with ⟨_ | _, db⟩ <;> rfl

/-- The next dependent job, or the end of the handler, which deletes an ephemeral job. -/
def runNext (env : Env) (jobName : String) (s : Chain) (i : ℕ) (runnable : Bool) (clk : Clock)
    (execution : Execution) (job : Job) : List String → Chain
  | [] =>
    { s with
      db :=
        if job.ephemeral ∧ job.status = statusSuccess then (deleteJob env clk jobName s.db).2
        else s.db }.goOn i none
  | djn :: djs =>
    match getJob djn s.db with
    | .error _ => s.goOn i none
    | .ok _ =>
      { s with starts := if runnable then (execution.group, djn) :: s.starts else s.starts }.goOn i
        (some (.running execution job djs))

/-- One event, for the job with the given name. `targets` are the nodes dispatched in a group. -/
def step (env : Env) (jobName : String) (targets : Int → List String) (s : Chain) :
    ChainEvent → Chain
  | .start execution => { s with db := (setExecution env (startMessage jobName execution) s.db).2 }
  | .deliver i pbex =>
    if s.handlers i = none ∧ pbex.nodeName ∈ targets pbex.group ∧ s.db.job? jobName ≠ none then
      s.goOn i (some (.received (doneReport jobName pbex)))
    else s
  | .apply i =>
    match s.handlers i with
    | some (.received execution) => s.applyReport i execution
    | _ => s
  | .reread i =>
    match s.handlers i with
    | some (.applied execution _) => s.goOn i (rereadJob jobName execution s.db)
    | _ => s
  | .run i runnable clk =>
    match s.handlers i with
    | some (.running execution job djs) => s.runNext env jobName i runnable clk execution job djs
    | _ => s

/-- The beginning: no handlers. The nodes of the stored successes have reported. -/
def init (jobName : String) (db : DB) : Chain where
  db := db
  handlers := fun _ => none
  succeeded := ((storedExecutions jobName db).filter (·.success)).map
    fun ex => (ex.group, ex.nodeName)
  latest := none
  starts := []

end Chain

/-! ## Firing once -/

/-- Every node of the group has reported success. -/
def Complete (targets : Int → List String) (succeeded : List (Int × String)) (group : Int) : Prop :=
  ∀ node ∈ targets group, (group, node) ∈ succeeded

/-- No dependent job was started twice for a group, or before the group was complete. -/
structure FiresOnce (targets : Int → List String) (s : Chain) : Prop where
  once : s.starts.Nodup
  complete : ∀ x ∈ s.starts, Complete targets s.succeeded x.1

/-- Those of a group. -/
def storedGroup (jobName : String) (group : Int) (db : DB) : List Execution :=
  (storedExecutions jobName db).filter fun ex => ex.group = group

/-- All stored executions of the group succeeded. -/
def GroupSucceeded (jobName : String) (group : Int) (db : DB) : Prop :=
  ∀ ex ∈ storedGroup jobName group db, ex.success

/-- The event comes in order.

* A report that will be counted and with which all stored executions of its group are successes is
  the first success of its node, and every node of the group has an execution stored.
* A handler that reads the status `success` has counted its report, no other report was counted
  since, and no dependent job is listed twice. -/
def Orderly (jobName : String) (targets : Int → List String) (s : Chain) : ChainEvent → Prop
  | .apply i =>
    ∀ ex ∈ (s.handlers i).bind Handler.received?, ∀ p ∈ s.db.job? jobName,
      ¬TakenForRepeated s.db p ex →
      GroupSucceeded jobName ex.group (s.db.set (.execution ex.toProto)) →
        (ex.group, ex.nodeName) ∉ s.succeeded ∧
        ∀ node ∈ targets ex.group,
          ∃ r ∈ storedGroup jobName ex.group (s.db.set (.execution ex.toProto)), r.nodeName = node
  | .reread i =>
    ∀ x ∈ (s.handlers i).bind Handler.applied?, ∀ p ∈ s.db.job? jobName,
      p.status = statusSuccess →
        x.2 = true ∧ s.latest = some i ∧ p.dependentJobs.Nodup
  | _ => True

instance (jobName : String) (group : Int) (db : DB) : Decidable (GroupSucceeded jobName group db) :=
  inferInstanceAs (Decidable (∀ _ ∈ _, _))

instance (jobName : String) (targets : Int → List String) (s : Chain) :
    (e : ChainEvent) → Decidable (Orderly jobName targets s e)
  | .apply _ => inferInstanceAs (Decidable (∀ _ ∈ _, ∀ _ ∈ _, _))
  | .reread _ => inferInstanceAs (Decidable (∀ _ ∈ _, ∀ _ ∈ _, _))
  | .start _ => isTrue trivial
  | .deliver _ _ => isTrue trivial
  | .run _ _ _ => isTrue trivial


/-! ## What is stored -/

section

variable {jobName : String} {db db' : DB}

theorem computeStatus_eq_success_iff (jobName : String) (group : Int) (db : DB) :
    computeStatus jobName group db = statusSuccess ↔ GroupSucceeded jobName group db := by
  have hfailed : (storedGroup jobName group db).countP (fun ex => !ex.success) = 0 ↔
      GroupSucceeded jobName group db := by
    rw [List.countP_eq_zero]
    unfold GroupSucceeded
    simp
  have heq : computeStatus jobName group db =
      if (storedGroup jobName group db).countP (fun ex => !ex.success) = 0 then statusSuccess
      else if (storedGroup jobName group db).countP (fun ex => ex.success) = 0 then statusFailed
      else statusPartiallyFailed := rfl
  rw [heq, ← hfailed]
  split_ifs with hnone
  · exact iff_of_true rfl hnone
  · exact iff_of_false (by decide) hnone
  · exact iff_of_false (by decide) hnone

theorem mem_storedExecutions_of_addsOnly {new : PbExecution} (h : AddsOnly new db db')
    {r : Execution} (hr : r ∈ storedExecutions jobName db') :
    r ∈ storedExecutions jobName db ∨ r = newExecutionFromProto new := by
  obtain ⟨k, pbe, hk, hpre, htrim, rfl⟩ := mem_unmarshalExecutions_list.1 hr
  rcases h k pbe hk with hk | rfl
  · exact .inl (mem_unmarshalExecutions_list.2 ⟨k, pbe, hk, hpre, htrim, rfl⟩)
  · exact .inr rfl

/-- `DeleteJob` leaves nothing or everything. -/
theorem deleteJob_job?_self {env : Env} (hs : Sound env db) (clk : Clock) (jobName : String) :
    (deleteJob env clk jobName db).2.job? jobName = none ∨
      (deleteJob env clk jobName db).2 = db := by
  by_cases hd : ∃ p, Deletable db jobName p
  · obtain ⟨p, hd⟩ := hd
    left
    rw [deleteJob_of_deletable hs hd, unlink, job?_setDependents, job?_eraseJob, if_pos rfl]
    rfl
  · obtain ⟨e, heq⟩ := deleteJob_of_not_deletable env clk hd
    right
    rw [heq]

end

/-! ## The invariant -/

/-- The nodes of all stored successes have reported. -/
def Known (jobName : String) (db : DB) (succeeded : List (Int × String)) : Prop :=
  ∀ r ∈ storedExecutions jobName db, r.success → (r.group, r.nodeName) ∈ succeeded

theorem Known.of_addsOnly {jobName : String} {db db' : DB} {new : PbExecution}
    {succeeded succeeded' : List (Int × String)} (h : Known jobName db succeeded)
    (hadds : AddsOnly new db db') (hsub : succeeded ⊆ succeeded')
    (hnew : new.success → (new.group, new.nodeName) ∈ succeeded') :
    Known jobName db' succeeded' := by
  intro r hr hsuccess
  rcases mem_storedExecutions_of_addsOnly hadds hr with hr | rfl
  · exact hsub (h r hr hsuccess)
  · exact hnew hsuccess

theorem Complete.mono {targets : Int → List String} {succeeded succeeded' : List (Int × String)}
    {group : Int} (h : Complete targets succeeded group) (hsub : succeeded ⊆ succeeded') :
    Complete targets succeeded' group :=
  fun node hnode => hsub (h node hnode)

/-- The dependent jobs handler `i` is still to run. -/
def Chain.left (s : Chain) (i : ℕ) : List (Int × String) := (s.handlers i).elim [] Handler.left

/-- Handler `i` is about to read the status `success` that its own report wrote. -/
def Chain.Armed (jobName : String) (s : Chain) (i : ℕ) (ex : Execution) : Prop :=
  s.handlers i = some (.applied ex true) ∧ s.latest = some i ∧
    ∃ p, s.db.job? jobName = some p ∧ p.status = statusSuccess

/-- What every orderly run keeps.

* Handlers hold reports of dispatched nodes.
* What was started or is still to be started is of complete groups, and nothing is to be started
  twice.
* The group of an armed handler is complete, and nobody else has started or is to start anything
  for it. -/
structure Chain.Inv (jobName : String) (targets : Int → List String) (s : Chain) : Prop where
  known : Known jobName s.db s.succeeded
  received : ∀ i ex, s.handlers i = some (.received ex) →
    ex.jobName = jobName ∧ ex.nodeName ∈ targets ex.group
  fires : FiresOnce targets s
  left_complete : ∀ i, ∀ x ∈ s.left i, Complete targets s.succeeded x.1
  left_nodup : ∀ i, (s.left i).Nodup
  left_new : ∀ i, ∀ x ∈ s.left i, x ∉ s.starts
  left_apart : ∀ i j, ∀ x ∈ s.left i, x ∈ s.left j → i = j
  armed_complete : ∀ i ex, s.Armed jobName i ex → Complete targets s.succeeded ex.group
  armed_starts : ∀ i ex, s.Armed jobName i ex → ∀ x ∈ s.starts, x.1 ≠ ex.group
  armed_left : ∀ i ex, s.Armed jobName i ex → ∀ j, ∀ x ∈ s.left j, x.1 ≠ ex.group

section

variable {env : Env} {jobName : String} {targets : Int → List String} {s : Chain} {i : ℕ}

theorem Chain.left_goOn (s : Chain) (i : ℕ) (h : Option Handler) (j : ℕ) :
    (s.goOn i h).left j = if j = i then h.elim [] Handler.left else s.left j := by
  unfold left goOn
  by_cases hj : j = i
  · simp [hj]
  · simp [hj]

theorem Chain.handlers_goOn (s : Chain) (i : ℕ) (h : Option Handler) (j : ℕ) :
    (s.goOn i h).handlers j = if j = i then h else s.handlers j := by
  unfold goOn
  simp only [Function.update_apply]

theorem Chain.inv_init (jobName : String) (targets : Int → List String) (db : DB) :
    (Chain.init jobName db).Inv jobName targets where
  known := by
    intro r hr hsuccess
    exact List.mem_map_of_mem (f := fun ex => (ex.group, ex.nodeName))
      (List.mem_filter.2 ⟨hr, hsuccess⟩)
  received i ex h := by cases h
  fires := ⟨List.nodup_nil, fun x hx => by cases hx⟩
  left_complete i x hx := by cases hx
  left_nodup i := List.nodup_nil
  left_new i x hx := by cases hx
  left_apart i j x hx := by cases hx
  armed_complete i ex h := by cases h.1
  armed_starts i ex h := by cases h.1
  armed_left i ex h := by cases h.1

/-- Steps that start nothing, give nobody more to start and arm nobody. -/
theorem Chain.Inv.shrink {s' : Chain} (h : s.Inv jobName targets)
    (hknown : Known jobName s'.db s'.succeeded)
    (hreceived : ∀ i ex, s'.handlers i = some (.received ex) →
      ex.jobName = jobName ∧ ex.nodeName ∈ targets ex.group)
    (hstarts : s'.starts = s.starts) (hsub : s.succeeded ⊆ s'.succeeded)
    (hleft : ∀ j, (s'.left j).Sublist (s.left j))
    (harmed : ∀ j ex, s'.Armed jobName j ex → s.Armed jobName j ex) : s'.Inv jobName targets where
  known := hknown
  received := hreceived
  fires := by
    refine ⟨hstarts ▸ h.fires.once, fun x hx => ?_⟩
    exact (h.fires.complete x (hstarts ▸ hx)).mono hsub
  left_complete j x hx := (h.left_complete j x ((hleft j).subset hx)).mono hsub
  left_nodup j := (h.left_nodup j).sublist (hleft j)
  left_new j x hx := hstarts ▸ h.left_new j x ((hleft j).subset hx)
  left_apart j k x hj hk := h.left_apart j k x ((hleft j).subset hj) ((hleft k).subset hk)
  armed_complete j ex ha := (h.armed_complete j ex (harmed j ex ha)).mono hsub
  armed_starts j ex ha x hx := h.armed_starts j ex (harmed j ex ha) x (hstarts ▸ hx)
  armed_left j ex ha k x hx := h.armed_left j ex (harmed j ex ha) k x ((hleft k).subset hx)

/-- A start message changes the stored executions, but adds no success. -/
theorem Chain.Inv.start (h : s.Inv jobName targets) (ex : Execution) :
    (Chain.step env jobName targets s (.start ex)).Inv jobName targets := by
  refine h.shrink ?_ h.received rfl (List.Subset.refl _) (fun j => List.Sublist.refl _) ?_
  · exact h.known.of_addsOnly (AddsOnly.setExecution env _ _) (List.Subset.refl _)
      fun hsuccess => by cases hsuccess
  · intro j ex' ha
    simp only [Armed, step, job?_setExecution] at ha
    exact ha

theorem Chain.received_goOn (h : s.Inv jobName targets) {h' : Option Handler}
    (hnew : ∀ ex, h' = some (.received ex) → ex.jobName = jobName ∧ ex.nodeName ∈ targets ex.group)
    (j : ℕ) (ex : Execution) (hj : (s.goOn i h').handlers j = some (.received ex)) :
    ex.jobName = jobName ∧ ex.nodeName ∈ targets ex.group := by
  rw [handlers_goOn] at hj
  split_ifs at hj
  · exact hnew ex hj
  · exact h.received j ex hj

/-- A handler that has nothing to start, and is not armed, takes the place of another. -/
theorem Chain.Inv.goOn_idle (h : s.Inv jobName targets) (i : ℕ) {h' : Option Handler}
    (hnew : ∀ ex, h' = some (.received ex) → ex.jobName = jobName ∧ ex.nodeName ∈ targets ex.group)
    (hidle : h'.elim [] Handler.left = []) (harmed : ∀ ex, h' ≠ some (.applied ex true)) :
    (s.goOn i h').Inv jobName targets := by
  refine h.shrink h.known (received_goOn h hnew) rfl (List.Subset.refl _) ?_ ?_
  · intro j
    rw [left_goOn]
    split_ifs
    · rw [hidle]
      exact List.nil_sublist _
    · exact List.Sublist.refl _
  · rintro j ex ⟨hj, hlatest, hp⟩
    rw [handlers_goOn] at hj
    split_ifs at hj
    · exact absurd hj (harmed ex)
    · exact ⟨hj, hlatest, hp⟩

/-- A handler ends. -/
theorem Chain.Inv.finish (h : s.Inv jobName targets) (i : ℕ) :
    (s.goOn i none).Inv jobName targets :=
  h.goOn_idle i (fun _ hex => by cases hex) rfl fun _ hex => by cases hex

/-- A report was not counted. -/
theorem Chain.Inv.uncounted (h : s.Inv jobName targets) (i : ℕ) (ex : Execution) :
    (s.goOn i (some (.applied ex false))).Inv jobName targets :=
  h.goOn_idle i (fun _ hex => by cases hex) rfl fun _ hex => by cases hex

/-- A handler finds nothing to run. -/
theorem Chain.Inv.runNothing (h : s.Inv jobName targets) (i : ℕ) (ex : Execution) (job : Job) :
    (s.goOn i (some (.running ex job []))).Inv jobName targets :=
  h.goOn_idle i (fun _ hex => by cases hex) rfl fun _ hex => by cases hex

theorem Chain.Inv.deliver (h : s.Inv jobName targets) (i : ℕ) (pbex : PbExecution) :
    (Chain.step env jobName targets s (.deliver i pbex)).Inv jobName targets := by
  rw [step]
  split_ifs with hnew
  · refine h.goOn_idle i ?_ rfl (fun ex hex => by cases hex)
    intro ex hex
    cases hex
    exact ⟨rfl, hnew.2.1⟩
  · exact h

/-! ### A report is applied -/

theorem Chain.succeeded_subset_record (s : Chain) (i : ℕ) (ex : Execution) (counted : Bool) :
    s.succeeded ⊆ (s.record i ex counted).succeeded := by
  unfold record
  simp only
  split_ifs
  · exact List.subset_cons_self _ _
  · exact List.Subset.refl _

theorem Chain.mem_succeeded_record (s : Chain) (i : ℕ) {ex : Execution} (counted : Bool)
    (hsuccess : ex.success) : (ex.group, ex.nodeName) ∈ (s.record i ex counted).succeeded := by
  unfold record
  simp only [if_pos hsuccess]
  exact List.mem_cons_self

/-- A report that is not counted: it may still be stored. -/
theorem Chain.Inv.record_uncounted (h : s.Inv jobName targets) (i : ℕ) {ex : Execution} {db : DB}
    (hadds : AddsOnly ex.toProto s.db db) (hjob : db.job? jobName = s.db.job? jobName) :
    (({ s with db := db } : Chain).record i ex false).Inv jobName targets := by
  refine h.shrink ?_ h.received rfl ?_ (fun j => List.Sublist.refl _) ?_
  · exact h.known.of_addsOnly hadds (succeeded_subset_record { s with db := db } i ex false)
      fun hsuccess => mem_succeeded_record { s with db := db } i false hsuccess
  · exact succeeded_subset_record { s with db := db } i ex false
  · rintro j ex' ⟨hj, hlatest, p, hp, hstatus⟩
    exact ⟨hj, hlatest, p, hjob.symm.trans hp, hstatus⟩

/-- A counted report that makes its group look successful completes it. -/
theorem complete_of_groupSucceeded {succeeded : List (Int × String)} {db : DB} {group : Int}
    (hknown : Known jobName db succeeded) (hgroup : GroupSucceeded jobName group db)
    (hstored : ∀ node ∈ targets group, ∃ r ∈ storedGroup jobName group db, r.nodeName = node) :
    Complete targets succeeded group := by
  intro node hnode
  obtain ⟨r, hr, rfl⟩ := hstored node hnode
  have hsuccess : r.success := hgroup r hr
  obtain ⟨hmem, hg⟩ := List.mem_filter.1 hr
  rw [← of_decide_eq_true hg]
  exact hknown r hmem hsuccess

theorem Chain.Inv.record_counted (h : s.Inv jobName targets) {ex : Execution} {p : PbJob}
    (hi : s.handlers i = some (.received ex)) (hp : s.db.job? jobName = some p)
    (hfirst : GroupSucceeded jobName ex.group (s.db.set (.execution ex.toProto)) →
      (ex.group, ex.nodeName) ∉ s.succeeded ∧ ∀ node ∈ targets ex.group,
        ∃ r ∈ storedGroup jobName ex.group (s.db.set (.execution ex.toProto)), r.nodeName = node) :
    ((({ s with db := countReport p ex (s.db.set (.execution ex.toProto)) } : Chain).record i ex
      true).goOn i (some (.applied ex true))).Inv jobName targets := by
  obtain ⟨hname, hnode⟩ := h.received i ex hi
  let s₁ : Chain := { s with db := countReport p ex (s.db.set (.execution ex.toProto)) }
  have hsub : s.succeeded ⊆ (s₁.record i ex true).succeeded := succeeded_subset_record s₁ i ex true
  have hleft : ∀ j, (((s₁.record i ex true).goOn i (some (.applied ex true))).left j).Sublist
      (s.left j) := by
    intro j
    rw [left_goOn]
    split_ifs
    · exact List.nil_sublist _
    · exact List.Sublist.refl _
  -- Only the handler itself can be armed, and then its report has completed the group.
  have harmed : ∀ j ex',
      ((s₁.record i ex true).goOn i (some (.applied ex true))).Armed jobName j ex' →
      ex' = ex ∧ GroupSucceeded jobName ex.group (s.db.set (.execution ex.toProto)) := by
    rintro j ex' ⟨hj, hlatest, q, hq, hstatus⟩
    have hji : i = j := Option.some.inj hlatest
    subst hji
    rw [handlers_goOn, if_pos rfl] at hj
    cases hj
    refine ⟨rfl, (computeStatus_eq_success_iff _ _ _).1 ?_⟩
    have hq' : (countReport p ex (s.db.set (.execution ex.toProto))).job? jobName = some q := hq
    rw [job?_countReport ((DB.name_of_job? hp).trans hname.symm), if_pos hname.symm] at hq'
    cases hq'
    exact hstatus
  have hnew : ∀ j ex',
      ((s₁.record i ex true).goOn i (some (.applied ex true))).Armed jobName j ex' →
      ¬Complete targets s.succeeded ex'.group := by
    intro j ex' ha hcomplete
    obtain ⟨rfl, hgroup⟩ := harmed j ex' ha
    exact (hfirst hgroup).1 (hcomplete _ hnode)
  refine ⟨?_, ?_, ?_, ?_, ?_, ?_, ?_, ?_, ?_, ?_⟩
  · exact h.known.of_addsOnly (AddsOnly.countReport p ex s.db) hsub
      fun hsuccess => mem_succeeded_record s₁ i true hsuccess
  · intro j ex' hj
    rw [handlers_goOn] at hj
    split_ifs at hj
    · cases hj
    · exact h.received j ex' hj
  · exact ⟨h.fires.once, fun x hx => (h.fires.complete x hx).mono hsub⟩
  · exact fun j x hx => (h.left_complete j x ((hleft j).subset hx)).mono hsub
  · exact fun j => (h.left_nodup j).sublist (hleft j)
  · exact fun j x hx => h.left_new j x ((hleft j).subset hx)
  · exact fun j k x hj hk => h.left_apart j k x ((hleft j).subset hj) ((hleft k).subset hk)
  · intro j ex' ha
    obtain ⟨rfl, hgroup⟩ := harmed j ex' ha
    refine complete_of_groupSucceeded ?_ hgroup (hfirst hgroup).2
    exact h.known.of_addsOnly (AddsOnly.set_self _ _) hsub
      fun hsuccess => mem_succeeded_record s₁ i true hsuccess
  · intro j ex' ha x hx hgroup
    exact hnew j ex' ha (hgroup ▸ h.fires.complete x hx)
  · intro j ex' ha k x hx hgroup
    exact hnew j ex' ha (hgroup ▸ h.left_complete k x ((hleft k).subset hx))

theorem Chain.Inv.apply (h : s.Inv jobName targets)
    (horderly : Orderly jobName targets s (.apply i)) :
    (Chain.step env jobName targets s (.apply i)).Inv jobName targets := by
  rw [step]
  split
  case h_2 => exact h
  case h_1 ex hi =>
    obtain ⟨hname, -⟩ := h.received i ex hi
    cases hp : s.db.job? jobName with
    | none =>
      have heq : setExecutionDone ex s.db = (.error .executionDoneForDeletedJob, s.db) := by
        rw [setExecutionDone_eq, hname, hp]
      rw [applyReport, heq]
      exact h.uncounted i ex
    | some p =>
      have hp' : s.db.job? ex.jobName = some p := hname.symm ▸ hp
      rcases setExecutionDone_cases hp' with ⟨-, heq | heq⟩ | ⟨hnot, heq⟩
      · rw [applyReport, heq]
        exact (h.record_uncounted i (AddsOnly.refl _ _) rfl).uncounted i ex
      · rw [applyReport, heq]
        have hjob := DB.job?_set_execution s.db ex.toProto jobName
        exact (h.record_uncounted i (AddsOnly.set_self _ _) hjob).uncounted i ex
      · rw [applyReport, heq]
        refine h.record_counted hi hp (horderly ex ?_ p hp hnot)
        rw [hi]
        rfl

/-! ### The job is read again -/

theorem rereadJob_cases (jobName : String) (ex : Execution) (db : DB) :
    rereadJob jobName ex db = none ∨
    (∃ job, rereadJob jobName ex db = some (.running ex job [])) ∨
    ∃ p, db.job? jobName = some p ∧ p.status = statusSuccess ∧
      rereadJob jobName ex db = some (.running ex (newJobFromProto p) p.dependentJobs) := by
  unfold rereadJob getJob
  cases hp : db.job? jobName with
  | none => exact .inl rfl
  | some p =>
    simp only
    by_cases hretry : ¬ex.success ∧ ex.attempt < (newJobFromProto p).retries + 1
    · exact .inl (if_pos hretry)
    · rw [if_neg hretry]
      cases getExecutionGroup ex db with
      | error e => exact .inl rfl
      | ok exg =>
        right
        by_cases hfires : (newJobFromProto p).dependentJobs ≠ [] ∧
            (newJobFromProto p).status = statusSuccess
        · refine .inr ⟨p, rfl, hfires.2, ?_⟩
          simp only [if_pos hfires]
          rfl
        · exact .inl ⟨newJobFromProto p, by simp only [if_neg hfires]⟩

/-- An armed handler goes on to run the dependent jobs. -/
theorem Chain.Inv.fire (h : s.Inv jobName targets) {ex : Execution} (ha : s.Armed jobName i ex)
    (job : Job) {djs : List String} (hnodup : djs.Nodup) :
    (s.goOn i (some (.running ex job djs))).Inv jobName targets := by
  have hleft : ∀ j, ∀ x ∈ (s.goOn i (some (.running ex job djs))).left j,
      j = i ∧ x.1 = ex.group ∨ j ≠ i ∧ x ∈ s.left j := by
    intro j x hx
    rw [left_goOn] at hx
    split_ifs at hx with hj
    · obtain ⟨djn, -, rfl⟩ := List.mem_map.1 hx
      exact .inl ⟨hj, rfl⟩
    · exact .inr ⟨hj, hx⟩
  -- Nobody else is armed: the latest counted report is that of the handler.
  have hnone : ∀ j ex', ¬(s.goOn i (some (.running ex job djs))).Armed jobName j ex' := by
    rintro j ex' ⟨hj, hlatest, -⟩
    have hji : i = j := Option.some.inj (ha.2.1.symm.trans hlatest)
    rw [handlers_goOn, if_pos hji.symm] at hj
    cases hj
  refine ⟨h.known, ?_, ⟨h.fires.once, h.fires.complete⟩, ?_, ?_, ?_, ?_, ?_, ?_, ?_⟩
  · exact received_goOn h fun ex' hex => by cases hex
  · intro j x hx
    rcases hleft j x hx with ⟨-, hgroup⟩ | ⟨-, hx⟩
    · exact hgroup ▸ h.armed_complete i ex ha
    · exact h.left_complete j x hx
  · intro j
    rw [left_goOn]
    split_ifs
    · exact hnodup.map fun a b hab => (Prod.mk.inj hab).2
    · exact h.left_nodup j
  · intro j x hx hstarted
    rcases hleft j x hx with ⟨-, hgroup⟩ | ⟨-, hx⟩
    · exact h.armed_starts i ex ha x hstarted hgroup
    · exact h.left_new j x hx hstarted
  · intro j k x hj hk
    rcases hleft j x hj with ⟨hji, hgroup⟩ | ⟨-, hj⟩
    · rcases hleft k x hk with ⟨hki, -⟩ | ⟨-, hk⟩
      · exact hji.trans hki.symm
      · exact absurd hgroup (h.armed_left i ex ha k x hk)
    · rcases hleft k x hk with ⟨-, hgroup⟩ | ⟨-, hk⟩
      · exact absurd hgroup (h.armed_left i ex ha j x hj)
      · exact h.left_apart j k x hj hk
  · exact fun j ex' ha' => absurd ha' (hnone j ex')
  · exact fun j ex' ha' => absurd ha' (hnone j ex')
  · exact fun j ex' ha' => absurd ha' (hnone j ex')

theorem Chain.Inv.reread (h : s.Inv jobName targets)
    (horderly : Orderly jobName targets s (.reread i)) :
    (Chain.step env jobName targets s (.reread i)).Inv jobName targets := by
  rw [step]
  split
  case h_2 => exact h
  case h_1 ex counted hi =>
    rcases rereadJob_cases jobName ex s.db with heq | ⟨job, heq⟩ | ⟨p, hp, hstatus, heq⟩
    · rw [heq]
      exact h.finish i
    · rw [heq]
      exact h.runNothing i ex job
    · obtain ⟨hcounted, hlatest, hnodup⟩ :=
        horderly (ex, counted) (by rw [hi]; rfl) p hp hstatus
      have harmed : s.Armed jobName i ex := by
        refine ⟨?_, hlatest, p, hp, hstatus⟩
        rw [hi, show counted = true from hcounted]
      rw [heq]
      exact h.fire harmed (newJobFromProto p) hnodup

/-! ### A dependent job is run -/

theorem Chain.Inv.deleteEphemeral (h : s.Inv jobName targets) (hs : Sound env s.db) (clk : Clock) :
    ({ s with db := (deleteJob env clk jobName s.db).2 } : Chain).Inv jobName targets := by
  refine h.shrink ?_ h.received rfl (List.Subset.refl _) (fun j => List.Sublist.refl _) ?_
  · exact h.known.of_addsOnly (AddsOnly.deleteJob hs clk {}) (List.Subset.refl _)
      fun hsuccess => by cases hsuccess
  · rintro j ex ⟨hj, hlatest, p, hp, hstatus⟩
    refine ⟨hj, hlatest, p, ?_, hstatus⟩
    rcases deleteJob_job?_self hs clk jobName with hnone | hsame
    · rw [show (deleteJob env clk jobName s.db).2.job? jobName = some p from hp] at hnone
      cases hnone
    · rw [← hsame]
      exact hp

variable {ex : Execution} {job : Job} {djn : String} {djs : List String}

/-- What a handler is to run begins with the next dependent job. -/
theorem Chain.left_running (hi : s.handlers i = some (.running ex job (djn :: djs))) :
    s.left i = (ex.group, djn) :: djs.map (ex.group, ·) := by
  rw [left, hi]
  rfl

theorem Chain.left_goOn_sublist (hi : s.handlers i = some (.running ex job (djn :: djs))) (j : ℕ) :
    ((s.goOn i (some (.running ex job djs))).left j).Sublist (s.left j) := by
  rw [left_goOn]
  split_ifs with hj
  · rw [hj, left_running hi]
    exact List.sublist_cons_self _ _
  · exact List.Sublist.refl _

theorem Chain.armed_goOn_running {djs' : List String} {j : ℕ} {ex' : Execution}
    (ha : (s.goOn i (some (.running ex job djs'))).Armed jobName j ex') :
    s.Armed jobName j ex' := by
  obtain ⟨hj, hlatest, hp⟩ := ha
  rw [handlers_goOn] at hj
  by_cases hji : j = i
  · rw [if_pos hji] at hj
    cases hj
  · rw [if_neg hji] at hj
    exact ⟨hj, hlatest, hp⟩

/-- A dependent job that is not runnable is passed over. -/
theorem Chain.Inv.skip (h : s.Inv jobName targets)
    (hi : s.handlers i = some (.running ex job (djn :: djs))) :
    (s.goOn i (some (.running ex job djs))).Inv jobName targets :=
  h.shrink h.known (received_goOn h fun _ hex => by cases hex) rfl (List.Subset.refl _)
    (left_goOn_sublist hi) fun _ _ ha => armed_goOn_running ha

/-- A dependent job is started. -/
theorem Chain.Inv.startNext (h : s.Inv jobName targets)
    (hi : s.handlers i = some (.running ex job (djn :: djs))) :
    (({ s with starts := (ex.group, djn) :: s.starts } : Chain).goOn i
      (some (.running ex job djs))).Inv jobName targets := by
  have hskip := h.skip hi
  have hmem : (ex.group, djn) ∈ s.left i := left_running hi ▸ List.mem_cons_self
  have hnodup : (ex.group, djn) ∉ djs.map (ex.group, ·) ∧ (djs.map (ex.group, ·)).Nodup :=
    List.nodup_cons.1 (left_running hi ▸ h.left_nodup i)
  have hsub := fun j => (left_goOn_sublist hi j).subset
  refine ⟨hskip.known, hskip.received, ⟨?_, ?_⟩, hskip.left_complete, hskip.left_nodup, ?_,
    hskip.left_apart, hskip.armed_complete, ?_, hskip.armed_left⟩
  · exact List.nodup_cons.2 ⟨h.left_new i _ hmem, h.fires.once⟩
  · intro x hx
    rcases List.mem_cons.1 hx with rfl | hx
    · exact h.left_complete i _ hmem
    · exact h.fires.complete x hx
  · intro j x hx hstarted
    rcases List.mem_cons.1 hstarted with rfl | hstarted
    · have hji : j = i := h.left_apart j i _ (hsub j hx) hmem
      have hrest : (ex.group, djn) ∈ (s.goOn i (some (.running ex job djs))).left j := hx
      rw [left_goOn, if_pos hji] at hrest
      exact hnodup.1 hrest
    · exact hskip.left_new j x hx hstarted
  · intro j ex' ha x hx
    rcases List.mem_cons.1 hx with rfl | hx
    · exact h.armed_left j ex' (armed_goOn_running (s := s) ha) i _ hmem
    · exact hskip.armed_starts j ex' ha x hx

theorem Chain.Inv.run (h : s.Inv jobName targets) (hs : Sound env s.db) (i : ℕ) (runnable : Bool)
    (clk : Clock) :
    (Chain.step env jobName targets s (.run i runnable clk)).Inv jobName targets := by
  rw [step]
  split
  case h_2 => exact h
  case h_1 ex job djs hi =>
    cases djs with
    | nil =>
      rw [runNext]
      split_ifs
      · exact (h.deleteEphemeral hs clk).finish i
      · exact h.finish i
    | cons djn djs =>
      rw [runNext]
      cases getJob djn s.db with
      | error e => exact h.finish i
      | ok dj =>
        cases runnable with
        | true => exact h.startNext hi
        | false => exact h.skip hi

end

/-! ## Whole runs -/

theorem Sound.chainStep {env : Env} {jobName : String} {targets : Int → List String} {s : Chain}
    (hs : Sound env s.db) (e : ChainEvent) : Sound env (Chain.step env jobName targets s e).db := by
  cases e with
  | start ex => exact hs.setExecution _
  | deliver i pbex =>
    rw [Chain.step]
    split_ifs
    · exact hs
    · exact hs
  | apply i =>
    rw [Chain.step]
    split
    · rw [Chain.db_applyReport]
      exact hs.setExecutionDone _
    · exact hs
  | reread i =>
    rw [Chain.step]
    split
    · exact hs
    · exact hs
  | run i runnable clk =>
    rw [Chain.step]
    split
    · rename_i ex job djs hi
      cases djs with
      | nil =>
        rw [Chain.runNext]
        split_ifs
        · exact hs.deleteJob _
        · exact hs
      | cons djn djs =>
        rw [Chain.runNext]
        cases getJob djn s.db <;> exact hs
    · exact hs

/-- A log that sets the job `a` and its dependent job `b`. -/
def parentAndChild : List Fsm.Entry :=
  [(Clock.epoch, .setJob { name := "a", schedule := "@manually" }),
    (Clock.epoch, .setJob { name := "b", parentJob := "a" })]

/-- Two nodes are dispatched in every group. -/
def twoNodes (_ : Int) : List String := ["n1", "n2"]

/-- The start message of a node in group 1. -/
def startOn (node : String) : ChainEvent := .start { nodeName := node, startedAt := 5, group := 1 }

/-- A handler takes the report that a node succeeded in group 1, from its arrival to its end. -/
def successOn (i : ℕ) (node : String) : List ChainEvent :=
  [.deliver i
      { nodeName := node, startedAt := some 5, finishedAt := some 7, success := true, group := 1 },
    .apply i, .reread i, .run i true Clock.epoch]

end Dkron
