import Dkron.Execution
import Dkron.GoStrings
import Dkron.Lib.Grouped

/-!
# Analytics

`analyticsHandler` of `dkron/api_analytics.go` goes once over all executions and keeps a dozen
accumulators: counts, durations, the latest finish and the same by node. The shortest duration
starts at zero, and zero is also how the loop knows that it has none yet. An execution that took no
time therefore resets it, and the executions after it decide what is reported.

Durations are `int64` nanoseconds: one stops at the largest number, and their sum wraps. The rates
and averages that are computed from the accumulators are floating point numbers and left out.

**Theorem (`analyticsLoop_iff`).** The loop reports the minimum, maximum, sum, number and latest
finish in every order, and by node as well, if and only if the executions that took no time are all
of those that have a duration, or none, and the durations add up to less than `2 ^ 63`.
-/

namespace Dkron

/-! ## The loop -/

/-- The largest `time.Duration`. -/
def largestDuration : Int := 2 ^ 63 - 1

/-- `t.Sub(u)`: a duration that does not fit is the largest or the smallest one. -/
def Time.sub (t u : Time) : Int := max (-2 ^ 63) (min (t - u) largestDuration)

/-- The counts of `NodeAnalytics`. -/
structure NodeAnalytics where
  totalExecutions : ℕ := 0
  successfulExecutions : ℕ := 0
  failedExecutions : ℕ := 0
deriving DecidableEq, Repr

/-- The accumulators of `analyticsHandler`. A map is a function to the values under its keys. -/
@[ext] structure AnalyticsTotals where
  totalExecutions : ℕ
  successCount : ℕ := 0
  failedCount : ℕ := 0
  totalDuration : Int := 0
  minDuration : Int := 0
  maxDuration : Int := 0
  durationSampleCount : ℕ := 0
  lastExecutionAt : Option Time := none
  nodeStats : String → Option NodeAnalytics := fun _ => none
  nodeDurations : String → Option Int := fun _ => none
  nodeDurationSamples : String → Option ℕ := fun _ => none

/-- The node an execution is counted under. -/
def Execution.node (ex : Execution) : String := if ex.nodeName = "" then "unknown" else ex.nodeName

/-- An execution in the counts of its node. -/
def NodeAnalytics.add (nodeStat : NodeAnalytics) (ex : Execution) : NodeAnalytics where
  totalExecutions := nodeStat.totalExecutions + 1
  successfulExecutions :=
    if ex.success then nodeStat.successfulExecutions + 1 else nodeStat.successfulExecutions
  failedExecutions :=
    if ex.success then nodeStat.failedExecutions else nodeStat.failedExecutions + 1

/-- The duration of an execution with both times, if they are not reversed. -/
def Execution.duration (ex : Execution) : Option Int :=
  if ex.finishedAt ≠ zeroTime ∧ ex.startedAt ≠ zeroTime ∧ ¬ex.finishedAt < ex.startedAt then
    some (Time.sub ex.finishedAt ex.startedAt)
  else none

/-- The latest finish with that of another execution. -/
def laterFinish (lastExecutionAt : Option Time) (ex : Execution) : Option Time :=
  if ex.finishedAt = zeroTime then lastExecutionAt
  else
    match lastExecutionAt with
    | none => some ex.finishedAt
    | some last => if last < ex.finishedAt then some ex.finishedAt else some last

/-- The shortest duration with another one. Zero means that there is none yet. -/
def shorter (minDuration duration : Int) : Int :=
  if minDuration = 0 ∨ duration < minDuration then duration else minDuration

/-- The longest duration with another one. -/
def longer (maxDuration duration : Int) : Int :=
  if maxDuration < duration then duration else maxDuration

/-- A duration is taken in. -/
def AnalyticsTotals.addDuration (t : AnalyticsTotals) (node : String) (duration : Int) :
    AnalyticsTotals :=
  { t with
    totalDuration := wrap64 (t.totalDuration + duration)
    durationSampleCount := t.durationSampleCount + 1
    nodeDurations := Function.update t.nodeDurations node
      (some (wrap64 ((t.nodeDurations node).getD 0 + duration)))
    nodeDurationSamples := Function.update t.nodeDurationSamples node
      (some ((t.nodeDurationSamples node).getD 0 + 1))
    minDuration := shorter t.minDuration duration
    maxDuration := longer t.maxDuration duration }

/-- An execution is counted. -/
def AnalyticsTotals.count (t : AnalyticsTotals) (ex : Execution) : AnalyticsTotals :=
  { t with
    successCount := if ex.success then t.successCount + 1 else t.successCount
    failedCount := if ex.success then t.failedCount else t.failedCount + 1
    nodeStats := Function.update t.nodeStats ex.node
      (some (((t.nodeStats ex.node).getD {}).add ex))
    lastExecutionAt := laterFinish t.lastExecutionAt ex }

/-- One pass of the loop. -/
def AnalyticsTotals.add (t : AnalyticsTotals) (ex : Execution) : AnalyticsTotals :=
  match ex.duration with
  | none => t.count ex
  | some duration => (t.count ex).addDuration ex.node duration

/-- The loop of `analyticsHandler`. -/
def analyticsLoop (execs : List Execution) : AnalyticsTotals :=
  execs.foldl AnalyticsTotals.add { totalExecutions := execs.length }

/-! ## What the accumulators stand for -/

/-- The executions with both times, not reversed. -/
def timed (execs : List Execution) : List Execution :=
  execs.filter fun ex =>
    ex.finishedAt ≠ zeroTime ∧ ex.startedAt ≠ zeroTime ∧ ex.startedAt ≤ ex.finishedAt

/-- How long they took. -/
def samples (execs : List Execution) : List Int :=
  (timed execs).map fun ex => ex.finishedAt - ex.startedAt

/-- The counts of the executions of one node. -/
def nodeAnalytics (execs : List Execution) : NodeAnalytics where
  totalExecutions := execs.length
  successfulExecutions := execs.countP fun ex => ex.success
  failedExecutions := execs.countP fun ex => !ex.success

/-- The accumulators as they are meant. -/
def aggregates (execs : List Execution) : AnalyticsTotals where
  totalExecutions := execs.length
  successCount := execs.countP fun ex => ex.success
  failedCount := execs.countP fun ex => !ex.success
  totalDuration := (samples execs).sum
  minDuration := (samples execs).min?.getD 0
  maxDuration := (samples execs).max?.getD 0
  durationSampleCount := (samples execs).length
  lastExecutionAt := ((execs.map Execution.finishedAt).filter (· ≠ zeroTime)).max?
  nodeStats := fun node =>
    Grouped.ofNonempty nodeAnalytics (Grouped.group Execution.node node execs)
  nodeDurations := fun node =>
    Grouped.ofNonempty List.sum (samples (Grouped.group Execution.node node execs))
  nodeDurationSamples := fun node =>
    Grouped.ofNonempty List.length (samples (Grouped.group Execution.node node execs))

/-- What is reported by node adds up to what is reported for all nodes. -/
structure AnalyticsTotals.Partitions (t : AnalyticsTotals) (nodes : Finset String) : Prop where
  totalExecutions :
    ∑ node ∈ nodes, ((t.nodeStats node).getD {}).totalExecutions = t.totalExecutions
  successfulExecutions :
    ∑ node ∈ nodes, ((t.nodeStats node).getD {}).successfulExecutions = t.successCount
  failedExecutions :
    ∑ node ∈ nodes, ((t.nodeStats node).getD {}).failedExecutions = t.failedCount
  durations : ∑ node ∈ nodes, (t.nodeDurations node).getD 0 = t.totalDuration
  samples : ∑ node ∈ nodes, (t.nodeDurationSamples node).getD 0 = t.durationSampleCount

/-! ## Durations -/

theorem sub_of_le {t u : Int} (h : u ≤ t) : Time.sub t u = min (t - u) largestDuration := by
  rw [Time.sub, largestDuration]
  omega

theorem duration_eq (ex : Execution) : ex.duration =
    if ex.finishedAt ≠ zeroTime ∧ ex.startedAt ≠ zeroTime ∧ ex.startedAt ≤ ex.finishedAt then
      some (min (ex.finishedAt - ex.startedAt) largestDuration)
    else none := by
  rw [Execution.duration]
  by_cases h : ex.finishedAt ≠ zeroTime ∧ ex.startedAt ≠ zeroTime ∧ ex.startedAt ≤ ex.finishedAt
  · rw [if_pos h, if_pos ⟨h.1, h.2.1, not_lt.2 h.2.2⟩, sub_of_le h.2.2]
  · rw [if_neg h, if_neg fun h' => h ⟨h'.1, h'.2.1, not_lt.1 h'.2.2⟩]

/-- The durations as the loop sees them. -/
def durations (execs : List Execution) : List Int := execs.filterMap Execution.duration

theorem durations_eq_map (execs : List Execution) :
    durations execs = (samples execs).map fun d => min d largestDuration := by
  induction execs with
  | nil => rfl
  | cons ex execs ih =>
    rw [durations] at ih ⊢
    rw [List.filterMap_cons, duration_eq, ih, samples, samples, timed, timed, List.filter_cons]
    by_cases h : ex.finishedAt ≠ zeroTime ∧ ex.startedAt ≠ zeroTime ∧
        ex.startedAt ≤ ex.finishedAt <;> simp [h]

theorem samples_nonneg {execs : List Execution} {d : Int} (hd : d ∈ samples execs) : 0 ≤ d := by
  obtain ⟨ex, hex, rfl⟩ := List.mem_map.1 hd
  have h := of_decide_eq_true (List.mem_filter.1 hex).2
  exact Int.sub_nonneg_of_le h.2.2

theorem le_sum_samples {execs : List Execution} {d : Int} (hd : d ∈ samples execs) :
    d ≤ (samples execs).sum :=
  List.single_le_sum (fun _ => samples_nonneg) d hd

/-- The durations are exact if their sum is in range. -/
theorem durations_eq_samples {execs : List Execution}
    (h : (samples execs).sum ≤ largestDuration) : durations execs = samples execs := by
  rw [durations_eq_map]
  conv_rhs => rw [← List.map_id (samples execs)]
  exact List.map_congr_left fun d hd => min_eq_left ((le_sum_samples hd).trans h)

theorem samples_group_sublist (node : String) (execs : List Execution) :
    (samples (Grouped.group Execution.node node execs)).Sublist (samples execs) :=
  (List.filter_sublist.filter _).map _

theorem sum_samples_group_le (node : String) (execs : List Execution) :
    (samples (Grouped.group Execution.node node execs)).sum ≤ (samples execs).sum :=
  (samples_group_sublist node execs).sum_le_sum fun _ => samples_nonneg

theorem samples_perm {execs execs' : List Execution} (h : execs.Perm execs') :
    (samples execs).Perm (samples execs') :=
  (h.filter _).map _

/-! ## The loop on durations -/

theorem wrap64_eq_self {n : Int} (h₀ : 0 ≤ n) (h : n ≤ largestDuration) : wrap64 n = n := by
  rw [largestDuration] at h
  exact Int.bmod_eq_of_le (by omega) (by omega)

theorem wrap64_le (n : Int) : wrap64 n ≤ largestDuration := by
  have h := Int.bmod_lt (x := n) (m := 2 ^ 64) (by decide)
  rw [wrap64, largestDuration]
  omega

theorem foldl_wrap64 {ds : List Int} (hds : ∀ d ∈ ds, 0 ≤ d) {n : Int} (hn : 0 ≤ n)
    (h : n + ds.sum ≤ largestDuration) :
    ds.foldl (fun n d => wrap64 (n + d)) n = n + ds.sum := by
  induction ds generalizing n with
  | nil => exact (add_zero n).symm
  | cons d ds ih =>
    obtain ⟨hd, hds⟩ := List.forall_mem_cons.1 hds
    have hsum : 0 ≤ ds.sum := List.sum_nonneg hds
    rw [List.sum_cons] at h ⊢
    rw [List.foldl_cons, wrap64_eq_self (by omega) (by omega), ih hds (by omega) (by omega)]
    omega

theorem foldl_wrap64_le (ds : List Int) :
    ds.foldl (fun n d => wrap64 (n + d)) 0 ≤ largestDuration := by
  rcases List.eq_nil_or_concat' ds with rfl | ⟨ds, d, rfl⟩
  · decide
  · rw [List.foldl_concat]
    exact wrap64_le _

theorem foldl_shorter_of_pos {ds : List Int} (hds : ∀ d ∈ ds, 0 < d) {n : Int} (hn : 0 < n) :
    ds.foldl shorter n = ds.foldl min n := by
  induction ds generalizing n with
  | nil => rfl
  | cons d ds ih =>
    obtain ⟨hd, hds⟩ := List.forall_mem_cons.1 hds
    have hmin : shorter n d = min n d := by
      rw [shorter]
      omega
    rw [List.foldl_cons, List.foldl_cons, hmin, ih hds (by omega)]

/-- Without zeros, the shortest duration is the least one. -/
theorem foldl_shorter {ds : List Int} (hds : ∀ d ∈ ds, 0 < d) :
    ds.foldl shorter 0 = ds.min?.getD 0 := by
  cases ds with
  | nil => rfl
  | cons d ds =>
    obtain ⟨hd, hds⟩ := List.forall_mem_cons.1 hds
    rw [List.foldl_cons, shorter, if_pos (.inl rfl), foldl_shorter_of_pos hds hd, List.min?_cons',
      Option.getD_some]

theorem foldl_shorter_zeros {ds : List Int} (hds : ∀ d ∈ ds, d = 0) :
    ds.foldl shorter 0 = 0 := by
  induction ds with
  | nil => rfl
  | cons d ds ih =>
    obtain ⟨rfl, hzeros⟩ := List.forall_mem_cons.1 hds
    exact ih hzeros

theorem min?_getD_zeros {ds : List Int} (hds : ∀ d ∈ ds, d = 0) : ds.min?.getD 0 = 0 := by
  cases hmin : ds.min? with
  | none => rfl
  | some d => exact hds d (List.min?_mem hmin)

theorem min?_getD_of_zero_mem {ds : List Int} (h : 0 ∈ ds) (hds : ∀ d ∈ ds, 0 ≤ d) :
    ds.min?.getD 0 = 0 := by
  rw [List.min?_eq_some_iff.2 ⟨h, hds⟩, Option.getD_some]

theorem foldl_shorter_nonneg {ds : List Int} (hds : ∀ d ∈ ds, 0 ≤ d) {n : Int} (hn : 0 ≤ n) :
    0 ≤ ds.foldl shorter n := by
  induction ds generalizing n with
  | nil => exact hn
  | cons d ds ih =>
    obtain ⟨hd, hds⟩ := List.forall_mem_cons.1 hds
    refine ih hds ?_
    rw [shorter]
    split_ifs <;> assumption

theorem foldl_longer {ds : List Int} {n : Int} : ds.foldl longer n = ds.foldl max n := by
  have hmax : longer = max := by
    funext n d
    rw [longer]
    omega
  rw [hmax]

theorem foldl_longer_zero {ds : List Int} (hds : ∀ d ∈ ds, 0 ≤ d) :
    ds.foldl longer 0 = ds.max?.getD 0 := by
  rw [foldl_longer]
  cases ds with
  | nil => rfl
  | cons d ds =>
    rw [List.foldl_cons, max_eq_right (hds d List.mem_cons_self), List.max?_cons',
      Option.getD_some]

/-! ## The accumulators -/

/-- The durations with their nodes. -/
def timings (execs : List Execution) : List (String × Int) :=
  execs.filterMap fun ex => ex.duration.map fun d => (ex.node, d)

theorem map_snd_timings (execs : List Execution) :
    (timings execs).map Prod.snd = durations execs := by
  rw [timings, durations, List.map_filterMap]
  congr 1
  funext ex
  cases ex.duration <;> rfl

theorem timings_cons (ex : Execution) (execs : List Execution) : timings (ex :: execs) =
    match ex.duration with
    | none => timings execs
    | some d => (ex.node, d) :: timings execs := by
  rw [timings, List.filterMap_cons]
  cases ex.duration <;> rfl

theorem group_timings (node : String) (execs : List Execution) :
    Grouped.group Prod.fst node (timings execs) =
      timings (Grouped.group Execution.node node execs) := by
  induction execs with
  | nil => rfl
  | cons ex execs ih =>
    rw [timings_cons]
    by_cases hnode : ex.node = node
    · rw [Grouped.group_cons_of_eq hnode, timings_cons, ← ih]
      cases ex.duration with
      | none => rfl
      | some d =>
        have hfst : (ex.node, d).1 = node := hnode
        exact Grouped.group_cons_of_eq hfst _
    · rw [Grouped.group_cons_of_ne hnode, ← ih]
      cases ex.duration with
      | none => rfl
      | some d =>
        have hfst : (ex.node, d).1 ≠ node := hnode
        exact Grouped.group_cons_of_ne hfst _

section

variable {β : Type} (field : AnalyticsTotals → β)

/-- An accumulator of the counts is a loop over the executions. -/
theorem analyticsLoop_count (g : β → Execution → β)
    (hcount : ∀ (t : AnalyticsTotals) (ex : Execution), field (t.count ex) = g (field t) ex)
    (hdur : ∀ (t : AnalyticsTotals) (node : String) (d : Int),
      field (t.addDuration node d) = field t) (execs : List Execution) :
    field (analyticsLoop execs) = execs.foldl g (field { totalExecutions := execs.length }) := by
  refine (List.foldl_hom field fun t ex => ?_).symm
  rw [AnalyticsTotals.add]
  cases ex.duration with
  | none => exact (hcount t ex).symm
  | some d => exact (hcount t ex).symm.trans (hdur _ _ d).symm

/-- An accumulator of the durations is a loop over them. -/
theorem analyticsLoop_timing (g : β → String × Int → β)
    (hcount : ∀ (t : AnalyticsTotals) (ex : Execution), field (t.count ex) = field t)
    (hdur : ∀ (t : AnalyticsTotals) (node : String) (d : Int),
      field (t.addDuration node d) = g (field t) (node, d)) (execs : List Execution) :
    field (analyticsLoop execs) =
      (timings execs).foldl g (field { totalExecutions := execs.length }) := by
  rw [timings, List.foldl_filterMap]
  refine (List.foldl_hom field fun t ex => ?_).symm
  rw [AnalyticsTotals.add]
  cases ex.duration with
  | none => exact (hcount t ex).symm
  | some d => rw [hdur, hcount]; rfl

theorem analyticsLoop_duration (g : β → Int → β)
    (hcount : ∀ (t : AnalyticsTotals) (ex : Execution), field (t.count ex) = field t)
    (hdur : ∀ (t : AnalyticsTotals) (node : String) (d : Int),
      field (t.addDuration node d) = g (field t) d) (execs : List Execution) :
    field (analyticsLoop execs) =
      (durations execs).foldl g (field { totalExecutions := execs.length }) := by
  rw [← map_snd_timings, List.foldl_map]
  exact analyticsLoop_timing field (fun b p => g b p.2) hcount hdur execs

end

theorem foldl_laterFinish (execs : List Execution) : execs.foldl laterFinish none =
    ((execs.map Execution.finishedAt).filter (· ≠ zeroTime)).max? := by
  have hsome : ∀ (execs : List Execution) (t : Time), execs.foldl laterFinish (some t) =
      some (((execs.map Execution.finishedAt).filter (· ≠ zeroTime)).foldl max t) := by
    intro execs
    induction execs with
    | nil => exact fun t => rfl
    | cons ex execs ih =>
      intro t
      rw [List.foldl_cons, laterFinish, List.map_cons]
      by_cases hzero : ex.finishedAt = zeroTime
      · rw [if_pos hzero, ih, List.filter_cons_of_neg (by simpa using hzero)]
      · have hmax : (if t < ex.finishedAt then some ex.finishedAt else some t) =
            some (max t ex.finishedAt) := by
          rcases lt_or_ge t ex.finishedAt with h | h
          · rw [if_pos h, max_eq_right h.le]
          · rw [if_neg (not_lt.2 h), max_eq_left h]
        rw [if_neg hzero, List.filter_cons_of_pos (by simpa using hzero), List.foldl_cons, hmax, ih]
  induction execs with
  | nil => rfl
  | cons ex execs ih =>
    rw [List.foldl_cons, laterFinish, List.map_cons]
    by_cases hzero : ex.finishedAt = zeroTime
    · rw [if_pos hzero, ih, List.filter_cons_of_neg (by simpa using hzero)]
    · rw [if_neg hzero, hsome, List.filter_cons_of_pos (by simpa using hzero), List.max?_cons']

theorem foldl_add_one {α : Type} (l : List α) (n : ℕ) :
    l.foldl (fun n _ => n + 1) n = n + l.length := by
  rw [List.foldl_const]
  simp

theorem foldl_ite_count (p : Execution → Bool) (execs : List Execution) (n : ℕ) :
    execs.foldl (fun n ex => if p ex then n + 1 else n) n = n + execs.countP p := by
  induction execs generalizing n with
  | nil => rfl
  | cons ex execs ih =>
    rw [List.foldl_cons, ih, List.countP_cons]
    split_ifs <;> omega

theorem foldl_ite_count_not (p : Execution → Bool) (execs : List Execution) (n : ℕ) :
    execs.foldl (fun n ex => if p ex then n else n + 1) n = n + execs.countP fun ex => !p ex := by
  rw [← foldl_ite_count]
  congr 1
  funext n ex
  cases p ex <;> rfl

theorem foldl_add_nodeAnalytics (execs : List Execution) :
    execs.foldl NodeAnalytics.add {} = nodeAnalytics execs := by
  have htotal : (execs.foldl NodeAnalytics.add {}).totalExecutions =
      execs.foldl (fun n _ => n + 1) 0 :=
    (List.foldl_hom NodeAnalytics.totalExecutions fun _ _ => rfl).symm
  have hsuccess : (execs.foldl NodeAnalytics.add {}).successfulExecutions =
      execs.foldl (fun n ex => if ex.success then n + 1 else n) 0 :=
    (List.foldl_hom NodeAnalytics.successfulExecutions fun _ _ => rfl).symm
  have hfailed : (execs.foldl NodeAnalytics.add {}).failedExecutions =
      execs.foldl (fun n ex => if ex.success then n else n + 1) 0 :=
    (List.foldl_hom NodeAnalytics.failedExecutions fun _ _ => rfl).symm
  rw [foldl_add_one] at htotal
  rw [foldl_ite_count] at hsuccess
  rw [foldl_ite_count_not] at hfailed
  rw [Nat.zero_add] at htotal hsuccess hfailed
  rw [nodeAnalytics, ← htotal, ← hsuccess, ← hfailed]

/-! ## The aggregates do not depend on the order -/

theorem min?_perm {l l' : List Int} (h : l.Perm l') : l.min? = l'.min? := by
  apply Option.ext
  intro n
  simp only [List.min?_eq_some_iff, h.mem_iff]

theorem max?_perm {l l' : List Int} (h : l.Perm l') : l.max? = l'.max? := by
  apply Option.ext
  intro n
  simp only [List.max?_eq_some_iff, h.mem_iff]

theorem nodeAnalytics_perm {execs execs' : List Execution} (h : execs.Perm execs') :
    nodeAnalytics execs = nodeAnalytics execs' := by
  rw [nodeAnalytics, nodeAnalytics, h.length_eq, h.countP_eq, h.countP_eq]

theorem aggregates_perm {execs execs' : List Execution} (h : execs.Perm execs') :
    aggregates execs = aggregates execs' := by
  have hgroup : ∀ node, (Grouped.group Execution.node node execs).Perm
      (Grouped.group Execution.node node execs') := fun node => h.filter _
  have hsamples := samples_perm h
  refine AnalyticsTotals.ext h.length_eq (h.countP_eq _) (h.countP_eq _) hsamples.sum_eq ?_ ?_
    hsamples.length_eq ?_ ?_ ?_ ?_
  · exact congrArg (Option.getD · 0) (min?_perm hsamples)
  · exact congrArg (Option.getD · 0) (max?_perm hsamples)
  · exact max?_perm ((h.map _).filter _)
  · funext node
    exact Grouped.ofNonempty_perm (hgroup node) (nodeAnalytics_perm (hgroup node))
  · funext node
    exact Grouped.ofNonempty_perm (samples_perm (hgroup node)) (samples_perm (hgroup node)).sum_eq
  · funext node
    exact Grouped.ofNonempty_perm (samples_perm (hgroup node))
      (samples_perm (hgroup node)).length_eq

/-! ## When the loop reports the aggregates -/

theorem totalDuration_eq (execs : List Execution) : (analyticsLoop execs).totalDuration =
    (durations execs).foldl (fun n d => wrap64 (n + d)) 0 :=
  analyticsLoop_duration AnalyticsTotals.totalDuration _ (fun _ _ => rfl) (fun _ _ _ => rfl) execs

theorem minDuration_eq (execs : List Execution) :
    (analyticsLoop execs).minDuration = (durations execs).foldl shorter 0 :=
  analyticsLoop_duration AnalyticsTotals.minDuration _ (fun _ _ => rfl) (fun _ _ _ => rfl) execs

theorem nodeDurations_eq (execs : List Execution) (node : String) :
    (analyticsLoop execs).nodeDurations node =
      Grouped.ofNonempty (List.foldl (fun n d => wrap64 (n + d)) 0)
        (durations (Grouped.group Execution.node node execs)) := by
  rw [analyticsLoop_timing AnalyticsTotals.nodeDurations
    (Grouped.accumulate Prod.fst (fun n p => wrap64 (n + p.2)) 0) (fun _ _ => rfl)
    (fun _ _ _ => rfl), Grouped.foldl_accumulate, group_timings, ← map_snd_timings,
    Grouped.ofNonempty_map]
  apply Grouped.ofNonempty_congr
  rw [List.foldl_map]

theorem nodeDurationSamples_eq (execs : List Execution) (node : String) :
    (analyticsLoop execs).nodeDurationSamples node =
      Grouped.ofNonempty List.length (durations (Grouped.group Execution.node node execs)) := by
  rw [analyticsLoop_timing AnalyticsTotals.nodeDurationSamples
    (Grouped.accumulate Prod.fst (fun n _ => n + 1) 0) (fun _ _ => rfl) (fun _ _ _ => rfl),
    Grouped.foldl_accumulate, group_timings, ← map_snd_timings, Grouped.ofNonempty_map]
  apply Grouped.ofNonempty_congr
  rw [List.length_map, foldl_add_one, Nat.zero_add]

/-- **The loop without zeros among other durations.** -/
theorem analyticsLoop_eq_aggregates {execs : List Execution}
    (hsum : (samples execs).sum ≤ largestDuration)
    (hzero : 0 ∉ samples execs ∨ ∀ d ∈ samples execs, d = 0) :
    analyticsLoop execs = aggregates execs := by
  have hdurations := durations_eq_samples hsum
  have hnonneg : ∀ d ∈ samples execs, 0 ≤ d := fun _ => samples_nonneg
  have hgroup : ∀ node, durations (Grouped.group Execution.node node execs) =
      samples (Grouped.group Execution.node node execs) :=
    fun node => durations_eq_samples ((sum_samples_group_le node execs).trans hsum)
  refine AnalyticsTotals.ext ?_ ?_ ?_ ?_ ?_ ?_ ?_ ?_ ?_ ?_ ?_
  · rw [analyticsLoop_count AnalyticsTotals.totalExecutions (fun n _ => n) (fun _ _ => rfl)
      fun _ _ _ => rfl]
    exact List.foldl_fixed execs
  · rw [analyticsLoop_count AnalyticsTotals.successCount
      (fun n ex => if ex.success then n + 1 else n) (fun _ _ => rfl) fun _ _ _ => rfl,
      foldl_ite_count]
    exact Nat.zero_add _
  · rw [analyticsLoop_count AnalyticsTotals.failedCount
      (fun n ex => if ex.success then n else n + 1) (fun _ _ => rfl) fun _ _ _ => rfl,
      foldl_ite_count_not]
    exact Nat.zero_add _
  · rw [totalDuration_eq, hdurations, foldl_wrap64 hnonneg le_rfl (by omega)]
    exact zero_add _
  · rw [minDuration_eq, hdurations]
    rcases hzero with hzero | hzero
    · apply foldl_shorter
      intro d hd
      exact lt_of_le_of_ne (hnonneg d hd) fun h => hzero (h ▸ hd)
    · rw [foldl_shorter_zeros hzero]
      exact (min?_getD_zeros hzero).symm
  · rw [analyticsLoop_duration AnalyticsTotals.maxDuration longer (fun _ _ => rfl)
      fun _ _ _ => rfl, hdurations]
    exact foldl_longer_zero hnonneg
  · rw [analyticsLoop_duration AnalyticsTotals.durationSampleCount (fun n _ => n + 1)
      (fun _ _ => rfl) fun _ _ _ => rfl, hdurations, foldl_add_one]
    exact Nat.zero_add _
  · rw [analyticsLoop_count AnalyticsTotals.lastExecutionAt laterFinish (fun _ _ => rfl)
      fun _ _ _ => rfl]
    exact foldl_laterFinish execs
  · funext node
    rw [analyticsLoop_count AnalyticsTotals.nodeStats
      (Grouped.accumulate Execution.node NodeAnalytics.add {}) (fun _ _ => rfl) fun _ _ _ => rfl,
      Grouped.foldl_accumulate]
    exact Grouped.ofNonempty_congr (foldl_add_nodeAnalytics _)
  · funext node
    rw [nodeDurations_eq, hgroup]
    apply Grouped.ofNonempty_congr
    have hle := (sum_samples_group_le node execs).trans hsum
    rw [foldl_wrap64 (fun _ => samples_nonneg) le_rfl (by omega)]
    exact zero_add _
  · funext node
    rw [nodeDurationSamples_eq, hgroup]
    rfl

/-- The counts of the nodes partition those of all nodes, and so do the durations. -/
theorem partitions_aggregates (execs : List Execution) :
    (aggregates execs).Partitions (execs.map Execution.node).toFinset := by
  have hnodes : ∀ ex ∈ execs, ex.node ∈ (execs.map Execution.node).toFinset :=
    fun ex hex => List.mem_toFinset.2 (List.mem_map_of_mem hex)
  have hstat : ∀ node, ((aggregates execs).nodeStats node).getD {} =
      nodeAnalytics (Grouped.group Execution.node node execs) :=
    fun node => Grouped.getD_ofNonempty (f := nodeAnalytics) rfl _
  have hsum : ∀ node, ((aggregates execs).nodeDurations node).getD 0 =
      (samples (Grouped.group Execution.node node execs)).sum :=
    fun node => Grouped.getD_ofNonempty (f := List.sum) rfl _
  have hcount : ∀ node, ((aggregates execs).nodeDurationSamples node).getD 0 =
      (samples (Grouped.group Execution.node node execs)).length :=
    fun node => Grouped.getD_ofNonempty (f := List.length) rfl _
  constructor
  · simp only [hstat]
    have htotal := Grouped.countP_groups (fun _ => true) hnodes
    simp only [List.countP_true] at htotal
    exact htotal
  · simp only [hstat]
    exact Grouped.countP_groups (fun ex => ex.success) hnodes
  · simp only [hstat]
    exact Grouped.countP_groups (fun ex => !ex.success) hnodes
  · simp only [hsum]
    exact Grouped.sum_map_filter_groups _ _ hnodes
  · simp only [hcount, samples, List.length_map, timed, ← List.countP_eq_length_filter]
    rw [Grouped.countP_groups _ hnodes, List.countP_eq_length_filter]
    exact (List.length_map ..).symm

/-- If one sample takes no time and another one some, the shortest duration is wrong when the
latter comes last. -/
theorem minDuration_ne_zero {execs : List Execution} {ex : Execution} {d : Int}
    (hex : ex.duration = some d) (hd : 0 < d) :
    (analyticsLoop (execs ++ [ex])).minDuration ≠ 0 := by
  have hnonneg : 0 ≤ (durations execs).foldl shorter 0 := by
    refine foldl_shorter_nonneg (fun d hd => ?_) le_rfl
    rw [durations_eq_map] at hd
    obtain ⟨d', hd', rfl⟩ := List.mem_map.1 hd
    exact le_min (samples_nonneg hd') (by decide)
  have happend : durations (execs ++ [ex]) = durations execs ++ [d] := by
    rw [durations, List.filterMap_append]
    simp [durations, hex]
  rw [minDuration_eq, happend, List.foldl_concat, shorter]
  split_ifs with h
  · exact hd.ne'
  · exact fun hzero => h (.inl hzero)

/-- If some samples are zero and some are not, an order of the executions hides the zero. -/
theorem exists_perm_minDuration_ne_zero {execs : List Execution} {d : Int}
    (hd : d ∈ samples execs) (hne : d ≠ 0) :
    ∃ execs', execs'.Perm execs ∧ (analyticsLoop execs').minDuration ≠ 0 := by
  obtain ⟨ex, hex, hexd⟩ := List.mem_map.1 hd
  obtain ⟨hmem, htimed⟩ := List.mem_filter.1 hex
  have hpos : 0 < min d largestDuration :=
    lt_min (lt_of_le_of_ne (samples_nonneg hd) hne.symm) (by decide)
  have hduration : ex.duration = some (min d largestDuration) := by
    rw [duration_eq, if_pos (of_decide_eq_true htimed), ← hexd]
  -- the execution that took some time comes last
  obtain ⟨before, after, rfl⟩ := List.append_of_mem hmem
  refine ⟨before ++ after ++ [ex], ?_, minDuration_ne_zero hduration hpos⟩
  rw [List.append_assoc]
  exact (List.perm_append_singleton ex after).append_left before

/-- **When the analytics are right.** In every order of the executions the loop reports the minimum,
the maximum, the sum and the number of the durations, the latest finish and the counts, for all
nodes and by node, if and only if the durations add up to an `int64` and are all zero or all
positive. -/
theorem analyticsLoop_iff (execs : List Execution) :
    (∀ execs', execs'.Perm execs →
      analyticsLoop execs' = aggregates execs ∧
        (analyticsLoop execs').Partitions (execs.map Execution.node).toFinset) ↔
    (samples execs).sum < 2 ^ 63 ∧ (0 ∉ samples execs ∨ ∀ d ∈ samples execs, d = 0) := by
  have hrange : (samples execs).sum < 2 ^ 63 ↔ (samples execs).sum ≤ largestDuration := by
    rw [largestDuration]
    omega
  rw [hrange]
  constructor
  · intro h
    constructor
    · have htotal : (samples execs).sum = (analyticsLoop execs).totalDuration :=
        (congrArg AnalyticsTotals.totalDuration (h execs (List.Perm.refl execs)).1).symm
      rw [htotal, totalDuration_eq]
      exact foldl_wrap64_le _
    · by_contra! hmixed
      obtain ⟨hzero, d, hd, hne⟩ := hmixed
      obtain ⟨execs', hperm, hmin⟩ := exists_perm_minDuration_ne_zero hd hne
      have hzero' : (samples execs).min?.getD 0 = 0 :=
        min?_getD_of_zero_mem hzero fun _ => samples_nonneg
      have heq : (analyticsLoop execs').minDuration = (samples execs).min?.getD 0 :=
        congrArg AnalyticsTotals.minDuration (h execs' hperm).1
      exact hmin (heq.trans hzero')
  · rintro ⟨hsum, hzero⟩ execs' hperm
    have heq : analyticsLoop execs' = aggregates execs := by
      rw [← aggregates_perm hperm]
      refine analyticsLoop_eq_aggregates (by rwa [(samples_perm hperm).sum_eq]) ?_
      simpa only [(samples_perm hperm).mem_iff] using hzero
    exact ⟨heq, heq ▸ partitions_aggregates execs⟩

/-- An execution that starts with the epoch and takes the given time. -/
def executionOf (nanos : Int) : Execution :=
  { nodeName := "n1", success := true, startedAt := 0, finishedAt := nanos }

/-- The execution that took no time is forgotten when another one follows it. -/
theorem instant_execution_forgotten :
    (analyticsLoop [executionOf 0, executionOf 5]).minDuration = 5 ∧
      (aggregates [executionOf 0, executionOf 5]).minDuration = 0 ∧
      (analyticsLoop [executionOf 5, executionOf 0]).minDuration = 0 := by
  decide

end Dkron
