import Mathlib.Data.List.Induction
import Dkron.Lib.Runs

/-!
# Pools of shared values

A pool holds values under keys, and drops them when it likes. Processes share it: each looks up the
key of its request, and on a miss makes a value of its own, uses it and adds it some time later.
What a process uses was made for a request with the same key (`served_run`), and is what it would
have made itself in all runs exactly if the key tells apart what is made (`own_iff`).
-/

namespace Pooling

variable {σ κ α ρ : Type*}

/-- A pool with the states `σ`. What it is relied on for: a value that is found was added under the
key, and one that was just added is found. -/
structure Pool (σ κ α : Type*) where
  empty : σ
  get : σ → κ → Option α × σ
  add : σ → κ → α → σ
  Holds : σ → κ → α → Prop
  not_holds_empty : ∀ k a, ¬Holds empty k a
  holds_of_get : ∀ {s k a}, (get s k).1 = some a → Holds s k a
  holds_of_holds_get : ∀ {s k k' a}, Holds (get s k).2 k' a → Holds s k' a
  holds_of_holds_add : ∀ {s k a k' a'}, Holds (add s k a) k' a' → k' = k ∧ a' = a ∨ Holds s k' a'
  get_add : ∀ s k a, (get (add s k a) k).1 = some a

/-- A pool of so many values that drops the one not used for longest: the last one. -/
def Pool.recent [DecidableEq κ] (more : ℕ) : Pool (List (κ × α)) κ α where
  empty := []
  get s k :=
    match s.find? fun r => r.1 = k with
    | some r => (some r.2, r :: s.filter fun r => r.1 ≠ k)
    | none => (none, s)
  add s k a := ((k, a) :: s.filter fun r => r.1 ≠ k).take (more + 1)
  Holds s k a := (k, a) ∈ s
  not_holds_empty k a := List.not_mem_nil
  holds_of_get {s k a} h := by
    split at h
    · rename_i r hr
      obtain ⟨k', a'⟩ := r
      cases h
      have hk : k' = k := by simpa using List.find?_some hr
      exact hk ▸ List.mem_of_find?_eq_some hr
    · cases h
  holds_of_holds_get {s k k' a} h := by
    split at h
    · rename_i r hr
      obtain rfl | h := List.mem_cons.1 h
      · exact List.mem_of_find?_eq_some hr
      · exact List.mem_of_mem_filter h
    · exact h
  holds_of_holds_add {s k a k' a'} h := by
    obtain h | h := List.mem_cons.1 (List.mem_of_mem_take h)
    · exact .inl (Prod.mk.inj h)
    · exact .inr (List.mem_of_mem_filter h)
  get_add s k a := by simp

/-- A process, with the value it uses. -/
structure Process (ρ α : Type*) where
  request : ρ
  value : α
  /-- Its value is still to be added. -/
  pending : Bool

/-- The pool and the processes so far. -/
structure State (σ ρ α : Type*) where
  pool : σ
  processes : List (Process ρ α) := []

inductive Event (ρ : Type*) where
  | start (request : ρ)
  | add (i : ℕ)

variable (P : Pool σ κ α) (key : ρ → κ) (make : ρ → α)

def step (s : State σ ρ α) : Event ρ → State σ ρ α
  | .start request =>
    match P.get s.pool (key request) with
    | (some value, pool) => ⟨pool, s.processes ++ [⟨request, value, false⟩]⟩
    | (none, pool) => ⟨pool, s.processes ++ [⟨request, make request, true⟩]⟩
  | .add i =>
    match s.processes[i]? with
    | some p =>
      if p.pending then
        ⟨P.add s.pool (key p.request) p.value, s.processes.set i { p with pending := false }⟩
      else s
    | none => s

/-- A run from the empty pool. -/
def run (events : List (Event ρ)) : State σ ρ α := events.foldl (step P key make) ⟨P.empty, []⟩

/-- The request of an event. -/
def Event.request? : Event ρ → Option ρ
  | .start request => some request
  | .add _ => none

/-- The value was made for one of the requests with the key. -/
def Made (requests : List ρ) (k : κ) (a : α) : Prop :=
  ∃ r ∈ requests, key r = k ∧ make r = a

/-- Every value in use or in the pool was made for a request with its key. -/
structure Served (s : State σ ρ α) : Prop where
  used : ∀ p ∈ s.processes,
    Made key make (s.processes.map Process.request) (key p.request) p.value
  held : ∀ k a, P.Holds s.pool k a → Made key make (s.processes.map Process.request) k a

variable {P key make} {s : State σ ρ α}

/-! ## Requests -/

theorem map_request_set {processes : List (Process ρ α)} {i : ℕ} {p : Process ρ α}
    (hi : processes[i]? = some p) :
    (processes.set i { p with pending := false }).map Process.request =
      processes.map Process.request := by
  obtain ⟨hlt, rfl⟩ := List.getElem?_eq_some_iff.1 hi
  have hself := List.set_getElem_self
    (by simpa using hlt : i < (processes.map Process.request).length)
  rw [List.map_set]
  simpa using hself

theorem requests_step (e : Event ρ) :
    (step P key make s e).processes.map Process.request =
      s.processes.map Process.request ++ e.request?.toList := by
  cases e with
  | start request =>
    rw [step]
    split <;> simp [Event.request?]
  | add i =>
    rw [step]
    split
    · rename_i p hi
      split_ifs
      · rw [map_request_set hi, Event.request?, Option.toList_none, List.append_nil]
      · simp [Event.request?]
    · simp [Event.request?]

/-- The processes are those of the requests, in their order. -/
theorem requests_run (events : List (Event ρ)) :
    (run P key make events).processes.map Process.request = events.filterMap Event.request? := by
  induction events using List.reverseRecOn with
  | nil => rfl
  | append_singleton events e ih =>
    rw [run, List.foldl_append, ← run, List.foldl_cons, List.foldl_nil, requests_step, ih,
      List.filterMap_append]
    cases e <;> rfl

/-! ## Values -/

theorem Made.mono {requests requests' : List ρ} {k : κ} {a : α} (h : Made key make requests k a)
    (hsub : requests ⊆ requests') : Made key make requests' k a := by
  obtain ⟨r, hr, hkey, hmake⟩ := h
  exact ⟨r, hsub hr, hkey, hmake⟩

theorem Served.append (h : Served P key make s) {pool : σ} {p : Process ρ α}
    (hp : Made key make ((s.processes ++ [p]).map Process.request) (key p.request) p.value)
    (hpool : ∀ k a, P.Holds pool k a → P.Holds s.pool k a) :
    Served P key make ⟨pool, s.processes ++ [p]⟩ := by
  have hsub : s.processes.map Process.request ⊆ (s.processes ++ [p]).map Process.request :=
    List.map_subset _ (List.subset_append_left _ _)
  refine ⟨fun q hq => ?_, fun k a hk => (h.held k a (hpool k a hk)).mono hsub⟩
  obtain hq | hq := List.mem_append.1 hq
  · exact (h.used q hq).mono hsub
  · rw [List.mem_singleton.1 hq]
    exact hp

theorem Served.step (h : Served P key make s) (e : Event ρ) :
    Served P key make (step P key make s e) := by
  cases e with
  | start request =>
    rw [Pooling.step]
    split
    · rename_i value pool hget
      have hfound : P.Holds s.pool (key request) value := P.holds_of_get (by rw [hget])
      refine h.append ?_ fun k a hk => P.holds_of_holds_get (k := key request) (by rwa [hget])
      exact (h.held _ _ hfound).mono (List.map_subset _ (List.subset_append_left _ _))
    · rename_i pool hget
      refine h.append ?_ fun k a hk => P.holds_of_holds_get (k := key request) (by rwa [hget])
      exact ⟨request, by simp, rfl, rfl⟩
  | add i =>
    rw [Pooling.step]
    split
    · rename_i p hi
      split_ifs with hpending
      · have hused := h.used p (List.mem_of_getElem? hi)
        refine ⟨fun q hq => ?_, fun k a hk => ?_⟩
        · rw [map_request_set hi]
          obtain hq | rfl := List.mem_or_eq_of_mem_set hq
          · exact h.used q hq
          · exact hused
        · rw [map_request_set hi]
          obtain ⟨rfl, rfl⟩ | hk := P.holds_of_holds_add hk
          · exact hused
          · exact h.held k a hk
      · exact h
    · exact h

/-- **What is used was made for the same key.** -/
theorem served_run (events : List (Event ρ)) : Served P key make (run P key make events) := by
  refine Runs.invariant_run (fun _ e h => h.step e) ⟨?_, ?_⟩ events
  · intro p hp
    cases hp
  · intro k a hk
    exact absurd hk (P.not_holds_empty k a)

/-- A value that was added is found by the next process with the key. -/
theorem found_after_add (P : Pool σ κ α) (make : ρ → α) {r r' : ρ} (hkey : key r = key r') :
    ∃ pool, run P key make [.start r, .add 0, .start r'] =
      ⟨pool, [⟨r, make r, false⟩, ⟨r', make r, false⟩]⟩ := by
  have hempty : (P.get P.empty (key r)).1 = none := by
    cases hget : (P.get P.empty (key r)).1 with
    | none => rfl
    | some a => exact absurd (P.holds_of_get hget) (P.not_holds_empty _ _)
  have hstart : step P key make ⟨P.empty, []⟩ (.start r) =
      ⟨(P.get P.empty (key r)).2, [⟨r, make r, true⟩]⟩ := by
    rw [step]
    generalize P.get P.empty (key r) = found at *
    obtain ⟨value, pool⟩ := found
    cases hempty
    rfl
  have hfound := P.get_add (P.get P.empty (key r)).2 (key r) (make r)
  rw [run, List.foldl_cons, hstart, List.foldl_cons, List.foldl_cons, List.foldl_nil]
  simp only [step, List.getElem?_cons_zero, if_true, List.set_cons_zero, ← hkey]
  generalize P.get (P.add (P.get P.empty (key r)).2 (key r) (make r)) (key r) = found at *
  obtain ⟨value, pool⟩ := found
  cases hfound
  exact ⟨pool, rfl⟩

/-- **Who uses his own.** In all runs of allowed requests every process uses what it would have made
itself, if and only if allowed requests with the same key make the same. -/
theorem own_iff (allowed : ρ → Prop) :
    (∀ events : List (Event ρ), (∀ r, .start r ∈ events → allowed r) →
      ∀ p ∈ (run P key make events).processes, p.value = make p.request) ↔
    ∀ r r', allowed r → allowed r' → key r = key r' → make r = make r' := by
  constructor
  · intro h r r' hr hr' hkey
    obtain ⟨pool, hrun⟩ := found_after_add P make hkey
    refine h [.start r, .add 0, .start r'] ?_ ⟨r', make r, false⟩ (by simp [hrun])
    intro q hq
    simp only [List.mem_cons, Event.start.injEq, reduceCtorEq, List.not_mem_nil, or_false,
      false_or] at hq
    obtain rfl | rfl := hq
    · exact hr
    · exact hr'
  · intro h events hallowed p hp
    have hstarted : ∀ r ∈ (run P key make events).processes.map Process.request, allowed r := by
      intro r hr
      rw [requests_run] at hr
      obtain ⟨e, he, hrequest⟩ := List.mem_filterMap.1 hr
      cases e with
      | start r =>
        cases hrequest
        exact hallowed r he
      | add i => cases hrequest
    obtain ⟨r, hr, hkey, hmake⟩ := (served_run events).used p hp
    rw [← hmake]
    exact h r p.request (hstarted r hr) (hstarted _ (List.mem_map_of_mem hp)) hkey

end Pooling
