import Dkron.Lib.Runs
import Mathlib.Data.List.Permutation

/-!
# Read, modify, write

Processes share a state. An *update* reads the state and writes something back later; between the
two others may write. Commands are atomic.

The updates and the commands are serializable when the shared state is what they leave behind, in
some order, when each of them is atomic. The natural order is that of the writes:
`inOrder_iff` says that the shared state follows it if and only if every write does what the whole
update would do at that moment.
-/

namespace Serial

variable {σ α κ γ : Type*}

/-- Commands and updates on a shared state. An update that reads nothing has nothing to write. -/
structure Machine (σ α κ γ : Type*) where
  command : σ → α → σ
  read : κ → σ → Option γ
  write : κ → γ → σ → σ

/-- What the processes do: process `i` begins an update, or writes back what it has read. -/
inductive Event (α κ : Type*) where
  | command (a : α)
  | read (i : ℕ) (k : κ)
  | write (i : ℕ)

/-- A command or a whole update. -/
inductive Operation (α κ : Type*) where
  | command (a : α)
  | update (k : κ)
deriving DecidableEq

/-- The shared state, what the processes have read, and the operations done so far, the latest
first. -/
structure State (σ α κ γ : Type*) where
  shared : σ
  pending : ℕ → Option (κ × γ)
  finished : List (Operation α κ)

/-- The beginning: nobody has read anything. -/
def State.init (s : σ) : State σ α κ γ := ⟨s, fun _ => none, []⟩

namespace Machine

variable (M : Machine σ α κ γ)

/-- The update without anybody in between. -/
def atomic (k : κ) (s : σ) : σ :=
  match M.read k s with
  | none => s
  | some c => M.write k c s

/-- One operation, atomically. -/
def apply (s : σ) : Operation α κ → σ
  | .command a => M.command s a
  | .update k => M.atomic k s

/-- Operations one after the other. -/
def serial (s : σ) (ops : List (Operation α κ)) : σ := ops.foldl M.apply s

/-- One event. A process that begins anew forgets what it has read. -/
def step (s : State σ α κ γ) : Event α κ → State σ α κ γ
  | .command a => { s with shared := M.command s.shared a, finished := .command a :: s.finished }
  | .read i k =>
    match M.read k s.shared with
    | none => { s with finished := .update k :: s.finished }
    | some c => { s with pending := Function.update s.pending i (some (k, c)) }
  | .write i =>
    match s.pending i with
    | none => s
    | some (k, c) =>
      { shared := M.write k c s.shared
        pending := Function.update s.pending i none
        finished := .update k :: s.finished }

/-- The shared state is what the operations leave behind in the order of their ends. -/
def InOrder (s₀ : σ) (s : State σ α κ γ) : Prop := M.serial s₀ s.finished.reverse = s.shared

/-- Seen through `view`, the shared state is what the operations leave behind in some order. -/
def Serializable {β : Type*} (view : σ → β) (s₀ : σ) (s : State σ α κ γ) : Prop :=
  ∃ ops : List (Operation α κ), ops.Perm s.finished ∧ view (M.serial s₀ ops) = view s.shared

/-- A write does what the whole update would do at that moment. -/
def Current (s : State σ α κ γ) : Event α κ → Prop
  | .write i => ∀ k c, s.pending i = some (k, c) → M.write k c s.shared = M.atomic k s.shared
  | _ => True

variable {M} {s₀ : σ} {s : State σ α κ γ}

theorem InOrder.serializable {β : Type*} (view : σ → β) (h : M.InOrder s₀ s) :
    M.Serializable view s₀ s :=
  ⟨s.finished.reverse, List.reverse_perm _, congrArg view h⟩

theorem serial_finished_cons (s₀ : σ) (o : Operation α κ) (ops : List (Operation α κ)) :
    M.serial s₀ (o :: ops).reverse = M.apply (M.serial s₀ ops.reverse) o := by
  rw [serial, List.reverse_cons, List.foldl_append]
  rfl

/-- One event keeps the order of the ends if and only if it is current. -/
theorem InOrder.step_iff (h : M.InOrder s₀ s) (e : Event α κ) :
    M.InOrder s₀ (M.step s e) ↔ M.Current s e := by
  unfold InOrder at h ⊢
  cases e with
  | command a =>
    refine iff_of_true ?_ trivial
    rw [step, serial_finished_cons, h]
    rfl
  | read i k =>
    refine iff_of_true ?_ trivial
    rw [step]
    cases hread : M.read k s.shared with
    | none =>
      simp only
      rw [serial_finished_cons, h, apply, atomic, hread]
    | some c => exact h
  | write i =>
    rw [step, Current]
    rcases hpending : s.pending i with _ | ⟨k, c⟩
    · exact iff_of_true h fun k c hkc => by cases hkc
    · simp only
      rw [serial_finished_cons, h, apply]
      constructor
      · intro hatomic k' c' hkc
        cases hkc
        exact hatomic.symm
      · intro hcurrent
        exact (hcurrent k c rfl).symm

/-- **Commit order.** The shared state follows the order of the ends all along a run if and only if
every write is current. -/
theorem inOrder_iff (M : Machine σ α κ γ) (s₀ : σ) (es : List (Event α κ)) :
    Runs.Everywhere M.step (M.InOrder s₀) (State.init s₀) es ↔
      Runs.Along M.step M.Current (State.init s₀) es :=
  Runs.everywhere_iff_along (J := fun _ => True) (fun _ _ _ => trivial)
    (fun _ e _ h => h.step_iff e) trivial rfl

end Machine

end Serial
