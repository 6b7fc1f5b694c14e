import Mathlib.Logic.Function.Basic
import Mathlib.Logic.Relation

/-!
# Production runtime - The lifecycle of the service

Threads move one atomic state.  Between two accesses to it a thread keeps what it has
loaded, and other threads run.

Main results:

- Theorem `Lifecycle.step_forward_iff`: the one step that moves the state backward.
- Theorem `lifecycle_forward`: runs without that step only move forward.
-/

namespace ShardLog.Production

inductive ServiceState
  | starting
  | ready
  | draining
  | stopping
  | failed
deriving DecidableEq, Repr

namespace ServiceState

/-- The representation as `u8`. -/
def raw : ServiceState → Nat
  | starting => 0
  | ready => 1
  | draining => 2
  | stopping => 3
  | failed => 4

def acceptsIngest (state : ServiceState) : Bool := state = ready

end ServiceState

open ServiceState

/-! ## Threads -/

/-- Where a thread stands in its call, with the value that the loop of `begin_draining` has loaded.
-/
inductive Call
  | idle
  | markReady
  | beginDraining
  | exchange (current : ServiceState)
  | requestShutdown
  | storeStopping
  | markFailed
deriving DecidableEq, Repr

/-- A call that a thread may make. -/
def Call.isEntry : Call → Bool
  | markReady | beginDraining | requestShutdown | markFailed => true
  | idle | exchange _ | storeStopping => false

/-- The next atomic access of a thread: one load, one exchange or one store. -/
def Call.access : Call → ServiceState → Call × ServiceState
  | idle, state => (idle, state)
  | markReady, state => (idle, if state = .starting then .ready else state)
  | beginDraining, state =>
    if state = .draining ∨ state = .stopping ∨ state = .failed then (idle, state)
    else (exchange state, state)
  | exchange current, state =>
    if state = current then (idle, .draining) else (beginDraining, state)
  | requestShutdown, state => (if state ≠ .failed then storeStopping else idle, state)
  | storeStopping, _ => (idle, .stopping)
  | markFailed, _ => (idle, .failed)

/-- The state and the threads that use it. -/
structure Lifecycle where
  state : ServiceState
  threads : Nat → Call

namespace Lifecycle

def new : Lifecycle := ⟨.starting, fun _ => .idle⟩

def call (lifecycle : Lifecycle) (i : Nat) (entry : Call) : Lifecycle :=
  { lifecycle with threads := Function.update lifecycle.threads i entry }

def act (lifecycle : Lifecycle) (i : Nat) : Lifecycle :=
  let next := (lifecycle.threads i).access lifecycle.state
  ⟨next.2, Function.update lifecycle.threads i next.1⟩

/-- An idle thread makes a call, or a thread goes on with its own. -/
inductive Step : Lifecycle → Lifecycle → Prop
  | call {lifecycle : Lifecycle} {i : Nat} {entry : Call} (hidle : lifecycle.threads i = .idle)
      (hentry : entry.isEntry = true) : Step lifecycle (lifecycle.call i entry)
  | act (lifecycle : Lifecycle) (i : Nat) : Step lifecycle (lifecycle.act i)

/-- No failure is stored between the load and the store of a `request_shutdown`. -/
def Undisturbed (lifecycle : Lifecycle) : Prop :=
  lifecycle.state = .failed → ∀ i, lifecycle.threads i ≠ .storeStopping

/-- A step into a state without such a store. -/
def GuardedStep (before after : Lifecycle) : Prop :=
  Step before after ∧ Undisturbed after

variable {before after : Lifecycle} {call : Call} {state : ServiceState}

/-- What the exchange of `begin_draining` expects is a state before `Draining`. -/
def Loaded (lifecycle : Lifecycle) : Prop :=
  ∀ i current, lifecycle.threads i = .exchange current → current.raw < draining.raw

theorem exchange_of_access {current : ServiceState} (h : (call.access state).1 = .exchange current) :
    current.raw < draining.raw := by
  cases call with
  | beginDraining =>
    cases state with
    | starting | ready =>
      cases h
      decide
    | draining | stopping | failed => cases h
  | requestShutdown | exchange expected =>
    rw [Call.access] at h
    split at h <;> cases h
  | idle | markReady | storeStopping | markFailed => cases h

/-- A step keeps what was loaded. -/
theorem Loaded.step (h : Loaded before) (hstep : Step before after) : Loaded after := by
  intro j current hthread
  cases hstep with
  | call hidle hentry =>
    simp only [call, Function.update_apply] at hthread
    split at hthread
    · rw [hthread] at hentry
      cases hentry
    · exact h j current hthread
  | act i =>
    simp only [act, Function.update_apply] at hthread
    split at hthread
    · exact exchange_of_access hthread
    · exact h j current hthread

/-- An access moves the state backward only when it stores `Stopping` over `Failed`. -/
theorem raw_le_access_iff (h : ∀ current, call = .exchange current → current.raw < draining.raw) :
    state.raw ≤ (call.access state).2.raw ↔ ¬(call = .storeStopping ∧ state = .failed) := by
  cases call with
  | exchange current =>
    have hcurrent := h current rfl
    rw [Call.access]
    split
    · rename_i heq
      subst heq
      simp [Nat.le_of_lt hcurrent]
    · simp
  | beginDraining =>
    rw [Call.access]
    split <;> simp
  | idle | markReady | requestShutdown | storeStopping | markFailed =>
    cases state <;> simp [Call.access, raw]

/-- A step moves the state backward exactly if a `request_shutdown` that loaded it earlier stores
over a failure. -/
theorem step_forward_iff (h : Loaded before) (i : Nat) :
    before.state.raw ≤ (before.act i).state.raw ↔
      ¬(before.threads i = .storeStopping ∧ before.state = .failed) :=
  raw_le_access_iff fun current => h i current

/-- Undisturbed steps go forward. -/
theorem raw_le_of_guarded (h : Loaded before) (hundisturbed : Undisturbed before)
    (hstep : Step before after) : before.state.raw ≤ after.state.raw := by
  cases hstep with
  | call => exact Nat.le_refl _
  | act i => exact (step_forward_iff h i).mpr fun hbad => hundisturbed hbad.2 i hbad.1

/-- Without any condition the state stays behind `Ready` once it has left it. -/
theorem left_of_step (h : Loaded before) (hstep : Step before after)
    (hleft : ready.raw < before.state.raw) :
    ready.raw < after.state.raw := by
  cases hstep with
  | call => exact hleft
  | act i =>
    by_cases hbad : before.threads i = .storeStopping ∧ before.state = .failed
    · simp [act, hbad.1, Call.access, raw]
    · exact Nat.lt_of_lt_of_le hleft ((step_forward_iff h i).mpr hbad)

end Lifecycle

open Lifecycle Relation

variable {before after : Lifecycle}

theorem loaded_of_run (hrun : ReflTransGen Step new before) : Loaded before := by
  induction hrun with
  | refl => exact fun i current hthread => by cases hthread
  | tail _ hstep ih => exact ih.step hstep

/-- From every state that a run reaches, a step moves the state backward exactly when it
stores `Stopping` over `Failed`; runs in which no failure falls between the load and the
store of a `request_shutdown` only move forward and stay failed; and in every run the
state never accepts ingestion again after it has left `Ready`. -/
theorem lifecycle_forward (hrun : ReflTransGen Step new before) :
    (∀ i, before.state.raw ≤ (before.act i).state.raw ↔
      ¬(before.threads i = .storeStopping ∧ before.state = .failed)) ∧
    (Undisturbed before → ReflTransGen GuardedStep before after →
      before.state.raw ≤ after.state.raw ∧ (before.state = .failed → after.state = .failed)) ∧
    (ReflTransGen Step before after → ready.raw < before.state.raw →
      after.state.acceptsIngest = false) := by
  refine ⟨step_forward_iff (loaded_of_run hrun), fun hundisturbed hguarded => ?_,
    fun hsteps hleft => ?_⟩
  · have hforward : before.state.raw ≤ after.state.raw ∧ Loaded after ∧ Undisturbed after := by
      induction hguarded with
      | refl => exact ⟨Nat.le_refl _, loaded_of_run hrun, hundisturbed⟩
      | tail _ hstep ih =>
        have hnext := raw_le_of_guarded ih.2.1 ih.2.2 hstep.1
        exact ⟨Nat.le_trans ih.1 hnext, ih.2.1.step hstep.1, hstep.2⟩
    refine ⟨hforward.1, fun hfailed => ?_⟩
    have hlast := hforward.1
    cases hstate : after.state <;> simp_all [raw]
  · have hlater : ready.raw < after.state.raw ∧ Loaded after := by
      induction hsteps with
      | refl => exact ⟨hleft, loaded_of_run hrun⟩
      | tail _ hstep ih => exact ⟨left_of_step ih.2 hstep ih.1, ih.2.step hstep⟩
    cases hstate : after.state <;> simp_all [raw, acceptsIngest]

/-- A thread has asked whether the service failed, and another stores a failure. -/
def failedInBetween : Lifecycle := (((new.call 0 .requestShutdown).act 0).call 1 .markFailed).act 1

theorem run_failedInBetween : ReflTransGen Step new failedInBetween :=
  (((ReflTransGen.single (.call rfl rfl)).tail (.act _ 0)).tail (.call rfl rfl)).tail (.act _ 1)

/-- `mark_failed` has returned, and the shutdown moves the state back to `Stopping`. -/
theorem shutdown_overwrites_failure :
    ReflTransGen Step new failedInBetween ∧ failedInBetween.state = .failed ∧
      failedInBetween.threads 1 = .idle ∧ Step failedInBetween (failedInBetween.act 0) ∧
      (failedInBetween.act 0).state = .stopping :=
  ⟨run_failedInBetween, rfl, rfl, .act _ 0, rfl⟩

/-- The service after a failure without a shutdown on its way. -/
def failedAlone : Lifecycle := (new.call 0 .markFailed).act 0

/-- A shutdown that begins after the failure leaves it. -/
theorem failure_stays : ((failedAlone.call 0 .requestShutdown).act 0).state.raw = failed.raw := by
  have hrun : ReflTransGen Step new failedAlone :=
    (ReflTransGen.single (.call rfl rfl)).tail (.act _ 0)
  have hguarded : ReflTransGen GuardedStep failedAlone
      ((failedAlone.call 0 .requestShutdown).act 0) :=
    (ReflTransGen.single ⟨.call rfl rfl, fun _ i h => by cases i <;> cases h⟩).tail
      ⟨.act _ 0, fun _ i h => by cases i <;> cases h⟩
  rw [((lifecycle_forward hrun).2.1 (fun _ i h => by cases i <;> cases h) hguarded).2 rfl]

end ShardLog.Production
