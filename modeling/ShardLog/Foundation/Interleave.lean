import Mathlib.Logic.Basic

/-!
# Foundation - Programs that share a store

A program is a tree of calls to a store that other programs use at the same time.
Between two calls the store may change in any way that the discipline of the store
allows, so what a program knows has to survive such changes.

Main results:

- Theorem `Ensures.bind`: a sequence keeps to the discipline if its parts do.
- Theorem `Ensures.later`: what a program ensures survives the steps of the others.
- Theorem `Returns.bind`: quiet runs compose.
-/

namespace Interleave

variable {ε σ O α β : Type} {V : O → Type}

/-! ## Programs -/

/-- A program that calls operations of a store; every call can fail. -/
inductive Script (ε O : Type) (V : O → Type) (α : Type) where
  | done (result : Except ε α)
  | call (op : O) (next : Except ε (V op) → Script ε O V α)

namespace Script

def bind : Script ε O V α → (α → Script ε O V β) → Script ε O V β
  | .done (.ok value), rest => rest value
  | .done (.error e), _ => .done (.error e)
  | .call op next, rest => .call op fun response => (next response).bind rest

instance : Monad (Script ε O V) where
  pure value := .done (.ok value)
  bind := bind

instance : MonadLift (Except ε) (Script ε O V) := ⟨.done⟩

/-- A single call. -/
def request (op : O) : Script ε O V (V op) := .call op .done

end Script

open Script

/-- Run a program alone. -/
def run (answer : (op : O) → σ → Except ε (V op) × σ) : Script ε O V α → σ → Except ε α × σ
  | .done result, state => (result, state)
  | .call op next, state => run answer (next (answer op state).1) (answer op state).2

/-! ## Disciplines -/

/-- How a store answers, how it may change over time, and what it always satisfies. -/
structure Discipline (ε σ O : Type) (V : O → Type) where
  performs : (op : O) → σ → Except ε (V op) → σ → Prop
  grows : σ → σ → Prop
  inv : σ → Prop
  grows_refl : ∀ state, grows state state
  grows_trans : ∀ {first second third}, grows first second → grows second third → grows first third

variable (d : Discipline ε σ O V)

/-- Whatever others do in between, every call keeps the discipline and is allowed, and a result
comes only with the postcondition. -/
def Ensures (allowed : (op : O) → σ → Except ε (V op) → σ → Prop) (post : α → σ → Prop) :
    Script ε O V α → σ → Prop
  | .done (.ok value), state => ∀ later, d.grows state later → d.inv later → post value later
  | .done (.error _), _ => True
  | .call op next, state => ∀ before response after, d.grows state before → d.inv before →
      d.performs op before response after →
      (d.grows before after ∧ d.inv after ∧ allowed op before response after) ∧
        Ensures allowed post (next response) after

section Ensures

variable {d} {allowed : (op : O) → σ → Except ε (V op) → σ → Prop} {post : α → σ → Prop} {state : σ}
  {program : Script ε O V α} {after : σ} {op : O} {final : β → σ → Prop} {rest : α → Script ε O V β}

/-- Others may act before the program. -/
theorem Ensures.later (h : Ensures d allowed post program state) (hgrows : d.grows state after) :
    Ensures d allowed post program after := by
  cases program with
  | done result =>
    cases result with
    | ok value =>
      intro final hfinal hinv
      exact h final (d.grows_trans hgrows hfinal) hinv
    | error e => trivial
  | call op next =>
    intro before response after hbefore hinv hperforms
    exact h before response after (d.grows_trans hgrows hbefore) hinv hperforms

/-- Nothing is lost by looking at the program only from the states that can follow. -/
theorem Ensures.of_later
    (h : ∀ later, d.grows state later → d.inv later → Ensures d allowed post program later) :
    Ensures d allowed post program state := by
  cases program with
  | done result =>
    cases result with
    | ok value =>
      intro final hfinal hinv
      exact h final hfinal hinv final (d.grows_refl final) hinv
    | error e => trivial
  | call op next =>
    intro before response after hbefore hinv hperforms
    exact h before hbefore hinv before response after (d.grows_refl before) hinv hperforms

/-- What one call does, and what the rest still ensures. -/
theorem Ensures.step {next : Except ε (V op) → Script ε O V α} {response : Except ε (V op)}
    (h : Ensures d allowed post (.call op next) state) (hinv : d.inv state)
    (hperforms : d.performs op state response after) :
    (d.grows state after ∧ d.inv after ∧ allowed op state response after) ∧
      Ensures d allowed post (next response) after :=
  h state response after (d.grows_refl state) hinv hperforms

theorem ensures_pure {value : α}
    (h : ∀ later, d.grows state later → d.inv later → post value later) :
    Ensures d allowed post (pure value) state := h

/-- Programs in a row. -/
theorem Ensures.bind {middle : α → σ → Prop} (h : Ensures d allowed middle program state)
    (hrest : ∀ value later, d.grows state later → d.inv later → middle value later →
      Ensures d allowed final (rest value) later) :
    Ensures d allowed final (program >>= rest) state := by
  induction program generalizing state with
  | done result =>
    cases result with
    | ok value =>
      refine Ensures.of_later fun later hgrows hinv => ?_
      exact hrest value later hgrows hinv (h later hgrows hinv)
    | error e => trivial
  | call op next ih =>
    intro before response after hbefore hinv hperforms
    obtain ⟨hkept, hnext⟩ := h before response after hbefore hinv hperforms
    refine ⟨hkept, ih response hnext fun value later hgrows => ?_⟩
    exact hrest value later (d.grows_trans hbefore (d.grows_trans hkept.1 hgrows))

/-- A computation without calls only passes its result on. -/
theorem ensures_lift_bind {result : Except ε α}
    (h : ∀ value, result = .ok value → Ensures d allowed final (rest value) state) :
    Ensures d allowed final ((.done result : Script ε O V α) >>= rest) state := by
  cases result with
  | ok value => exact h value rfl
  | error e => trivial

/-- The rule for a single call. -/
theorem ensures_request {answered : V op → σ → Prop}
    (h : ∀ before response after, d.grows state before → d.inv before →
      d.performs op before response after →
      (d.grows before after ∧ d.inv after ∧ allowed op before response after) ∧
        ∀ value, response = .ok value →
          ∀ later, d.grows after later → d.inv later → answered value later) :
    Ensures d allowed answered (request op) state := by
  intro before response after hbefore hinv hperforms
  obtain ⟨hkept, hanswered⟩ := h before response after hbefore hinv hperforms
  refine ⟨hkept, ?_⟩
  cases response with
  | ok value => exact hanswered value rfl
  | error e => trivial

end Ensures

/-! ## Committing calls -/

/-- No call of the program is one of the given operations. -/
def Avoids (commit : O → Prop) : Script ε O V α → Prop
  | .done _ => True
  | .call op next => ¬commit op ∧ ∀ response, Avoids commit (next response)

/-- At most one call commits. It is the last one, and the result is advanced exactly if it
succeeded. -/
def Commits (commit : O → Prop) (advanced : α → Prop) : Script ε O V α → Prop
  | .done result => ∀ value, result = .ok value → ¬advanced value
  | .call op next =>
    (¬commit op ∧ ∀ response, Commits commit advanced (next response)) ∨
      (commit op ∧ (∀ answer, ∃ value, next (.ok answer) = .done (.ok value) ∧ advanced value) ∧
        ∀ e, next (.error e) = .done (.error e))

section Commits

variable {commit : O → Prop} {advanced : β → Prop} {program : Script ε O V α}
  {rest : α → Script ε O V β}

theorem avoids_request {op : O} (h : ¬commit op) :
    Avoids commit (request op : Script ε O V (V op)) :=
  ⟨h, fun _ => trivial⟩

/-- Programs that avoid commits, in a row. -/
theorem Avoids.bind (h : Avoids commit program) (hrest : ∀ value, Avoids commit (rest value)) :
    Avoids commit (program >>= rest) := by
  induction program with
  | done result =>
    cases result with
    | ok value => exact hrest value
    | error e => trivial
  | call op next ih => exact ⟨h.1, fun response => ih response (h.2 response)⟩

/-- A commit after a program without one. -/
theorem Commits.bind (h : Avoids commit program)
    (hrest : ∀ value, Commits commit advanced (rest value)) :
    Commits commit advanced (program >>= rest) := by
  induction program with
  | done result =>
    cases result with
    | ok value => exact hrest value
    | error e =>
      intro value hvalue
      cases hvalue
  | call op next ih => exact .inl ⟨h.1, fun response => ih response (h.2 response)⟩

end Commits

/-! ## Quiet runs -/

/-- Whatever others do in between, the program returns the value and changes nothing, unless a call
fails by itself. -/
def Returns (answer : (op : O) → σ → Except ε (V op) × σ) (value : α) : Script ε O V α → σ → Prop
  | .done result, _ => result = .ok value
  | .call op next, state => ∀ before, d.grows state before → d.inv before →
      (answer op before).2 = before ∧ Returns answer value (next (answer op before).1) before

section Returns

variable {d} {answer : (op : O) → σ → Except ε (V op) × σ} {state : σ} {value : α}
  {rest : α → Script ε O V β} {final : β}

theorem returns_request {op : O} {value : V op}
    (h : ∀ before, d.grows state before → d.inv before → answer op before = (.ok value, before)) :
    Returns d answer value (request op) state := by
  intro before hgrows hinv
  rw [h before hgrows hinv]
  exact ⟨rfl, rfl⟩

theorem returns_lift_bind {result : Except ε α} (hresult : result = .ok value)
    (h : Returns d answer final (rest value) state) :
    Returns d answer final ((.done result : Script ε O V α) >>= rest) state := by
  subst hresult
  exact h

/-- Programs in a row. -/
theorem Returns.bind {program : Script ε O V α} (h : Returns d answer value program state)
    (hrest : ∀ later, d.grows state later → Returns d answer final (rest value) later) :
    Returns d answer final (program >>= rest) state := by
  induction program generalizing state with
  | done result =>
    cases h
    exact hrest state (d.grows_refl state)
  | call op next ih =>
    intro before hgrows hinv
    obtain ⟨hsame, hnext⟩ := h before hgrows hinv
    refine ⟨hsame, ih _ hnext fun later hlater => ?_⟩
    exact hrest later (d.grows_trans hgrows hlater)

end Returns

end Interleave
