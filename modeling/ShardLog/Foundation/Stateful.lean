import Mathlib.Logic.Basic

/-!
# Foundation - Stateful programs that can fail

Rules for programs in `EStateM`, whose state survives a failure.

Main results:

- Theorem `Triple.bind`: the triple of a sequence from the triples of its parts,
  where both parts may fail.
- Theorem `Triple.attempt_bind`: the triple of a program whose failure is caught.
- Theorem `Agree.bind`: two sequences agree when their parts do.
-/

namespace Stateful

variable {ε σ α β : Type} {state final : σ}

/-! ## Programs -/

/-- A result computed without the state. -/
def liftResult : Except ε α → EStateM ε σ α
  | .ok value => pure value
  | .error e => throw e

/-- Run a program and hand its result on, failed or not. -/
def attempt (program : EStateM ε σ α) : EStateM ε σ (Except ε α) := fun state =>
  match program.run state with
  | .ok value state => .ok (.ok value) state
  | .error e state => .ok (.error e) state

/-- The state a run leaves behind. -/
def finalState : EStateM.Result ε σ α → σ
  | .ok _ state => state
  | .error _ state => state

/-! ## Successful runs -/

/-- A composition succeeds through a state between its parts. -/
theorem succeeds_bind_iff {program : EStateM ε σ α} {next : α → EStateM ε σ β} {result : β} :
    (program >>= next).run state = .ok result final ↔
      ∃ value middle, program.run state = .ok value middle ∧
        (next value).run middle = .ok result final := by
  rw [EStateM.run_bind]
  cases program.run state with
  | ok value middle => grind
  | error e middle => simp

theorem succeeds_liftResult_iff {result : Except ε α} {value : α} :
    (liftResult result).run state = .ok value final ↔ result = .ok value ∧ final = state := by
  cases result with
  | ok other =>
    simp only [liftResult, EStateM.run_pure, EStateM.Result.ok.injEq, Except.ok.injEq]
    exact and_congr_right fun _ => eq_comm
  | error e =>
    constructor
    · intro h
      cases h
    · rintro ⟨h, _⟩
      cases h

/-- An attempt turns a failure into a value. -/
theorem run_attempt (program : EStateM ε σ α) (state : σ) : (attempt program).run state =
      match program.run state with
      | .ok value state => .ok (.ok value) state
      | .error e state => .ok (.error e) state := rfl

/-! ## Triples -/

/-- From the precondition, success leads to the postcondition and failure to the failure condition.
-/
def Triple (pre : σ → Prop) (program : EStateM ε σ α) (post : α → σ → Prop)
    (failed : σ → Prop) : Prop :=
  ∀ state, pre state →
    match program.run state with
    | .ok value final => post value final
    | .error _ final => failed final

section Triple

variable {pre failed : σ → Prop} {post : α → σ → Prop} {program : EStateM ε σ α} {state : σ}
  {value : α} {result : Except ε α}

/-- The postcondition of a successful run. -/
theorem Triple.of_ok (h : Triple pre program post failed) {final : σ} (hpre : pre state)
    (hrun : program.run state = .ok value final) :
    post value final := by
  have hfinal := h state hpre
  rw [hrun] at hfinal
  exact hfinal

/-- A condition of both outcomes holds in the state a run leaves behind. -/
theorem Triple.finalState {kept : σ → Prop} (h : Triple pre program (fun _ => kept) kept)
    (hpre : pre state) :
    kept (finalState (program.run state)) := by
  have hfinal := h state hpre
  cases hrun : program.run state with
  | ok value final =>
    rw [hrun] at hfinal
    exact hfinal
  | error e final =>
    rw [hrun] at hfinal
    exact hfinal

/-- Conversely, a condition of the state left behind is one of both outcomes. -/
theorem triple_of_finalState {kept : σ → Prop}
    (h : ∀ state, pre state → kept (Stateful.finalState (program.run state))) :
    Triple pre program (fun _ => kept) kept := by
  intro state hstate
  have hfinal := h state hstate
  cases hrun : program.run state with
  | ok value final =>
    rw [hrun] at hfinal
    exact hfinal
  | error e final =>
    rw [hrun] at hfinal
    exact hfinal

/-- The rule of consequence. -/
theorem Triple.consequence {weaker failed' : σ → Prop} {stronger : α → σ → Prop}
    (h : Triple weaker program stronger failed') (hpre : ∀ state, pre state → weaker state)
    (hpost : ∀ value state, stronger value state → post value state := by exact fun _ _ h => h)
    (hfailed : ∀ state, failed' state → failed state := by exact fun _ h => h) :
    Triple pre program post failed := by
  intro state hstate
  have hfinal := h state (hpre state hstate)
  cases hrun : program.run state with
  | ok value final =>
    rw [hrun] at hfinal
    exact hpost value final hfinal
  | error e final =>
    rw [hrun] at hfinal
    exact hfailed final hfinal

/-- A condition that does not speak of the state is a hypothesis. -/
theorem triple_of_and {condition : Prop} (h : condition → Triple pre program post failed) :
    Triple (fun state => condition ∧ pre state) program post failed := fun state hstate =>
  h hstate.1 state hstate.2

theorem triple_pure (h : ∀ state, pre state → post value state) :
    Triple pre (pure value : EStateM ε σ α) post failed := h

theorem triple_throw {e : ε} (h : ∀ state, pre state → failed state) :
    Triple pre (throw e : EStateM ε σ α) post failed := h

theorem triple_modify {f : σ → σ} {post : PUnit → σ → Prop}
    (h : ∀ state, pre state → post ⟨⟩ (f state)) :
    Triple pre (modify f : EStateM ε σ PUnit) post failed := h

theorem triple_modifyGet {f : σ → α × σ} (h : ∀ state, pre state → post (f state).1 (f state).2) :
    Triple pre (modifyGet f : EStateM ε σ α) post failed := h

/-- A computed result is passed on, or stops the program. -/
theorem triple_liftResult (hok : ∀ value state, result = .ok value → pre state → post value state)
    (hfailed : ∀ state, pre state → failed state) :
    Triple pre (liftResult result : EStateM ε σ α) post failed := by
  cases result with
  | ok value => exact triple_pure fun state => hok value state rfl
  | error e => exact triple_throw hfailed

variable {next : α → EStateM ε σ β} {post : β → σ → Prop}

/-- Sequencing, by a condition in between. -/
theorem Triple.bind (middle : α → σ → Prop) (h : Triple pre program middle failed)
    (hnext : ∀ value, Triple (middle value) (next value) post failed) :
    Triple pre (program >>= next) post failed := by
  intro state hstate
  have hmiddle := h state hstate
  rw [EStateM.run_bind]
  cases hrun : program.run state with
  | ok value middle =>
    rw [hrun] at hmiddle
    exact hnext value middle hmiddle
  | error e middle =>
    rw [hrun] at hmiddle
    exact hmiddle

/-- What follows a computed result may use how it was computed. -/
theorem triple_liftResult_bind (hfailed : ∀ state, pre state → failed state)
    (hnext : ∀ value, result = .ok value → Triple pre (next value) post failed) :
    Triple pre (liftResult result >>= next) post failed := by
  cases result with
  | ok value => exact hnext value rfl
  | error e => exact hfailed

theorem triple_ok_bind (h : Triple pre (next value) post failed) :
    Triple pre (liftResult (.ok value) >>= next) post failed := h

/-- What follows a read of the state may use that it is the current state. -/
theorem triple_get_bind {next : σ → EStateM ε σ β} (h : ∀ current, pre current →
      Triple (fun state => state = current ∧ pre state) (next current) post failed) :
    Triple pre (get >>= next) post failed := fun state hstate =>
  h state hstate state ⟨rfl, hstate⟩

/-- What follows an attempt goes on from its success or from its failure. -/
theorem Triple.attempt_bind {next : Except ε α → EStateM ε σ β} (middle : α → σ → Prop)
    (failure : σ → Prop) (h : Triple pre program middle failure)
    (hok : ∀ value, Triple (middle value) (next (.ok value)) post failed)
    (herror : ∀ e, Triple failure (next (.error e)) post failed) :
    Triple pre (attempt program >>= next) post failed := by
  intro state hstate
  have hfinal := h state hstate
  rw [EStateM.run_bind, run_attempt]
  cases hrun : program.run state with
  | ok value final =>
    rw [hrun] at hfinal
    exact hok value final hfinal
  | error e final =>
    rw [hrun] at hfinal
    exact herror e final hfinal

end Triple

/-! ## Two runs side by side -/

section Agree

variable {τ γ δ : Type} {related : σ → τ → Prop} {state : σ} {start : τ} {program : EStateM ε σ α}
  {other : EStateM ε τ β} {otherNext : β → EStateM ε τ δ} {results : γ → δ → Prop}

/-- Two runs that both succeed or both fail with one error, in related states. -/
def Agree (related : σ → τ → Prop) (values : α → β → Prop) :
    EStateM.Result ε σ α → EStateM.Result ε τ β → Prop
  | .ok left state, .ok right other => values left right ∧ related state other
  | .error e state, .error e' other => e = e' ∧ related state other
  | _, _ => False

/-- Agreeing programs in a row agree. -/
theorem Agree.bind (values : α → β → Prop) {next : α → EStateM ε σ γ}
    (h : Agree related values (program.run state) (other.run start))
    (hnext : ∀ left right middle between, other.run start = .ok right between →
      values left right → related middle between →
      Agree related results ((next left).run middle) ((otherNext right).run between)) :
    Agree related results ((program >>= next).run state) ((other >>= otherNext).run start) := by
  rw [EStateM.run_bind, EStateM.run_bind]
  cases hrun : program.run state <;> cases hother : other.run start <;> rw [hrun, hother] at h
  · exact hnext _ _ _ _ hother h.1 h.2
  · exact h.elim
  · exact h.elim
  · exact h

/-- On one side a failure is caught. -/
theorem Agree.attempt_bind (values : α → β → Prop) {next : Except ε α → EStateM ε σ γ}
    (h : Agree related values (program.run state) (other.run start))
    (hok : ∀ left right middle between, other.run start = .ok right between →
      values left right → related middle between →
      Agree related results ((next (.ok left)).run middle) ((otherNext right).run between))
    (herror : ∀ e middle between, related middle between →
      Agree related results ((next (.error e)).run middle) (.error e between)) :
    Agree related results ((attempt program >>= next).run state)
      ((other >>= otherNext).run start) := by
  rw [EStateM.run_bind, EStateM.run_bind, run_attempt]
  cases hrun : program.run state <;> cases hother : other.run start <;> rw [hrun, hother] at h
  · exact hok _ _ _ _ hother h.1 h.2
  · exact h.elim
  · exact h.elim
  · obtain ⟨rfl, hrelated⟩ := h
    exact herror _ _ _ hrelated

/-- States may be related more weakly. -/
theorem Agree.mono {other : σ → τ → Prop} {values : α → β → Prop} {left : EStateM.Result ε σ α}
    {right : EStateM.Result ε τ β} (h : Agree related values left right)
    (himp : related (finalState left) (finalState right) →
      other (finalState left) (finalState right)) : Agree other values left right := by
  cases left <;> cases right
  · exact ⟨h.1, himp h.2⟩
  · exact h
  · exact h
  · exact ⟨h.1, himp h.2⟩

theorem agree_liftResult (result : Except ε α) (h : related state start) :
    Agree related Eq ((liftResult result).run state) ((liftResult result).run start) := by
  cases result with
  | ok value => exact ⟨rfl, h⟩
  | error e => exact ⟨rfl, h⟩

end Agree

end Stateful
