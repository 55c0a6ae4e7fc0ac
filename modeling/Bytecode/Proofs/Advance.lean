import Bytecode.Proofs.Effect
import Bytecode.Proofs.Step

set_option autoImplicit false

/-!
# Effects and failures of steps and runs

A step carries out the instruction at the position of the frame and, if that enters a function,
runs the body of it.  `Machine.Advances` has a rule for each way this can succeed and
`Machine.Breaks` for each way it can fail, in terms of the rules for instructions.
`Machine.Runs` has the rules for whole runs; an induction on it goes along the run and into the
bodies of the functions on the way, and has no budget of steps to take care of.

Main statements: `advances_of_step` and `breaks_of_step`, every step comes from a rule, and
`runs_of_execute`, every run does.
-/

namespace Bytecode

/-- The state that a result leaves, whether it is a success or not. -/
def finalState {ε σ α : Type} : EStateM.Result ε σ α → σ
  | .ok _ s => s
  | .error _ s => s

theorem Engine.finalState_flushed (outcome : Outcome) :
    finalState (flushed outcome) = finalState outcome := by
  cases outcome with
  | error fault e => rfl
  | ok v e =>
    simp only [flushed]
    split <;> rfl

namespace Machine

/-- The instruction that the next step carries out, if there is one. -/
def instruction? (m : Machine) : Option Instruction :=
  m.frame.code.instructions[m.frame.pc]?

theorem advance_of_instruction {m : Machine} {i : Instruction} (placed : m.instruction? = some i) :
    m.advance = exec i (m.fetching i) := by
  simp only [advance, Frame.fetched?_of_instruction placed]
  rfl

theorem advance_of_end {m : Machine} (ended : m.instruction? = none) :
    m.advance = .ok (.leave .none) m := by
  have hfetch : m.frame.fetched? = none := Option.map_eq_none_iff.2 ended
  simp only [advance, hfetch]

theorem effect_of_enter {m m' : Machine} {callee : Frame}
    (enters : m.advance = .ok (.enter callee) m') :
    ∃ i, m.instruction? = some i ∧ Effect i (m.fetching i) (.enter callee) m' := by
  cases placed : m.instruction? with
  | none =>
    rw [advance_of_end placed] at enters
    cases enters
  | some i =>
    rw [advance_of_instruction placed] at enters
    exact ⟨i, rfl, effect_of_exec enters⟩

/-- How a step succeeds; `body` runs the functions that are called. -/
inductive Advances (body : Machine → Option Outcome) (m : Machine) :
    Option Value → Machine → Prop where
  | atEnd (ended : m.instruction? = none) : Advances body m (some .none) m
  | next {i : Instruction} {m' : Machine} (placed : m.instruction? = some i)
      (effect : Effect i (m.fetching i) .next m') : Advances body m none m'
  | leave {i : Instruction} {v : Value} {m' : Machine} (placed : m.instruction? = some i)
      (effect : Effect i (m.fetching i) (.leave v) m') : Advances body m (some v) m'
  | call {i : Instruction} {callee : Frame} {m' : Machine} {v : Value} {e : Engine}
      (placed : m.instruction? = some i) (effect : Effect i (m.fetching i) (.enter callee) m')
      (enters : m.advance = .ok (.enter callee) m')
      (ran : body (m'.entering callee) = some (.ok v e)) :
      Advances body m none ⟨e.exited, m'.frame.pushed v⟩

/-- How a step fails: by itself or in the body of a function that it calls. -/
inductive Breaks (body : Machine → Option Outcome) (m : Machine) : Fault → Machine → Prop where
  | own {i : Instruction} {fault : Fault} {m' : Machine} (placed : m.instruction? = some i)
      (failure : Failure i (m.fetching i) fault m') : Breaks body m fault m'
  | inner {i : Instruction} {callee : Frame} {m' : Machine} {fault : Fault} {e : Engine}
      (placed : m.instruction? = some i) (effect : Effect i (m.fetching i) (.enter callee) m')
      (enters : m.advance = .ok (.enter callee) m')
      (ran : body (m'.entering callee) = some (.error fault e)) :
      Breaks body m fault ⟨e.exited, m'.frame⟩

variable {body : Machine → Option Outcome} {m m' : Machine}

theorem advances_of_step {result : Option Value} (h : step body m = some (.ok result m')) :
    Advances body m result m' := by
  cases placed : m.instruction? with
  | none =>
    simp only [step, advance_of_end placed] at h
    cases h
    exact .atEnd placed
  | some i =>
    have hadvance := advance_of_instruction placed
    unfold step at h
    cases hresult : m.advance with
    | error fault m₁ => simp [hresult] at h
    | ok action m₁ =>
      have effect := effect_of_exec (hadvance.symm.trans hresult)
      cases action with
      | next =>
        simp only [hresult] at h
        cases h
        exact .next placed effect
      | leave v =>
        simp only [hresult] at h
        cases h
        exact .leave placed effect
      | enter callee =>
        simp only [hresult] at h
        obtain ⟨outcome, ran, hreturned⟩ := Option.map_eq_some_iff.1 h
        cases outcome with
        | ok v e =>
          cases hreturned
          exact .call placed effect hresult ran
        | error fault e => cases hreturned

theorem breaks_of_step {fault : Fault} (h : step body m = some (.error fault m')) :
    Breaks body m fault m' := by
  cases placed : m.instruction? with
  | none =>
    simp only [step, advance_of_end placed] at h
    cases h
  | some i =>
    have hadvance := advance_of_instruction placed
    unfold step at h
    cases hresult : m.advance with
    | error cause m₁ =>
      simp only [hresult] at h
      cases h
      exact .own placed (failure_of_exec (hadvance.symm.trans hresult))
    | ok action m₁ =>
      cases action with
      | next => simp [hresult] at h
      | leave v => simp [hresult] at h
      | enter callee =>
        have effect := effect_of_exec (hadvance.symm.trans hresult)
        simp only [hresult] at h
        obtain ⟨outcome, ran, hreturned⟩ := Option.map_eq_some_iff.1 h
        cases outcome with
        | ok v e => cases hreturned
        | error cause e =>
          cases hreturned
          exact .inner placed effect hresult ran

/-! ## Runs -/

/-- How a run comes to its end. -/
inductive Runs : Machine → Outcome → Prop where
  | atEnd {m : Machine} (ended : m.instruction? = none) : Runs m (.ok .none m.engine)
  | leave {m m' : Machine} {i : Instruction} {v : Value} (placed : m.instruction? = some i)
      (effect : Effect i (m.fetching i) (.leave v) m') : Runs m (.ok v m'.engine)
  | own {m m' : Machine} {i : Instruction} {fault : Fault} (placed : m.instruction? = some i)
      (failure : Failure i (m.fetching i) fault m') : Runs m (.error fault m'.engine)
  | next {m m' : Machine} {i : Instruction} {outcome : Outcome}
      (placed : m.instruction? = some i) (effect : Effect i (m.fetching i) .next m')
      (goes : m.Goes m') (rest : Runs m' outcome) : Runs m outcome
  | call {m m' : Machine} {i : Instruction} {callee : Frame} {v : Value} {e : Engine}
      {outcome : Outcome} (placed : m.instruction? = some i)
      (effect : Effect i (m.fetching i) (.enter callee) m')
      (enters : m.advance = .ok (.enter callee) m') (body : Runs (m'.entering callee) (.ok v e))
      (goes : m.Goes ⟨e.exited, m'.frame.pushed v⟩)
      (rest : Runs ⟨e.exited, m'.frame.pushed v⟩ outcome) : Runs m outcome
  | inner {m m' : Machine} {i : Instruction} {callee : Frame} {fault : Fault} {e : Engine}
      (placed : m.instruction? = some i) (effect : Effect i (m.fetching i) (.enter callee) m')
      (enters : m.advance = .ok (.enter callee) m')
      (body : Runs (m'.entering callee) (.error fault e)) : Runs m (.error fault e.exited)

theorem runs_of_execute {fuel : Nat} {m : Machine} {outcome : Outcome}
    (ran : execute fuel m = some outcome) : Runs m outcome := by
  induction fuel generalizing m outcome with
  | zero => cases ran
  | succ fuel ih =>
    rw [execute_succ] at ran
    split at ran
    · cases ran
    · next fault m' hstep =>
      cases ran
      cases breaks_of_step hstep with
      | own placed failure => exact .own placed failure
      | inner placed effect enters ran => exact .inner placed effect enters (ih ran)
    · next v m' hstep =>
      cases ran
      cases advances_of_step hstep with
      | atEnd ended => exact .atEnd ended
      | leave placed effect => exact .leave placed effect
    · next m' hstep =>
      cases advances_of_step hstep with
      | next placed effect => exact .next placed effect ⟨fuel, hstep⟩ (ih ran)
      | call placed effect enters called =>
        exact .call placed effect enters (ih called) ⟨fuel, hstep⟩ (ih ran)

end Machine

end Bytecode
