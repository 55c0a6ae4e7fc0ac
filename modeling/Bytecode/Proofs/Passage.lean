import Bytecode.Proofs.Advance

set_option autoImplicit false

/-!
# What a run passes through

`Machine.Passes` says which machines are at work in the course of a run, each with the number of
functions that are then in flight above the frame of the run.  `Engine.LeadsTo` says what becomes
of an engine on the way: its settings stay, its count of calls goes up by the functions that are
in flight, and its output is only added to.  An instruction leaves the count alone, the entry of
a function adds one to it and the end of a function, however it ends, takes one off.

Main statements: `Machine.Runs.leadsTo`, `Machine.leadsTo_of_step` and `Engine.leadsTo_of_invoke`,
what a whole run, a step and a call do to an engine, and `Machine.Passes.leadsTo`, what has become
of it in between.
-/

namespace Bytecode

/-! ## Engines -/

/-- What becomes of an engine while code is run, with `n` more functions in flight. -/
structure Engine.LeadsTo (n : Nat) (e e' : Engine) : Prop where
  config_eq : e'.config = e.config
  callDepth_eq : e'.callDepth = e.callDepth + n
  precedes : e.sink.Precedes e'.sink

namespace Engine.LeadsTo

variable {n k : Nat} {e e' e'' : Engine}

theorem refl (e : Engine) : LeadsTo 0 e e :=
  ⟨rfl, rfl, .refl _⟩

theorem trans (first : LeadsTo n e e') (rest : LeadsTo k e' e'') : LeadsTo (n + k) e e'' where
  config_eq := rest.config_eq.trans first.config_eq
  callDepth_eq := by rw [rest.callDepth_eq, first.callDepth_eq, Nat.add_assoc]
  precedes := first.precedes.trans rest.precedes

theorem entered (e : Engine) : LeadsTo 1 e e.entered :=
  ⟨rfl, rfl, .refl _⟩

theorem exited (h : LeadsTo (n + 1) e e') : LeadsTo n e e'.exited where
  config_eq := h.config_eq
  callDepth_eq := by
    have hdepth := h.callDepth_eq
    simp only [Engine.exited]
    omega
  precedes := h.precedes

/-- A function that has been entered and has ended is no longer in flight. -/
theorem call (before : LeadsTo 0 e e') (body : LeadsTo 0 e'.entered e'') :
    LeadsTo 0 e e''.exited :=
  ((before.trans (entered e')).trans body).exited

end Engine.LeadsTo

namespace Machine

variable {m m' : Machine} {i : Instruction} {fault : Fault}

/-! ## Instructions, runs and steps -/

theorem Effect.leadsTo {action : Action} (effect : Effect i m action m') :
    m.engine.LeadsTo 0 m'.engine := by
  cases effect with
  | store hop hname taken =>
    refine ⟨bound_config .., bound_callDepth .., ?_⟩
    rw [bound_sink]
    exact .refl _
  | callBuiltin hop hcount taken result =>
    refine ⟨rfl, rfl, ?_⟩
    rw [(Builtin.of_call_eq_ok result).2]
    exact Sink.precedes_append ..
  | _ => exact ⟨rfl, rfl, .refl _⟩

theorem Failure.leadsTo (failure : Failure i m fault m') : m.engine.LeadsTo 0 m'.engine := by
  cases failure with
  | short lacks => exact .refl _
  | loneMarker hop hcount found => exact .refl _
  | other category left precedes refusal => exact ⟨rfl, rfl, precedes⟩

theorem leadsTo_of_enter {callee : Frame} (enters : m.advance = .ok (.enter callee) m') :
    m.engine.LeadsTo 0 m'.engine := by
  obtain ⟨i, placed, effect⟩ := effect_of_enter enters
  exact effect.leadsTo

/-- When a run has come to its end, however it has, no function is in flight that was not in
flight before. -/
theorem Runs.leadsTo {outcome : Outcome} (runs : Runs m outcome) :
    m.engine.LeadsTo 0 (finalState outcome) := by
  induction runs with
  | atEnd ended => exact .refl _
  | leave placed effect => exact effect.leadsTo
  | own placed failure => exact failure.leadsTo
  | next placed effect goes rest ih => exact effect.leadsTo.trans ih
  | call placed effect enters body goes rest ihBody ih =>
    exact (effect.leadsTo.call ihBody).trans ih
  | inner placed effect enters body ihBody => exact effect.leadsTo.call ihBody

theorem Ends.leadsTo {outcome : Outcome} (ends : m.Ends outcome) :
    m.engine.LeadsTo 0 (finalState outcome) := by
  obtain ⟨fuel, ran⟩ := ends
  exact (runs_of_execute ran).leadsTo

/-- The same after a step, whether it succeeds or fails. -/
theorem leadsTo_of_step {fuel : Nat} {result : StepResult}
    (hstep : step (execute fuel) m = some result) :
    m.engine.LeadsTo 0 (finalState result).engine := by
  cases result with
  | ok left m' =>
    cases advances_of_step hstep with
    | atEnd ended => exact .refl _
    | next placed effect => exact effect.leadsTo
    | leave placed effect => exact effect.leadsTo
    | call placed effect enters ran => exact effect.leadsTo.call (runs_of_execute ran).leadsTo
  | error fault m' =>
    cases breaks_of_step hstep with
    | own placed failure => exact failure.leadsTo
    | inner placed effect enters ran => exact effect.leadsTo.call (runs_of_execute ran).leadsTo

/-! ## In the course of a run -/

/-- In the course of the run of a machine another one is at work, with `n` functions in flight
above the frame of the run. -/
inductive Passes : Machine → Nat → Machine → Prop where
  | here (m : Machine) : Passes m 0 m
  | later {m m' m'' : Machine} {n : Nat} (goes : m.Goes m') (rest : Passes m' n m'') :
      Passes m n m''
  /-- The run is inside the body of a function, which may or may not come to an end. -/
  | inner {m m' m'' : Machine} {callee : Frame} {n : Nat}
      (enters : m.advance = .ok (.enter callee) m') (rest : Passes (m'.entering callee) n m'') :
      Passes m (n + 1) m''

theorem Passes.leadsTo {n : Nat} (passes : Passes m n m') : m.engine.LeadsTo n m'.engine := by
  induction passes with
  | here m => exact .refl _
  | @later m m' m'' n goes rest ih =>
    obtain ⟨fuel, hstep⟩ := goes
    rw [← Nat.zero_add n]
    exact (leadsTo_of_step hstep).trans ih
  | @inner m m' m'' callee n enters rest ih =>
    have entered := (leadsTo_of_enter enters).trans (.entered m'.engine)
    rw [Nat.add_comm n 1]
    exact entered.trans ih

theorem ends_of_enter {callee : Frame} {e : Engine}
    (enters : m.advance = .ok (.enter callee) m')
    (ends : (m'.entering callee).Ends (.error fault e)) : m.Ends (.error fault e.exited) := by
  obtain ⟨fuel, ran⟩ := ends
  refine ⟨fuel + 1, ?_⟩
  have hstep : step (execute fuel) m = some (.error fault ⟨e.exited, m'.frame⟩) := by
    simp only [step, enters, ran]
    rfl
  rw [execute_succ, hstep]

/-- A fault at any point in the course of a run ends the run. -/
theorem Passes.ends_of_error {n : Nat} {e : Engine} (passes : Passes m n m')
    (ends : m'.Ends (.error fault e)) : ∃ e', m.Ends (.error fault e') := by
  induction passes with
  | here m => exact ⟨e, ends⟩
  | later goes rest ih =>
    obtain ⟨e', hrest⟩ := ih ends
    exact ⟨e', (ends_iff_of_goes goes).2 hrest⟩
  | inner enters rest ih =>
    obtain ⟨e', hbody⟩ := ih ends
    exact ⟨e'.exited, ends_of_enter enters hbody⟩

/-- Where a run comes to its end, so does the body of a function that it enters, which leads the
engine on to that end. -/
theorem Ends.of_enter {callee : Frame} {outcome : Outcome}
    (enters : m.advance = .ok (.enter callee) m') (ends : m.Ends outcome) :
    ∃ inner, (m'.entering callee).Ends inner ∧
      (finalState inner).exited.LeadsTo 0 (finalState outcome) := by
  obtain ⟨fuel, ran⟩ := ends
  cases fuel with
  | zero => cases ran
  | succ fuel =>
    have hstep : step (execute fuel) m =
        (execute fuel (m'.entering callee)).map (returned m'.frame) := by
      simp only [step, enters]
    rw [execute_succ, hstep] at ran
    cases hbody : execute fuel (m'.entering callee) with
    | none =>
      rw [hbody] at ran
      cases ran
    | some inner =>
      refine ⟨inner, ⟨fuel, hbody⟩, ?_⟩
      rw [hbody] at ran
      cases inner with
      | ok v e => exact (runs_of_execute ran).leadsTo
      | error fault e =>
        cases ran
        exact .refl _

/-- What has been written at any point in the course of a run stays written. -/
theorem Passes.precedes_of_ends {n : Nat} {outcome : Outcome} (passes : Passes m n m')
    (ends : m.Ends outcome) : m'.engine.sink.Precedes (finalState outcome).sink := by
  induction passes generalizing outcome with
  | here m => exact ends.leadsTo.precedes
  | later goes rest ih => exact ih ((ends_iff_of_goes goes).1 ends)
  | inner enters rest ih =>
    obtain ⟨inner, hbody, hrest⟩ := ends.of_enter enters
    exact (ih hbody).trans hrest.precedes

end Machine

/-! ## Runs and calls at the top level -/

namespace Engine

section Ends

variable {code : Code} {e : Engine} {outcome : Outcome}

theorem Ends.leadsTo (ends : Ends code e outcome) : e.LeadsTo 0 (finalState outcome) := by
  obtain ⟨inner, hinner, rfl⟩ := ends_iff.1 ends
  rw [finalState_flushed]
  exact hinner.leadsTo

theorem Ends.precedes_of_passes {n : Nat} {m : Machine} (ends : Ends code e outcome)
    (passes : Machine.Passes ⟨e, .ofModule code⟩ n m) :
    m.engine.sink.Precedes (finalState outcome).sink := by
  obtain ⟨inner, hinner, rfl⟩ := ends_iff.1 ends
  rw [finalState_flushed]
  exact passes.precedes_of_ends hinner

end Ends

/-- The call of a value that comes to an end has either done no more than write output, or run the
body of a function. -/
theorem invoke_cases {fuel : Nat} {callee : Value} {args : List Value} {e : Engine}
    {outcome : Outcome} (called : invoke (Machine.execute fuel) callee args e = some outcome) :
    (∃ sink, finalState outcome = { e with sink := sink } ∧ e.sink.Precedes sink) ∨
      ∃ code frame inner, callee = .function code ∧ e.calleeFrame code args = .ok frame ∧
        Machine.execute fuel ⟨e.entered, frame⟩ = some inner ∧ outcome = left inner := by
  cases callee with
  | builtin b =>
    left
    simp only [invoke] at called
    cases hcall : b.call args e.sink with
    | ok v sink =>
      rw [hcall] at called
      cases called
      refine ⟨sink, rfl, ?_⟩
      rw [(Builtin.of_call_eq_ok hcall).2]
      exact Sink.precedes_append ..
    | error fault sink =>
      rw [hcall] at called
      cases called
      refine ⟨sink, rfl, ?_⟩
      rw [(Builtin.of_call_eq_error hcall).2]
      exact Sink.precedes_append ..
  | function code =>
    simp only [invoke] at called
    cases hframe : e.calleeFrame code args with
    | error fault =>
      rw [hframe] at called
      cases called
      exact .inl ⟨e.sink, rfl, .refl _⟩
    | ok frame =>
      rw [hframe] at called
      obtain ⟨inner, ran, rfl⟩ := Option.map_eq_some_iff.1 called
      exact .inr ⟨code, frame, inner, rfl, hframe, ran, rfl⟩
  | _ =>
    cases called
    exact .inl ⟨e.sink, rfl, .refl _⟩

theorem finalState_left (outcome : Outcome) :
    finalState (left outcome) = (finalState outcome).exited := by
  cases outcome <;> rfl

theorem leadsTo_of_invoke {callee : Value} {args : List Value} {fuel : Nat} {e : Engine}
    {outcome : Outcome} (called : invoke (Machine.execute fuel) callee args e = some outcome) :
    e.LeadsTo 0 (finalState outcome) := by
  rcases invoke_cases called with ⟨sink, hfinal, precedes⟩ | ⟨code, frame, inner, -, -, ran, rfl⟩
  · rw [hfinal]
    exact ⟨rfl, rfl, precedes⟩
  · rw [finalState_left]
    exact (LeadsTo.refl e).call (Machine.runs_of_execute ran).leadsTo

end Engine

end Bytecode
