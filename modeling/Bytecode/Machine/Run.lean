import Bytecode.Machine.Exec

set_option autoImplicit false

/-!
# Running code

`Machine.step` is one step of a frame, in which the whole body of a called function is run; how, is
a parameter.  `Machine.execute` ties the knot: it steps until the frame is left.  Code need not come
to an end, so it is given a number of steps, and the answer is missing exactly when they do not
suffice.

A run that has come to an end within some number of steps ends the same way within any greater
number, so an outcome does not depend on the number of steps it was found with.

Main statements: `Machine.execute_le` and `Engine.run_le`, more fuel keeps an outcome.
-/

namespace Bytecode

/-- How the run of a frame ends: with a value or a fault, and what is left of the engine. -/
abbrev Outcome := EStateM.Result Fault Engine Value

namespace Machine

/-- How a step ends: with the value of the frame if it is left, or a fault. -/
abbrev StepResult := EStateM.Result Fault Machine (Option Value)

/-- The machine that a called function starts on. -/
def entering (m : Machine) (callee : Frame) : Machine :=
  ⟨m.engine.entered, callee⟩

/-- What the end of a called function means to its caller, which is `frame`. -/
def returned (frame : Frame) : Outcome → StepResult
  | .ok v e => .ok none ⟨e.exited, frame.pushed v⟩
  | .error fault e => .error fault ⟨e.exited, frame⟩

/-- One step; `body` runs the functions that are called. -/
def step (body : Machine → Option Outcome) (m : Machine) : Option StepResult :=
  match m.advance with
  | .error fault m => some (.error fault m)
  | .ok .next m => some (.ok none m)
  | .ok (.leave v) m => some (.ok (some v) m)
  | .ok (.enter callee) m => (body (m.entering callee)).map (returned m.frame)

/-- Steps until the frame is left, at most `fuel` times on every level of calls. -/
def execute : Nat → Machine → Option Outcome
  | 0, _ => none
  | fuel + 1, m =>
    match step (execute fuel) m with
    | none => none
    | some (.error fault m) => some (.error fault m.engine)
    | some (.ok (some v) m) => some (.ok v m.engine)
    | some (.ok none m) => execute fuel m

end Machine

namespace Engine

/-- Hands the output of a run on.  A fault of the run counts more than one of the sink. -/
def flushed : Outcome → Outcome
  | .error fault e => .error fault e
  | .ok v e =>
    match e.sink.flush with
    | .ok () => .ok v e
    | .error fault => .error fault e

/-- Runs code at the top level, in at most `fuel` steps. -/
def run (fuel : Nat) (code : Code) (e : Engine) : Option Outcome :=
  (Machine.execute fuel ⟨e, .ofModule code⟩).map flushed

/-- More steps than any run can make in practice. -/
def ampleFuel : Nat := 1000000000000000000

end Engine

/-! ## More fuel -/

namespace Machine

theorem execute_succ (fuel : Nat) (m : Machine) :
    execute (fuel + 1) m =
      match step (execute fuel) m with
      | none => none
      | some (.error fault m) => some (.error fault m.engine)
      | some (.ok (some v) m) => some (.ok v m.engine)
      | some (.ok none m) => execute fuel m := rfl

/-- A step that ends keeps its result when the bodies that end keep theirs. -/
theorem step_mono {body wider : Machine → Option Outcome}
    (h : ∀ m outcome, body m = some outcome → wider m = some outcome)
    {m : Machine} {result : StepResult} (run : step body m = some result) :
    step wider m = some result := by
  unfold step at run ⊢
  split at run
  · exact run
  · exact run
  · exact run
  · obtain ⟨outcome, hbody, rfl⟩ := Option.map_eq_some_iff.1 run
    simp [h _ _ hbody]

theorem execute_succ_of_eq_some {fuel : Nat} {m : Machine} {outcome : Outcome}
    (run : execute fuel m = some outcome) : execute (fuel + 1) m = some outcome := by
  induction fuel generalizing m outcome with
  | zero => cases run
  | succ fuel ih =>
    rw [execute_succ] at run
    rw [execute_succ]
    split at run
    · cases run
    · next hstep => rwa [step_mono (fun _ _ => ih) hstep]
    · next hstep => rwa [step_mono (fun _ _ => ih) hstep]
    · next hstep =>
      rw [step_mono (fun _ _ => ih) hstep]
      exact ih run

theorem execute_le {fuel more : Nat} (h : fuel ≤ more) {m : Machine} {outcome : Outcome}
    (run : execute fuel m = some outcome) : execute more m = some outcome := by
  induction h with
  | refl => exact run
  | step _ ih => exact execute_succ_of_eq_some ih

end Machine

namespace Engine

theorem run_le {fuel more : Nat} (h : fuel ≤ more) {code : Code} {e : Engine}
    {outcome : Outcome} (ran : run fuel code e = some outcome) :
    run more code e = some outcome := by
  unfold run at ran ⊢
  obtain ⟨inner, hinner, rfl⟩ := Option.map_eq_some_iff.1 ran
  rw [Machine.execute_le h hinner]
  rfl

end Engine

end Bytecode
