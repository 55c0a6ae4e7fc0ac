import Bytecode.Proofs.Step

set_option autoImplicit false

/-!
# Steps in a row and what they compute

`Machine.walk` makes a number of steps.  What the steps of some piece of code compute
is said by a computation on the engine alone, an `Engine.Act`, and
`Machine.Realizes` relates the two: the steps fail with the fault of the computation,
or they do not end because it does not, or they go on with its engine and in a frame
that carries its result.

Main statements: `realizes_bind`, pieces of code in a row realize computations in a
row, and `realizes_invoke`, a call instruction realizes the call of a value.
-/

namespace Bytecode

/-! ## Computations on an engine -/

/-- A computation on an engine, which may fail and need not come to an end. -/
def Engine.Act (α : Type) : Type :=
  Engine → Option (EStateM.Result Fault Engine α)

instance : Monad Engine.Act where
  pure a := fun e => some (.ok a e)
  bind act next := fun e =>
    match act e with
    | none => none
    | some (.error fault e) => some (.error fault e)
    | some (.ok a e) => next a e

namespace Engine

/-- A result that does not depend on the engine. -/
def Act.ofResult {α : Type} (result : Except Fault α) : Engine.Act α := fun e =>
  some (ofExcept result e)

/-- The value of a name: a local, else a global, else a builtin function. -/
def find (locals : Option Environment) (name : String) : Engine.Act Value := fun e =>
  match locals.bind (·.get? name) with
  | some v => some (.ok v e)
  | none => some (ofExcept (e.global name) e)

/-- The end of a function, which is then no longer in flight. -/
def left : Outcome → Outcome
  | .ok v e => .ok v e.exited
  | .error fault e => .error fault e.exited

/-- Calls a value; `body` runs the functions that are called. -/
def invoke (body : Machine → Option Outcome) (callee : Value) (args : List Value) :
    Engine.Act Value := fun e =>
  match callee with
  | .builtin b =>
    match b.call args e.sink with
    | .ok v sink => some (.ok v { e with sink := sink })
    | .error fault sink => some (.error fault { e with sink := sink })
  | .function code =>
    match e.calleeFrame code args with
    | .ok frame => (body ⟨e.entered, frame⟩).map left
    | .error fault => some (.error fault e)
  | v => some (.error (.notCallable v.kind) e)

end Engine

namespace Machine

variable {body : Machine → Option Outcome}

/-! ## Steps in a row -/

/-- So many steps, or fewer if one of them fails or leaves the frame. -/
def walk (body : Machine → Option Outcome) : Nat → Machine → Option StepResult
  | 0, m => some (.ok none m)
  | n + 1, m =>
    match step body m with
    | some (.ok none m) => walk body n m
    | result => result

theorem walk_one (m : Machine) : walk body 1 m = step body m := by
  simp only [walk]
  split
  · next h => exact h.symm
  · rfl

theorem walk_add (n k : Nat) (m : Machine) :
    walk body (n + k) m =
      match walk body n m with
      | some (.ok none m) => walk body k m
      | result => result := by
  induction n generalizing m with
  | zero => simp [walk]
  | succ n ih =>
    rw [Nat.succ_add]
    simp only [walk]
    split
    · exact ih _
    · next hstop =>
      split
      · next m' h => exact absurd h (hstop m')
      · rfl

/-! ## Realizing a computation -/

/-- The run of some code does what a computation does; `post` relates the result of the
computation to the frame that the code leaves. -/
def Realizes {α : Type} (run : Option StepResult) (post : α → Frame → Prop) :
    Option (EStateM.Result Fault Engine α) → Prop
  | none => run = none
  | some (.error fault e) => ∃ f, run = some (.error fault ⟨e, f⟩)
  | some (.ok a e) => ∃ f, run = some (.ok none ⟨e, f⟩) ∧ post a f

theorem Realizes.mono {α : Type} {run : Option StepResult} {post weaker : α → Frame → Prop}
    {result : Option (EStateM.Result Fault Engine α)} (h : Realizes run post result)
    (himp : ∀ a e f, result = some (.ok a e) → post a f → weaker a f) :
    Realizes run weaker result := by
  cases result with
  | none => exact h
  | some result =>
    cases result with
    | error fault e => exact h
    | ok a e =>
      obtain ⟨f, hrun, hpost⟩ := h
      exact ⟨f, hrun, himp a e f rfl hpost⟩

/-- Pieces of code in a row realize computations in a row. -/
theorem realizes_bind {α β : Type} {n k : Nat} {m : Machine} {act : Engine.Act α}
    {next : α → Engine.Act β} {mid : α → Frame → Prop} {post : β → Frame → Prop}
    (first : Realizes (walk body n m) mid (act m.engine))
    (rest : ∀ a e f, act m.engine = some (.ok a e) → mid a f →
      Realizes (walk body k ⟨e, f⟩) post (next a e)) :
    Realizes (walk body (n + k) m) post ((act >>= next) m.engine) := by
  rw [walk_add]
  simp only [bind]
  cases hact : act m.engine with
  | none =>
    rw [hact] at first
    have hrun : walk body n m = none := first
    rw [hrun]
    exact rfl
  | some result =>
    cases result with
    | error fault e =>
      rw [hact] at first
      obtain ⟨f, hrun⟩ := first
      rw [hrun]
      exact ⟨f, rfl⟩
    | ok a e =>
      rw [hact] at first
      obtain ⟨f, hrun, hmid⟩ := first
      rw [hrun]
      exact rest a e f hact hmid

/-- A single instruction that goes on realizes a computation that only has a result. -/
theorem realizes_of_next {α : Type} {m : Machine} {i : Instruction} {f : Frame} {a : α}
    {post : α → Frame → Prop} (h : m.frame.code.instructions[m.frame.pc]? = some i)
    (hexec : exec i ⟨m.engine, m.frame.fetching i⟩ = .ok .next ⟨m.engine, f⟩)
    (hpost : post a f) : Realizes (walk body 1 m) post (some (.ok a m.engine)) := by
  rw [walk_one, step_of_next h hexec]
  exact ⟨f, rfl, hpost⟩

theorem realizes_of_error {α : Type} {m : Machine} {i : Instruction} {f : Frame} {fault : Fault}
    {post : α → Frame → Prop} (h : m.frame.code.instructions[m.frame.pc]? = some i)
    (hexec : exec i ⟨m.engine, m.frame.fetching i⟩ = .error fault ⟨m.engine, f⟩) :
    Realizes (walk body 1 m) post (some (.error fault m.engine)) := by
  rw [walk_one, step_of_error h hexec]
  exact ⟨f, rfl⟩

/-! ## Calls -/

theorem exec_call {i : Instruction} {argc : Nat} {callee : Value} {args : List Value}
    {m : Machine} {f : Frame} (h : i.opcode = .call) (hcount : i.count = .ok argc)
    (hpop : Frame.popCall argc m.frame = .ok (callee, args) f) :
    exec i m = invoke callee args { m with frame := f } := by
  simp only [exec, h, hcount, bind, EStateM.bind, lift_except, ofExcept, call, lift_frame,
    onFrame, hpop]

/-- What the end of a call means to the frame that makes it. -/
def answered (f : Frame) : Outcome → StepResult
  | .ok v e => .ok none ⟨e, f.pushed v⟩
  | .error fault e => .error fault ⟨e, f⟩

/-- The step of a call instruction is the call of the value that it finds beneath the arguments. -/
theorem step_of_call {i : Instruction} {argc : Nat} {callee : Value} {args : List Value}
    {m : Machine} {f : Frame} (h : m.frame.code.instructions[m.frame.pc]? = some i)
    (hop : i.opcode = .call) (hcount : i.count = .ok argc)
    (hpop : Frame.popCall argc (m.frame.fetching i) = .ok (callee, args) f) :
    step body m = (Engine.invoke body callee args m.engine).map (answered f) := by
  rw [step_of_instruction h, exec_call hop hcount hpop]
  cases callee with
  | builtin b =>
    simp only [invoke, Engine.invoke, bind, EStateM.bind, lift_sink, onSink]
    cases b.call args m.engine.sink <;> rfl
  | function code =>
    rw [invoke_function]
    simp only [Engine.invoke]
    cases m.engine.calleeFrame code args with
    | error fault => rfl
    | ok frame =>
      simp only [entering]
      cases body ⟨m.engine.entered, frame⟩ with
      | none => rfl
      | some outcome => cases outcome <;> rfl
  | _ => rfl

/-- A call instruction realizes the call of the value that it finds beneath the arguments. -/
theorem realizes_invoke {i : Instruction} {argc : Nat} {callee : Value} {args : List Value}
    {m : Machine} {f : Frame} (h : m.frame.code.instructions[m.frame.pc]? = some i)
    (hop : i.opcode = .call) (hcount : i.count = .ok argc)
    (hpop : Frame.popCall argc (m.frame.fetching i) = .ok (callee, args) f) :
    Realizes (walk body 1 m) (fun v f' => f' = f.pushed v)
      (Engine.invoke body callee args m.engine) := by
  rw [walk_one, step_of_call h hop hcount hpop]
  cases Engine.invoke body callee args m.engine with
  | none => exact rfl
  | some outcome =>
    cases outcome with
    | ok v e => exact ⟨f.pushed v, rfl, rfl⟩
    | error fault e => exact ⟨f, rfl⟩

end Machine

end Bytecode
