import Bytecode.Proofs.Binding
import Bytecode.Proofs.Inventory
import Bytecode.Proofs.Passage

set_option autoImplicit false

/-!
# Stores to global names in calls

The body of a function binds a global name only where an instruction says that the name is global;
every other store of it stays among its local names.  All the code that runs in the course of a call
is code that occurs in the callee, the arguments or the global names.  So a name that none of it
stores to is bound after the call to what it was bound to before.

Main statement: `Engine.get?_globals_of_call`.
-/

namespace Bytecode

/-- No instruction of the code says that it stores to this global name. -/
def Code.LeavesGlobal (x : String) (c : Code) : Prop :=
  ∀ i ∈ c.instructions, i.opcode = .storeGlobal → i.name ≠ .ok x

/-- No code stores to the global name, at any depth. -/
def Criterion.leavesGlobal (x : String) : Criterion :=
  .ofCode (·.LeavesGlobal x)

namespace Machine

variable {K : Criterion} {m : Machine} {i : Instruction}

/-- An instruction that is carried out in a run is one of code that satisfies the criterion. -/
theorem Executes.exists_code (executes : m.Executes i) (h : m.Satisfies K) :
    ∃ c : Code, K.code c ∧ i ∈ c.instructions := by
  induction executes with
  | @here m i placed => exact ⟨m.frame.code, h.frame.code.own, List.mem_of_getElem? placed⟩
  | inner enters rest ih =>
    obtain ⟨hm, hcallee⟩ := h.of_advance enters
    exact ih (hm.entering hcallee)
  | later goes rest ih =>
    obtain ⟨fuel, hstep⟩ := goes
    exact ih (h.step hstep)

/-- The step of a call instruction calls the value that it finds beneath the arguments. -/
theorem exists_invoke_of_step {argc fuel : Nat} {callee : Value} {args rest : List Value}
    {result : StepResult} (placed : m.instruction? = some i) (hop : i.opcode = .call)
    (hcount : i.count = .ok argc) (found : Frame.Finds m.frame.stack argc callee args rest)
    (hstep : step (execute fuel) m = some result) :
    ∃ outcome, Engine.invoke (execute fuel) callee args m.engine = some outcome ∧
      finalState outcome = (finalState result).engine := by
  have hpop := Frame.popCall_of_finds (f := m.frame.fetching i) found
  rw [step_of_call placed hop hcount hpop] at hstep
  obtain ⟨outcome, called, rfl⟩ := Option.map_eq_some_iff.1 hstep
  refine ⟨outcome, called, ?_⟩
  cases outcome <;> rfl

end Machine

namespace Engine

variable {x : String} {e : Engine} {callee : Value} {args : List Value} {fuel : Nat}

theorem get?_globals_of_invoke (hcallee : callee.Satisfies (.leavesGlobal x))
    (hargs : ∀ v ∈ args, v.Satisfies (.leavesGlobal x))
    (hglobals : e.globals.Satisfies (.leavesGlobal x)) {outcome : Outcome}
    (called : invoke (Machine.execute fuel) callee args e = some outcome) :
    (finalState outcome).globals.get? x = e.globals.get? x := by
  rcases invoke_cases called with ⟨sink, hfinal, -⟩ | ⟨code, frame, inner, rfl, entered, ran, rfl⟩
  · rw [hfinal]
  · have hframe := satisfies_of_calleeFrame (Value.satisfies_function_iff.1 hcallee) hargs entered
    have satisfied : Machine.Satisfies (.leavesGlobal x) ⟨e.entered, frame⟩ := ⟨hglobals, hframe⟩
    obtain ⟨-, -, rfl⟩ := calleeFrame_eq_ok_iff.1 entered
    have hbody := (Machine.runs_of_execute ran).get?_globals (x := x) rfl fun i executes => by
      obtain ⟨c, leaves, hi⟩ := executes.exists_code satisfied
      exact leaves i hi
    rw [finalState_left]
    exact hbody

/-- A call binds no other global names than those that code within its reach says it stores to.
If no code that occurs in the callee, the arguments and the global names stores to a global name,
then after the call, whether it has returned or failed, the name is bound as it was before, or not
bound as before.  That holds of calls at the top level and of those that an instruction makes. -/
theorem get?_globals_of_call (hcallee : callee.Satisfies (.leavesGlobal x))
    (hargs : ∀ v ∈ args, v.Satisfies (.leavesGlobal x))
    (hglobals : e.globals.Satisfies (.leavesGlobal x)) :
    (∀ outcome, invoke (Machine.execute fuel) callee args e = some outcome →
      (finalState outcome).globals.get? x = e.globals.get? x) ∧
    ∀ (f : Frame) (i : Instruction) (rest : List Value) (result : Machine.StepResult),
      Machine.instruction? ⟨e, f⟩ = some i → i.opcode = .call → i.count = .ok args.length →
      Frame.Finds f.stack args.length callee args rest →
      Machine.step (Machine.execute fuel) ⟨e, f⟩ = some result →
      (finalState result).engine.globals.get? x = e.globals.get? x := by
  refine ⟨fun outcome => get?_globals_of_invoke hcallee hargs hglobals, ?_⟩
  intro f i rest result placed hop hcount found hstep
  obtain ⟨outcome, called, hfinal⟩ := Machine.exists_invoke_of_step placed hop hcount found hstep
  rw [← hfinal]
  exact get?_globals_of_invoke hcallee hargs hglobals called

/-- A function that binds a local name like the global one, and another global name, and fails. -/
theorem get?_globals_of_call_storeName :
    let is : List Instruction := [⟨0, .loadConst, none, some (.int 1)⟩,
      ⟨2, .storeName, none, some (.str "x")⟩, ⟨4, .loadConst, none, some (.int 2)⟩,
      ⟨6, .storeGlobal, none, some (.str "y")⟩, .bare 8 .popTop]
    let callee : Value := .function ⟨"f", 0, [], is, ⟨[(0, 0), (2, 1), (4, 2), (6, 3), (8, 4)]⟩⟩
    let e : Engine := { Engine.fresh .standard .unlimited with globals := ⟨[("x", .int 0)]⟩ }
    callee.Satisfies (.leavesGlobal "x") ∧ e.globals.Satisfies (.leavesGlobal "x") ∧
      ∃ fault e', invoke (Machine.execute 9) callee [] e = some (.error fault e') ∧
        e'.globals.get? "x" = some (.int 0) ∧ e'.globals.get? "y" = some (.int 2) := by
  intro is callee e
  have hcallee : callee.Satisfies (.leavesGlobal "x") := by
    refine .function (.mk ?_ ?_)
    · simp [Criterion.leavesGlobal, Criterion.ofCode, Code.LeavesGlobal, is, Instruction.bare,
        Instruction.name]
    · simp only [is, List.forall_mem_cons]
      refine ⟨⟨?_⟩, ⟨?_⟩, ⟨?_⟩, ⟨?_⟩, ⟨nofun⟩, List.forall_mem_nil _⟩ <;>
        rintro v ⟨⟩ <;>
        constructor
  have hglobals : e.globals.Satisfies (.leavesGlobal "x") :=
    Environment.satisfies_empty.set "x" (.int 0)
  let globals : Environment := ⟨[("x", .int 0), ("y", .int 2)]⟩
  have called : ∃ fault, invoke (Machine.execute 9) callee [] e =
    some (.error fault { e with globals := globals }) := ⟨_, rfl⟩
  obtain ⟨fault, called⟩ := called
  have kept := (get?_globals_of_call hcallee (List.forall_mem_nil _) hglobals).1 _ called
  exact ⟨hcallee, hglobals, fault, _, called, kept, rfl⟩

end Engine

end Bytecode
