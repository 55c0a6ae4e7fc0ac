import Bytecode.Code
import Bytecode.Engine

set_option autoImplicit false

/-!
# Frames and machines

A frame is one code object in flight: the position of the next instruction, the operand stack, and
for the body of a function the local names.  Its operations are state transformers; one that fails
leaves the frame as it was.

A machine is an engine at work on one frame.  Its operations are those of the frame and of the
engine's sink, carried over, and the two that need both parts: looking a name up and storing one.
-/

namespace Bytecode

/-! ## Frames -/

/-- The state of one code object in flight. -/
structure Frame where
  code : Code
  /-- The position of the next instruction. -/
  pc : Nat
  /-- The operands, the top one first. -/
  stack : List Value
  /-- The local names of a function; code at the top level has none. -/
  locals : Option Environment
  /-- The instruction fetched last. -/
  current : Option Instruction

namespace Frame

/-- A frame for code at the top level. -/
def ofModule (code : Code) : Frame :=
  ⟨code, 0, [], none, none⟩

/-- A frame for the body of a function. -/
def ofFunction (code : Code) (locals : Environment) : Frame :=
  ⟨code, 0, [], some locals, none⟩

/-- The number of operands. -/
def depth (f : Frame) : Nat :=
  f.stack.length

/-- The top operand, if there is one. -/
def top? (f : Frame) : Option Value :=
  f.stack.head?

/-- The value of a local name. -/
def local? (f : Frame) (name : String) : Option Value :=
  f.locals.bind (·.get? name)

/-- The fault of having too few operands, at the current instruction. -/
def underflow (f : Frame) (needed : Nat) : Fault :=
  match f.current with
  | some i => .stackUnderflow i.opcode i.offset needed f.depth
  | none => .stackUnderflow .nop 0 needed f.depth

/-- The frame with one more operand. -/
def pushed (f : Frame) (v : Value) : Frame :=
  { f with stack := v :: f.stack }

/-- The frame past its last instruction. -/
def finished (f : Frame) : Frame :=
  { f with pc := f.code.instructions.length }

/-- The frame past the next instruction, if that has the opcode. -/
def skipped? (f : Frame) (opcode : Opcode) : Option Frame :=
  match f.code.instructions[f.pc]? with
  | some i => if i.opcode = opcode then some { f with pc := f.pc + 1 } else none
  | none => none

/-- The frame past the next instruction, with that instruction; nothing at the end. -/
def fetched? (f : Frame) : Option (Instruction × Frame) :=
  (f.code.instructions[f.pc]?).map fun i => (i, { f with pc := f.pc + 1, current := some i })

/-- The frame with a local name bound, if it has local names. -/
def bound? (f : Frame) (name : String) (v : Value) : Option Frame :=
  f.locals.map fun env => { f with locals := some (env.set name v) }

/-! ## Operations that can fail -/

/-- A frame operation. -/
abbrev Act (α : Type) := EStateM Fault Frame α

def push (v : Value) : Act Unit := fun f =>
  .ok () (f.pushed v)

/-- Fails unless there are as many operands as needed. -/
def require (needed : Nat) : Act Unit := fun f =>
  if f.depth < needed then .error (f.underflow needed) f else .ok () f

def pop : Act Value := fun f =>
  match f.stack with
  | [] => .error (f.underflow 1) f
  | v :: rest => .ok v { f with stack := rest }

/-- Takes the operands off that were pushed last, in the order they were pushed. -/
def popMany (n : Nat) : Act (List Value) := fun f =>
  if f.depth < n then .error (f.underflow n) f
  else .ok (f.stack.take n).reverse { f with stack := f.stack.drop n }

/-- Takes two operands off, the left one beneath the right one. -/
def popPair : Act (Value × Value) := fun f =>
  match f.stack with
  | right :: left :: rest => .ok (left, right) { f with stack := rest }
  | _ => .error (f.underflow 2) f

/-- The top operand, which stays. -/
def top : Act Value := fun f =>
  match f.stack with
  | [] => .error (f.underflow 1) f
  | v :: _ => .ok v f

/-- Puts another value in the place of the top operand. -/
def setTop (v : Value) : Act Unit := fun f =>
  match f.stack with
  | [] => .error (f.underflow 1) f
  | _ :: rest => .ok () { f with stack := v :: rest }

/-- Goes to the target of a jump. -/
def jump (i : Instruction) : Act Unit := fun f =>
  match f.code.resolveJump i with
  | .ok position => .ok () { f with pc := position }
  | .error fault => .error fault f

/-- Steps over the next instruction if it has the opcode, and says whether it did. -/
def skipIf (opcode : Opcode) : Act Bool := fun f =>
  match f.skipped? opcode with
  | some f => .ok true f
  | none => .ok false f

/-- Goes past the last instruction. -/
def finish : Act Unit := fun f =>
  .ok () f.finished

/-- The value of a local name, which has to be bound. -/
def loadLocal (name : String) : Act Value := fun f =>
  match f.local? name with
  | some v => .ok v f
  | none => .error (.nameNotFound name) f

end Frame

/-! ## Machines -/

/-- An engine at work on a frame. -/
structure Machine where
  engine : Engine
  frame : Frame

namespace Machine

/-- A machine operation. -/
abbrev Act (α : Type) := EStateM Fault Machine α

/-- An operation on the frame, which leaves the engine alone. -/
def onFrame {α : Type} (act : Frame.Act α) : Act α := fun m =>
  match act m.frame with
  | .ok a f => .ok a { m with frame := f }
  | .error fault f => .error fault { m with frame := f }

/-- An operation on the sink, which leaves everything else alone. -/
def onSink {α : Type} (act : EStateM Fault Sink α) : Act α := fun m =>
  match act m.engine.sink with
  | .ok a sink => .ok a { m with engine := { m.engine with sink := sink } }
  | .error fault sink => .error fault { m with engine := { m.engine with sink := sink } }

instance : MonadLift (EStateM Fault Frame) (EStateM Fault Machine) := ⟨onFrame⟩

instance : MonadLift (EStateM Fault Sink) (EStateM Fault Machine) := ⟨onSink⟩

/-- The value of a name: a local, else a global, else a builtin function. -/
def lookup (m : Machine) (name : String) : Except Fault Value :=
  match m.frame.local? name with
  | some v => .ok v
  | none => m.engine.global name

/-- The machine with a name bound: a local name if the frame has those, else a global one. -/
def bound (m : Machine) (name : String) (v : Value) : Machine :=
  match m.frame.bound? name v with
  | some f => { m with frame := f }
  | none => { m with engine := m.engine.setGlobal name v }

/-- Pushes the value of a name. -/
def load (name : String) : Act Value := fun m =>
  match m.lookup name with
  | .ok v => .ok v m
  | .error fault => .error fault m

/-- The value of a global name or builtin function. -/
def loadGlobal (name : String) : Act Value := fun m =>
  match m.engine.global name with
  | .ok v => .ok v m
  | .error fault => .error fault m

/-- Binds a name where the frame keeps its names. -/
def store (name : String) (v : Value) : Act Unit := fun m =>
  .ok () (m.bound name v)

/-- Binds a global name. -/
def storeGlobal (name : String) (v : Value) : Act Unit := fun m =>
  .ok () { m with engine := m.engine.setGlobal name v }

end Machine

end Bytecode
