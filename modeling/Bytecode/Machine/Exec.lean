import Bytecode.Builtin
import Bytecode.Machine.Basic

set_option autoImplicit false

/-!
# Carrying out an instruction

A call finds its callee beneath the arguments.  A marker may stand on either side of the callee,
`[null, callee, args]` or `[callee, null, args]`, or be missing, `[callee, args]`; what is found is
consumed.  A builtin function is carried out at once.  For any other function the call only prepares
the frame that its body runs in.

`Machine.exec` says what each opcode does to a machine that has just fetched it, and
`Machine.advance` fetches the next instruction and carries it out.  Neither recurses: the body of a
function that is called is left to the caller, as `Action.enter`.
-/

namespace Bytecode

/-! ## Calls -/

/-- What is left to do after an instruction. -/
inductive Action where
  /-- Go on with the next instruction. -/
  | next
  /-- Leave the frame with a value. -/
  | leave (v : Value)
  /-- Run the body of a function and push its value. -/
  | enter (callee : Frame)

namespace Frame

/-- Takes a marker off if one is on top. -/
def dropNull : Act Unit := fun f =>
  match f.stack with
  | .null :: rest => .ok () { f with stack := rest }
  | _ => .ok () f

/-- Takes the callee off, with the marker if there is one beside it. -/
def popCallee : Act Value := do
  let v ← pop
  if v.isNull then pop
  else
    dropNull
    return v

/-- Takes callee and arguments of a call off; both have to be there before either is taken. -/
def popCall (argc : Nat) : Act (Value × List Value) := do
  require (argc + 1)
  let args ← popMany argc
  let callee ← popCallee
  return (callee, args)

/-- Takes the name of a function off if one lies above its code. -/
def dropName : Act Unit := do
  match (← get).top? with
  | some (.str _) =>
    require 2
    let _ ← pop
  | _ => pure ()

/-- Replaces code by the function made of it.  A non-zero raw operand asks for defaults, a
closure or annotations, which there are none of. -/
def makeFunction (i : Instruction) : Act Unit := do
  let flags := i.arg.getD 0
  if flags ≠ 0 then throw (.functionFlags flags i.offset)
  dropName
  match ← pop with
  | .code c => push (.function c)
  | v => throw (.notCode v.kind)

end Frame

/-- The frame for the body of a function with its parameters bound. -/
def Engine.calleeFrame (e : Engine) (code : Code) (args : List Value) : Except Fault Frame :=
  if args.length ≠ code.argcount then
    .error (.wrongArgumentCount code.name code.argcount args.length)
  else if e.config.callLimit ≤ e.callDepth then
    .error (.callDepthExceeded e.config.callLimit)
  else .ok (.ofFunction code (.ofList (code.params.zip args)))

namespace Machine

/-- Calls a value. -/
def invoke (callee : Value) (args : List Value) : Act Action := do
  match callee with
  | .builtin b =>
    let v ← b.call args
    Frame.push v
    return .next
  | .function code =>
    let frame ← (← get).engine.calleeFrame code args
    return .enter frame
  | v => throw (.notCallable v.kind)

/-- Carries out a call with `argc` arguments from the stack. -/
def call (argc : Nat) : Act Action := do
  let (callee, args) ← Frame.popCall argc
  invoke callee args

/-! ## Instructions -/

/-- Replaces the two top operands by what `apply` makes of them. -/
def binary (apply : Value → Value → Except Fault Value) : Act Unit := do
  let (left, right) ← Frame.popPair
  let v ← apply left right
  Frame.push v

/-- Consumes the two top operands of an operator that is not carried out. -/
def refuse (symbol : String) : Act Unit :=
  binary fun left right => .error (unsupported symbol left right)

/-- Applies the operator with this number. -/
def binaryOp (selector : Nat) : Act Unit :=
  match Operator.ofSelector selector with
  | .ok op => binary op.apply
  | .error symbol => refuse symbol

/-- Applies the comparator with this symbol. -/
def compareOp (symbol : String) : Act Unit :=
  match Comparator.ofSymbol? symbol with
  | some c => binary c.apply
  | none => refuse symbol

/-- Whether the raw operand asks for a marker beneath the global that is loaded. -/
def wantsNull (i : Instruction) : Bool :=
  match i.arg with
  | some arg => arg.toNat % 2 == 1
  | none => false

/-- Pushes the next element of the iterator on top, which stays.  An exhausted iterator is
taken off, and the loop left: past its epilogue, which would take the iterator off again. -/
def forIter (i : Instruction) : Frame.Act Unit := do
  match ← Frame.top with
  | .iterator c =>
    match c.advance with
    | some (item, rest) =>
      Frame.setTop (.iterator rest)
      Frame.push item
    | none =>
      let _ ← Frame.pop
      Frame.jump i
      if ← Frame.skipIf .endFor then
        let _ ← Frame.skipIf .popTop
  | v => throw (.notIterator v.kind)

/-- Takes an operand off and jumps if its truth value is the given one. -/
def popJumpIf (truth : Bool) (i : Instruction) : Frame.Act Unit := do
  let v ← Frame.pop
  if v.isTruthy = truth then Frame.jump i

/-- Carries out an instruction that has been fetched. -/
def exec (i : Instruction) : Act Action := do
  match i.opcode with
  | .nop | .endFor => return .next
  | .pushNull =>
    Frame.push .null
    return .next
  | .loadConst =>
    Frame.push i.constant
    return .next
  | .loadName =>
    let v ← load (← i.name)
    Frame.push v
    return .next
  | .loadGlobal =>
    let v ← loadGlobal (← i.name)
    if wantsNull i then Frame.push .null
    Frame.push v
    return .next
  | .loadFast =>
    let v ← Frame.loadLocal (← i.name)
    Frame.push v
    return .next
  | .loadFastPair =>
    let (first, second) ← i.namePair
    let v ← Frame.loadLocal first
    let w ← Frame.loadLocal second
    Frame.push v
    Frame.push w
    return .next
  | .storeName | .storeFast =>
    let name ← i.name
    let v ← Frame.pop
    store name v
    return .next
  | .storeGlobal =>
    let name ← i.name
    let v ← Frame.pop
    storeGlobal name v
    return .next
  | .binaryAdd =>
    binary Operator.add.apply
    return .next
  | .binaryOp =>
    binaryOp (← i.count)
    return .next
  | .compareOp =>
    compareOp (← i.symbol)
    return .next
  | .getIter =>
    let v ← Frame.pop
    let c ← v.iterate
    Frame.push (.iterator c)
    return .next
  | .forIter =>
    forIter i
    return .next
  | .jump =>
    Frame.jump i
    return .next
  | .popJumpIfFalse =>
    popJumpIf false i
    return .next
  | .popJumpIfTrue =>
    popJumpIf true i
    return .next
  | .call => call (← i.count)
  | .makeFunction =>
    Frame.makeFunction i
    return .next
  | .popTop =>
    let _ ← Frame.pop
    return .next
  | .returnValue =>
    let v ← Frame.pop
    Frame.finish
    return .leave v
  | .returnConst =>
    Frame.finish
    return .leave i.constant

/-- Fetches the next instruction and carries it out.  Past the last instruction the frame is
left with `None`. -/
def advance : Act Action := fun m =>
  match m.frame.fetched? with
  | none => .ok (.leave .none) m
  | some (i, f) => exec i { m with frame := f }

end Machine

end Bytecode
