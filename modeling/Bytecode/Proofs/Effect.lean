import Bytecode.Proofs.Result

set_option autoImplicit false

/-!
# Effects and failures of an instruction

`Machine.Effect` lists, a rule for each way an instruction can succeed, what a machine
becomes that carries it out; `Machine.Failure` does the same for the ways it can fail.  What
holds of every instruction is then shown by going through the rules, and no argument about
instructions has to open `Machine.exec` again.

Main statement: `exec_described`, every result of `Machine.exec` comes from a rule.
-/

namespace Bytecode

/-! ## Machines with other operands or at another position -/

namespace Machine

/-- The machine that has fetched this instruction. -/
def fetching (m : Machine) (i : Instruction) : Machine :=
  { m with frame := m.frame.fetching i }

/-- The machine with other operands. -/
def withStack (m : Machine) (stack : List Value) : Machine :=
  { m with frame := { m.frame with stack := stack } }

/-- The machine at another position. -/
def goto (m : Machine) (pc : Nat) : Machine :=
  { m with frame := { m.frame with pc := pc } }

section

variable (m : Machine) (i : Instruction) (stack : List Value) (pc : Nat)

@[simp] theorem fetching_engine : (m.fetching i).engine = m.engine := rfl

@[simp] theorem fetching_stack : (m.fetching i).frame.stack = m.frame.stack := rfl

@[simp] theorem fetching_locals : (m.fetching i).frame.locals = m.frame.locals := rfl

@[simp] theorem fetching_code : (m.fetching i).frame.code = m.frame.code := rfl

@[simp] theorem fetching_pc : (m.fetching i).frame.pc = m.frame.pc + 1 := rfl

@[simp] theorem withStack_engine : (m.withStack stack).engine = m.engine := rfl

@[simp] theorem withStack_stack : (m.withStack stack).frame.stack = stack := rfl

@[simp] theorem withStack_locals : (m.withStack stack).frame.locals = m.frame.locals := rfl

@[simp] theorem withStack_code : (m.withStack stack).frame.code = m.frame.code := rfl

@[simp] theorem withStack_pc : (m.withStack stack).frame.pc = m.frame.pc := rfl

@[simp] theorem goto_engine : (m.goto pc).engine = m.engine := rfl

@[simp] theorem goto_stack : (m.goto pc).frame.stack = m.frame.stack := rfl

@[simp] theorem goto_locals : (m.goto pc).frame.locals = m.frame.locals := rfl

@[simp] theorem goto_code : (m.goto pc).frame.code = m.frame.code := rfl

@[simp] theorem goto_pc : (m.goto pc).frame.pc = pc := rfl

end

section

variable (m : Machine) (x : String) (v : Value)

@[simp] theorem bound_stack : (m.bound x v).frame.stack = m.frame.stack := by
  obtain ⟨engine, code, pc, stack, locals, current⟩ := m
  cases locals <;> rfl

@[simp] theorem bound_code : (m.bound x v).frame.code = m.frame.code := by
  obtain ⟨engine, code, pc, stack, locals, current⟩ := m
  cases locals <;> rfl

@[simp] theorem bound_pc : (m.bound x v).frame.pc = m.frame.pc := by
  obtain ⟨engine, code, pc, stack, locals, current⟩ := m
  cases locals <;> rfl

@[simp] theorem bound_sink : (m.bound x v).engine.sink = m.engine.sink := by
  obtain ⟨engine, code, pc, stack, locals, current⟩ := m
  cases locals <;> rfl

@[simp] theorem bound_config : (m.bound x v).engine.config = m.engine.config := by
  obtain ⟨engine, code, pc, stack, locals, current⟩ := m
  cases locals <;> rfl

@[simp] theorem bound_callDepth : (m.bound x v).engine.callDepth = m.engine.callDepth := by
  obtain ⟨engine, code, pc, stack, locals, current⟩ := m
  cases locals <;> rfl

@[simp] theorem bound_isSome_locals :
    (m.bound x v).frame.locals.isSome = m.frame.locals.isSome := by
  obtain ⟨engine, code, pc, stack, locals, current⟩ := m
  cases locals <;> rfl

end

end Machine

/-! ## The callee of a call -/

/-- The layout is the one that a call finds when its callee stands on these operands.  A marker
above the callee is found first. -/
def Layout.Fits (callee : Value) (rest : List Value) : Layout → Prop
  | aboveCallee => True
  | beneathCallee => callee ≠ .null
  | missing => callee ≠ .null ∧ rest.head? ≠ some .null

namespace Frame

/-- On these operands a call with `argc` arguments finds this callee and these arguments, and
leaves the rest. -/
def Finds (stack : List Value) (argc : Nat) (callee : Value) (args rest : List Value) : Prop :=
  args.length = argc ∧
    ∃ layout : Layout, layout.Fits callee rest ∧ stack = args.reverse ++ layout.over callee rest

/-- Beneath `argc` arguments there is a marker and nothing else. -/
def LoneMarker (stack : List Value) (argc : Nat) : Prop :=
  ∃ args : List Value, args.length = argc ∧ stack = args ++ [.null]

/-- A callee is found where the layout puts it. -/
theorem popCallee_of_fits {f : Frame} {callee : Value} {rest : List Value} {layout : Layout}
    (hfits : layout.Fits callee rest) (hstack : f.stack = layout.over callee rest) :
    popCallee f = .ok callee { f with stack := rest } := by
  obtain ⟨code, pc, stack, locals, current⟩ := f
  cases hstack
  have hnot : callee ≠ .null → callee.isNull = false := by
    intro hne
    rw [← Bool.not_eq_true, Value.isNull_iff]
    exact hne
  cases layout with
  | aboveCallee => rfl
  | beneathCallee =>
    simp only [popCallee, bind, EStateM.bind, pop, hnot hfits, Bool.false_eq_true, if_false,
      dropNull]
    rfl
  | missing =>
    have hdrop : dropNull ⟨code, pc, rest, locals, current⟩ =
        .ok () ⟨code, pc, rest, locals, current⟩ := by
      unfold dropNull
      split
      · next tail hnull =>
        have hnull : rest = .null :: tail := hnull
        exact absurd (by rw [hnull]; rfl) hfits.2
      · rfl
    simp only [popCallee, bind, EStateM.bind, pop, hnot hfits.1, Bool.false_eq_true, if_false,
      hdrop]
    rfl

theorem popCallee_cases {f : Frame} {v : Value} {tail : List Value} (h : f.stack = v :: tail) :
    (v = .null ∧ tail = [] ∧
      popCallee f = .error ({ f with stack := [] }.underflow 1) { f with stack := [] }) ∨
    ∃ (callee : Value) (rest : List Value) (layout : Layout), layout.Fits callee rest ∧
      v :: tail = layout.over callee rest ∧ popCallee f = .ok callee { f with stack := rest } := by
  have hfound : ∀ (callee : Value) (rest : List Value) (layout : Layout),
      layout.Fits callee rest → v :: tail = layout.over callee rest →
      ∃ (callee : Value) (rest : List Value) (layout : Layout), layout.Fits callee rest ∧
        v :: tail = layout.over callee rest ∧ popCallee f = .ok callee { f with stack := rest } :=
    fun callee rest layout hfits hover =>
      ⟨callee, rest, layout, hfits, hover, popCallee_of_fits hfits (h.trans hover)⟩
  by_cases hv : v = .null
  · subst hv
    cases tail with
    | nil =>
      obtain ⟨code, pc, stack, locals, current⟩ := f
      cases h
      exact .inl ⟨rfl, rfl, rfl⟩
    | cons callee rest => exact .inr (hfound callee rest .aboveCallee trivial rfl)
  · by_cases hhead : tail.head? = some .null
    · obtain ⟨rest, rfl⟩ := List.head?_eq_some_iff.1 hhead
      exact .inr (hfound v rest .beneathCallee hv rfl)
    · exact .inr (hfound v tail .missing ⟨hv, hhead⟩ rfl)

/-- A call takes off what it finds. -/
theorem popCall_of_finds {f : Frame} {argc : Nat} {callee : Value} {args rest : List Value}
    (found : Finds f.stack argc callee args rest) :
    popCall argc f = .ok (callee, args) { f with stack := rest } := by
  obtain ⟨rfl, layout, hfits, hstack⟩ := found
  exact popCall_eq hstack (popCallee_of_fits hfits rfl)

theorem popCall_cases (argc : Nat) (f : Frame) :
    (f.depth < argc + 1 ∧ popCall argc f = .error (f.underflow (argc + 1)) f) ∨
    (LoneMarker f.stack argc ∧
      popCall argc f = .error ({ f with stack := [] }.underflow 1) { f with stack := [] }) ∨
    ∃ callee args rest, Finds f.stack argc callee args rest ∧
      popCall argc f = .ok (callee, args) { f with stack := rest } := by
  by_cases hdepth : f.depth < argc + 1
  · exact .inl ⟨hdepth, by simp only [popCall, bind, EStateM.bind, require, if_pos hdepth]⟩
  · right
    have hlt : argc < f.stack.length := by unfold depth at hdepth; omega
    obtain ⟨v, tail, hdrop⟩ : ∃ v tail, f.stack.drop argc = v :: tail :=
      ⟨_, _, List.drop_eq_getElem_cons hlt⟩
    have hmany : popMany argc f =
        .ok (f.stack.take argc).reverse { f with stack := v :: tail } := by
      unfold popMany
      rw [if_neg (by omega), hdrop]
    have hpop : popCall argc f =
        (do return (← popCallee, (f.stack.take argc).reverse) : Act (Value × List Value))
          { f with stack := v :: tail } := by
      simp only [popCall, bind, EStateM.bind, require, if_neg hdepth, hmany]
    have hstack : f.stack = f.stack.take argc ++ v :: tail := by
      rw [← hdrop, List.take_append_drop]
    have hlength : (f.stack.take argc).length = argc := List.length_take_of_le (by omega)
    rw [hpop]
    rcases popCallee_cases (f := { f with stack := v :: tail }) rfl with
      ⟨rfl, rfl, hcallee⟩ | ⟨callee, rest, layout, hfits, hover, hcallee⟩
    · exact .inl ⟨⟨_, hlength, hstack⟩, by simp only [bind, EStateM.bind, hcallee]⟩
    · refine .inr ⟨callee, (f.stack.take argc).reverse, rest, ⟨?_, layout, hfits, ?_⟩, ?_⟩
      · rw [List.length_reverse, hlength]
      · rw [List.reverse_reverse, ← hover]
        exact hstack
      · simp only [bind, EStateM.bind, hcallee]
        rfl

end Frame

/-- A function is entered with an argument for every parameter, while calls do not nest too
deeply. -/
theorem Engine.calleeFrame_eq_ok_iff {e : Engine} {code : Code} {args : List Value}
    {callee : Frame} :
    e.calleeFrame code args = .ok callee ↔
      args.length = code.argcount ∧ e.callDepth < e.config.callLimit ∧
        callee = .ofFunction code (.ofList (code.params.zip args)) := by
  unfold calleeFrame
  split
  · next hlength => simp [hlength]
  · next hlength =>
    split
    · next hdepth =>
      have hnot : ¬ e.callDepth < e.config.callLimit := by omega
      simp [hnot]
    · next hdepth =>
      have hlength : args.length = code.argcount := by omega
      have hdepth : e.callDepth < e.config.callLimit := by omega
      simp [hlength, hdepth, eq_comm]

/-! ## The code of a function -/

namespace Frame

theorem dropName_cases (f : Frame) :
    (f.depth < 2 ∧ dropName f = .error (f.underflow 2) f) ∨ dropName f = .ok () f ∨
      ∃ text v rest, f.stack = .str text :: v :: rest ∧
        dropName f = .ok () { f with stack := v :: rest } := by
  obtain ⟨code, pc, stack, locals, current⟩ := f
  cases stack with
  | nil => exact .inr (.inl rfl)
  | cons v rest =>
    cases v with
    | str text =>
      cases rest with
      | nil => exact .inl ⟨Nat.one_lt_two, rfl⟩
      | cons v rest => exact .inr (.inr ⟨text, v, rest, rfl, rfl⟩)
    | _ => exact .inr (.inl rfl)

/-- Without flags code becomes a function, once a name above it is gone. -/
theorem makeFunction_eq {i : Instruction} {f g : Frame} (hflags : i.arg.getD 0 = 0)
    (hdrop : dropName f = .ok () g) :
    makeFunction i f =
      match g.stack with
      | [] => .error (g.underflow 1) g
      | .code c :: rest => .ok () { g with stack := .function c :: rest }
      | v :: rest => .error (.notCode v.kind) { g with stack := rest } := by
  simp only [bind, EStateM.bind, makeFunction, hflags, ne_eq, not_true_eq_false, if_false, hdrop,
    pop]
  obtain ⟨code, pc, stack, locals, current⟩ := g
  cases stack with
  | nil => rfl
  | cons v rest => cases v <;> rfl

end Frame

/-- The instruction combines two operands with this function. -/
def Instruction.Combines (i : Instruction) (apply : Value → Value → Except Fault Value) : Prop :=
  (i.opcode = .binaryAdd ∧ apply = Operator.add.apply) ∨
    ∃ op : Operation, op.IsAt i ∧ apply = op.apply

theorem Instruction.Combines.yields {K : Criterion} {i : Instruction}
    {apply : Value → Value → Except Fault Value} (h : i.Combines apply) {left right : Value}
    (hleft : left.Satisfies K) (hright : right.Satisfies K) :
    Yields (Value.Satisfies K) (apply left right) := by
  rcases h with ⟨-, rfl⟩ | ⟨op, -, rfl⟩
  · exact Operator.add.apply_yields hleft hright
  · exact op.apply_yields hleft hright

namespace Machine

/-! ## Effects -/

/-- The instruction calls a function, with an argument for every parameter. -/
def CallsFunction (i : Instruction) (m : Machine) : Prop :=
  i.opcode = .call ∧ ∃ argc code args rest, i.count = .ok argc ∧
    Frame.Finds m.frame.stack argc (.function code) args rest ∧ args.length = code.argcount

/-- What is left to do after an instruction that has been fetched and succeeds, and what the
machine has become. -/
inductive Effect (i : Instruction) (m : Machine) : Action → Machine → Prop where
  | idle (hop : i.opcode = .nop ∨ i.opcode = .endFor) : Effect i m .next m
  | pushNull (hop : i.opcode = .pushNull) :
      Effect i m .next (m.withStack (.null :: m.frame.stack))
  | loadConst (hop : i.opcode = .loadConst) :
      Effect i m .next (m.withStack (i.constant :: m.frame.stack))
  | loadName {x : String} {v : Value} (hop : i.opcode = .loadName) (hname : i.name = .ok x)
      (found : m.lookup x = .ok v) : Effect i m .next (m.withStack (v :: m.frame.stack))
  /-- An odd raw operand asks for a marker beneath the value. -/
  | loadGlobal {x : String} {v : Value} (hop : i.opcode = .loadGlobal) (hname : i.name = .ok x)
      (found : m.engine.global x = .ok v) :
      Effect i m .next (m.withStack
        ((if wantsNull i then [v, .null] else [v]) ++ m.frame.stack))
  | loadFast {x : String} {v : Value} (hop : i.opcode = .loadFast) (hname : i.name = .ok x)
      (found : m.frame.local? x = some v) : Effect i m .next (m.withStack (v :: m.frame.stack))
  | loadFastPair {x y : String} {v w : Value} (hop : i.opcode = .loadFastPair)
      (hnames : i.namePair = .ok (x, y)) (found : m.frame.local? x = some v)
      (found' : m.frame.local? y = some w) :
      Effect i m .next (m.withStack (w :: v :: m.frame.stack))
  | store {x : String} {v : Value} {rest : List Value}
      (hop : i.opcode = .storeName ∨ i.opcode = .storeFast) (hname : i.name = .ok x)
      (taken : m.frame.stack = v :: rest) : Effect i m .next ((m.withStack rest).bound x v)
  | storeGlobal {x : String} {v : Value} {rest : List Value} (hop : i.opcode = .storeGlobal)
      (hname : i.name = .ok x) (taken : m.frame.stack = v :: rest) :
      Effect i m .next { m.withStack rest with engine := m.engine.setGlobal x v }
  | combine {apply : Value → Value → Except Fault Value} {left right v : Value}
      {rest : List Value} (hop : i.Combines apply) (taken : m.frame.stack = right :: left :: rest)
      (result : apply left right = .ok v) : Effect i m .next (m.withStack (v :: rest))
  | getIter {v : Value} {c : Cursor} {rest : List Value} (hop : i.opcode = .getIter)
      (taken : m.frame.stack = v :: rest) (result : v.iterate = .ok c) :
      Effect i m .next (m.withStack (.iterator c :: rest))
  | element {c next : Cursor} {item : Value} {rest : List Value} (hop : i.opcode = .forIter)
      (taken : m.frame.stack = .iterator c :: rest) (advanced : c.advance = some (item, next)) :
      Effect i m .next (m.withStack (item :: .iterator next :: rest))
  | exhausted {c : Cursor} {pc : Nat} {rest : List Value} (hop : i.opcode = .forIter)
      (taken : m.frame.stack = .iterator c :: rest) (ended : c.advance = none)
      (target : m.frame.code.loopEnd i = .ok pc) : Effect i m .next ((m.withStack rest).goto pc)
  | jump {pc : Nat} (hop : i.opcode = .jump) (target : m.frame.code.resolveJump i = .ok pc) :
      Effect i m .next (m.goto pc)
  | branch {v : Value} {pc : Nat} {rest : List Value}
      (hop : i.opcode = if v.isTruthy then .popJumpIfTrue else .popJumpIfFalse)
      (taken : m.frame.stack = v :: rest) (target : m.frame.code.resolveJump i = .ok pc) :
      Effect i m .next ((m.withStack rest).goto pc)
  | noBranch {v : Value} {rest : List Value}
      (hop : i.opcode = if v.isTruthy then .popJumpIfFalse else .popJumpIfTrue)
      (taken : m.frame.stack = v :: rest) : Effect i m .next (m.withStack rest)
  | callBuiltin {argc : Nat} {b : Builtin} {args rest : List Value} {v : Value} {sink : Sink}
      (hop : i.opcode = .call) (hcount : i.count = .ok argc)
      (taken : Frame.Finds m.frame.stack argc (.builtin b) args rest)
      (result : b.call args m.engine.sink = .ok v sink) :
      Effect i m .next { m.withStack (v :: rest) with engine := { m.engine with sink := sink } }
  | callFunction {argc : Nat} {code : Code} {args rest : List Value} {callee : Frame}
      (hop : i.opcode = .call) (hcount : i.count = .ok argc)
      (taken : Frame.Finds m.frame.stack argc (.function code) args rest)
      (result : m.engine.calleeFrame code args = .ok callee) :
      Effect i m (.enter callee) (m.withStack rest)
  /-- The name of a function may lie above its code. -/
  | makeFunction {name : List Value} {code : Code} {rest : List Value}
      (hop : i.opcode = .makeFunction) (hname : name = [] ∨ ∃ text, name = [.str text])
      (taken : m.frame.stack = name ++ .code code :: rest) :
      Effect i m .next (m.withStack (.function code :: rest))
  | popTop {v : Value} {rest : List Value} (hop : i.opcode = .popTop)
      (taken : m.frame.stack = v :: rest) : Effect i m .next (m.withStack rest)
  | returnValue {v : Value} {rest : List Value} (hop : i.opcode = .returnValue)
      (taken : m.frame.stack = v :: rest) :
      Effect i m (.leave v) ((m.withStack rest).goto m.frame.code.instructions.length)
  | returnConst (hop : i.opcode = .returnConst) :
      Effect i m (.leave i.constant) (m.goto m.frame.code.instructions.length)

/-- How an instruction that has been fetched fails, and what it leaves of the machine. -/
inductive Failure (i : Instruction) (m : Machine) : Fault → Machine → Prop where
  /-- Not all the operands are there, and none is taken. -/
  | short {needed : Nat} (lacks : m.frame.depth < needed) :
      Failure i m (m.frame.underflow needed) m
  /-- Beneath the arguments of a call there is no more than a marker, which makes it look as if
  the callee were there.  All of them are taken. -/
  | loneMarker {argc : Nat} (hop : i.opcode = .call) (hcount : i.count = .ok argc)
      (found : Frame.LoneMarker m.frame.stack argc) :
      Failure i m ((m.withStack []).frame.underflow 1) (m.withStack [])
  /-- Another fault, after some of the operands may have been taken and some output written.  It
  is that of too many calls only where a function would be entered beyond the limit. -/
  | other {fault : Fault} {taken rest : List Value} {sink : Sink}
      (category : fault.category ≠ .stackUnderflow) (left : m.frame.stack = taken ++ rest)
      (precedes : m.engine.sink.Precedes sink)
      (refusal : fault.category = .recursionLimit →
        CallsFunction i m ∧ m.engine.config.callLimit ≤ m.engine.callDepth) :
      Failure i m fault { m.withStack rest with engine := { m.engine with sink := sink } }

theorem load_eq (x : String) (m : Machine) : load x m = ofExcept (m.lookup x) m := by
  unfold load
  cases m.lookup x <;> rfl

theorem loadGlobal_eq (x : String) (m : Machine) :
    loadGlobal x m = ofExcept (m.engine.global x) m := by
  unfold loadGlobal
  cases m.engine.global x <;> rfl

/-- The result of carrying out an instruction comes from a rule. -/
def Described (i : Instruction) (m : Machine) : EStateM.Result Fault Machine Action → Prop
  | .ok action m' => Effect i m action m'
  | .error fault m' => Failure i m fault m'

namespace Described

variable {i : Instruction} {m : Machine}

/-- A fault of another kind, after operands have been taken. -/
theorem fault {cause : Fault} (taken : List Value) {rest : List Value} (category : cause.OfValues)
    (left : m.frame.stack = taken ++ rest) : Described i m (.error cause (m.withStack rest)) :=
  Failure.other category.ne_stackUnderflow left (.refl _) (absurd · category.ne_recursionLimit)

/-- A computation that leaves the machine as it is comes before what is left to do. -/
theorem of_read {α : Type} {act : Act α} {next : α → Act Action} {result : Except Fault α}
    {P : α → Prop} (reads : act m = ofExcept result m) (yields : Yields P result)
    (rest : ∀ a, result = .ok a → Described i m (next a m)) :
    Described i m ((act >>= next) m) := by
  cases result with
  | error cause =>
    simp only [bind, EStateM.bind, reads, ofExcept]
    exact fault [] yields rfl
  | ok a =>
    simp only [bind, EStateM.bind, reads, ofExcept]
    exact rest a rfl

theorem of_loadLocal {x : String} {next : Value → Act Action}
    (rest : ∀ v, m.frame.local? x = some v → Described i m (next v m)) :
    Described i m ((do next (← Frame.loadLocal x) : Act Action) m) := by
  simp only [bind, EStateM.bind, lift_frame, onFrame, Frame.loadLocal]
  cases hfound : m.frame.local? x with
  | none => exact fault [] rfl rfl
  | some v => exact rest v hfound

theorem of_pop {next : Value → Act Action}
    (rest : ∀ v tail, m.frame.stack = v :: tail → Described i m (next v (m.withStack tail))) :
    Described i m ((do next (← Frame.pop) : Act Action) m) := by
  obtain ⟨engine, code, pc, stack, locals, current⟩ := m
  cases stack with
  | nil => exact Failure.short Nat.zero_lt_one
  | cons v tail => exact rest v tail rfl

end Described

open Described

/-! ### The opcodes that need more than a rule -/

section Opcodes

variable {i : Instruction} {m : Machine}

theorem described_binary {apply : Value → Value → Except Fault Value} (hop : i.Combines apply) :
    Described i m ((do binary apply; return .next : Act Action) m) := by
  obtain ⟨engine, code, pc, stack, locals, current⟩ := m
  match stack with
  | [] => exact Failure.short Nat.zero_lt_two
  | [_] => exact Failure.short Nat.one_lt_two
  | right :: left :: rest =>
    simp only [bind, EStateM.bind, binary_eq (m := ⟨engine, code, pc, _, locals, current⟩) rfl]
    cases hresult : apply left right with
    | ok v => exact Effect.combine hop rfl hresult
    | error cause =>
      have yields := hop.yields left.satisfies_any right.satisfies_any
      exact fault [right, left] (yields.of_eq_error hresult) rfl

theorem described_forIter (hop : i.opcode = .forIter) :
    Described i m ((do forIter i; return .next : Act Action) m) := by
  simp only [bind, EStateM.bind, lift_frame, onFrame, forIter_eq]
  obtain ⟨engine, code, pc, stack, locals, current⟩ := m
  cases stack with
  | nil => exact Failure.short Nat.zero_lt_one
  | cons v rest =>
    cases v with
    | iterator c =>
      cases hadvance : c.advance with
      | some step =>
        simp only [hadvance]
        exact Effect.element hop rfl hadvance
      | none =>
        cases htarget : code.loopEnd i with
        | ok pc' =>
          simp only [hadvance]
          exact Effect.exhausted hop rfl hadvance htarget
        | error cause =>
          simp only [hadvance]
          exact fault [.iterator c] ((code.loopEnd_yields i).of_eq_error htarget) rfl
    | _ => exact fault [] rfl rfl

theorem described_popJumpIf (truth : Bool)
    (hop : i.opcode = if truth then .popJumpIfTrue else .popJumpIfFalse) :
    Described i m ((do popJumpIf truth i; return .next : Act Action) m) := by
  obtain ⟨engine, code, pc, stack, locals, current⟩ := m
  cases stack with
  | nil => exact Failure.short Nat.zero_lt_one
  | cons v rest =>
    by_cases htruth : v.isTruthy = truth
    · subst htruth
      cases htarget : code.resolveJump i with
      | ok pc' =>
        simp only [bind, EStateM.bind, lift_frame, onFrame, popJumpIf, Frame.pop, if_true,
          Frame.jump, htarget]
        exact Effect.branch hop rfl htarget
      | error cause =>
        simp only [bind, EStateM.bind, lift_frame, onFrame, popJumpIf, Frame.pop, if_true,
          Frame.jump, htarget]
        exact fault [v] ((code.resolveJump_yields i).of_eq_error htarget) rfl
    · have hflip : i.opcode = if v.isTruthy then .popJumpIfFalse else .popJumpIfTrue := by
        rw [hop]
        cases truth <;> cases htruthy : v.isTruthy <;> simp_all
      simp only [bind, EStateM.bind, lift_frame, onFrame, popJumpIf, Frame.pop, if_neg htruth]
      exact Effect.noBranch hflip rfl

theorem described_call {argc : Nat} (hop : i.opcode = .call) (hcount : i.count = .ok argc) :
    Described i m (call argc m) := by
  simp only [call, bind, EStateM.bind, lift_frame, onFrame]
  rcases Frame.popCall_cases argc m.frame with
    ⟨hlacks, hpop⟩ | ⟨hlone, hpop⟩ | ⟨callee, args, rest, hfinds, hpop⟩
  · rw [hpop]
    exact Failure.short hlacks
  · rw [hpop]
    exact Failure.loneMarker hop hcount hlone
  · rw [hpop]
    obtain ⟨-, layout, -, hstack⟩ := id hfinds
    obtain ⟨taken, htaken⟩ : ∃ taken, layout.over callee rest = taken ++ rest := by
      cases layout with
      | beneathCallee => exact ⟨[callee, .null], rfl⟩
      | aboveCallee => exact ⟨[.null, callee], rfl⟩
      | missing => exact ⟨[callee], rfl⟩
    have hleft : m.frame.stack = args.reverse ++ taken ++ rest := by
      rw [hstack, htaken, List.append_assoc]
    cases callee with
    | builtin b =>
      simp only [invoke, bind, EStateM.bind, lift_sink, onSink]
      cases hcall : b.call args m.engine.sink with
      | ok v sink => exact Effect.callBuiltin hop hcount hfinds hcall
      | error cause sink =>
        have category := Builtin.ofValues_of_call hcall
        have precedes : m.engine.sink.Precedes sink := by
          rw [(Builtin.of_call_eq_error hcall).2]
          exact Sink.precedes_append _ _
        exact Failure.other category.ne_stackUnderflow hleft precedes
          (absurd · category.ne_recursionLimit)
    | function code =>
      simp only [invoke_function]
      cases hframe : m.engine.calleeFrame code args with
      | ok frame => exact Effect.callFunction hop hcount hfinds hframe
      | error cause =>
        unfold Engine.calleeFrame at hframe
        split at hframe
        · cases hframe
          exact fault _ rfl hleft
        · next hlength =>
          split at hframe
          · next hdeep =>
            cases hframe
            have calls : CallsFunction i m :=
              ⟨hop, argc, code, args, rest, hcount, hfinds, Decidable.not_not.1 hlength⟩
            refine Failure.other ?_ hleft (.refl _) fun _ => ⟨calls, hdeep⟩
            rintro ⟨⟩
          · cases hframe
    | _ => exact fault _ rfl hleft

theorem described_makeFunction (hop : i.opcode = .makeFunction) :
    Described i m ((do Frame.makeFunction i; return .next : Act Action) m) := by
  by_cases hflags : i.arg.getD 0 = 0
  · have hcode : ∀ {name : List Value} {v : Value} {rest : List Value},
        (name = [] ∨ ∃ text, name = [.str text]) → m.frame.stack = name ++ v :: rest →
        Frame.dropName m.frame = .ok () { m.frame with stack := v :: rest } →
        Described i m ((do Frame.makeFunction i; return .next : Act Action) m) := by
      intro name v rest hname hstack hdrop
      have hleft : m.frame.stack = (name ++ [v]) ++ rest := by simp [hstack]
      simp only [bind, EStateM.bind, lift_frame, onFrame, Frame.makeFunction_eq hflags hdrop]
      cases v with
      | code c => exact Effect.makeFunction hop hname hstack
      | _ => exact fault _ rfl hleft
    rcases Frame.dropName_cases m.frame with
      ⟨hlacks, hdrop⟩ | hdrop | ⟨text, v, rest, hstack, hdrop⟩
    · simp only [bind, EStateM.bind, lift_frame, onFrame, Frame.makeFunction, hflags, ne_eq,
        not_true_eq_false, if_false, hdrop]
      exact Failure.short hlacks
    · cases hstack : m.frame.stack with
      | nil =>
        simp only [bind, EStateM.bind, lift_frame, onFrame, Frame.makeFunction_eq hflags hdrop,
          hstack]
        exact Failure.short (by simp [Frame.depth, hstack])
      | cons v rest =>
        refine hcode (.inl rfl) hstack ?_
        rw [hdrop, ← hstack]
    · exact hcode (.inr ⟨text, rfl⟩) hstack hdrop
  · simp only [bind, EStateM.bind, lift_frame, onFrame, Frame.makeFunction, ne_eq, hflags,
      not_false_eq_true, if_true]
    exact fault [] rfl rfl

end Opcodes

/-! ### Every opcode -/

/-- Whatever an instruction does comes from a rule. -/
theorem exec_described (i : Instruction) (m : Machine) : Described i m (exec i m) := by
  unfold exec
  cases hop : i.opcode with
  | nop => exact Effect.idle (.inl hop)
  | endFor => exact Effect.idle (.inr hop)
  | pushNull => exact Effect.pushNull hop
  | loadConst => exact Effect.loadConst hop
  | loadName =>
    refine of_read rfl i.name_yields fun x hname => ?_
    refine of_read (load_eq x m) (lookup_yields m.satisfies_any x) fun v hfound => ?_
    exact Effect.loadName hop hname hfound
  | loadGlobal =>
    refine of_read rfl i.name_yields fun x hname => ?_
    have yields := Engine.global_yields m.satisfies_any.globals x
    refine of_read (loadGlobal_eq x m) yields fun v hfound => ?_
    have heffect := Effect.loadGlobal hop hname hfound
    cases hwants : wantsNull i with
    | true =>
      rw [hwants] at heffect
      exact heffect
    | false =>
      rw [hwants] at heffect
      exact heffect
  | loadFast =>
    refine of_read rfl i.name_yields fun x hname => ?_
    exact of_loadLocal fun v hfound => Effect.loadFast hop hname hfound
  | loadFastPair =>
    refine of_read rfl i.namePair_yields fun names hnames => ?_
    refine of_loadLocal fun v hfound => of_loadLocal fun w hfound' => ?_
    exact Effect.loadFastPair hop hnames hfound hfound'
  | storeName =>
    refine of_read rfl i.name_yields fun x hname => of_pop fun v rest htaken => ?_
    exact Effect.store (.inl hop) hname htaken
  | storeFast =>
    refine of_read rfl i.name_yields fun x hname => of_pop fun v rest htaken => ?_
    exact Effect.store (.inr hop) hname htaken
  | storeGlobal =>
    refine of_read rfl i.name_yields fun x hname => of_pop fun v rest htaken => ?_
    exact Effect.storeGlobal hop hname htaken
  | binaryAdd => exact described_binary (.inl ⟨hop, rfl⟩)
  | binaryOp =>
    refine of_read rfl i.count_yields fun selector hcount => ?_
    rw [binaryOp_eq]
    exact described_binary (.inr ⟨.binary selector, ⟨hop, hcount⟩, rfl⟩)
  | compareOp =>
    refine of_read rfl i.symbol_yields fun symbol hsymbol => ?_
    rw [compareOp_eq]
    exact described_binary (.inr ⟨.compare symbol, ⟨hop, hsymbol⟩, rfl⟩)
  | getIter =>
    refine of_pop fun v rest htaken => ?_
    cases hresult : v.iterate with
    | ok c => exact Effect.getIter hop htaken hresult
    | error cause =>
      have yields := Value.iterate_yields v.satisfies_any
      exact fault [v] (yields.of_eq_error hresult) htaken
  | forIter => exact described_forIter hop
  | jump =>
    cases htarget : m.frame.code.resolveJump i with
    | ok pc =>
      simp only [bind, EStateM.bind, lift_frame, onFrame, Frame.jump, htarget]
      exact Effect.jump hop htarget
    | error cause =>
      simp only [bind, EStateM.bind, lift_frame, onFrame, Frame.jump, htarget]
      exact fault [] ((m.frame.code.resolveJump_yields i).of_eq_error htarget) rfl
  | popJumpIfFalse => exact described_popJumpIf false hop
  | popJumpIfTrue => exact described_popJumpIf true hop
  | call =>
    refine of_read rfl i.count_yields fun argc hcount => ?_
    exact described_call hop hcount
  | makeFunction => exact described_makeFunction hop
  | popTop => exact of_pop fun v rest htaken => Effect.popTop hop htaken
  | returnValue => exact of_pop fun v rest htaken => Effect.returnValue hop htaken
  | returnConst => exact Effect.returnConst hop

theorem effect_of_exec {i : Instruction} {m m' : Machine} {action : Action}
    (h : exec i m = .ok action m') : Effect i m action m' := by
  have described := exec_described i m
  rw [h] at described
  exact described

theorem failure_of_exec {i : Instruction} {m m' : Machine} {fault : Fault}
    (h : exec i m = .error fault m') : Failure i m fault m' := by
  have described := exec_described i m
  rw [h] at described
  exact described

end Machine

end Bytecode
