import Bytecode.Proofs.Advance

set_option autoImplicit false

/-!
# Balance of the operand stack

A step that succeeds takes operands off the top of the stack and puts others in their place, and
all that lies beneath stays.  `Machine.Exchange` is the table: what each opcode takes and what it
gives.  The operands that a function works on while it is run are its own, so a call is one line
of the table, however deep it nests.

Main statement: `stack_of_step`, every step that succeeds is an exchange.
-/

namespace Bytecode

namespace Machine

/-- On this machine the instruction takes these operands, which lie on `rest`, and gives those in
their place; the top one is the first.  `body` runs the functions that are called. -/
inductive Exchange (body : Machine → Option Outcome) (m : Machine) (i : Instruction)
    (rest : List Value) : List Value → List Value → Prop where
  | idle (hop : i.opcode ∈ [.nop, .endFor, .jump, .returnConst]) : Exchange body m i rest [] []
  | pushNull (hop : i.opcode = .pushNull) : Exchange body m i rest [] [.null]
  | loadConst (hop : i.opcode = .loadConst) : Exchange body m i rest [] [i.constant]
  | loadName {x : String} {v : Value} (hop : i.opcode = .loadName) (hname : i.name = .ok x)
      (found : m.lookup x = .ok v) : Exchange body m i rest [] [v]
  | loadGlobal {x : String} {v : Value} (hop : i.opcode = .loadGlobal) (hname : i.name = .ok x)
      (found : m.engine.global x = .ok v) :
      Exchange body m i rest [] (if wantsNull i then [v, .null] else [v])
  | loadFast {x : String} {v : Value} (hop : i.opcode = .loadFast) (hname : i.name = .ok x)
      (found : m.frame.local? x = some v) : Exchange body m i rest [] [v]
  | loadFastPair {x y : String} {v w : Value} (hop : i.opcode = .loadFastPair)
      (hnames : i.namePair = .ok (x, y)) (found : m.frame.local? x = some v)
      (found' : m.frame.local? y = some w) : Exchange body m i rest [] [w, v]
  | discard {v : Value}
      (hop : i.opcode ∈ [.storeName, .storeFast, .storeGlobal, .popJumpIfFalse, .popJumpIfTrue,
        .popTop, .returnValue]) :
      Exchange body m i rest [v] []
  | combine {apply : Value → Value → Except Fault Value} {left right v : Value}
      (hop : i.Combines apply) (result : apply left right = .ok v) :
      Exchange body m i rest [right, left] [v]
  | getIter {v : Value} {c : Cursor} (hop : i.opcode = .getIter) (result : v.iterate = .ok c) :
      Exchange body m i rest [v] [.iterator c]
  | element {c next : Cursor} {item : Value} (hop : i.opcode = .forIter)
      (advanced : c.advance = some (item, next)) :
      Exchange body m i rest [.iterator c] [item, .iterator next]
  | exhausted {c : Cursor} (hop : i.opcode = .forIter) (ended : c.advance = none) :
      Exchange body m i rest [.iterator c] []
  | makeFunction {name : List Value} {code : Code} (hop : i.opcode = .makeFunction)
      (hname : name = [] ∨ ∃ text, name = [.str text]) :
      Exchange body m i rest (name ++ [.code code]) [.function code]
  /-- A marker above the callee is taken first, and one beneath it only where there is none above;
  see `Layout.Fits`. -/
  | call {args : List Value} {layout : Layout} {callee v : Value} {e : Engine}
      (hop : i.opcode = .call) (hcount : i.count = .ok args.length)
      (fits : layout.Fits callee rest)
      (result : Engine.invoke body callee args m.engine = some (.ok v e)) :
      Exchange body m i rest (args.reverse ++ layout.over callee []) [v]

/-- The stacks before and after are those of an exchange. -/
def Exchanges (body : Machine → Option Outcome) (m : Machine) (i : Instruction)
    (stack stack' : List Value) : Prop :=
  ∃ taken given rest, Exchange body m i rest taken given ∧ stack = taken ++ rest ∧
    stack' = given ++ rest

variable {body : Machine → Option Outcome} {m m' : Machine} {i : Instruction}

theorem Exchange.exchanges {taken given rest : List Value}
    (exchange : Exchange body m i rest taken given) {stack : List Value}
    (hstack : stack = taken ++ rest) : Exchanges body m i stack (given ++ rest) :=
  ⟨taken, given, rest, exchange, hstack, rfl⟩

theorem over_eq_append (layout : Layout) (callee : Value) (rest : List Value) :
    layout.over callee rest = layout.over callee [] ++ rest := by
  cases layout <;> rfl

/-- A call exchanges callee, marker and arguments for the value of the call. -/
theorem exchanges_call {argc : Nat} {callee v : Value} {args rest : List Value} {e : Engine}
    (hop : i.opcode = .call) (hcount : i.count = .ok argc)
    (taken : Frame.Finds m.frame.stack argc callee args rest)
    (result : Engine.invoke body callee args m.engine = some (.ok v e)) :
    Exchanges body m i m.frame.stack (v :: rest) := by
  obtain ⟨rfl, layout, fits, hstack⟩ := taken
  rw [over_eq_append, ← List.append_assoc] at hstack
  exact (Exchange.call hop hcount fits result).exchanges hstack

/-- Every instruction that does not enter a function exchanges operands. -/
theorem Effect.exchanges {action : Action} (body : Machine → Option Outcome)
    (effect : Effect i (m.fetching i) action m') (stays : ∀ callee, action ≠ .enter callee) :
    Exchanges body m i m.frame.stack m'.frame.stack := by
  cases effect with
  | idle hop => exact (Exchange.idle (by rcases hop with hop | hop <;> simp [hop])).exchanges rfl
  | pushNull hop => exact (Exchange.pushNull hop).exchanges rfl
  | loadConst hop => exact (Exchange.loadConst hop).exchanges rfl
  | loadName hop hname found => exact (Exchange.loadName (m := m) hop hname found).exchanges rfl
  | loadGlobal hop hname found => exact (Exchange.loadGlobal (m := m) hop hname found).exchanges rfl
  | loadFast hop hname found => exact (Exchange.loadFast (m := m) hop hname found).exchanges rfl
  | loadFastPair hop hnames found found' =>
    exact (Exchange.loadFastPair (m := m) hop hnames found found').exchanges rfl
  | @store x v rest hop hname taken =>
    rw [bound_stack, withStack_stack]
    exact (Exchange.discard (by rcases hop with hop | hop <;> simp [hop])).exchanges taken
  | storeGlobal hop hname taken => exact (Exchange.discard (by simp [hop])).exchanges taken
  | combine hop taken result => exact (Exchange.combine hop result).exchanges taken
  | getIter hop taken result => exact (Exchange.getIter hop result).exchanges taken
  | element hop taken advanced => exact (Exchange.element hop advanced).exchanges taken
  | exhausted hop taken ended target => exact (Exchange.exhausted hop ended).exchanges taken
  | jump hop target => exact (Exchange.idle (by simp [hop])).exchanges rfl
  | branch hop taken target =>
    exact (Exchange.discard (by rw [hop]; split <;> simp)).exchanges taken
  | noBranch hop taken => exact (Exchange.discard (by rw [hop]; split <;> simp)).exchanges taken
  | @callBuiltin argc b args rest v sink hop hcount taken result =>
    have invoked : Engine.invoke body (.builtin b) args m.engine =
        some (.ok v { m.engine with sink := sink }) := by
      rw [fetching_engine] at result
      simp only [Engine.invoke, result]
    exact exchanges_call hop hcount taken invoked
  | callFunction hop hcount taken result => exact absurd rfl (stays _)
  | makeFunction hop hname taken =>
    exact (Exchange.makeFunction hop hname).exchanges (by simpa using taken)
  | popTop hop taken => exact (Exchange.discard (by simp [hop])).exchanges taken
  | returnValue hop taken => exact (Exchange.discard (by simp [hop])).exchanges taken
  | returnConst hop => exact (Exchange.idle (by simp [hop])).exchanges rfl

/-- A step that succeeds changes nothing past the last instruction, and else exchanges operands as
its opcode says; all that lies beneath stays. -/
theorem stack_of_step {fuel : Nat} {result : Option Value}
    (h : step (execute fuel) m = some (.ok result m')) :
    (m.instruction? = none ∧ m'.frame.stack = m.frame.stack) ∨
      ∃ i taken given rest, m.instruction? = some i ∧
        Exchange (execute fuel) m i rest taken given ∧
        m.frame.stack = taken ++ rest ∧ m'.frame.stack = given ++ rest := by
  cases advances_of_step h with
  | atEnd ended => exact .inl ⟨ended, rfl⟩
  | @next i _ placed effect =>
    obtain ⟨taken, given, rest, exchanged⟩ := effect.exchanges (execute fuel) nofun
    exact .inr ⟨i, taken, given, rest, placed, exchanged⟩
  | @leave i _ _ placed effect =>
    obtain ⟨taken, given, rest, exchanged⟩ := effect.exchanges (execute fuel) nofun
    exact .inr ⟨i, taken, given, rest, placed, exchanged⟩
  | @call i callee m₁ v e placed effect enters ran =>
    cases effect with
    | @callFunction argc code args rest _ hop hcount found entered =>
      have invoked : Engine.invoke (execute fuel) (.function code) args m.engine =
          some (.ok v e.exited) := by
        have ran : execute fuel ⟨m.engine.entered, callee⟩ = some (.ok v e) := ran
        have entered : m.engine.calleeFrame code args = .ok callee := entered
        simp only [Engine.invoke, entered, ran]
        rfl
      obtain ⟨taken, given, rest, exchanged⟩ := exchanges_call (m := m) hop hcount found invoked
      exact .inr ⟨i, taken, given, rest, placed, exchanged⟩

/-- The call of a function with a marker beneath it. -/
theorem stack_of_step_call :
    let inner : Code := ⟨"f", 1, ["x"], [⟨0, .loadFast, none, some (.str "x")⟩,
      ⟨2, .returnValue, none, none⟩], ⟨[(0, 0), (2, 1)]⟩⟩
    let call : Instruction := ⟨0, .call, some 1, none⟩
    let m : Machine := ⟨.fresh .standard .unlimited, ⟨⟨"", 0, [], [call], ⟨[(0, 0)]⟩⟩, 0,
      [.int 3, .function inner, .null, .int 9], none, none⟩⟩
    ∃ m', step (execute 2) m = some (.ok none m') ∧ m'.frame.stack = [.int 3, .int 9] ∧
      ∃ taken given rest, Exchange (execute 2) m call rest taken given ∧
        m.frame.stack = taken ++ rest ∧ m'.frame.stack = given ++ rest := by
  intro inner call m
  have succeeds : step (execute 2) m = some (.ok none
      ⟨m.engine, ((m.fetching call).withStack [.int 3, .int 9]).frame⟩) := rfl
  refine ⟨_, succeeds, rfl, ?_⟩
  rcases stack_of_step succeeds with ⟨ended, -⟩ | ⟨i, taken, given, rest, placed, exchanged⟩
  · cases ended
  · cases placed
    exact ⟨taken, given, rest, exchanged⟩

/-- A marker that is pushed is one operand more. -/
theorem pushNull_changes_stack :
    let push : Instruction := .bare 0 .pushNull
    let m : Machine := ⟨.fresh .standard .unlimited, .ofModule ⟨"", 0, [], [push], ⟨[(0, 0)]⟩⟩⟩
    m.instruction? = some push ∧ ∃ m', step (execute 0) m = some (.ok none m') ∧
      m'.frame.stack ≠ m.frame.stack :=
  ⟨rfl, _, rfl, nofun⟩

end Machine

end Bytecode
