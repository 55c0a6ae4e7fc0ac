import Bytecode.Proofs.Walk

set_option autoImplicit false

/-!
# Expressions in postfix code

Expressions of constants, names, operators and calls, with an evaluator and with the
instructions they are written as.  In a call the marker may stand on either side of
the callee or be missing, which is chosen for every call apart.

A call takes a marker off that it finds beneath its callee, so a call without a marker
of its own takes that of the call it is an argument of, which then finds none and may
take the next one further down.  The invariant that carries the induction is that
the code of an expression takes at most one marker off the stack it starts on
(`Frame.Pushes`).

Main statement: `postfix_realizes_eval`, on a stack without a marker on top the code
of an expression does what the evaluator does, whatever the layouts of its calls.
-/

namespace Bytecode

/-- An operator or comparator, as an instruction selects it. -/
inductive Operation where
  | binary (selector : Nat)
  | compare (symbol : String)
deriving DecidableEq, Repr, Inhabited

namespace Operation

/-- The result on two operands; what is not carried out is a fault. -/
def apply : Operation → Value → Value → Except Fault Value
  | binary selector, left, right =>
    match Operator.ofSelector selector with
    | .ok op => op.apply left right
    | .error symbol => .error (unsupported symbol left right)
  | compare symbol, left, right =>
    match Comparator.ofSymbol? symbol with
    | some c => c.apply left right
    | none => .error (unsupported symbol left right)

/-- The instruction selects the operation. -/
def IsAt (i : Instruction) : Operation → Prop
  | binary selector => i.opcode = .binaryOp ∧ i.count = .ok selector
  | compare symbol => i.opcode = .compareOp ∧ i.symbol = .ok symbol

end Operation

/-- Where the marker of a call stands. -/
inductive Layout where
  | beneathCallee
  | aboveCallee
  | missing
deriving DecidableEq, Repr, Inhabited

inductive Expression where
  | const (v : Value)
  | name (x : String)
  | operation (op : Operation) (left right : Expression)
  /-- A call; the callee is a name. -/
  | call (layout : Layout) (callee : String) (args : List Expression)

/-! ## Evaluation -/

section Evaluation

variable (body : Machine → Option Outcome) (locals : Option Environment)

mutual

/-- The value of an expression: operands from left to right, the callee of a call before its
arguments.  `body` runs the functions that are called. -/
def Expression.eval : Expression → Engine.Act Value
  | .const v => pure v
  | .name x => Engine.find locals x
  | .operation op left right => do
    let a ← left.eval
    let b ← right.eval
    .ofResult (op.apply a b)
  | .call _ callee args => do
    let f ← Engine.find locals callee
    let vs ← Expression.evalAll args
    Engine.invoke body f vs
termination_by structural e => e

def Expression.evalAll : List Expression → Engine.Act (List Value)
  | [] => pure []
  | e :: es => do
    let v ← e.eval
    let vs ← Expression.evalAll es
    return v :: vs
termination_by structural es => es

end

/-- A computation does not give the marker. -/
def Engine.Act.NotNull (act : Engine.Act Value) (e : Engine) : Prop :=
  ∀ e', act e ≠ some (.ok .null e')

theorem Engine.Act.NotNull.ne {act : Engine.Act Value} {e e' : Engine} {v : Value}
    (h : act.NotNull e) (hv : act e = some (.ok v e')) : v ≠ .null := by
  rintro rfl
  exact h e' hv

mutual

/-- No part of an expression gives the marker, as far as the evaluation comes to it. -/
def Expression.NullFree : Expression → Engine → Prop
  | .const v, _ => v ≠ .null
  | .name x, e => (Engine.find locals x).NotNull e
  | .operation op left right, e =>
    left.NullFree e ∧
      (∀ a e', left.eval body locals e = some (.ok a e') → right.NullFree e') ∧
      ((Expression.operation op left right).eval body locals).NotNull e
  | .call layout callee args, e =>
    (Engine.find locals callee).NotNull e ∧
      (∀ f e', Engine.find locals callee e = some (.ok f e') → Expression.NullFreeAll args e') ∧
      ((Expression.call layout callee args).eval body locals).NotNull e
termination_by structural e => e

def Expression.NullFreeAll : List Expression → Engine → Prop
  | [], _ => True
  | arg :: args, e =>
    arg.NullFree e ∧
      ∀ v e', arg.eval body locals e = some (.ok v e') → Expression.NullFreeAll args e'
termination_by structural es => es

end

end Evaluation

theorem Expression.NullFree.notNull {body : Machine → Option Outcome}
    {locals : Option Environment} {e : Expression} {engine : Engine}
    (h : e.NullFree body locals engine) : (e.eval body locals).NotNull engine := by
  cases e with
  | const v =>
    intro engine' heval
    simp only [eval, pure, Option.some.injEq, EStateM.Result.ok.injEq] at heval
    exact h heval.1
  | name x => exact h
  | operation op left right => exact h.2.2
  | call layout callee args => exact h.2.2

/-! ## Postfix code -/

/-- The instructions that put the callee of a call on the stack, with its marker. -/
def Layout.IsHead (callee : String) (is : List Instruction) : Layout → Prop
  | beneathCallee => ∃ i j, is = [i, j] ∧ i.opcode = .pushNull ∧
      j.opcode = .loadName ∧ j.name = .ok callee
  | aboveCallee => ∃ i j, is = [i, j] ∧ i.opcode = .loadName ∧ i.name = .ok callee ∧
      j.opcode = .pushNull
  | missing => ∃ i, is = [i] ∧ i.opcode = .loadName ∧ i.name = .ok callee

/-- What the head of a call pushes. -/
def Layout.over (callee : Value) (stack : List Value) : Layout → List Value
  | beneathCallee => callee :: .null :: stack
  | aboveCallee => .null :: callee :: stack
  | missing => callee :: stack

mutual

/-- The instructions are the postfix code of an expression, at whatever offsets. -/
def Expression.IsCode : Expression → List Instruction → Prop
  | .const v, is => ∃ i, is = [i] ∧ i.opcode = .loadConst ∧ i.constant = v
  | .name x, is => ∃ i, is = [i] ∧ i.opcode = .loadName ∧ i.name = .ok x
  | .operation op left right, is =>
    ∃ ls rs i, is = ls ++ (rs ++ [i]) ∧ left.IsCode ls ∧ right.IsCode rs ∧ op.IsAt i
  | .call layout callee args, is =>
    ∃ hs as i, is = hs ++ (as ++ [i]) ∧ layout.IsHead callee hs ∧
      Expression.IsCodeAll args as ∧ i.opcode = .call ∧ i.count = .ok args.length
termination_by structural e => e

def Expression.IsCodeAll : List Expression → List Instruction → Prop
  | [], is => is = []
  | e :: es, is => ∃ as bs, is = as ++ bs ∧ e.IsCode as ∧ Expression.IsCodeAll es bs
termination_by structural es => es

end

/-! ## Code in a frame -/

namespace Frame

/-- The instructions stand at the position of the frame. -/
def Holds (f : Frame) (is : List Instruction) : Prop :=
  is <+: f.code.instructions.drop f.pc

theorem Holds.left {f : Frame} {is js : List Instruction} (h : f.Holds (is ++ js)) :
    f.Holds is :=
  (List.prefix_append is js).trans h

/-- The second part stands where a frame is that has gone past the first. -/
theorem Holds.right {f f' : Frame} {is js : List Instruction} (h : f.Holds (is ++ js))
    (hcode : f'.code = f.code) (hpc : f'.pc = f.pc + is.length) : f'.Holds js := by
  obtain ⟨rest, hrest⟩ := h
  refine ⟨rest, ?_⟩
  rw [hcode, hpc, ← List.drop_drop, ← hrest, List.append_assoc, List.drop_left]

theorem Holds.head {f : Frame} {i : Instruction} {is : List Instruction}
    (h : f.Holds (i :: is)) : f.code.instructions[f.pc]? = some i := by
  obtain ⟨rest, hrest⟩ := h
  rw [← List.head?_drop, ← hrest]
  rfl

/-- A marker has been taken off the stack, or nothing has. -/
def DropsNull (stack rest : List Value) : Prop :=
  rest = stack ∨ stack = .null :: rest

/-- What the code of expressions does to a frame: it goes past `n` instructions and pushes
values, but may take a marker off before. -/
structure Pushes (f : Frame) (n : Nat) (vs : List Value) (f' : Frame) : Prop where
  code_eq : f'.code = f.code
  pc_eq : f'.pc = f.pc + n
  locals_eq : f'.locals = f.locals
  stack_eq : ∃ rest, f'.stack = vs.reverse ++ rest ∧ DropsNull f.stack rest

theorem DropsNull.eq_of_ne {stack rest : List Value} {v : Value} (hv : v ≠ .null)
    (h : DropsNull (v :: stack) rest) : rest = v :: stack := by
  rcases h with h | h
  · exact h
  · exact absurd (List.cons.inj h).1 hv

theorem DropsNull.eq_of_top {f : Frame} {rest : List Value} (htop : f.top? ≠ some .null)
    (h : DropsNull f.stack rest) : rest = f.stack := by
  rcases h with h | h
  · exact h
  · exact absurd (by simp [top?, h]) htop

/-- One value that is no marker keeps what is pushed later from taking another marker off. -/
theorem Pushes.trans {f f' f'' : Frame} {n k : Nat} {v : Value} {vs : List Value}
    (first : f.Pushes n [v] f') (hv : v ≠ .null) (rest : f'.Pushes k vs f'') :
    f.Pushes (n + k) (v :: vs) f'' := by
  obtain ⟨tail, hstack, htail⟩ := first.stack_eq
  obtain ⟨tail', hstack', htail'⟩ := rest.stack_eq
  rw [hstack] at htail'
  have htail' : tail' = v :: tail := htail'.eq_of_ne hv
  exact
    { code_eq := rest.code_eq.trans first.code_eq
      pc_eq := by rw [rest.pc_eq, first.pc_eq, Nat.add_assoc]
      locals_eq := rest.locals_eq.trans first.locals_eq
      stack_eq := ⟨tail, by rw [hstack', htail']; simp, htail⟩ }

/-! ## Instructions of expressions -/

theorem dropNull_eq (f : Frame) :
    ∃ rest, dropNull f = .ok () { f with stack := rest } ∧ DropsNull f.stack rest := by
  obtain ⟨code, pc, stack, locals, current⟩ := f
  unfold dropNull
  split
  · next rest h => exact ⟨rest, rfl, .inr h⟩
  · exact ⟨stack, rfl, .inl rfl⟩

/-- Where the marker of the call was not lost it is taken off, and where it was another one
may be. -/
theorem popCallee_of_over {layout : Layout} {callee : Value} {stack tail : List Value}
    (hcallee : callee ≠ .null) (h : DropsNull (layout.over callee stack) tail) (f : Frame)
    (hstack : f.stack = tail) :
    ∃ rest, popCallee f = .ok callee { f with stack := rest } ∧ DropsNull stack rest := by
  have hnot : callee.isNull = false := by
    cases hnull : callee.isNull with
    | false => rfl
    | true => exact absurd (Value.isNull_iff.1 hnull) hcallee
  obtain ⟨code, pc, _, locals, current⟩ := f
  subst hstack
  have hbare : ∀ stack', ∃ rest, popCallee ⟨code, pc, callee :: stack', locals, current⟩ =
      .ok callee ⟨code, pc, rest, locals, current⟩ ∧ DropsNull stack' rest := by
    intro stack'
    obtain ⟨rest, hdrop, hrest⟩ := dropNull_eq ⟨code, pc, stack', locals, current⟩
    refine ⟨rest, ?_, hrest⟩
    simp only [popCallee, bind, EStateM.bind, pop, hnot, Bool.false_eq_true, if_false, hdrop]
    rfl
  cases layout with
  | beneathCallee =>
    have htail := h.eq_of_ne hcallee
    simp only at htail
    subst htail
    exact ⟨stack, by simp [popCallee, bind, EStateM.bind, pop, hnot, dropNull]; rfl, .inl rfl⟩
  | aboveCallee =>
    rcases h with h | h
    · simp only [Layout.over] at h
      subst h
      exact ⟨stack, rfl, .inl rfl⟩
    · simp only [Layout.over, List.cons.injEq, true_and] at h
      subst h
      exact hbare stack
  | missing =>
    have htail := h.eq_of_ne hcallee
    simp only at htail
    subst htail
    exact hbare stack

theorem popCall_eq {f : Frame} {args tail rest : List Value} {callee : Value}
    (hstack : f.stack = args.reverse ++ tail)
    (hcallee : popCallee { f with stack := tail } = .ok callee { f with stack := rest }) :
    popCall args.length f = .ok (callee, args) { f with stack := rest } := by
  have hdepth : f.depth = args.length + tail.length := by simp [depth, hstack]
  have hpos : 0 < tail.length := by
    cases tail with
    | nil => cases hcallee
    | cons => exact Nat.succ_pos _
  have hrequire : require (args.length + 1) f = .ok () f :=
    if_neg (by omega)
  have hmany : popMany args.length f = .ok args { f with stack := tail } := by
    have htake : (args.reverse ++ tail).take args.length = args.reverse := by
      rw [← args.length_reverse, List.take_left]
    have hdrop : (args.reverse ++ tail).drop args.length = tail := by
      rw [← args.length_reverse, List.drop_left]
    unfold popMany
    rw [if_neg (by omega), hstack, htake, hdrop, List.reverse_reverse]
  simp only [popCall, bind, EStateM.bind, hrequire, hmany, hcallee]
  rfl

end Frame

namespace Machine

theorem exec_pushNull {i : Instruction} (h : i.opcode = .pushNull) (m : Machine) :
    exec i m = .ok .next { m with frame := m.frame.pushed .null } := by
  simp only [exec, h]
  rfl

theorem exec_loadConst {i : Instruction} (h : i.opcode = .loadConst) (m : Machine) :
    exec i m = .ok .next { m with frame := m.frame.pushed i.constant } := by
  simp only [exec, h]
  rfl

theorem exec_loadName {i : Instruction} {name : String} (h : i.opcode = .loadName)
    (hname : i.name = .ok name) (m : Machine) :
    exec i m =
      match m.lookup name with
      | .ok v => .ok .next { m with frame := m.frame.pushed v }
      | .error fault => .error fault m := by
  simp only [exec, h, hname, bind, EStateM.bind, lift_except, ofExcept, load]
  cases m.lookup name <;> rfl

/-- Two operands are replaced by the result, or consumed by a fault. -/
theorem binary_eq {apply : Value → Value → Except Fault Value} {m : Machine}
    {left right : Value} {rest : List Value} (hstack : m.frame.stack = right :: left :: rest) :
    binary apply m =
      match apply left right with
      | .ok v => .ok () { m with frame := { m.frame with stack := v :: rest } }
      | .error fault => .error fault { m with frame := { m.frame with stack := rest } } := by
  have hpair : Frame.popPair m.frame = .ok (left, right) { m.frame with stack := rest } := by
    simp only [Frame.popPair, hstack]
  simp only [binary, bind, EStateM.bind, lift_frame, onFrame, hpair, lift_except]
  cases apply left right <;> rfl

theorem binaryOp_eq (selector : Nat) :
    binaryOp selector = binary (Operation.binary selector).apply := by
  unfold binaryOp refuse
  cases h : Operator.ofSelector selector <;>
    exact congrArg binary (funext fun left => funext fun right => by simp only [Operation.apply, h])

theorem compareOp_eq (symbol : String) :
    compareOp symbol = binary (Operation.compare symbol).apply := by
  unfold compareOp refuse
  cases h : Comparator.ofSymbol? symbol <;>
    exact congrArg binary (funext fun left => funext fun right => by simp only [Operation.apply, h])

theorem exec_operation {i : Instruction} {op : Operation} (h : op.IsAt i) {m : Machine}
    {left right : Value} {rest : List Value} (hstack : m.frame.stack = right :: left :: rest) :
    exec i m =
      match op.apply left right with
      | .ok v => .ok .next { m with frame := { m.frame with stack := v :: rest } }
      | .error fault => .error fault { m with frame := { m.frame with stack := rest } } := by
  cases op with
  | binary selector =>
    obtain ⟨hop, hcount⟩ := h
    simp only [exec, hop, hcount, bind, EStateM.bind, lift_except, ofExcept, binaryOp_eq,
      binary_eq hstack]
    cases (Operation.binary selector).apply left right <;> rfl
  | compare symbol =>
    obtain ⟨hop, hsymbol⟩ := h
    simp only [exec, hop, hsymbol, bind, EStateM.bind, lift_except, ofExcept, compareOp_eq,
      binary_eq hstack]
    cases (Operation.compare symbol).apply left right <;> rfl

end Machine

/-! ## Running postfix code -/

theorem Engine.Act.bind_pure {α : Type} (act : Engine.Act α) : act >>= pure = act := by
  funext e
  simp only [bind, pure]
  split
  · next h => exact h.symm
  · next h => exact h.symm
  · next h => exact h.symm

namespace Machine

open Bytecode.Frame (Holds Pushes DropsNull)

variable {body : Machine → Option Outcome}

/-- Loading a name realizes finding its value. -/
theorem realizes_loadName {m : Machine} {i : Instruction} {x : String}
    (h : m.frame.code.instructions[m.frame.pc]? = some i) (hop : i.opcode = .loadName)
    (hname : i.name = .ok x) :
    Realizes (walk body 1 m) (fun v f => f = (m.frame.fetching i).pushed v)
      (Engine.find m.frame.locals x m.engine) := by
  have hexec := exec_loadName hop hname ⟨m.engine, m.frame.fetching i⟩
  unfold Engine.find
  unfold lookup Frame.local? at hexec
  simp only [Frame.fetching] at hexec
  split
  · next v hv =>
    rw [hv] at hexec
    exact realizes_of_next h hexec rfl
  · next hnone =>
    rw [hnone] at hexec
    cases hglobal : m.engine.global x with
    | ok v =>
      simp only [hglobal] at hexec
      exact realizes_of_next h hexec rfl
    | error fault =>
      simp only [hglobal] at hexec
      exact realizes_of_error h hexec

theorem realizes_operation {m : Machine} {i : Instruction} {op : Operation}
    {left right : Value} {rest : List Value}
    (h : m.frame.code.instructions[m.frame.pc]? = some i) (hop : op.IsAt i)
    (hstack : m.frame.stack = right :: left :: rest) :
    Realizes (walk body 1 m) (fun v f => f = { m.frame.fetching i with stack := v :: rest })
      (Engine.Act.ofResult (op.apply left right) m.engine) := by
  have hfetched : (m.frame.fetching i).stack = right :: left :: rest := hstack
  have hexec := exec_operation hop (m := ⟨m.engine, m.frame.fetching i⟩) hfetched
  unfold Engine.Act.ofResult
  cases happly : op.apply left right with
  | ok v =>
    rw [happly] at hexec
    exact realizes_of_next h hexec rfl
  | error fault =>
    rw [happly] at hexec
    exact realizes_of_error h hexec

/-- The head of a call realizes finding the callee. -/
theorem realizes_head {m : Machine} {layout : Layout} {callee : String} {hs : List Instruction}
    (hhead : layout.IsHead callee hs) (hplaced : m.frame.Holds hs) :
    Realizes (walk body hs.length m)
      (fun v f => f.code = m.frame.code ∧ f.pc = m.frame.pc + hs.length ∧
        f.locals = m.frame.locals ∧ f.stack = layout.over v m.frame.stack)
      (Engine.find m.frame.locals callee m.engine) := by
  cases layout with
  | beneathCallee =>
    obtain ⟨i, j, rfl, hi, hj, hname⟩ := hhead
    have hplaced : m.frame.Holds ([i] ++ [j]) := hplaced
    have hnull : Realizes (walk body 1 m) (fun _ f => f = (m.frame.fetching i).pushed .null)
        ((pure () : Engine.Act Unit) m.engine) :=
      realizes_of_next hplaced.left.head (exec_pushNull hi _) rfl
    show Realizes _ _ ((pure () >>= fun _ => Engine.find m.frame.locals callee) m.engine)
    refine realizes_bind hnull ?_
    rintro _ e f hpure rfl
    cases hpure
    have hnext : ((m.frame.fetching i).pushed .null).Holds [j] := hplaced.right rfl rfl
    refine (realizes_loadName hnext.head hj hname).mono ?_
    rintro v _ _ - rfl
    exact ⟨rfl, rfl, rfl, rfl⟩
  | aboveCallee =>
    obtain ⟨i, j, rfl, hi, hname, hj⟩ := hhead
    have hplaced : m.frame.Holds ([i] ++ [j]) := hplaced
    rw [← Engine.Act.bind_pure (Engine.find m.frame.locals callee)]
    refine realizes_bind (realizes_loadName hplaced.left.head hi hname) ?_
    rintro v e f - rfl
    have hnext : ((m.frame.fetching i).pushed v).Holds [j] := hplaced.right rfl rfl
    exact realizes_of_next hnext.head (exec_pushNull hj _) ⟨rfl, rfl, rfl, rfl⟩
  | missing =>
    obtain ⟨i, rfl, hi, hname⟩ := hhead
    refine (realizes_loadName hplaced.head hi hname).mono ?_
    rintro v _ _ - rfl
    exact ⟨rfl, rfl, rfl, rfl⟩

mutual

/-- The code of an expression realizes its evaluation, on any stack. -/
theorem realizes_code {locals : Option Environment} : ∀ (e : Expression) {is : List Instruction}
    {m : Machine}, e.IsCode is → m.frame.Holds is → m.frame.locals = locals →
    e.NullFree body locals m.engine →
    Realizes (walk body is.length m) (fun v f => m.frame.Pushes is.length [v] f)
      (e.eval body locals m.engine)
  | .const v, is, m, hcode, hplaced, _, _ => by
    obtain ⟨i, rfl, hi, rfl⟩ := hcode
    exact realizes_of_next hplaced.head (exec_loadConst hi _)
      ⟨rfl, rfl, rfl, m.frame.stack, rfl, .inl rfl⟩
  | .name x, is, m, hcode, hplaced, hlocals, _ => by
    obtain ⟨i, rfl, hi, hname⟩ := hcode
    subst hlocals
    refine (realizes_loadName hplaced.head hi hname).mono ?_
    rintro v _ _ - rfl
    exact ⟨rfl, rfl, rfl, m.frame.stack, rfl, .inl rfl⟩
  | .operation op left right, is, m, hcode, hplaced, hlocals, hfree => by
    obtain ⟨ls, rs, i, rfl, hl, hr, hop⟩ := hcode
    obtain ⟨hfreeL, hfreeR, -⟩ := hfree
    rw [List.length_append, List.length_append, List.length_singleton]
    refine realizes_bind (realizes_code left hl hplaced.left hlocals hfreeL) ?_
    intro a e f ha hf
    have hrest : f.Holds (rs ++ [i]) := hplaced.right hf.code_eq hf.pc_eq
    refine realizes_bind (realizes_code right hr hrest.left
      (hf.locals_eq.trans hlocals) (hfreeR a e ha)) ?_
    intro b e' f' hb hf'
    have hlast : f'.Holds [i] := hrest.right hf'.code_eq hf'.pc_eq
    have hboth := hf.trans (hfreeL.notNull.ne ha) hf'
    obtain ⟨rest, hstack, hdrops⟩ := hboth.stack_eq
    refine (realizes_operation hlast.head hop hstack).mono ?_
    rintro v _ _ - rfl
    refine ⟨hboth.code_eq, ?_, hboth.locals_eq, rest, rfl, hdrops⟩
    simp only [Frame.fetching, hboth.pc_eq]
    omega
  | .call layout callee args, is, m, hcode, hplaced, hlocals, hfree => by
    obtain ⟨hs, as, i, rfl, hhead, ha, hop, hcount⟩ := hcode
    obtain ⟨hfreeF, hfreeA, -⟩ := hfree
    subst hlocals
    rw [List.length_append, List.length_append, List.length_singleton]
    refine realizes_bind (realizes_head hhead hplaced.left) ?_
    rintro c e f hc ⟨hcode, hpc, hlocals, hstack⟩
    have hrest : f.Holds (as ++ [i]) := hplaced.right hcode hpc
    refine realizes_bind (realizes_codeAll args ha hrest.left hlocals (hfreeA c e hc)) ?_
    rintro vs e' f' hvs ⟨hlength, hf'⟩
    have hlast : f'.Holds [i] := hrest.right hf'.code_eq hf'.pc_eq
    obtain ⟨tail, hstack', hdrops⟩ := hf'.stack_eq
    rw [hstack] at hdrops
    obtain ⟨rest, hcallee, hrest⟩ := Frame.popCallee_of_over (hfreeF.ne hc) hdrops
      { f'.fetching i with stack := tail } rfl
    have hpop := Frame.popCall_eq (f := f'.fetching i) hstack' hcallee
    rw [hlength] at hpop
    refine (realizes_invoke hlast.head hop hcount hpop).mono ?_
    rintro v _ _ - rfl
    refine ⟨hf'.code_eq.trans hcode, ?_, hf'.locals_eq.trans hlocals, rest, rfl, hrest⟩
    simp only [Frame.fetching, Frame.pushed, hf'.pc_eq, hpc]
    omega

theorem realizes_codeAll {locals : Option Environment} : ∀ (es : List Expression)
    {is : List Instruction} {m : Machine}, Expression.IsCodeAll es is → m.frame.Holds is →
    m.frame.locals = locals → Expression.NullFreeAll body locals es m.engine →
    Realizes (walk body is.length m)
      (fun vs f => vs.length = es.length ∧ m.frame.Pushes is.length vs f)
      (Expression.evalAll body locals es m.engine)
  | [], is, m, hcode, _, _, _ => by
    have hcode : is = [] := hcode
    subst hcode
    exact ⟨m.frame, rfl, rfl, rfl, rfl, rfl, m.frame.stack, rfl, .inl rfl⟩
  | e :: es, is, m, hcode, hplaced, hlocals, hfree => by
    obtain ⟨as, bs, rfl, ha, hb⟩ := hcode
    obtain ⟨hfree, hfreeAll⟩ := hfree
    rw [List.length_append]
    refine realizes_bind (realizes_code e ha hplaced.left hlocals hfree) ?_
    intro v e' f hv hf
    have hrest : f.Holds bs := hplaced.right hf.code_eq hf.pc_eq
    show Realizes (walk body (bs.length + 0) _) _ _
    refine realizes_bind (realizes_codeAll es hb hrest (hf.locals_eq.trans hlocals)
      (hfreeAll v e' hv)) ?_
    rintro vs e'' f' - ⟨hlength, hf'⟩
    exact ⟨f', rfl, by rw [List.length_cons, List.length_cons, hlength],
      hf.trans (hfree.notNull.ne hv) hf'⟩

end

/-- On a stack without a marker on top, the postfix code of an expression does what the
evaluator does, for every choice of layouts: it fails with the same fault, or does not end
either, or pushes the value on an otherwise unchanged stack and leaves the same engine. -/
theorem postfix_realizes_eval {fuel : Nat} {e : Expression} {is : List Instruction}
    {m : Machine} (code : e.IsCode is) (placed : m.frame.Holds is)
    (unmarked : m.frame.top? ≠ some .null)
    (nullFree : e.NullFree (execute fuel) m.frame.locals m.engine) :
    Realizes (walk (execute fuel) is.length m)
      (fun v f => f.code = m.frame.code ∧ f.pc = m.frame.pc + is.length ∧
        f.locals = m.frame.locals ∧ f.stack = v :: m.frame.stack)
      (e.eval (execute fuel) m.frame.locals m.engine) := by
  refine (realizes_code e code placed rfl nullFree).mono ?_
  intro v e' f _ hf
  obtain ⟨rest, hstack, hdrops⟩ := hf.stack_eq
  refine ⟨hf.code_eq, hf.pc_eq, hf.locals_eq, ?_⟩
  rw [hstack, hdrops.eq_of_top unmarked]
  rfl

/-- The inner call takes the marker of the outer one, which is written above its callee. -/
theorem postfix_realizes_eval_len_str :
    let is : List Instruction :=
      [⟨0, .loadName, none, some (.str "len")⟩, ⟨2, .pushNull, none, none⟩,
        ⟨4, .loadName, none, some (.str "str")⟩, ⟨6, .call, some 0, none⟩,
        ⟨8, .call, some 1, none⟩]
    let e : Expression := .call .aboveCallee "len" [.call .missing "str" []]
    let m : Machine := ⟨.fresh .standard .unlimited, .ofModule ⟨"", 0, [], is, ⟨[]⟩⟩⟩
    e.IsCode is ∧ m.frame.Holds is ∧ m.frame.top? ≠ some .null ∧
      e.NullFree (execute 0) m.frame.locals m.engine ∧
      ∃ f, walk (execute 0) is.length m = some (.ok none ⟨m.engine, f⟩) ∧ f.stack = [.int 0] := by
  intro is e m
  have code : e.IsCode is :=
    ⟨[_, _], [_, _], _, rfl, ⟨_, _, rfl, rfl, rfl, rfl⟩,
      ⟨[_, _], [], rfl, ⟨[_], [], _, rfl, ⟨_, rfl, rfl, rfl⟩, rfl, rfl, rfl⟩, rfl⟩, rfl, rfl⟩
  have placed : m.frame.Holds is := List.prefix_refl is
  have unmarked : m.frame.top? ≠ some .null := nofun
  have nullFree : e.NullFree (execute 0) m.frame.locals m.engine := by
    refine ⟨nofun, ?_, nofun⟩
    intro f e' hfind
    cases hfind
    exact ⟨⟨nofun, fun _ _ _ => trivial, nofun⟩, fun _ _ _ => trivial⟩
  have h := postfix_realizes_eval code placed unmarked nullFree
  have heval : e.eval (execute 0) m.frame.locals m.engine = some (.ok (.int 0) m.engine) := by
    rfl
  rw [heval] at h
  obtain ⟨f, hrun, -, -, -, hstack⟩ := h
  exact ⟨code, placed, unmarked, nullFree, f, hrun, hstack⟩

end Machine

end Bytecode
