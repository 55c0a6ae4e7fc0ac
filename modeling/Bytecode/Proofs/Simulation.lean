import Bytecode.Proofs.Step

set_option autoImplicit false

/-!
# Acts that do the same in related states

`Simulates R act act'` says that two acts give the same result in states that `R`
relates, or faults of the same category, and leave states that `R` relates.

An instruction depends on the frame it is carried out in through the operands and the
local names alone, jumps apart.  So for every relation of frames that is `Congruent`,
in that it takes equal operands and names to be equal and nothing else of them to
matter, instructions of the same opcode and operands simulate each other.

Main statement: `exec_simulates`.
-/

namespace Bytecode

/-- Two results that agree: the same value or the same category of fault, and states that are
related. -/
inductive Alike {σ α : Type} (R : σ → σ → Prop) :
    EStateM.Result Fault σ α → EStateM.Result Fault σ α → Prop where
  | ok {a : α} {s s' : σ} (related : R s s') : Alike R (.ok a s) (.ok a s')
  | error {fault fault' : Fault} {s s' : σ} (category_eq : fault.category = fault'.category)
      (related : R s s') : Alike R (.error fault s) (.error fault' s')

/-- Two acts have results that agree in related states. -/
def Simulates {σ α : Type} (R : σ → σ → Prop) (act act' : EStateM Fault σ α) : Prop :=
  ∀ s s', R s s' → Alike R (act s) (act' s')

namespace Simulates

variable {σ α β : Type} {R : σ → σ → Prop}

theorem pure (a : α) : Simulates R (Pure.pure a) (Pure.pure a) :=
  fun _ _ h => .ok h

theorem throw {fault fault' : Fault} (h : fault.category = fault'.category) :
    Simulates R (MonadExcept.throw fault : EStateM Fault σ α) (MonadExcept.throw fault') :=
  fun _ _ hR => .error h hR

theorem bind {act act' : EStateM Fault σ α} {next next' : α → EStateM Fault σ β}
    (first : Simulates R act act') (rest : ∀ a, Simulates R (next a) (next' a)) :
    Simulates R (act >>= next) (act' >>= next') := by
  intro s s' h
  have hfirst := first s s' h
  simp only [Bind.bind, EStateM.bind]
  generalize act s = r, act' s' = r' at hfirst ⊢
  cases hfirst with
  | ok related => exact rest _ _ _ related
  | error category_eq related => exact .error category_eq related

theorem get_bind {next next' : σ → EStateM Fault σ α}
    (rest : ∀ s s', R s s' → Simulates R (next s) (next' s')) :
    Simulates R (get >>= next) (get >>= next') :=
  fun s s' h => rest s s' h s s' h

theorem throw_bind {fault fault' : Fault} (h : fault.category = fault'.category)
    {next next' : α → EStateM Fault σ β} :
    Simulates R (MonadExcept.throw fault >>= next) (MonadExcept.throw fault' >>= next') :=
  fun _ _ hR => .error h hR

theorem ofExcept (result : Except Fault α) :
    Simulates R (ofExcept result) (Bytecode.ofExcept result) := by
  intro s s' h
  cases result with
  | ok a => exact .ok h
  | error fault => exact .error rfl h

theorem ofExcept_error {fault fault' : Fault} (h : fault.category = fault'.category) :
    Simulates R (Bytecode.ofExcept (.error fault : Except Fault α))
      (Bytecode.ofExcept (.error fault')) :=
  fun _ _ hR => .error h hR

theorem ite (p : Prop) [Decidable p] {yes yes' no no' : EStateM Fault σ α}
    (hyes : Simulates R yes yes') (hno : Simulates R no no') :
    Simulates R (if p then yes else no) (if p then yes' else no') := by
  split
  · exact hyes
  · exact hno

end Simulates

/-! ## Frames -/

/-- Frames are told apart by their operands and local names, and otherwise by nothing that
the operands and names have to do with. -/
structure Congruent (R : Frame → Frame → Prop) : Prop where
  stack_eq : ∀ {f f'}, R f f' → f.stack = f'.stack
  locals_eq : ∀ {f f'}, R f f' → f.locals = f'.locals
  setStack : ∀ {f f'} (stack), R f f' → R { f with stack := stack } { f' with stack := stack }
  setLocals : ∀ {f f'} (locals),
    R f f' → R { f with locals := locals } { f' with locals := locals }

namespace Frame

variable {R : Frame → Frame → Prop}

theorem category_underflow (f : Frame) (needed : Nat) :
    (f.underflow needed).category = .stackUnderflow := by
  unfold underflow
  split <;> rfl

theorem category_underflow_eq (f f' : Frame) (needed needed' : Nat) :
    (f.underflow needed).category = (f'.underflow needed').category :=
  (f.category_underflow needed).trans (f'.category_underflow needed').symm

variable (hR : Congruent R)

include hR

theorem push_simulates (v : Value) : Simulates R (push v) (push v) := by
  intro f f' h
  unfold push pushed
  rw [hR.stack_eq h]
  exact .ok (hR.setStack _ h)

theorem pop_simulates : Simulates R pop pop := by
  intro f f' h
  unfold pop
  rw [hR.stack_eq h]
  split
  · exact .error (category_underflow_eq ..) h
  · exact .ok (hR.setStack _ h)

theorem popPair_simulates : Simulates R popPair popPair := by
  intro f f' h
  unfold popPair
  rw [hR.stack_eq h]
  split
  · exact .ok (hR.setStack _ h)
  · exact .error (category_underflow_eq ..) h

theorem require_simulates (needed : Nat) : Simulates R (require needed) (require needed) := by
  intro f f' h
  unfold require depth
  rw [hR.stack_eq h]
  split
  · exact .error (category_underflow_eq ..) h
  · exact .ok h

theorem popMany_simulates (n : Nat) : Simulates R (popMany n) (popMany n) := by
  intro f f' h
  unfold popMany depth
  rw [hR.stack_eq h]
  split
  · exact .error (category_underflow_eq ..) h
  · exact .ok (hR.setStack _ h)

theorem dropNull_simulates : Simulates R dropNull dropNull := by
  intro f f' h
  unfold dropNull
  rw [hR.stack_eq h]
  split
  · exact .ok (hR.setStack _ h)
  · exact .ok h

theorem popCallee_simulates : Simulates R popCallee popCallee :=
  (pop_simulates hR).bind fun _ =>
    .ite _ (pop_simulates hR) ((dropNull_simulates hR).bind fun _ => .pure _)

theorem popCall_simulates (argc : Nat) : Simulates R (popCall argc) (popCall argc) :=
  (require_simulates hR _).bind fun _ => (popMany_simulates hR _).bind fun _ =>
    (popCallee_simulates hR).bind fun _ => .pure _

theorem loadLocal_simulates (name : String) :
    Simulates R (loadLocal name) (loadLocal name) := by
  intro f f' h
  unfold loadLocal local?
  rw [hR.locals_eq h]
  split
  · exact .ok h
  · exact .error rfl h

theorem dropName_simulates : Simulates R dropName dropName := by
  refine .get_bind fun f f' h => ?_
  unfold top?
  rw [hR.stack_eq h]
  split
  · exact (require_simulates hR 2).bind fun _ => (pop_simulates hR).bind fun _ => .pure _
  · exact .pure _

/-- The offset shows in a fault only, and not in its category. -/
theorem makeFunction_simulates {i i' : Instruction} (harg : i'.arg = i.arg) :
    Simulates R (makeFunction i) (makeFunction i') := by
  unfold makeFunction
  rw [harg]
  refine .ite (i.arg.getD 0 ≠ 0) ?_ ?_
  · apply Simulates.throw_bind
    rfl
  · refine (dropName_simulates hR).bind fun _ => (pop_simulates hR).bind fun v => ?_
    cases v with
    | code c => exact push_simulates hR _
    | _ => exact .throw rfl

end Frame

/-! ## Machines -/

/-- Equal engines at work on related frames. -/
structure Paired (R : Frame → Frame → Prop) (m m' : Machine) : Prop where
  engine_eq : m.engine = m'.engine
  frame : R m.frame m'.frame

namespace Machine

variable {R : Frame → Frame → Prop}

theorem lift_frame_simulates {α : Type} {act act' : Frame.Act α} (h : Simulates R act act') :
    Simulates (Paired R) (liftM act : Act α) (liftM act') := by
  intro m m' hm
  simp only [lift_frame, onFrame]
  have hact := h _ _ hm.frame
  generalize act m.frame = r, act' m'.frame = r' at hact ⊢
  cases hact with
  | ok related => exact .ok ⟨hm.engine_eq, related⟩
  | error category_eq related => exact .error category_eq ⟨hm.engine_eq, related⟩

theorem lift_sink_simulates {α : Type} (act : EStateM Fault Sink α) :
    Simulates (Paired R) (liftM act : Act α) (liftM act) := by
  intro m m' hm
  simp only [lift_sink, onSink, hm.engine_eq]
  cases act m'.engine.sink with
  | ok a sink => exact .ok ⟨rfl, hm.frame⟩
  | error fault sink => exact .error rfl ⟨rfl, hm.frame⟩

theorem lift_except_simulates {α : Type} (result : Except Fault α) :
    Simulates (Paired R) (liftM result : Act α) (liftM result) :=
  Simulates.ofExcept result

variable (hR : Congruent R)

include hR

theorem load_simulates (name : String) : Simulates (Paired R) (load name) (load name) := by
  intro m m' hm
  have hlookup : m.lookup name = m'.lookup name := by
    unfold lookup Frame.local?
    rw [hR.locals_eq hm.frame, hm.engine_eq]
  unfold load
  rw [hlookup]
  split
  · exact .ok hm
  · exact .error rfl hm

theorem store_simulates (name : String) (v : Value) :
    Simulates (Paired R) (store name v) (store name v) := by
  intro m m' hm
  unfold store bound Frame.bound?
  rw [hR.locals_eq hm.frame, hm.engine_eq]
  cases m'.frame.locals with
  | none => exact .ok ⟨rfl, hm.frame⟩
  | some env => exact .ok ⟨rfl, hR.setLocals _ hm.frame⟩

omit hR in
theorem loadGlobal_simulates (name : String) :
    Simulates (Paired R) (loadGlobal name) (loadGlobal name) := by
  intro m m' hm
  unfold loadGlobal
  rw [hm.engine_eq]
  split
  · exact .ok hm
  · exact .error rfl hm

omit hR in
theorem storeGlobal_simulates (name : String) (v : Value) :
    Simulates (Paired R) (storeGlobal name v) (storeGlobal name v) := by
  intro m m' hm
  unfold storeGlobal
  rw [hm.engine_eq]
  exact .ok ⟨rfl, hm.frame⟩

theorem binary_simulates (apply : Value → Value → Except Fault Value) :
    Simulates (Paired R) (binary apply) (binary apply) :=
  (lift_frame_simulates (Frame.popPair_simulates hR)).bind fun _ =>
    (lift_except_simulates _).bind fun v => lift_frame_simulates (Frame.push_simulates hR v)

theorem binaryOp_simulates (selector : Nat) :
    Simulates (Paired R) (binaryOp selector) (binaryOp selector) := by
  unfold binaryOp
  split <;> exact binary_simulates hR _

theorem compareOp_simulates (symbol : String) :
    Simulates (Paired R) (compareOp symbol) (compareOp symbol) := by
  unfold compareOp
  split <;> exact binary_simulates hR _

theorem invoke_simulates (callee : Value) (args : List Value) :
    Simulates (Paired R) (invoke callee args) (invoke callee args) := by
  cases callee with
  | builtin b =>
    exact (lift_sink_simulates _).bind fun v =>
      (lift_frame_simulates (Frame.push_simulates hR v)).bind fun _ => .pure _
  | function code =>
    intro m m' hm
    rw [invoke_function, invoke_function, hm.engine_eq]
    cases m'.engine.calleeFrame code args with
    | ok frame => exact .ok hm
    | error fault => exact .error rfl hm
  | _ => exact .throw rfl

theorem call_simulates (argc : Nat) : Simulates (Paired R) (call argc) (call argc) :=
  (lift_frame_simulates (Frame.popCall_simulates hR argc)).bind fun found =>
    invoke_simulates hR found.1 found.2

end Machine

/-! ## Instructions -/

/-- Instructions of the same opcode and operands, which may stand at different offsets.  Jumps
may have different operands. -/
structure Instruction.SameOperation (i i' : Instruction) : Prop where
  opcode_eq : i'.opcode = i.opcode
  arg_eq : i.opcode.isJump = false → i'.arg = i.arg
  argval_eq : i.opcode.isJump = false → i'.argval = i.argval

namespace Instruction

/-- The operand of both, or a fault of the same category that it is not there. -/
theorem name_simulates {i i' : Instruction} (h : i'.argval = i.argval) {σ : Type}
    {R : σ → σ → Prop} : Simulates R (ofExcept i.name) (ofExcept i'.name) := by
  unfold name
  rw [h]
  split
  · exact .pure _
  · exact .ofExcept_error rfl

theorem namePair_simulates {i i' : Instruction} (h : i'.argval = i.argval) {σ : Type}
    {R : σ → σ → Prop} : Simulates R (ofExcept i.namePair) (ofExcept i'.namePair) := by
  unfold namePair
  rw [h]
  split
  · exact .pure _
  · exact .ofExcept_error rfl

theorem symbol_simulates {i i' : Instruction} (h : i'.argval = i.argval) {σ : Type}
    {R : σ → σ → Prop} : Simulates R (ofExcept i.symbol) (ofExcept i'.symbol) := by
  unfold symbol
  rw [h]
  split
  · exact .pure _
  · exact .ofExcept_error rfl

theorem count_simulates {i i' : Instruction} (h : i'.arg = i.arg) {σ : Type}
    {R : σ → σ → Prop} : Simulates R (ofExcept i.count) (ofExcept i'.count) := by
  unfold count
  rw [h]
  split
  · exact .pure _
  · exact .ofExcept_error rfl

end Instruction

namespace Machine

variable {R : Frame → Frame → Prop}

/-- Instructions of the same operation do the same in related frames, if those that jump, and
the end of the frame, do. -/
theorem exec_simulates (hR : Congruent R) {i i' : Instruction} (same : i.SameOperation i')
    (finish : ∀ {f f'}, R f f' → R f.finished f'.finished)
    (jump : i.opcode.isJump → i.opcode ≠ .forIter →
      Simulates R (Frame.jump i) (Frame.jump i'))
    (loop : i.opcode = .forIter → Simulates R (forIter i) (forIter i')) :
    Simulates (Paired R) (exec i) (exec i') := by
  have hfinish : Simulates R Frame.finish Frame.finish := fun f f' h => .ok (finish h)
  have hpop := lift_frame_simulates (Frame.pop_simulates hR)
  have hpush : ∀ v, Simulates (Paired R) (liftM (Frame.push v)) (liftM (Frame.push v)) :=
    fun v => lift_frame_simulates (Frame.push_simulates hR v)
  unfold exec
  rw [same.opcode_eq]
  cases hop : i.opcode with
  | nop => exact .pure _
  | endFor => exact .pure _
  | pushNull => exact (hpush _).bind fun _ => .pure _
  | loadConst =>
    have hconst : i'.constant = i.constant := by
      simp only [Instruction.constant, same.argval_eq (by rw [hop]; rfl)]
    rw [hconst]
    exact (hpush _).bind fun _ => .pure _
  | loadName =>
    have hname := Instruction.name_simulates (R := Paired R) (same.argval_eq (by rw [hop]; rfl))
    exact hname.bind fun name => (load_simulates hR name).bind fun v =>
      (hpush v).bind fun _ => .pure _
  | loadGlobal =>
    have hname := Instruction.name_simulates (R := Paired R) (same.argval_eq (by rw [hop]; rfl))
    have hwants : wantsNull i' = wantsNull i := by
      simp only [wantsNull, same.arg_eq (by rw [hop]; rfl)]
    refine hname.bind fun name => (loadGlobal_simulates name).bind fun v => ?_
    rw [hwants]
    refine .ite _ ?_ ?_
    · exact (hpush _).bind fun _ => (hpush v).bind fun _ => .pure _
    · exact (hpush v).bind fun _ => .pure _
  | loadFast =>
    have hname := Instruction.name_simulates (R := Paired R) (same.argval_eq (by rw [hop]; rfl))
    exact hname.bind fun name =>
      (lift_frame_simulates (Frame.loadLocal_simulates hR name)).bind fun v =>
        (hpush v).bind fun _ => .pure _
  | loadFastPair =>
    have hpair := Instruction.namePair_simulates (R := Paired R) (same.argval_eq (by rw [hop]; rfl))
    exact hpair.bind fun names =>
      (lift_frame_simulates (Frame.loadLocal_simulates hR names.1)).bind fun v =>
        (lift_frame_simulates (Frame.loadLocal_simulates hR names.2)).bind fun w =>
          (hpush v).bind fun _ => (hpush w).bind fun _ => .pure _
  | storeName | storeFast =>
    have hname := Instruction.name_simulates (R := Paired R) (same.argval_eq (by rw [hop]; rfl))
    exact hname.bind fun name => hpop.bind fun v =>
      (store_simulates hR name v).bind fun _ => .pure _
  | storeGlobal =>
    have hname := Instruction.name_simulates (R := Paired R) (same.argval_eq (by rw [hop]; rfl))
    exact hname.bind fun name => hpop.bind fun v =>
      (storeGlobal_simulates name v).bind fun _ => .pure _
  | binaryAdd => exact (binary_simulates hR _).bind fun _ => .pure _
  | binaryOp =>
    have hcount := Instruction.count_simulates (R := Paired R) (same.arg_eq (by rw [hop]; rfl))
    exact hcount.bind fun selector => (binaryOp_simulates hR selector).bind fun _ => .pure _
  | compareOp =>
    have hsymbol := Instruction.symbol_simulates (R := Paired R) (same.argval_eq (by rw [hop]; rfl))
    exact hsymbol.bind fun symbol => (compareOp_simulates hR symbol).bind fun _ => .pure _
  | getIter =>
    exact hpop.bind fun v => (lift_except_simulates _).bind fun c =>
      (hpush _).bind fun _ => .pure _
  | forIter => exact (lift_frame_simulates (loop hop)).bind fun _ => .pure _
  | jump =>
    have hjump := jump (by rw [hop]; rfl) (by rw [hop]; nofun)
    exact (lift_frame_simulates hjump).bind fun _ => .pure _
  | popJumpIfFalse | popJumpIfTrue =>
    have hjump := jump (by rw [hop]; rfl) (by rw [hop]; nofun)
    refine (lift_frame_simulates ?_).bind fun _ => .pure _
    exact (Frame.pop_simulates hR).bind fun v => .ite _ hjump (.pure _)
  | call =>
    have hcount := Instruction.count_simulates (R := Paired R) (same.arg_eq (by rw [hop]; rfl))
    exact hcount.bind fun argc => call_simulates hR argc
  | makeFunction =>
    have harg : i'.arg = i.arg := same.arg_eq (by rw [hop]; rfl)
    exact (lift_frame_simulates (Frame.makeFunction_simulates hR harg)).bind fun _ => .pure _
  | popTop => exact hpop.bind fun _ => .pure _
  | returnValue =>
    exact hpop.bind fun v => (lift_frame_simulates hfinish).bind fun _ => .pure _
  | returnConst =>
    have hconst : i'.constant = i.constant := by
      simp only [Instruction.constant, same.argval_eq (by rw [hop]; rfl)]
    rw [hconst]
    exact (lift_frame_simulates hfinish).bind fun _ => .pure _

end Machine

end Bytecode
