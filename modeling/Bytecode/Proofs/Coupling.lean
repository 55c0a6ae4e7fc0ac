import Bytecode.Proofs.Inventory
import Bytecode.Proofs.Passage

set_option autoImplicit false

/-!
# Two runs side by side

A `Coupling` says when two engines are alike, and when a fault of the second is a refusal: one
that only comes about because it is the second.  Where the engines of two machines with the same
frame are alike, they stay alike with the same frame, instruction by instruction and through the
functions that are called, and both come to the same end, unless the second is refused.

Names that the engines do not agree on may only be looked up by code that never runs, so a
coupling comes with a criterion for the code that the machines work on.

Main statements: `Coupling.execute_agrees`, the two runs of machines, `Coupling.call_agrees`, two
calls of a value, and `Coupling.agrees_of_ends`, the runs of code at the top level.
-/

namespace Bytecode

/-! ## Acts that do the same -/

/-- The same value or the same fault, and states that are related. -/
inductive Same {σ α : Type} (R : σ → σ → Prop) :
    EStateM.Result Fault σ α → EStateM.Result Fault σ α → Prop where
  | ok {a : α} {s s' : σ} (related : R s s') : Same R (.ok a s) (.ok a s')
  | error {fault : Fault} {s s' : σ} (related : R s s') :
      Same R (.error fault s) (.error fault s')

/-- The same, or the second is refused, whatever has become of the first. -/
inductive Agree {σ α : Type} (R : σ → σ → Prop) (refuses : σ → Fault → σ → Prop) :
    EStateM.Result Fault σ α → EStateM.Result Fault σ α → Prop where
  | same {result result' : EStateM.Result Fault σ α} (same : Same R result result') :
      Agree R refuses result result'
  | refused {result : EStateM.Result Fault σ α} {fault : Fault} {s' : σ}
      (refusal : refuses (finalState result) fault s') : Agree R refuses result (.error fault s')

/-- The act does the same in related states. -/
def Respects {σ α : Type} (R : σ → σ → Prop) (act : EStateM Fault σ α) : Prop :=
  ∀ s s', R s s' → Same R (act s) (act s')

namespace Respects

variable {σ α β : Type} {R : σ → σ → Prop}

theorem pure (a : α) : Respects R (Pure.pure a) :=
  fun _ _ related => .ok related

theorem bind {act : EStateM Fault σ α} {next : α → EStateM Fault σ β} (first : Respects R act)
    (rest : ∀ a, Respects R (next a)) : Respects R (act >>= next) := by
  intro s s' related
  have hfirst := first s s' related
  simp only [Bind.bind, EStateM.bind]
  generalize act s = r, act s' = r' at hfirst ⊢
  cases hfirst with
  | ok related => exact rest _ _ _ related
  | error related => exact .error related

theorem ofExcept (result : Except Fault α) : Respects R (ofExcept result) := by
  intro s s' related
  cases result with
  | ok a => exact .ok related
  | error fault => exact .error related

/-- A result that does not depend on the state comes before what is left to do. -/
theorem ofExcept_bind {result : Except Fault α} {next : α → EStateM Fault σ β}
    (rest : ∀ a, result = .ok a → Respects R (next a)) :
    Respects R (Bytecode.ofExcept result >>= next) := by
  cases result with
  | ok a => exact rest a rfl
  | error fault => exact fun _ _ related => .error related

theorem ite (p : Prop) [Decidable p] {yes no : EStateM Fault σ α} (hyes : Respects R yes)
    (hno : Respects R no) : Respects R (if p then yes else no) := by
  split
  · exact hyes
  · exact hno

end Respects

/-- The outcome with another engine. -/
def Outcome.onEngine (f : Engine → Engine) : Outcome → Outcome
  | .ok v e => .ok v (f e)
  | .error fault e => .error fault (f e)

/-! ## Couplings -/

/-- The instruction looks this name up among the global names. -/
def Instruction.Reads (i : Instruction) (x : String) : Prop :=
  (i.opcode = .loadName ∨ i.opcode = .loadGlobal) ∧ i.name = .ok x

/-- When engines are alike, and which faults on the second one are refusals, given the output of
both. -/
structure Coupling where
  alike : Engine → Engine → Prop
  refuses : Sink → Fault → Sink → Prop
  /-- What is asked of the code that is run. -/
  criterion : Criterion
  global_eq : ∀ {e e' : Engine} {code : Code} {i : Instruction} {x : String}, alike e e' →
    criterion.code code → i ∈ code.instructions → i.Reads x → e.global x = e'.global x
  setGlobal : ∀ {e e' : Engine} (x : String) (v : Value), alike e e' →
    alike (e.setGlobal x v) (e'.setGlobal x v)
  entered : ∀ {e e' : Engine}, alike e e' → alike e.entered e'.entered
  exited : ∀ {e e' : Engine}, alike e e' → alike e.exited e'.exited
  write : ∀ {e e' : Engine} (bytes : List UInt8), alike e e' →
    Agree (fun sink sink' => alike { e with sink := sink } { e' with sink := sink' }) refuses
      (Sink.write bytes e.sink) (Sink.write bytes e'.sink)
  calleeFrame : ∀ {e e' : Engine} (code : Code) (args : List Value), alike e e' →
    e'.calleeFrame code args = e.calleeFrame code args ∨
      ∃ fault, e'.calleeFrame code args = .error fault ∧ refuses e.sink fault e'.sink
  flush_eq : ∀ {e e' : Engine}, alike e e' → e'.sink.flush = e.sink.flush
  /-- A refusal stays one whatever else is written on the first engine. -/
  refuses_of_precedes : ∀ {sink later sink' : Sink} {fault : Fault}, refuses sink fault sink' →
    sink.Precedes later → refuses later fault sink'

namespace Coupling

variable (C : Coupling)

/-- Engines that are alike, at work on the same frame. -/
structure Pairs (m m' : Machine) : Prop where
  frame_eq : m.frame = m'.frame
  engine : C.alike m.engine m'.engine

/-- Engines that are alike have the same under this global name. -/
def Sees (x : String) : Prop :=
  ∀ e e' : Engine, C.alike e e' → e.global x = e'.global x

/-- Results of an act of machines agree. -/
abbrev Agrees {α : Type} : EStateM.Result Fault Machine α → EStateM.Result Fault Machine α → Prop :=
  Agree C.Pairs fun m fault m' => C.refuses m.engine.sink fault m'.engine.sink

/-- Ends of runs agree. -/
abbrev AgreesAtEnd : Outcome → Outcome → Prop :=
  Agree C.alike fun e fault e' => C.refuses e.sink fault e'.sink

variable {C}

/-! ### Instructions -/

theorem respects_frame {α : Type} (act : Frame.Act α) :
    Respects C.Pairs (liftM act : Machine.Act α) := by
  intro m m' h
  simp only [Machine.lift_frame, Machine.onFrame, h.frame_eq]
  cases act m'.frame with
  | ok a f => exact .ok ⟨rfl, h.engine⟩
  | error fault f => exact .error ⟨rfl, h.engine⟩

theorem respects_except {α : Type} (result : Except Fault α) :
    Respects C.Pairs (liftM result : Machine.Act α) :=
  .ofExcept result

theorem respects_loadGlobal {x : String} (sees : C.Sees x) :
    Respects C.Pairs (Machine.loadGlobal x) := by
  intro m m' h
  rw [Machine.loadGlobal_eq, Machine.loadGlobal_eq, sees _ _ h.engine]
  exact Respects.ofExcept _ _ _ h

theorem respects_load {x : String} (sees : C.Sees x) : Respects C.Pairs (Machine.load x) := by
  intro m m' h
  have hlookup : m.lookup x = m'.lookup x := by
    unfold Machine.lookup
    rw [h.frame_eq, sees _ _ h.engine]
  rw [Machine.load_eq, Machine.load_eq, hlookup]
  exact Respects.ofExcept _ _ _ h

theorem respects_store (x : String) (v : Value) : Respects C.Pairs (Machine.store x v) := by
  intro m m' h
  unfold Machine.store Machine.bound
  rw [h.frame_eq]
  split
  · exact .ok ⟨rfl, h.engine⟩
  · exact .ok ⟨rfl, C.setGlobal x v h.engine⟩

theorem respects_storeGlobal (x : String) (v : Value) :
    Respects C.Pairs (Machine.storeGlobal x v) :=
  fun _ _ h => .ok ⟨h.frame_eq, C.setGlobal x v h.engine⟩

theorem respects_binary (apply : Value → Value → Except Fault Value) :
    Respects C.Pairs (Machine.binary apply) :=
  (respects_frame _).bind fun _ => (respects_except _).bind fun _ => respects_frame _

/-- Calls apart, an instruction does the same where the engines are alike. -/
theorem respects_exec {i : Instruction} (hop : i.opcode ≠ .call)
    (sees : ∀ x, i.Reads x → C.Sees x) : Respects C.Pairs (Machine.exec i) := by
  have hpush : ∀ v, Respects C.Pairs (liftM (Frame.push v)) := fun v => respects_frame _
  have hpop : Respects C.Pairs (liftM Frame.pop) := respects_frame _
  unfold Machine.exec
  cases hcode : i.opcode with
  | nop | endFor => exact .pure _
  | pushNull | loadConst => exact (hpush _).bind fun _ => .pure _
  | loadName =>
    refine .ofExcept_bind fun x hname => ?_
    exact (respects_load (sees x ⟨.inl hcode, hname⟩)).bind fun v => (hpush v).bind fun _ => .pure _
  | loadGlobal =>
    refine .ofExcept_bind fun x hname => ?_
    refine (respects_loadGlobal (sees x ⟨.inr hcode, hname⟩)).bind fun v => ?_
    refine .ite _ ?_ ?_
    · exact (hpush _).bind fun _ => (hpush v).bind fun _ => .pure _
    · exact (hpush v).bind fun _ => .pure _
  | loadFast =>
    refine (respects_except _).bind fun x => (respects_frame _).bind fun v => ?_
    exact (hpush v).bind fun _ => .pure _
  | loadFastPair =>
    refine (respects_except _).bind fun names => ?_
    refine (respects_frame _).bind fun v => (respects_frame _).bind fun w => ?_
    exact (hpush v).bind fun _ => (hpush w).bind fun _ => .pure _
  | storeName | storeFast =>
    refine (respects_except _).bind fun x => hpop.bind fun v => ?_
    exact (respects_store x v).bind fun _ => .pure _
  | storeGlobal =>
    refine (respects_except _).bind fun x => hpop.bind fun v => ?_
    exact (respects_storeGlobal x v).bind fun _ => .pure _
  | binaryAdd => exact (respects_binary _).bind fun _ => .pure _
  | binaryOp =>
    refine (respects_except _).bind fun selector => .bind ?_ fun _ => .pure _
    unfold Machine.binaryOp
    split <;> exact respects_binary _
  | compareOp =>
    refine (respects_except _).bind fun symbol => .bind ?_ fun _ => .pure _
    unfold Machine.compareOp
    split <;> exact respects_binary _
  | getIter =>
    refine hpop.bind fun v => (respects_except _).bind fun c => ?_
    exact (hpush _).bind fun _ => .pure _
  | forIter | jump | popJumpIfFalse | popJumpIfTrue | makeFunction =>
    exact (respects_frame _).bind fun _ => .pure _
  | call => exact absurd hcode hop
  | popTop => exact hpop.bind fun _ => .pure _
  | returnValue => exact hpop.bind fun v => (respects_frame _).bind fun _ => .pure _
  | returnConst => exact (respects_frame _).bind fun _ => .pure _

/-! ### Calls -/

theorem builtin_agrees {e e' : Engine} (h : C.alike e e') (b : Builtin) (args : List Value) :
    Agree (fun sink sink' => C.alike { e with sink := sink } { e' with sink := sink' }) C.refuses
      (b.call args e.sink) (b.call args e'.sink) := by
  have hwrite := C.write (b.written args) h
  simp only [Builtin.call, bind, EStateM.bind]
  generalize Sink.write (b.written args) e.sink = r,
    Sink.write (b.written args) e'.sink = r' at hwrite ⊢
  cases hwrite with
  | same same =>
    cases same with
    | ok related => exact .same (Respects.ofExcept _ _ _ related)
    | error related => exact .same (.error related)
  | refused refusal =>
    refine .refused ?_
    cases r with
    | error fault sink => exact refusal
    | ok u sink => cases hresult : b.result args <;> exact refusal

theorem invoke_agrees {m m' : Machine} (h : C.Pairs m m') (callee : Value) (args : List Value) :
    C.Agrees (Machine.invoke callee args m) (Machine.invoke callee args m') := by
  cases callee with
  | builtin b =>
    have hcall := builtin_agrees h.engine b args
    simp only [Machine.invoke, bind, EStateM.bind, Machine.lift_sink, Machine.onSink]
    generalize b.call args m.engine.sink = r, b.call args m'.engine.sink = r' at hcall ⊢
    cases hcall with
    | same same =>
      cases same with
      | ok related => exact .same (.ok ⟨congrArg (Frame.pushed · _) h.frame_eq, related⟩)
      | error related => exact .same (.error ⟨h.frame_eq, related⟩)
    | refused refusal =>
      cases r with
      | ok v sink => exact .refused refusal
      | error fault sink => exact .refused refusal
  | function code =>
    rw [Machine.invoke_function, Machine.invoke_function]
    rcases C.calleeFrame code args h.engine with hframe | ⟨fault, hframe, refusal⟩
    · rw [hframe]
      cases m.engine.calleeFrame code args with
      | ok frame => exact .same (.ok h)
      | error fault => exact .same (.error h)
    · rw [hframe]
      refine .refused ?_
      cases m.engine.calleeFrame code args <;> exact refusal
  | _ => exact .same (.error h)

theorem exec_agrees {i : Instruction} {m m' : Machine} (sees : ∀ x, i.Reads x → C.Sees x)
    (h : C.Pairs m m') :
    C.Agrees (Machine.exec i m) (Machine.exec i m') := by
  -- only a call writes output or enters a function, so nothing else can be refused
  by_cases hop : i.opcode = .call
  · simp only [Machine.exec, hop, bind, EStateM.bind, Machine.lift_except]
    cases i.count with
    | error fault => exact .same (.error h)
    | ok argc =>
      have hpop := respects_frame (Frame.popCall argc) m m' h
      simp only [ofExcept, Machine.call, bind, EStateM.bind]
      generalize (liftM (Frame.popCall argc) : Machine.Act (Value × List Value)) m = r,
        (liftM (Frame.popCall argc) : Machine.Act (Value × List Value)) m' = r' at hpop ⊢
      cases hpop with
      | ok related => exact invoke_agrees related _ _
      | error related => exact .same (.error related)
  · exact .same (respects_exec hop sees m m' h)

theorem advance_agrees {m m' : Machine} (satisfied : m.Satisfies C.criterion)
    (h : C.Pairs m m') : C.Agrees m.advance m'.advance := by
  have placed_eq : m'.instruction? = m.instruction? := by
    unfold Machine.instruction?
    rw [h.frame_eq]
  cases placed : m.instruction? with
  | none =>
    rw [Machine.advance_of_end placed, Machine.advance_of_end (placed_eq.trans placed)]
    exact .same (.ok h)
  | some i =>
    rw [Machine.advance_of_instruction placed,
      Machine.advance_of_instruction (placed_eq.trans placed)]
    have own := satisfied.frame.code.own
    have member : i ∈ m.frame.code.instructions := List.mem_of_getElem? placed
    have fetched : C.Pairs (m.fetching i) (m'.fetching i) :=
      ⟨congrArg (Frame.fetching · i) h.frame_eq, h.engine⟩
    exact exec_agrees (fun x reads e e' alike => C.global_eq alike own member reads) fetched

/-! ### Runs -/

/-- How far two runs with the same budget have come: neither is at its end, or both are and agree,
or the second has been refused before the first is at its end. -/
inductive Lockstep (C : Coupling) : Option Outcome → Option Outcome → Prop where
  | unfinished : Lockstep C none none
  | finished {outcome outcome' : Outcome} (agree : C.AgreesAtEnd outcome outcome') :
      Lockstep C (some outcome) (some outcome')
  | early {sink : Sink} {fault : Fault} {e' : Engine} (refusal : C.refuses sink fault e'.sink) :
      Lockstep C none (some (.error fault e'))

/-- Once the second run has been refused, it does not matter how the first goes on. -/
theorem Lockstep.of_refusal {sink : Sink} {fault : Fault} {e' : Engine} {run : Option Outcome}
    (refusal : C.refuses sink fault e'.sink)
    (onward : ∀ outcome, run = some outcome → sink.Precedes (finalState outcome).sink) :
    C.Lockstep run (some (.error fault e')) := by
  cases run with
  | none => exact .early refusal
  | some outcome =>
    exact .finished (.refused (C.refuses_of_precedes refusal (onward outcome rfl)))

end Coupling

namespace Machine

/-- What becomes of a run after the body of a function, of which `frame` is the caller. -/
def onReturn (fuel : Nat) (frame : Frame) : Option Outcome → Option Outcome
  | none => none
  | some (.ok v e) => execute fuel ⟨e.exited, frame.pushed v⟩
  | some (.error fault e) => some (.error fault e.exited)

/-- What becomes of a run after an instruction. -/
def resume (fuel : Nat) : EStateM.Result Fault Machine Action → Option Outcome
  | .error fault m => some (.error fault m.engine)
  | .ok .next m => execute fuel m
  | .ok (.leave v) m => some (.ok v m.engine)
  | .ok (.enter callee) m => onReturn fuel m.frame (execute fuel (m.entering callee))

theorem execute_succ_eq_resume (fuel : Nat) (m : Machine) :
    execute (fuel + 1) m = resume fuel m.advance := by
  rw [execute_succ]
  unfold step resume
  cases m.advance with
  | error fault m₁ => rfl
  | ok action m₁ =>
    cases action with
    | next => rfl
    | leave v => rfl
    | enter callee =>
      simp only
      cases execute fuel (m₁.entering callee) with
      | none => rfl
      | some outcome => cases outcome <;> rfl

theorem precedes_of_execute {fuel : Nat} {m : Machine} {outcome : Outcome}
    (ran : execute fuel m = some outcome) : m.engine.sink.Precedes (finalState outcome).sink :=
  (runs_of_execute ran).leadsTo.precedes

theorem precedes_of_onReturn {fuel : Nat} {frame : Frame} {inner outcome : Outcome}
    (ran : onReturn fuel frame (some inner) = some outcome) :
    (finalState inner).sink.Precedes (finalState outcome).sink := by
  cases inner with
  | ok v e => exact precedes_of_execute ran
  | error fault e =>
    cases ran
    exact .refl _

theorem precedes_of_resume {fuel : Nat} {result : EStateM.Result Fault Machine Action}
    {outcome : Outcome} (ran : resume fuel result = some outcome) :
    (finalState result).engine.sink.Precedes (finalState outcome).sink := by
  cases result with
  | error fault m =>
    cases ran
    exact .refl _
  | ok action m =>
    cases action with
    | next => exact precedes_of_execute ran
    | leave v =>
      cases ran
      exact .refl _
    | enter callee =>
      simp only [resume] at ran
      cases hbody : execute fuel (m.entering callee) with
      | none =>
        rw [hbody] at ran
        cases ran
      | some inner =>
        rw [hbody] at ran
        exact (precedes_of_execute hbody).trans (precedes_of_onReturn ran)

end Machine

namespace Coupling

variable {C : Coupling}

/-- If runs with this budget keep pace with each other, so do those that go on after the body of a
function. -/
theorem onReturn_agrees {fuel : Nat}
    (keeps : ∀ {m m' : Machine}, m.Satisfies C.criterion → C.Pairs m m' →
      C.Lockstep (Machine.execute fuel m) (Machine.execute fuel m'))
    {m : Machine} (satisfied : m.Satisfies C.criterion) {body body' : Option Outcome}
    (left : ∀ outcome, body = some outcome → outcome.Satisfies C.criterion)
    (h : C.Lockstep body body') :
    C.Lockstep (Machine.onReturn fuel m.frame body) (Machine.onReturn fuel m.frame body') := by
  cases h with
  | unfinished => exact .unfinished
  | @early sink fault e' refusal =>
    have refusal : C.refuses sink fault e'.exited.sink := refusal
    exact .early refusal
  | finished agree =>
    cases agree with
    | @refused fault e' refusal =>
      have refusal : C.refuses _ fault e'.exited.sink := refusal
      exact .of_refusal refusal fun _ => Machine.precedes_of_onReturn
    | same same =>
      cases same with
      | error related => exact .finished (.same (.error (C.exited related)))
      | ok related =>
        obtain ⟨hv, hglobals⟩ := left _ rfl
        exact keeps (satisfied.returned hv hglobals) ⟨rfl, C.exited related⟩

/-- Runs with the same budget keep pace with each other. -/
theorem execute_agrees (fuel : Nat) {m m' : Machine} (satisfied : m.Satisfies C.criterion)
    (h : C.Pairs m m') :
    C.Lockstep (Machine.execute fuel m) (Machine.execute fuel m') := by
  -- both spend a unit on every instruction, so one budget serves for both; the functions that are
  -- called have what is left of it
  induction fuel generalizing m m' with
  | zero => exact .unfinished
  | succ fuel ih =>
    have advanced : ∀ action m₁, m.advance = .ok action m₁ →
        m₁.Satisfies C.criterion ∧ action.Satisfies C.criterion :=
      fun _ _ => satisfied.of_advance
    have agrees := advance_agrees satisfied h
    rw [Machine.execute_succ_eq_resume, Machine.execute_succ_eq_resume]
    generalize m.advance = result, m'.advance = result' at advanced agrees ⊢
    cases agrees with
    | refused refusal => exact .of_refusal refusal fun _ => Machine.precedes_of_resume
    | same same =>
      cases same with
      | error related => exact .finished (.same (.error related.engine))
      | @ok action m₁ m₁' related =>
        obtain ⟨hm₁, haction⟩ := advanced action m₁ rfl
        cases action with
        | next => exact ih hm₁ related
        | leave v => exact .finished (.same (.ok related.engine))
        | enter callee =>
          have entered : C.Pairs (m₁.entering callee) (m₁'.entering callee) :=
            ⟨rfl, C.entered related.engine⟩
          simp only [Machine.resume, related.frame_eq]
          rw [← related.frame_eq]
          refine onReturn_agrees ih hm₁ ?_ (ih (hm₁.entering haction) entered)
          intro outcome ran
          exact (Machine.runs_of_execute ran).satisfies (hm₁.entering haction)

/-! ### Calls of values -/

theorem left_agrees {run run' : Option Outcome} (h : C.Lockstep run run') :
    C.Lockstep (run.map Engine.left) (run'.map Engine.left) := by
  cases h with
  | unfinished => exact .unfinished
  | @early sink fault e' refusal =>
    have refusal : C.refuses sink fault e'.exited.sink := refusal
    exact .early refusal
  | finished agree =>
    cases agree with
    | same same =>
      cases same with
      | ok related => exact .finished (.same (.ok (C.exited related)))
      | error related => exact .finished (.same (.error (C.exited related)))
    | refused refusal =>
      refine .finished (.refused ?_)
      rw [Engine.finalState_left]
      exact refusal

/-- Calls of the same value keep pace with each other. -/
theorem call_agrees (fuel : Nat) {callee : Value} {args : List Value} {e e' : Engine}
    (hcallee : callee.Satisfies C.criterion) (hargs : ∀ v ∈ args, v.Satisfies C.criterion)
    (hglobals : e.globals.Satisfies C.criterion) (h : C.alike e e') :
    C.Lockstep (Engine.invoke (Machine.execute fuel) callee args e)
      (Engine.invoke (Machine.execute fuel) callee args e') := by
  cases callee with
  | builtin b =>
    have agree := builtin_agrees h b args
    simp only [Engine.invoke]
    generalize b.call args e.sink = r, b.call args e'.sink = r' at agree ⊢
    cases agree with
    | same same =>
      cases same with
      | ok related => exact .finished (.same (.ok related))
      | error related => exact .finished (.same (.error related))
    | refused refusal => cases r <;> exact .finished (.refused refusal)
  | function code =>
    rcases C.calleeFrame code args h with hframe | ⟨fault, hframe, refusal⟩
    · simp only [Engine.invoke, hframe]
      cases entered : e.calleeFrame code args with
      | error fault => exact .finished (.same (.error h))
      | ok frame =>
        have hcode := Value.satisfies_function_iff.1 hcallee
        have satisfied : Machine.Satisfies C.criterion ⟨e.entered, frame⟩ :=
          ⟨hglobals, Engine.satisfies_of_calleeFrame hcode hargs entered⟩
        exact left_agrees (execute_agrees fuel satisfied ⟨rfl, C.entered h⟩)
    · have refused : Engine.invoke (Machine.execute fuel) (.function code) args e' =
          some (.error fault e') := by
        simp only [Engine.invoke, hframe]
      rw [refused]
      exact .of_refusal refusal fun outcome called => (Engine.leadsTo_of_invoke called).precedes
  | _ => exact .finished (.same (.error h))

/-! ### Code at the top level -/

theorem flushed_agrees {outcome outcome' : Outcome} (h : C.AgreesAtEnd outcome outcome') :
    C.AgreesAtEnd (Engine.flushed outcome) (Engine.flushed outcome') := by
  cases h with
  | refused refusal =>
    refine .refused ?_
    rw [Engine.finalState_flushed]
    exact refusal
  | same same =>
    cases same with
    | error related => exact .same (.error related)
    | ok related =>
      simp only [Engine.flushed, C.flush_eq related]
      split
      · exact .same (.ok related)
      · exact .same (.error related)

variable {code : Code} {e e' : Engine} {outcome outcome' : Outcome}

theorem run_agrees (fuel : Nat) (satisfied : Machine.Satisfies C.criterion ⟨e, .ofModule code⟩)
    (h : C.alike e e') : C.Lockstep (Engine.run fuel code e) (Engine.run fuel code e') := by
  have paired : C.Pairs ⟨e, .ofModule code⟩ ⟨e', .ofModule code⟩ := ⟨rfl, h⟩
  have lockstep := execute_agrees fuel satisfied paired
  unfold Engine.run
  generalize Machine.execute fuel ⟨e, .ofModule code⟩ = run,
    Machine.execute fuel ⟨e', .ofModule code⟩ = run' at lockstep ⊢
  cases lockstep with
  | unfinished => exact .unfinished
  | early refusal => exact .early refusal
  | finished agree => exact .finished (flushed_agrees agree)

/-- Where the first run comes to its end, so does the second. -/
theorem agrees_of_ends (satisfied : Machine.Satisfies C.criterion ⟨e, .ofModule code⟩)
    (h : C.alike e e') (ends : Engine.Ends code e outcome) :
    ∃ outcome', Engine.Ends code e' outcome' ∧ C.AgreesAtEnd outcome outcome' := by
  obtain ⟨fuel, ran⟩ := ends
  have lockstep := run_agrees fuel satisfied h
  rw [ran] at lockstep
  generalize hran' : Engine.run fuel code e' = run' at lockstep
  cases lockstep with
  | finished agree => exact ⟨_, ⟨fuel, hran'⟩, agree⟩

/-- Where the second run comes to its end and is not refused, the first comes to the same end. -/
theorem same_of_ends (satisfied : Machine.Satisfies C.criterion ⟨e, .ofModule code⟩)
    (h : C.alike e e') (ends : Engine.Ends code e' outcome')
    (accepted : ∀ sink fault e₁, outcome' = .error fault e₁ → ¬ C.refuses sink fault e₁.sink) :
    ∃ outcome, Engine.Ends code e outcome ∧ Same C.alike outcome outcome' := by
  obtain ⟨fuel, ran'⟩ := ends
  have lockstep := run_agrees fuel satisfied h
  rw [ran'] at lockstep
  generalize hran : Engine.run fuel code e = run at lockstep
  cases lockstep with
  | early refusal => exact absurd refusal (accepted _ _ _ rfl)
  | finished agree =>
    cases agree with
    | same same => exact ⟨_, ⟨fuel, hran⟩, same⟩
    | refused refusal => exact absurd refusal (accepted _ _ _ rfl)

end Coupling

end Bytecode
