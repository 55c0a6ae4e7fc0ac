import Bytecode.Proofs.Coupling
import Mathlib.Data.Option.Defs

set_option autoImplicit false

/-!
# Global names that are not read

A call does not depend on what a global name is bound to, or whether it is, if no code within its
reach looks the name up.  What the name is bound to may hold functions that do look it up; the call
cannot come by them.  So the calls on two engines that differ in the name are both compared with
the call on a third engine, which binds the name to a value without any code.

Main statement: `Engine.together_of_call`.
-/

namespace Bytecode

/-! ## Two computations with a budget -/

/-- The one comes to its end exactly if the other does, both with the same value or the same fault
and in states that are related. -/
structure Together {σ α : Type} (R : σ → σ → Prop)
    (run run' : Nat → Option (EStateM.Result Fault σ α)) : Prop where
  ends_iff : (∃ fuel result, run fuel = some result) ↔ ∃ fuel result, run' fuel = some result
  same : ∀ {fuel fuel' : Nat} {result result' : EStateM.Result Fault σ α},
    run fuel = some result → run' fuel' = some result' → Same R result result'

section Together

variable {σ α : Type} {R : σ → σ → Prop}

/-- Results that are both the same as a third are the same. -/
theorem Same.of_common (common : ∀ s s' s'' : σ, R s s' → R s s'' → R s' s'')
    {result result' result'' : EStateM.Result Fault σ α} (h : Same R result result')
    (h' : Same R result result'') : Same R result' result'' := by
  cases h with
  | ok related => cases h' with | ok related' => exact .ok (common _ _ _ related related')
  | error related => cases h' with | error related' => exact .error (common _ _ _ related related')

theorem Same.rel_of_common (common : ∀ s s' s'' : σ, R s s' → R s s'' → R s' s'')
    {run run' run'' : Option (EStateM.Result Fault σ α)} (h : Option.Rel (Same R) run run')
    (h' : Option.Rel (Same R) run run'') : Option.Rel (Same R) run' run'' := by
  cases h with
  | none => cases h' with | none => exact .none
  | some same => cases h' with | some same' => exact .some (same.of_common common same')

/-- Computations that end the same way with every budget, and keep their result with more. -/
theorem Together.of_rel {run run' : Nat → Option (EStateM.Result Fault σ α)}
    (rel : ∀ fuel, Option.Rel (Same R) (run fuel) (run' fuel))
    (le : ∀ {fuel more result}, fuel ≤ more → run fuel = some result → run more = some result)
    (le' : ∀ {fuel more result}, fuel ≤ more → run' fuel = some result → run' more = some result) :
    Together R run run' where
  ends_iff := by
    constructor
    · rintro ⟨fuel, result, ran⟩
      have hrel := rel fuel
      rw [ran] at hrel
      generalize hrun' : run' fuel = other at hrel
      cases hrel with
      | some same => exact ⟨fuel, _, hrun'⟩
    · rintro ⟨fuel, result, ran⟩
      have hrel := rel fuel
      rw [ran] at hrel
      generalize hrun : run fuel = other at hrel
      cases hrel with
      | some same => exact ⟨fuel, _, hrun⟩
  same := by
    intro fuel fuel' result result' ran ran'
    have hrel := rel (max fuel fuel')
    rw [le (Nat.le_max_left ..) ran, le' (Nat.le_max_right ..) ran'] at hrel
    cases hrel with
    | some same => exact same

end Together

/-! ## Engines that differ in a global name -/

/-- The engines differ at most in what they bind to the global name. -/
structure Engine.AgreeExcept (x : String) (e e' : Engine) : Prop where
  get?_eq : ∀ y, y ≠ x → e.globals.get? y = e'.globals.get? y
  sink_eq : e.sink = e'.sink
  config_eq : e.config = e'.config
  callDepth_eq : e.callDepth = e'.callDepth

namespace Engine.AgreeExcept

variable {x : String} {e e' : Engine}

theorem of_common (e e' e'' : Engine) (h : AgreeExcept x e e') (h' : AgreeExcept x e e'') :
    AgreeExcept x e' e'' where
  get?_eq y hy := (h.get?_eq y hy).symm.trans (h'.get?_eq y hy)
  sink_eq := h.sink_eq.symm.trans h'.sink_eq
  config_eq := h.config_eq.symm.trans h'.config_eq
  callDepth_eq := h.callDepth_eq.symm.trans h'.callDepth_eq

theorem refl (e : Engine) : AgreeExcept x e e :=
  ⟨fun _ _ => rfl, rfl, rfl, rfl⟩

theorem global_eq (h : AgreeExcept x e e') {y : String} (hy : y ≠ x) : e.global y = e'.global y := by
  unfold Engine.global
  rw [h.get?_eq y hy]

/-- It does not matter to what the name is bound. -/
theorem setGlobal_self (h : AgreeExcept x e e') (v : Value) : AgreeExcept x (e.setGlobal x v) e' where
  get?_eq y hy := (Environment.get?_set_of_ne hy v).trans (h.get?_eq y hy)
  sink_eq := h.sink_eq
  config_eq := h.config_eq
  callDepth_eq := h.callDepth_eq

theorem setGlobal (h : AgreeExcept x e e') (y : String) (v : Value) :
    AgreeExcept x (e.setGlobal y v) (e'.setGlobal y v) where
  get?_eq z hz := by
    by_cases hzy : z = y
    · subst hzy
      exact (Environment.get?_set_self ..).trans (Environment.get?_set_self ..).symm
    · exact (Environment.get?_set_of_ne hzy v).trans
        ((h.get?_eq z hz).trans (Environment.get?_set_of_ne hzy v).symm)
  sink_eq := h.sink_eq
  config_eq := h.config_eq
  callDepth_eq := h.callDepth_eq

theorem calleeFrame_eq (h : AgreeExcept x e e') (code : Code) (args : List Value) :
    e'.calleeFrame code args = e.calleeFrame code args := by
  unfold Engine.calleeFrame
  rw [h.config_eq, h.callDepth_eq]

end Engine.AgreeExcept

/-- No instruction of the code looks this global name up. -/
def Code.LeavesUnread (x : String) (c : Code) : Prop :=
  ∀ i ∈ c.instructions, ¬ i.Reads x

/-- No code looks the global name up, at any depth. -/
def Criterion.leavesUnread (x : String) : Criterion :=
  .ofCode (·.LeavesUnread x)

/-- Engines that differ in a global name that no code looks up. -/
def Coupling.unread (x : String) : Coupling where
  alike := Engine.AgreeExcept x
  refuses _ _ _ := False
  criterion := .leavesUnread x
  global_eq := by
    intro e e' code i y agree unread hi reads
    refine agree.global_eq ?_
    rintro rfl
    exact unread i hi reads
  setGlobal y v agree := agree.setGlobal y v
  entered agree :=
    ⟨agree.get?_eq, agree.sink_eq, agree.config_eq, congrArg (· + 1) agree.callDepth_eq⟩
  exited agree :=
    ⟨agree.get?_eq, agree.sink_eq, agree.config_eq, congrArg (· - 1) agree.callDepth_eq⟩
  write := by
    intro e e' bytes agree
    rw [agree.sink_eq]
    cases Sink.write bytes e'.sink with
    | ok u sink =>
      exact .same (.ok ⟨agree.get?_eq, rfl, agree.config_eq, agree.callDepth_eq⟩)
    | error fault sink =>
      exact .same (.error ⟨agree.get?_eq, rfl, agree.config_eq, agree.callDepth_eq⟩)
  calleeFrame code args agree := .inl (agree.calleeFrame_eq code args)
  flush_eq agree := by rw [agree.sink_eq]
  refuses_of_precedes refusal _ := refusal

/-- Where nothing is refused, runs that keep pace come to the same end. -/
theorem Coupling.rel_of_lockstep {x : String} {run run' : Option Outcome}
    (h : (unread x).Lockstep run run') : Option.Rel (Same (Engine.AgreeExcept x)) run run' := by
  cases h with
  | unfinished => exact .none
  | early refusal => exact refusal.elim
  | finished agree =>
    cases agree with
    | same same => exact .some same
    | refused refusal => exact refusal.elim

/-! ## Calls -/

namespace Engine

variable {x : String} {e e' : Engine} {callee : Value} {args : List Value}

/-- More fuel keeps the outcome of a call. -/
theorem invoke_le {fuel more : Nat} (h : fuel ≤ more) {outcome : Outcome}
    (called : invoke (Machine.execute fuel) callee args e = some outcome) :
    invoke (Machine.execute more) callee args e = some outcome := by
  cases callee with
  | function code =>
    simp only [invoke] at called ⊢
    cases entered : e.calleeFrame code args with
    | error fault =>
      rw [entered] at called
      exact called
    | ok frame =>
      rw [entered] at called
      obtain ⟨inner, ran, rfl⟩ := Option.map_eq_some_iff.1 called
      simp only [Machine.execute_le h ran, Option.map_some]
  | _ => exact called

/-- With every budget the calls on engines that differ in an unread name end the same way. -/
theorem rel_of_call (agree : e.AgreeExcept x e') (hcallee : callee.Satisfies (.leavesUnread x))
    (hargs : ∀ v ∈ args, v.Satisfies (.leavesUnread x))
    (hglobals : ∀ y v, y ≠ x → e.globals.get? y = some v → v.Satisfies (.leavesUnread x))
    (fuel : Nat) :
    Option.Rel (Same (AgreeExcept x)) (invoke (Machine.execute fuel) callee args e)
      (invoke (Machine.execute fuel) callee args e') := by
  let blank := e.setGlobal x .none
  have satisfied : blank.globals.Satisfies (.leavesUnread x) := by
    intro y v found
    by_cases hy : y = x
    · rw [hy, show blank.globals.get? x = some .none from Environment.get?_set_self ..] at found
      cases found
      exact .none
    · exact hglobals y v hy ((Environment.get?_set_of_ne hy .none).symm.trans found)
  have alike : (Coupling.unread x).alike blank e := (AgreeExcept.refl e).setGlobal_self .none
  have alike' : (Coupling.unread x).alike blank e' := agree.setGlobal_self .none
  have rel := Coupling.rel_of_lockstep (Coupling.call_agrees fuel hcallee hargs satisfied alike)
  have rel' := Coupling.rel_of_lockstep (Coupling.call_agrees fuel hcallee hargs satisfied alike')
  exact Same.rel_of_common AgreeExcept.of_common rel rel'

/-- A global name that no code within reach of a call looks up does not interfere with the call.  On
engines that differ at most in what they bind to the name, either both calls come to their end or
neither does, and both give the same value or fail with the same fault, write the same output and
leave the same under every other global name.  That holds of calls at the top level and of those
that an instruction makes. -/
theorem together_of_call (agree : e.AgreeExcept x e')
    (hcallee : callee.Satisfies (.leavesUnread x))
    (hargs : ∀ v ∈ args, v.Satisfies (.leavesUnread x))
    (hglobals : ∀ y v, y ≠ x → e.globals.get? y = some v → v.Satisfies (.leavesUnread x)) :
    Together (AgreeExcept x) (fun fuel => invoke (Machine.execute fuel) callee args e)
      (fun fuel => invoke (Machine.execute fuel) callee args e') ∧
    ∀ (f : Frame) (i : Instruction) (rest : List Value),
      Machine.instruction? ⟨e, f⟩ = some i → i.opcode = .call → i.count = .ok args.length →
      Frame.Finds f.stack args.length callee args rest →
      Together (fun m m' => m.frame = m'.frame ∧ m.engine.AgreeExcept x m'.engine)
        (fun fuel => Machine.step (Machine.execute fuel) ⟨e, f⟩)
        (fun fuel => Machine.step (Machine.execute fuel) ⟨e', f⟩) := by
  have rel := rel_of_call agree hcallee hargs hglobals
  refine ⟨.of_rel rel (fun hle => invoke_le hle) fun hle => invoke_le hle, ?_⟩
  intro f i rest placed hop hcount found
  refine .of_rel (fun fuel => ?_) (fun hle => Machine.step_le hle) fun hle => Machine.step_le hle
  have hpop := Frame.popCall_of_finds (f := f.fetching i) found
  rw [Machine.step_of_call (m := ⟨e, f⟩) placed hop hcount hpop,
    Machine.step_of_call (m := ⟨e', f⟩) placed hop hcount hpop]
  have hcalls := rel fuel
  generalize invoke (Machine.execute fuel) callee args e = run,
    invoke (Machine.execute fuel) callee args e' = run' at hcalls ⊢
  cases hcalls with
  | none => exact .none
  | some same =>
    cases same with
    | ok related => exact .some (.ok ⟨rfl, related⟩)
    | error related => exact .some (.error ⟨rfl, related⟩)

/-- A function that prints its argument, binds the name and fails, on an engine that binds the name
to a function that looks the name up, and on one that does not bind it. -/
theorem together_of_call_print :
    let reader : Code := ⟨"g", 0, [], [⟨0, .loadGlobal, none, some (.str "x")⟩], ⟨[(0, 0)]⟩⟩
    let is : List Instruction := [⟨0, .loadGlobal, some 1, some (.str "print")⟩,
      ⟨2, .loadFast, none, some (.str "a")⟩, ⟨4, .call, some 1, none⟩,
      ⟨6, .storeGlobal, none, some (.str "x")⟩, .bare 8 .popTop]
    let callee : Value := .function ⟨"f", 1, ["a"], is, ⟨[(0, 0), (2, 1), (4, 2), (6, 3), (8, 4)]⟩⟩
    let e' : Engine := .fresh .standard .unlimited
    let e : Engine := e'.setGlobal "x" (.function reader)
    e.AgreeExcept "x" e' ∧ callee.Satisfies (.leavesUnread "x") ∧
      ¬ (Value.function reader).Satisfies (.leavesUnread "x") ∧
      ∃ fault e₁ e₁', invoke (Machine.execute 9) callee [.int 7] e = some (.error fault e₁) ∧
        invoke (Machine.execute 9) callee [.int 7] e' = some (.error fault e₁') ∧
        e₁.AgreeExcept "x" e₁' ∧ e₁'.sink.written.toList = utf8Bytes "7\n" := by
  intro reader is callee e' e
  have agree : e.AgreeExcept "x" e' := (AgreeExcept.refl e').setGlobal_self _
  have hcallee : callee.Satisfies (.leavesUnread "x") := by
    refine .function (.mk ?_ ?_)
    · simp [Criterion.leavesUnread, Criterion.ofCode, Code.LeavesUnread, is, Instruction.Reads,
        Instruction.bare, Instruction.name]
    · simp only [is, List.forall_mem_cons]
      refine ⟨⟨?_⟩, ⟨?_⟩, ⟨nofun⟩, ⟨?_⟩, ⟨nofun⟩, List.forall_mem_nil _⟩ <;>
        rintro v ⟨⟩ <;>
        constructor
  have hreader : ¬ (Value.function reader).Satisfies (.leavesUnread "x") := by
    intro satisfied
    exact (Value.satisfies_function_iff.1 satisfied).own _ List.mem_cons_self ⟨.inr rfl, rfl⟩
  have hargs : ∀ v ∈ [Value.int 7], v.Satisfies (.leavesUnread "x") := by
    simp [Value.Satisfies.int]
  have hglobals : ∀ y v, y ≠ "x" → e.globals.get? y = some v →
      v.Satisfies (.leavesUnread "x") := by
    intro y v hy found
    rw [agree.get?_eq y hy] at found
    cases found
  obtain ⟨together, -⟩ := together_of_call agree hcallee hargs hglobals
  obtain ⟨fault, e₁, called⟩ :
      ∃ fault e₁, invoke (Machine.execute 9) callee [.int 7] e = some (.error fault e₁) := ⟨_, _, rfl⟩
  obtain ⟨cause, e₁', called', written⟩ :
      ∃ cause e₁', invoke (Machine.execute 9) callee [.int 7] e' = some (.error cause e₁') ∧
        e₁'.sink.written.toList = utf8Bytes "7\n" := ⟨_, _, rfl, by decide +kernel⟩
  cases together.same called called' with
  | error related => exact ⟨agree, hcallee, hreader, _, e₁, e₁', called, called', related, written⟩

end Engine

end Bytecode
