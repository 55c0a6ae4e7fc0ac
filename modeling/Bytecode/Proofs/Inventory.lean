import Bytecode.Proofs.Advance
import Bytecode.Proofs.Contents

set_option autoImplicit false

/-!
# What machines work on

No instruction makes a part of a value that does not satisfy a criterion.  So whatever a machine
works on satisfies it, if that was so in the beginning and of the code that it runs.

Main statements: `Machine.Runs.satisfies` and `Machine.Satisfies.step`, whatever a run or a
step leaves satisfies the criterion, whether it succeeds or fails.
-/

namespace Bytecode

variable {K : Criterion}

/-- What is left to do satisfies the criterion. -/
def Action.Satisfies (K : Criterion) : Action → Prop
  | .next => True
  | .leave v => v.Satisfies K
  | .enter callee => callee.Satisfies K

/-- What the end of a run leaves satisfies the criterion. -/
def Outcome.Satisfies (K : Criterion) : Outcome → Prop
  | .ok v e => v.Satisfies K ∧ e.globals.Satisfies K
  | .error _ e => e.globals.Satisfies K

theorem Outcome.Satisfies.globals {outcome : Outcome} (h : outcome.Satisfies K) :
    (finalState outcome).globals.Satisfies K := by
  cases outcome with
  | ok v e => exact h.2
  | error fault e => exact h

theorem Frame.Finds.satisfies {stack : List Value} {argc : Nat} {callee : Value}
    {args rest : List Value} (h : Finds stack argc callee args rest)
    (all : ∀ v ∈ stack, v.Satisfies K) :
    callee.Satisfies K ∧ (∀ v ∈ args, v.Satisfies K) ∧ ∀ v ∈ rest, v.Satisfies K := by
  obtain ⟨-, layout, -, rfl⟩ := h
  obtain ⟨hargs, hover⟩ := List.forall_mem_append.1 all
  have hargs : ∀ v ∈ args, v.Satisfies K := fun v hv => hargs v (List.mem_reverse.2 hv)
  cases layout with
  | beneathCallee =>
    simp only [Layout.over, List.forall_mem_cons] at hover
    exact ⟨hover.1, hargs, hover.2.2⟩
  | aboveCallee =>
    simp only [Layout.over, List.forall_mem_cons] at hover
    exact ⟨hover.2.1, hargs, hover.2.2⟩
  | missing =>
    simp only [Layout.over, List.forall_mem_cons] at hover
    exact ⟨hover.1, hargs, hover.2⟩

namespace Machine

variable {m m' : Machine} {i : Instruction}

namespace Satisfies

theorem fetching (h : m.Satisfies K) (hi : i.Satisfies K) : (m.fetching i).Satisfies K :=
  ⟨h.globals, h.frame.code, h.frame.stack, h.frame.locals, by rintro _ ⟨⟩; exact hi⟩

theorem withStack (h : m.Satisfies K) {stack : List Value} (all : ∀ v ∈ stack, v.Satisfies K) :
    (m.withStack stack).Satisfies K :=
  ⟨h.globals, h.frame.code, all, h.frame.locals, h.frame.current⟩

theorem pushed (h : m.Satisfies K) {v : Value} (hv : v.Satisfies K) :
    (m.withStack (v :: m.frame.stack)).Satisfies K :=
  h.withStack (List.forall_mem_cons.2 ⟨hv, h.frame.stack⟩)

theorem taken (h : m.Satisfies K) {v : Value} {rest : List Value}
    (htaken : m.frame.stack = v :: rest) : v.Satisfies K ∧ (m.withStack rest).Satisfies K := by
  have hstack := h.frame.stack
  rw [htaken, List.forall_mem_cons] at hstack
  exact ⟨hstack.1, h.withStack hstack.2⟩

theorem goto (h : m.Satisfies K) (pc : Nat) : (m.goto pc).Satisfies K :=
  ⟨h.globals, h.frame.code, h.frame.stack, h.frame.locals, h.frame.current⟩

theorem setGlobal (h : m.Satisfies K) (x : String) {v : Value} (hv : v.Satisfies K) :
    Machine.Satisfies K { m with engine := m.engine.setGlobal x v } :=
  ⟨h.globals.set x hv, h.frame⟩

theorem bound (h : m.Satisfies K) (x : String) {v : Value} (hv : v.Satisfies K) :
    (m.bound x v).Satisfies K := by
  obtain ⟨engine, code, pc, stack, locals, current⟩ := m
  cases locals with
  | none => exact h.setGlobal x hv
  | some env =>
    refine ⟨h.globals, h.frame.code, h.frame.stack, ?_, h.frame.current⟩
    rintro _ ⟨⟩
    exact (h.frame.locals env rfl).set x hv

end Satisfies

/-! ## Instructions -/

/-- Every instruction that succeeds keeps to parts that satisfy the criterion. -/
theorem Effect.satisfies {action : Action} (effect : Effect i m action m') (h : m.Satisfies K)
    (hi : i.Satisfies K) : m'.Satisfies K ∧ action.Satisfies K := by
  cases effect with
  | idle hop => exact ⟨h, trivial⟩
  | pushNull hop => exact ⟨h.pushed .null, trivial⟩
  | loadConst hop => exact ⟨h.pushed hi.constant, trivial⟩
  | loadName hop hname found => exact ⟨h.pushed ((lookup_yields h _).of_eq_ok found), trivial⟩
  | loadGlobal hop hname found =>
    have hv := (Engine.global_yields h.globals _).of_eq_ok found
    refine ⟨h.withStack (List.forall_mem_append.2 ⟨?_, h.frame.stack⟩), trivial⟩
    split <;> simp [hv, Value.Satisfies.null]
  | loadFast hop hname found => exact ⟨h.pushed (h.frame.local? found), trivial⟩
  | loadFastPair hop hnames found found' =>
    exact ⟨(h.pushed (h.frame.local? found)).pushed (h.frame.local? found'), trivial⟩
  | store hop hname htaken =>
    obtain ⟨hv, hrest⟩ := h.taken htaken
    exact ⟨hrest.bound _ hv, trivial⟩
  | storeGlobal hop hname htaken =>
    obtain ⟨hv, hrest⟩ := h.taken htaken
    exact ⟨hrest.setGlobal _ hv, trivial⟩
  | combine hop htaken result =>
    obtain ⟨hright, hrest⟩ := h.taken htaken
    obtain ⟨hleft, hrest⟩ := hrest.taken rfl
    exact ⟨hrest.pushed ((hop.yields hleft hright).of_eq_ok result), trivial⟩
  | getIter hop htaken result =>
    obtain ⟨hv, hrest⟩ := h.taken htaken
    exact ⟨hrest.pushed (.iterator ((Value.iterate_yields hv).of_eq_ok result)), trivial⟩
  | element hop htaken advanced =>
    obtain ⟨hc, hrest⟩ := h.taken htaken
    rw [Value.satisfies_iterator_iff] at hc
    obtain ⟨hitem, hnext⟩ := Cursor.satisfies_of_advance hc advanced
    exact ⟨(hrest.pushed (.iterator hnext)).pushed hitem, trivial⟩
  | exhausted hop htaken ended target => exact ⟨(h.taken htaken).2.goto _, trivial⟩
  | jump hop target => exact ⟨h.goto _, trivial⟩
  | branch hop htaken target => exact ⟨(h.taken htaken).2.goto _, trivial⟩
  | noBranch hop htaken => exact ⟨(h.taken htaken).2, trivial⟩
  | callBuiltin hop hcount found result =>
    obtain ⟨-, hargs, hrest⟩ := found.satisfies h.frame.stack
    have hv := Builtin.satisfies_of_call hargs result
    exact ⟨⟨h.globals, ((h.withStack hrest).pushed hv).frame⟩, trivial⟩
  | callFunction hop hcount found result =>
    obtain ⟨hcallee, hargs, hrest⟩ := found.satisfies h.frame.stack
    rw [Value.satisfies_function_iff] at hcallee
    exact ⟨h.withStack hrest, Engine.satisfies_of_calleeFrame hcallee hargs result⟩
  | makeFunction hop hname htaken =>
    have hstack := h.frame.stack
    simp only [htaken, List.forall_mem_append, List.forall_mem_cons,
      Value.satisfies_code_iff] at hstack
    obtain ⟨-, hcode, hrest⟩ := hstack
    exact ⟨(h.withStack hrest).pushed (.function hcode), trivial⟩
  | popTop hop htaken => exact ⟨(h.taken htaken).2, trivial⟩
  | returnValue hop htaken =>
    obtain ⟨hv, hrest⟩ := h.taken htaken
    exact ⟨hrest.goto _, hv⟩
  | returnConst hop => exact ⟨h.goto _, hi.constant⟩

theorem Failure.satisfies {fault : Fault} (failure : Failure i m fault m') (h : m.Satisfies K) :
    m'.Satisfies K := by
  cases failure with
  | short lacks => exact h
  | loneMarker hop hcount found => exact h.withStack (List.forall_mem_nil _)
  | other category left =>
    have hstack := h.frame.stack
    rw [left, List.forall_mem_append] at hstack
    exact ⟨h.globals, (h.withStack hstack.2).frame⟩

/-! ## Runs and steps -/

theorem Satisfies.instruction (h : m.Satisfies K) (placed : m.instruction? = some i) :
    i.Satisfies K :=
  h.frame.code.instructions i (List.mem_of_getElem? placed)

theorem Satisfies.of_effect {action : Action} (h : m.Satisfies K)
    (placed : m.instruction? = some i) (effect : Effect i (m.fetching i) action m') :
    m'.Satisfies K ∧ action.Satisfies K :=
  effect.satisfies (h.fetching (h.instruction placed)) (h.instruction placed)

theorem Satisfies.of_advance {action : Action} (h : m.Satisfies K)
    (advanced : m.advance = .ok action m') : m'.Satisfies K ∧ action.Satisfies K := by
  cases placed : m.instruction? with
  | none =>
    rw [advance_of_end placed] at advanced
    cases advanced
    exact ⟨h, .none⟩
  | some i =>
    rw [advance_of_instruction placed] at advanced
    exact h.of_effect placed (effect_of_exec advanced)

theorem Satisfies.of_failure {fault : Fault} (h : m.Satisfies K)
    (placed : m.instruction? = some i) (failure : Failure i (m.fetching i) fault m') :
    m'.Satisfies K :=
  failure.satisfies (h.fetching (h.instruction placed))

theorem Satisfies.entering (h : m.Satisfies K) {callee : Frame} (hcallee : callee.Satisfies K) :
    (m.entering callee).Satisfies K :=
  ⟨h.globals, hcallee⟩

theorem Satisfies.returned (h : m.Satisfies K) {v : Value} (hv : v.Satisfies K) {e : Engine}
    (hglobals : e.globals.Satisfies K) : Machine.Satisfies K ⟨e.exited, m.frame.pushed v⟩ :=
  ⟨hglobals, (h.pushed hv).frame⟩

/-- Whatever a run ends with satisfies the criterion. -/
theorem Runs.satisfies {outcome : Outcome} (runs : Runs m outcome) (h : m.Satisfies K) :
    outcome.Satisfies K := by
  induction runs with
  | atEnd ended => exact ⟨.none, h.globals⟩
  | leave placed effect =>
    obtain ⟨hm, hv⟩ := h.of_effect placed effect
    exact ⟨hv, hm.globals⟩
  | own placed failure => exact (h.of_failure placed failure).globals
  | next placed effect goes rest ih => exact ih (h.of_effect placed effect).1
  | call placed effect enters body goes rest ihBody ih =>
    -- the body starts on the engine of its caller, which goes on with what the body leaves of it
    obtain ⟨hm, hcallee⟩ := h.of_effect placed effect
    obtain ⟨hv, hglobals⟩ := ihBody (hm.entering hcallee)
    exact ih (hm.returned hv hglobals)
  | inner placed effect enters body ihBody =>
    obtain ⟨hm, hcallee⟩ := h.of_effect placed effect
    exact ihBody (hm.entering hcallee)

/-- Whatever a step leaves satisfies the criterion, whether it succeeds or fails. -/
theorem Satisfies.step {fuel : Nat} {result : StepResult} (h : m.Satisfies K)
    (hstep : step (execute fuel) m = some result) : (finalState result).Satisfies K := by
  cases result with
  | ok left m' =>
    cases advances_of_step hstep with
    | atEnd ended => exact h
    | next placed effect => exact (h.of_effect placed effect).1
    | leave placed effect => exact (h.of_effect placed effect).1
    | call placed effect enters ran =>
      obtain ⟨hm, hcallee⟩ := h.of_effect placed effect
      obtain ⟨hv, hglobals⟩ := (runs_of_execute ran).satisfies (hm.entering hcallee)
      exact hm.returned hv hglobals
  | error fault m' =>
    cases breaks_of_step hstep with
    | own placed failure => exact h.of_failure placed failure
    | inner placed effect enters ran =>
      obtain ⟨hm, hcallee⟩ := h.of_effect placed effect
      exact ⟨(runs_of_execute ran).satisfies (hm.entering hcallee), hm.frame⟩

end Machine

end Bytecode
