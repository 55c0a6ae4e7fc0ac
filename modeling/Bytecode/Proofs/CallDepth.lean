import Bytecode.Proofs.Passage
import Bytecode.Proofs.Simulation

set_option autoImplicit false

/-!
# The depth of calls

An engine counts the functions in flight.  The count is that of the run's beginning and the
functions entered since, it never exceeds the limit, and whatever comes to its end leaves it as
it was.  So between the runs of a session no function is in flight, and a run is refused for too
many calls exactly when it comes to a call of a function with the limit of functions in flight.

Main statement: `callDepth_balanced`, with `Machine.refused_iff` for when a run is refused.
-/

namespace Bytecode

namespace Machine

variable {m m' : Machine} {i : Instruction} {fault : Fault}

/-! ## Entering a function -/

/-- A function is entered below the limit only. -/
theorem callDepth_lt_of_enter {callee : Frame} (enters : m.advance = .ok (.enter callee) m') :
    m.engine.callDepth < m.engine.config.callLimit := by
  obtain ⟨i, placed, effect⟩ := effect_of_enter enters
  cases effect with
  | callFunction hop hcount taken result =>
    obtain ⟨-, hlt, -⟩ := Engine.calleeFrame_eq_ok_iff.1 result
    exact hlt

/-- In the course of a run that begins within the limit the count stays within the limit. -/
theorem Passes.callDepth_le {n : Nat} (passes : Passes m n m')
    (within : m.engine.callDepth ≤ m.engine.config.callLimit) :
    m'.engine.callDepth ≤ m'.engine.config.callLimit := by
  induction passes with
  | here m => exact within
  | later goes rest ih =>
    obtain ⟨fuel, hstep⟩ := goes
    have leads := leadsTo_of_step hstep
    refine ih ?_
    have hdepth := leads.callDepth_eq
    have hconfig := leads.config_eq
    simp only [finalState] at hdepth hconfig
    rw [hdepth, hconfig]
    exact within
  | inner enters rest ih =>
    have leads := (leadsTo_of_enter enters).trans (.entered _)
    refine ih ?_
    have hlt := callDepth_lt_of_enter enters
    simp only [entering, leads.callDepth_eq, leads.config_eq]
    omega

/-! ## Refusals -/

/-- The next instruction calls a function, with an argument for every parameter. -/
def TriesToEnter (m : Machine) : Prop :=
  ∃ i, m.instruction? = some i ∧ CallsFunction i m

/-- At the limit the call of a function is refused. -/
theorem ends_of_triesToEnter (tries : m.TriesToEnter)
    (full : m.engine.config.callLimit ≤ m.engine.callDepth) :
    ∃ e, m.Ends (.error (.callDepthExceeded m.engine.config.callLimit) e) := by
  obtain ⟨i, placed, hop, argc, code, args, rest, hcount, found, hlength⟩ := tries
  have hpop := Frame.popCall_of_finds (f := m.frame.fetching i) found
  have hframe : m.engine.calleeFrame code args =
      .error (.callDepthExceeded m.engine.config.callLimit) := by
    unfold Engine.calleeFrame
    rw [if_neg (not_not_intro hlength), if_pos full]
  have hexec := exec_call (m := m.fetching i) hop hcount hpop
  simp only [invoke_function, fetching_engine, hframe] at hexec
  have hstep := step_of_error placed hexec (execute 0)
  exact ⟨_, 1, by rw [execute_succ, hstep]⟩

/-- A run is refused only for the call of a function at the limit. -/
theorem Runs.exists_passes {outcome : Outcome} (runs : Runs m outcome) {e : Engine}
    (refused : outcome = .error fault e) (category : fault.category = .recursionLimit) :
    ∃ n m', Passes m n m' ∧ m'.TriesToEnter ∧
      m'.engine.config.callLimit ≤ m'.engine.callDepth := by
  induction runs generalizing e with
  | atEnd ended => cases refused
  | leave placed effect => cases refused
  | own placed failure =>
    cases refused
    cases failure with
    | short lacks => simp [Frame.category_underflow] at category
    | loneMarker hop hcount found => simp [Frame.category_underflow] at category
    | other hne left precedes refusal =>
      obtain ⟨calls, full⟩ := refusal category
      exact ⟨0, _, .here _, ⟨_, placed, calls⟩, full⟩
  | next placed effect goes rest ih =>
    obtain ⟨n, m', passes, found⟩ := ih refused
    exact ⟨n, m', .later goes passes, found⟩
  | call placed effect enters body goes rest ihBody ih =>
    obtain ⟨n, m', passes, found⟩ := ih refused
    exact ⟨n, m', .later goes passes, found⟩
  | inner placed effect enters body ihBody =>
    cases refused
    obtain ⟨n, m', passes, found⟩ := ihBody rfl
    exact ⟨n + 1, m', .inner enters passes, found⟩

/-- A run is refused for too many calls exactly when it comes to the call of a function that would
be one more than the limit. -/
theorem refused_iff :
    (∃ fault e, m.Ends (.error fault e) ∧ fault.category = .recursionLimit) ↔
      ∃ n m', Passes m n m' ∧ m'.TriesToEnter ∧
        m.engine.config.callLimit < m.engine.callDepth + n + 1 := by
  constructor
  · rintro ⟨fault, e, ⟨fuel, ran⟩, category⟩
    obtain ⟨n, m', passes, tries, full⟩ := (runs_of_execute ran).exists_passes rfl category
    refine ⟨n, m', passes, tries, ?_⟩
    rw [passes.leadsTo.config_eq, passes.leadsTo.callDepth_eq] at full
    omega
  · rintro ⟨n, m', passes, tries, full⟩
    have full' : m'.engine.config.callLimit ≤ m'.engine.callDepth := by
      rw [passes.leadsTo.config_eq, passes.leadsTo.callDepth_eq]
      omega
    obtain ⟨e, ends⟩ := ends_of_triesToEnter tries full'
    obtain ⟨e', ends'⟩ := passes.ends_of_error ends
    exact ⟨_, e', ends', rfl⟩

end Machine

/-! ## Calls and runs at the top level -/

namespace Engine

/-- A fault that is not one of output is that of the run itself. -/
theorem ends_error_iff {code : Code} {e e' : Engine} {fault : Fault}
    (category : fault.category ≠ .output) :
    Ends code e (.error fault e') ↔ Machine.Ends ⟨e, .ofModule code⟩ (.error fault e') := by
  rw [ends_iff]
  constructor
  · rintro ⟨inner, hinner, hflushed⟩
    cases inner with
    | error cause e₁ =>
      cases hflushed
      exact hinner
    | ok v e₁ =>
      simp only [flushed, Sink.flush] at hflushed
      split at hflushed
      · cases hflushed
      · next cause hflush =>
        split at hflush
        · cases hflush
        · cases hflush
          cases hflushed
          exact absurd rfl category
  · intro hinner
    exact ⟨_, hinner, rfl⟩

/-- The count of calls is balanced and within the limit. -/
structure CountsCalls (e : Engine) : Prop where
  /-- A step of any frame that ends, with or without a fault, leaves the count as it was. -/
  after_step : ∀ {f : Frame} {fuel : Nat} {result : Machine.StepResult},
    Machine.step (Machine.execute fuel) ⟨e, f⟩ = some result →
      (finalState result).engine.callDepth = e.callDepth
  /-- The same after the call of any value. -/
  after_call : ∀ {callee : Value} {args : List Value} {fuel : Nat} {outcome : Outcome},
    invoke (Machine.execute fuel) callee args e = some outcome →
      (finalState outcome).callDepth = e.callDepth
  after_run : ∀ {code : Code} {outcome : Outcome}, Ends code e outcome →
    (finalState outcome).callDepth = e.callDepth
  /-- In the course of the run of any frame, and so of any of its steps, the count shows how many
  functions are in flight. -/
  in_run : ∀ {f : Frame} {n : Nat} {m : Machine}, Machine.Passes ⟨e, f⟩ n m →
    m.engine.callDepth = e.callDepth + n ∧ m.engine.callDepth ≤ e.config.callLimit
  /-- In the course of a call the function that is called is one of them. -/
  in_call : ∀ {code : Code} {args : List Value} {callee : Frame} {n : Nat} {m : Machine},
    e.calleeFrame code args = .ok callee → Machine.Passes ⟨e.entered, callee⟩ n m →
      m.engine.callDepth = e.callDepth + (n + 1) ∧ m.engine.callDepth ≤ e.config.callLimit

theorem countsCalls {e : Engine} (within : e.callDepth ≤ e.config.callLimit) : e.CountsCalls where
  after_step hstep := (Machine.leadsTo_of_step hstep).callDepth_eq
  after_call called := (leadsTo_of_invoke called).callDepth_eq
  after_run ends := ends.leadsTo.callDepth_eq
  in_run {f n m} passes := by
    have hle := passes.callDepth_le within
    rw [passes.leadsTo.config_eq] at hle
    exact ⟨passes.leadsTo.callDepth_eq, hle⟩
  in_call {code args callee n m} entered passes := by
    obtain ⟨-, hlt, -⟩ := calleeFrame_eq_ok_iff.1 entered
    have leads := (LeadsTo.entered e).trans passes.leadsTo
    have hle := passes.callDepth_le (Nat.succ_le_of_lt hlt)
    rw [leads.config_eq] at hle
    exact ⟨by rw [leads.callDepth_eq, Nat.add_comm n 1], hle⟩

end Engine

/-! ## Sessions -/

/-- The engine of a session between its runs, of which any may have failed. -/
inductive Session.Between (config : Config) (sink : Sink) : Engine → Prop where
  | fresh : Between config sink (.fresh config sink)
  | ran {e : Engine} {code : Code} {outcome : Outcome} (before : Between config sink e)
      (ends : Engine.Ends code e outcome) : Between config sink (finalState outcome)

theorem Session.Between.leadsTo {config : Config} {sink : Sink} {e : Engine}
    (between : Between config sink e) : (Engine.fresh config sink).LeadsTo 0 e := by
  induction between with
  | fresh => exact .refl _
  | ran before ends ih => exact ih.trans ends.leadsTo

/-- The count of calls is that of the functions in flight: whatever ends leaves it as it was, and it
never exceeds the limit.  So every run of a session begins with no function in flight, and is
refused for too many calls exactly when it comes to the call of a function that would be one more
in flight than the limit. -/
theorem callDepth_balanced {e : Engine} (within : e.callDepth ≤ e.config.callLimit) :
    e.CountsCalls ∧
      ∀ {config : Config} {sink : Sink}, Session.Between config sink e →
        e.callDepth = 0 ∧ ∀ code : Code,
          (∃ fault e', Engine.Ends code e (.error fault e') ∧
              fault.category = .recursionLimit) ↔
            ∃ n m, Machine.Passes ⟨e, .ofModule code⟩ n m ∧ m.TriesToEnter ∧
              config.callLimit < n + 1 := by
  refine ⟨Engine.countsCalls within, fun {config sink} between => ?_⟩
  have hdepth : e.callDepth = 0 := between.leadsTo.callDepth_eq
  have hconfig : e.config = config := between.leadsTo.config_eq
  refine ⟨hdepth, fun code => ?_⟩
  have hrefused := Machine.refused_iff (m := ⟨e, .ofModule code⟩)
  simp only [hdepth, hconfig, Nat.zero_add] at hrefused
  rw [← hrefused]
  constructor
  · rintro ⟨fault, e', ends, category⟩
    exact ⟨fault, e', (Engine.ends_error_iff (by simp [category])).1 ends, category⟩
  · rintro ⟨fault, e', ends, category⟩
    exact ⟨fault, e', (Engine.ends_error_iff (by simp [category])).2 ends, category⟩

/-- With one function in flight at most, a function that calls itself is refused inside of its own
body, and then none is in flight. -/
theorem callDepth_balanced_recursion :
    let e : Engine := .fresh ⟨1, by decide, by decide⟩ .unlimited
    let body : Code := ⟨"f", 0, [], [⟨0, .loadGlobal, none, some (.str "f")⟩,
      ⟨2, .call, some 0, none⟩], ⟨[(0, 0), (2, 1)]⟩⟩
    let code : Code := ⟨"m", 0, [], [⟨0, .loadConst, none, some (.code body)⟩,
      .bare 2 .makeFunction, ⟨4, .storeName, none, some (.str "f")⟩,
      ⟨6, .loadName, none, some (.str "f")⟩, ⟨8, .call, some 0, none⟩],
      ⟨[(0, 0), (2, 1), (4, 2), (6, 3), (8, 4)]⟩⟩
    e.callDepth ≤ e.config.callLimit ∧ Session.Between e.config .unlimited e ∧
      ∃ fault e', Engine.Ends code e (.error fault e') ∧ fault.category = .recursionLimit ∧
        e'.callDepth = 0 := by
  intro e body code
  have within : e.callDepth ≤ e.config.callLimit := Nat.zero_le _
  have between : Session.Between e.config .unlimited e := .fresh
  obtain ⟨counts, sessions⟩ := callDepth_balanced within
  let f : Value := .function body
  let globals : Environment := ⟨[("f", f)]⟩
  let defined : Machine := ⟨{ e with globals := globals },
    ⟨code, 3, [], none, code.instructions[2]?⟩⟩
  let called : Machine := ⟨{ e with globals := globals, callDepth := 1 },
    ⟨body, 1, [f], some .empty, body.instructions[0]?⟩⟩
  have defines : Machine.Passes ⟨e, .ofModule code⟩ 1 called :=
    .later ⟨0, rfl⟩ <| .later ⟨0, rfl⟩ <| .later (show Machine.Goes _ defined from ⟨0, rfl⟩) <|
      .later ⟨0, rfl⟩ <| .inner rfl <| .later (show Machine.Goes _ called from ⟨0, rfl⟩) <|
        .here called
  have tries : called.TriesToEnter :=
    ⟨_, rfl, rfl, 0, body, [], [], rfl, ⟨rfl, .missing, ⟨nofun, nofun⟩, rfl⟩, rfl⟩
  obtain ⟨fault, e', ends, category⟩ :=
    ((sessions between).2 code).2 ⟨1, called, defines, tries, by decide⟩
  exact ⟨within, between, fault, e', ends, category, counts.after_run ends⟩

end Bytecode
