import Bytecode.Proofs.Advance

set_option autoImplicit false

/-!
# Bindings

A store binds a name where the frame keeps names of that sort, and a load looks for it there.
Until the frame stores to the name again, or a function that it calls stores to the global name,
what is bound to the name does not change: `KeepsBinding` is kept by every instruction, by every
function that is run to its end, and so by any number of steps.

Main statements: `LeavesAlone.keepsBinding`, steps without such stores keep a binding, and
`load_after_store`, exactly when a load sees what a store has bound.
-/

namespace Bytecode

/-- The instruction binds this name. -/
def Instruction.StoresTo (i : Instruction) (x : String) : Prop :=
  (i.opcode = .storeName ∨ i.opcode = .storeFast ∨ i.opcode = .storeGlobal) ∧ i.name = .ok x

/-- The load that goes with a store. -/
inductive Opcode.StoresFor : Opcode → Opcode → Prop where
  | name : StoresFor .storeName .loadName
  | fast : StoresFor .storeFast .loadFast
  | global : StoresFor .storeGlobal .loadGlobal

namespace Machine

/-- The instruction is carried out in the run of a machine, by its frame or by a function that is
called on the way. -/
inductive Executes : Machine → Instruction → Prop where
  | here {m : Machine} {i : Instruction} (placed : m.instruction? = some i) : Executes m i
  | inner {m m' : Machine} {callee : Frame} {i : Instruction}
      (enters : m.advance = .ok (.enter callee) m') (rest : Executes (m'.entering callee) i) :
      Executes m i
  | later {m m' : Machine} {i : Instruction} (goes : m.Goes m') (rest : Executes m' i) :
      Executes m i

/-- Steps that succeed and leave a name alone: none of them stores to it, and no function they
call stores to the global name. -/
inductive LeavesAlone (x : String) : Machine → Machine → Prop where
  | refl (m : Machine) : LeavesAlone x m m
  | step {m m' m'' : Machine} {fuel : Nat} {result : Option Value}
      (succeeds : step (execute fuel) m = some (.ok result m'))
      (own : ∀ i, m.instruction? = some i → ¬ i.StoresTo x)
      (inner : ∀ callee m₁ i, m.advance = .ok (.enter callee) m₁ →
        Executes (m₁.entering callee) i → i.opcode = .storeGlobal → i.name ≠ .ok x)
      (rest : LeavesAlone x m' m'') : LeavesAlone x m m''

/-- The name is bound as it was, in a frame of the same sort. -/
structure KeepsBinding (x : String) (m m' : Machine) : Prop where
  sort_eq : m'.frame.locals.isSome = m.frame.locals.isSome
  local_eq : m'.frame.local? x = m.frame.local? x
  global_eq : m'.engine.globals.get? x = m.engine.globals.get? x

namespace KeepsBinding

variable {x : String} {m m' m'' : Machine}

theorem refl (x : String) (m : Machine) : KeepsBinding x m m := ⟨rfl, rfl, rfl⟩

theorem trans (first : KeepsBinding x m m') (rest : KeepsBinding x m' m'') :
    KeepsBinding x m m'' where
  sort_eq := rest.sort_eq.trans first.sort_eq
  local_eq := rest.local_eq.trans first.local_eq
  global_eq := rest.global_eq.trans first.global_eq

theorem of_fetching {i : Instruction} (h : KeepsBinding x (m.fetching i) m') :
    KeepsBinding x m m' :=
  ⟨h.sort_eq, h.local_eq, h.global_eq⟩

theorem engine_global_eq (h : KeepsBinding x m m') : m'.engine.global x = m.engine.global x := by
  unfold Engine.global
  rw [h.global_eq]

theorem lookup_eq (h : KeepsBinding x m m') : m'.lookup x = m.lookup x := by
  unfold lookup
  rw [h.local_eq, h.engine_global_eq]

theorem setGlobal {y : String} (hne : y ≠ x) (m : Machine) (v : Value) :
    KeepsBinding x m { m with engine := m.engine.setGlobal y v } where
  sort_eq := rfl
  local_eq := rfl
  global_eq := Environment.get?_set_of_ne (Ne.symm hne) v

theorem bound {y : String} (hne : y ≠ x) (m : Machine) (v : Value) :
    KeepsBinding x m (m.bound y v) := by
  obtain ⟨engine, code, pc, stack, locals, current⟩ := m
  cases locals with
  | none => exact setGlobal hne ⟨engine, code, pc, stack, none, current⟩ v
  | some env => exact ⟨rfl, Environment.get?_set_of_ne (Ne.symm hne) v, rfl⟩

end KeepsBinding

/-! ## Instructions -/

/-- Every instruction keeps the names that it does not store to. -/
theorem Effect.keepsBinding {i : Instruction} {m m' : Machine} {action : Action} {x : String}
    (effect : Effect i m action m') (other : ¬ i.StoresTo x) : KeepsBinding x m m' := by
  cases effect with
  | @store y v rest hop hname taken =>
    have hne : y ≠ x := by
      rintro rfl
      exact other ⟨hop.elim .inl (.inr ∘ .inl), hname⟩
    have popped : KeepsBinding x m (m.withStack rest) := ⟨rfl, rfl, rfl⟩
    exact popped.trans (.bound hne (m.withStack rest) v)
  | @storeGlobal y v rest hop hname taken =>
    have hne : y ≠ x := by
      rintro rfl
      exact other ⟨.inr (.inr hop), hname⟩
    have popped : KeepsBinding x m (m.withStack rest) := ⟨rfl, rfl, rfl⟩
    exact popped.trans (.setGlobal hne (m.withStack rest) v)
  | _ => exact ⟨rfl, rfl, rfl⟩

/-- In the body of a function only a store that says so changes a global name. -/
theorem Effect.keepsGlobal {i : Instruction} {m m' : Machine} {action : Action} {x : String}
    (effect : Effect i m action m') (inFunction : m.frame.locals.isSome)
    (other : i.opcode = .storeGlobal → i.name ≠ .ok x) :
    m'.frame.locals.isSome ∧ m'.engine.globals.get? x = m.engine.globals.get? x := by
  obtain ⟨engine, code, pc, stack, locals, current⟩ := m
  obtain ⟨env, rfl⟩ := Option.isSome_iff_exists.1 inFunction
  cases effect with
  | @storeGlobal y v rest hop hname taken =>
    have hne : x ≠ y := by
      rintro rfl
      exact other hop hname
    exact ⟨rfl, Environment.get?_set_of_ne hne v⟩
  -- a store to a name or to a local name stays in the frame of the function
  | _ => exact ⟨rfl, rfl⟩

theorem Failure.globals_eq {i : Instruction} {m m' : Machine} {fault : Fault}
    (failure : Failure i m fault m') : m'.engine.globals = m.engine.globals := by
  cases failure <;> rfl

/-- A function that is called keeps its names in its frame. -/
theorem Effect.isSome_locals_of_enter {i : Instruction} {m m' : Machine} {callee : Frame}
    (effect : Effect i m (.enter callee) m') : callee.locals.isSome := by
  cases effect with
  | callFunction hop hcount taken result =>
    obtain ⟨-, -, rfl⟩ := Engine.calleeFrame_eq_ok_iff.1 result
    rfl

/-! ## Functions -/

/-- A function that is run to its end keeps a global name that no function stores to on the
way. -/
theorem Runs.get?_globals {x : String} {m : Machine} {outcome : Outcome} (runs : Runs m outcome)
    (inFunction : m.frame.locals.isSome)
    (quiet : ∀ i, Executes m i → i.opcode = .storeGlobal → i.name ≠ .ok x) :
    (finalState outcome).globals.get? x = m.engine.globals.get? x := by
  induction runs with
  | atEnd ended => rfl
  | leave placed effect => exact (effect.keepsGlobal inFunction (quiet _ (.here placed))).2
  | own placed failure => exact congrArg (·.get? x) failure.globals_eq
  | next placed effect goes rest ih =>
    obtain ⟨inFunction', hglobal⟩ := effect.keepsGlobal inFunction (quiet _ (.here placed))
    exact (ih inFunction' fun i executes => quiet i (.later goes executes)).trans hglobal
  | call placed effect enters body goes rest ihBody ih =>
    obtain ⟨inFunction', hglobal⟩ := effect.keepsGlobal inFunction (quiet _ (.here placed))
    have hbody := ihBody effect.isSome_locals_of_enter fun i executes =>
      quiet i (.inner enters executes)
    have hrest := ih inFunction' fun i executes => quiet i (.later goes executes)
    exact hrest.trans (hbody.trans hglobal)
  | inner placed effect enters body ihBody =>
    obtain ⟨-, hglobal⟩ := effect.keepsGlobal inFunction (quiet _ (.here placed))
    have hbody := ihBody effect.isSome_locals_of_enter fun i executes =>
      quiet i (.inner enters executes)
    exact hbody.trans hglobal

/-! ## Steps -/

theorem keepsBinding_of_step {x : String} {fuel : Nat} {m m' : Machine} {result : Option Value}
    (succeeds : step (execute fuel) m = some (.ok result m'))
    (own : ∀ i, m.instruction? = some i → ¬ i.StoresTo x)
    (inner : ∀ callee m₁ i, m.advance = .ok (.enter callee) m₁ →
      Executes (m₁.entering callee) i → i.opcode = .storeGlobal → i.name ≠ .ok x) :
    KeepsBinding x m m' := by
  cases advances_of_step succeeds with
  | atEnd ended => exact .refl x m
  | next placed effect => exact (effect.keepsBinding (own _ placed)).of_fetching
  | leave placed effect => exact (effect.keepsBinding (own _ placed)).of_fetching
  | call placed effect enters ran =>
    have hcall := (effect.keepsBinding (own _ placed)).of_fetching
    have hbody := (runs_of_execute ran).get?_globals effect.isSome_locals_of_enter
      fun i => inner _ _ i enters
    exact ⟨hcall.sort_eq, hcall.local_eq, hbody.trans hcall.global_eq⟩

/-- Any number of steps that leave a name alone keep what it is bound to. -/
theorem LeavesAlone.keepsBinding {x : String} {m m' : Machine} (alone : LeavesAlone x m m') :
    KeepsBinding x m m' := by
  induction alone with
  | refl m => exact .refl x m
  | step succeeds own inner rest ih => exact (keepsBinding_of_step succeeds own inner).trans ih

/-! ## Stores and loads -/

theorem Engine.global_setGlobal (e : Engine) (x : String) (v : Value) :
    (e.setGlobal x v).global x = .ok v := by
  simp only [Engine.global, Engine.setGlobal, Environment.get?_set_self]

/-- The frame keeps a name for the load that goes with a store where the store leaves it.  Code at
the top level has no local names: there a store to one binds a global name, and a load of one
finds nothing. -/
def Homes (m : Machine) (op : Opcode) : Prop :=
  op = .storeFast → m.frame.locals.isSome

/-- The value is what this load finds under the name. -/
inductive Shows (x : String) (v : Value) (m : Machine) : Opcode → Prop where
  | name (found : m.lookup x = .ok v) : Shows x v m .loadName
  | fast (found : m.frame.local? x = some v) : Shows x v m .loadFast
  | global (found : m.engine.global x = .ok v) : Shows x v m .loadGlobal

theorem lookup_bound (m : Machine) (x : String) (v : Value) : (m.bound x v).lookup x = .ok v := by
  obtain ⟨engine, code, pc, stack, locals, current⟩ := m
  cases locals with
  | none => exact Engine.global_setGlobal engine x v
  | some env =>
    have hlocal : (env.set x v).get? x = some v := env.get?_set_self x v
    simp only [bound, Frame.bound?, Option.map_some, lookup, Frame.local?, Option.bind_some, hlocal]

theorem local?_bound {m : Machine} (inFunction : m.frame.locals.isSome) (x : String) (v : Value) :
    (m.bound x v).frame.local? x = some v := by
  obtain ⟨engine, code, pc, stack, locals, current⟩ := m
  obtain ⟨env, rfl⟩ := Option.isSome_iff_exists.1 inFunction
  exact env.get?_set_self x v

section Exec

variable {i : Instruction} {x : String} {v : Value} {rest : List Value} {m : Machine}

theorem exec_store (hop : i.opcode = .storeName ∨ i.opcode = .storeFast) (hname : i.name = .ok x)
    (taken : m.frame.stack = v :: rest) :
    exec i m = .ok .next ((m.withStack rest).bound x v) := by
  rcases hop with hop | hop <;>
    simp only [exec, hop, hname, bind, EStateM.bind, lift_except, ofExcept, lift_frame, onFrame,
      Frame.pop, taken, store] <;>
    rfl

theorem exec_storeGlobal (hop : i.opcode = .storeGlobal) (hname : i.name = .ok x)
    (taken : m.frame.stack = v :: rest) :
    exec i m = .ok .next { m.withStack rest with engine := m.engine.setGlobal x v } := by
  simp only [exec, hop, hname, bind, EStateM.bind, lift_except, ofExcept, lift_frame, onFrame,
    Frame.pop, taken, storeGlobal]
  rfl

theorem exec_loadFast (hop : i.opcode = .loadFast) (hname : i.name = .ok x) (m : Machine) :
    exec i m =
      match m.frame.local? x with
      | some v => .ok .next (m.withStack (v :: m.frame.stack))
      | none => .error (.nameNotFound x) m := by
  simp only [exec, hop, hname, bind, EStateM.bind, lift_except, ofExcept, lift_frame, onFrame,
    Frame.loadLocal]
  cases m.frame.local? x <;> rfl

theorem exec_loadGlobal (hop : i.opcode = .loadGlobal) (hname : i.name = .ok x)
    (found : m.engine.global x = .ok v) :
    exec i m =
      .ok .next (m.withStack ((if wantsNull i then [v, .null] else [v]) ++ m.frame.stack)) := by
  simp only [exec, hop, hname, bind, EStateM.bind, lift_except, ofExcept, loadGlobal, found]
  cases wantsNull i <;> rfl

end Exec

section Store

variable {i : Instruction} {op : Opcode} {x : String} {v : Value} {rest : List Value}
  {m m' : Machine}

theorem eq_of_goes (placed : m.instruction? = some i) {m₁ : Machine}
    (hexec : exec i (m.fetching i) = .ok .next m₁) (goes : m.Goes m') : m' = m₁ := by
  obtain ⟨fuel, hstep⟩ := goes
  rw [step_of_next placed hexec] at hstep
  cases hstep
  rfl

/-- A step that stores leaves the value where the load looks for it. -/
theorem shows_of_store (pair : i.opcode.StoresFor op) (homes : m.Homes i.opcode)
    (placed : m.instruction? = some i) (hname : i.name = .ok x)
    (taken : m.frame.stack = v :: rest) (stored : m.Goes m') : Shows x v m' op := by
  generalize hop : i.opcode = store at pair
  cases pair with
  | name =>
    cases eq_of_goes placed (exec_store (.inl hop) hname taken) stored
    exact .name (lookup_bound _ x v)
  | fast =>
    cases eq_of_goes placed (exec_store (.inr hop) hname taken) stored
    have inFunction : ((m.fetching i).withStack rest).frame.locals.isSome := homes hop
    exact .fast (local?_bound inFunction x v)
  | global =>
    cases eq_of_goes placed (exec_storeGlobal hop hname taken) stored
    exact .global (Engine.global_setGlobal _ x v)

/-- At the top level no store makes a local name. -/
theorem locals_eq_none_of_store (hop : i.opcode = .storeFast) (atTop : m.frame.locals = none)
    (placed : m.instruction? = some i) (hname : i.name = .ok x)
    (taken : m.frame.stack = v :: rest) (stored : m.Goes m') : m'.frame.locals = none := by
  cases eq_of_goes placed (exec_store (.inr hop) hname taken) stored
  have hsort := bound_isSome_locals ((m.fetching i).withStack rest) x v
  rw [withStack_locals, fetching_locals, atTop, Option.isSome_none] at hsort
  exact Option.isSome_eq_false_iff.1 hsort |> Option.isNone_iff_eq_none.1

end Store

namespace Shows

variable {x : String} {v : Value} {m m' : Machine} {op : Opcode}

theorem of_keepsBinding (shows : Shows x v m op) (keeps : KeepsBinding x m m') :
    Shows x v m' op := by
  cases shows with
  | name found => exact .name (keeps.lookup_eq.trans found)
  | fast found => exact .fast (keeps.local_eq.trans found)
  | global found => exact .global (keeps.engine_global_eq.trans found)

/-- The load pushes the value. -/
theorem goes {i : Instruction} (shows : Shows x v m i.opcode) (placed : m.instruction? = some i)
    (hname : i.name = .ok x) :
    ∃ m', m.Goes m' ∧ m'.frame.stack =
      (if i.opcode = .loadGlobal ∧ wantsNull i then [v, .null] else [v]) ++ m.frame.stack := by
  generalize hop : i.opcode = load at shows
  cases shows with
  | name found =>
    have hexec := exec_loadName hop hname (m.fetching i)
    have found' : (m.fetching i).lookup x = .ok v := found
    rw [found'] at hexec
    exact ⟨_, ⟨0, step_of_next placed hexec _⟩, rfl⟩
  | fast found =>
    have hexec := exec_loadFast hop hname (m.fetching i)
    have found' : (m.fetching i).frame.local? x = some v := found
    rw [found'] at hexec
    exact ⟨_, ⟨0, step_of_next placed hexec _⟩, rfl⟩
  | global found =>
    have found' : (m.fetching i).engine.global x = .ok v := found
    have hexec : exec i (m.fetching i) = .ok .next ((m.fetching i).withStack
        ((if wantsNull i then [v, .null] else [v]) ++ m.frame.stack)) :=
      exec_loadGlobal hop hname found'
    refine ⟨_, ⟨0, step_of_next placed hexec _⟩, ?_⟩
    simp only [withStack_stack, true_and]

end Shows

/-- Once the frame has stored a value to a name, and until it or a function it calls stores to the
name again, the load that goes with the store pushes the value; with a marker beneath it, if the
load asks for that.  A store to a local name at the top level is the exception: there the load
finds nothing. -/
theorem load_after_store {store load : Instruction} {x : String} {v : Value} {rest : List Value}
    {m m₁ m₂ : Machine} (pair : store.opcode.StoresFor load.opcode)
    (placed : m.instruction? = some store) (storeName : store.name = .ok x)
    (taken : m.frame.stack = v :: rest) (stored : m.Goes m₁) (alone : LeavesAlone x m₁ m₂)
    (placed' : m₂.instruction? = some load) (loadName : load.name = .ok x) :
    (m.Homes store.opcode → ∃ m₃, m₂.Goes m₃ ∧ m₃.frame.stack =
      (if load.opcode = .loadGlobal ∧ wantsNull load then [v, .null] else [v]) ++
        m₂.frame.stack) ∧
    (¬ m.Homes store.opcode →
      ∃ m₃, ∀ body, step body m₂ = some (.error (.nameNotFound x) m₃)) := by
  have keeps := alone.keepsBinding
  constructor
  · intro homes
    have shows := shows_of_store pair homes placed storeName taken stored
    exact (shows.of_keepsBinding keeps).goes placed' loadName
  · intro homeless
    obtain ⟨hop, atTop⟩ := Classical.not_imp.1 homeless
    have hload : load.opcode = .loadFast := by
      rw [hop] at pair
      generalize load.opcode = op at pair
      cases pair
      rfl
    have atTop₁ := locals_eq_none_of_store hop (Option.not_isSome_iff_eq_none.1 atTop) placed
      storeName taken stored
    have hnone : (m₂.fetching load).frame.local? x = none := by
      have hnone₁ : m₁.frame.local? x = none := by rw [Frame.local?, atTop₁, Option.bind_none]
      exact keeps.local_eq.trans hnone₁
    have hexec := exec_loadFast hload loadName (m₂.fetching load)
    rw [hnone] at hexec
    exact ⟨_, step_of_error placed' hexec⟩

/-- A global name that is loaded after another one has been bound. -/
theorem load_after_store_storeName :
    let m : Machine := ⟨.fresh .standard .unlimited, ⟨⟨"", 0, [],
      [⟨0, .storeName, none, some (.str "x")⟩, ⟨2, .storeName, none, some (.str "y")⟩,
        ⟨4, .loadName, none, some (.str "x")⟩],
      ⟨[(0, 0), (2, 1), (4, 2)]⟩⟩, 0, [.int 5, .int 7], none, none⟩⟩
    ∃ m₁ m₂ m₃, m.Goes m₁ ∧ LeavesAlone "x" m₁ m₂ ∧ m₂.Goes m₃ ∧ m₃.frame.stack = [.int 5] := by
  intro m
  let m₁ := ((m.fetching ⟨0, .storeName, none, some (.str "x")⟩).withStack [.int 7]).bound "x"
    (.int 5)
  let m₂ := ((m₁.fetching ⟨2, .storeName, none, some (.str "y")⟩).withStack []).bound "y" (.int 7)
  have stored : m.Goes m₁ := ⟨0, rfl⟩
  have other : step (execute 0) m₁ = some (.ok none m₂) := rfl
  have alone : LeavesAlone "x" m₁ m₂ := by
    refine .step other ?_ nofun (.refl _)
    rintro i placed ⟨-, hname⟩
    cases placed
    have hsame : "y" = "x" := Except.ok.inj hname
    exact absurd hsame (by decide)
  have placed' : m₂.instruction? = some ⟨4, .loadName, none, some (.str "x")⟩ := rfl
  obtain ⟨m₃, goes, hstack⟩ :=
    (load_after_store .name rfl rfl rfl stored alone placed' rfl).1 nofun
  exact ⟨m₁, m₂, m₃, stored, alone, goes, hstack⟩

/-- At the top level a local name is stored and then not found. -/
theorem load_after_storeFast_atTop :
    let m : Machine := ⟨.fresh .standard .unlimited, ⟨⟨"", 0, [],
      [⟨0, .storeFast, none, some (.str "x")⟩, ⟨2, .loadFast, none, some (.str "x")⟩],
      ⟨[(0, 0), (2, 1)]⟩⟩, 0, [.int 5], none, none⟩⟩
    ∃ m₁, m.Goes m₁ ∧ ¬ ∃ m₂, m₁.Goes m₂ := by
  refine ⟨_, ⟨0, rfl⟩, ?_⟩
  rintro ⟨m₂, fuel, hstep⟩
  cases hstep

end Machine

end Bytecode
