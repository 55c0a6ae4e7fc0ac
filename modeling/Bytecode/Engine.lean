import Bytecode.Value

set_option autoImplicit false

/-!
# Engines

What outlives a single run: the global names, the sink for output, and the limit on how deeply calls
nest.

An environment binds names to values, at most one value a name.  A sink keeps the bytes that are
written to it, up to its capacity; a write that does not fit leaves the part that does and is a
fault.

Main statements: `Environment.get?_set_self` and `Environment.get?_set_of_ne`, a binding is seen
under its own name and no other; `Sink.toList_append`, a write keeps a beginning of its bytes behind
what was kept before, and so `Sink.precedes_append`, nothing that was kept is lost.
-/

namespace Bytecode

/-! ## Environments -/

/-- Bindings of names to values. -/
structure Environment where
  bindings : List (String × Value)
deriving Inhabited

namespace Environment

/-- No name is bound. -/
def empty : Environment := ⟨[]⟩

/-- The value bound to a name. -/
def get? (env : Environment) (name : String) : Option Value :=
  env.bindings.lookup name

/-- Replaces the binding of `name`, or adds one at the end. -/
def setIn (name : String) (value : Value) : List (String × Value) → List (String × Value)
  | [] => [(name, value)]
  | (other, old) :: rest =>
    if name == other then (name, value) :: rest else (other, old) :: setIn name value rest

/-- Binds a name. -/
def set (env : Environment) (name : String) (value : Value) : Environment :=
  ⟨setIn name value env.bindings⟩

/-- Binds names one after the other, so that of two bindings of a name the later counts. -/
def ofList (bindings : List (String × Value)) : Environment :=
  bindings.foldl (fun env binding => env.set binding.1 binding.2) empty

theorem lookup_setIn_self (name : String) (value : Value) (bindings : List (String × Value)) :
    (setIn name value bindings).lookup name = some value := by
  induction bindings with
  | nil => simp [setIn]
  | cons binding rest ih =>
    obtain ⟨key, old⟩ := binding
    by_cases h : name = key
    · simp [setIn, h]
    · have hne : (name == key) = false := beq_eq_false_iff_ne.2 h
      simp [setIn, List.lookup_cons, hne, ih]

theorem lookup_setIn_of_ne {name other : String} (h : other ≠ name) (value : Value)
    (bindings : List (String × Value)) :
    (setIn name value bindings).lookup other = bindings.lookup other := by
  have hne : (other == name) = false := beq_eq_false_iff_ne.2 h
  induction bindings with
  | nil => simp [setIn, List.lookup_cons, hne]
  | cons binding rest ih =>
    obtain ⟨key, old⟩ := binding
    by_cases hk : name = key
    · subst hk
      simp [setIn, List.lookup_cons, hne]
    · have hkey : (name == key) = false := beq_eq_false_iff_ne.2 hk
      simp [setIn, List.lookup_cons, hkey, ih]

@[simp] theorem get?_set_self (env : Environment) (name : String) (value : Value) :
    (env.set name value).get? name = some value :=
  lookup_setIn_self name value env.bindings

theorem get?_set_of_ne {env : Environment} {name other : String} (h : other ≠ name)
    (value : Value) : (env.set name value).get? other = env.get? other :=
  lookup_setIn_of_ne h value env.bindings

end Environment

/-! ## Output -/

/-- Where output goes. -/
structure Sink where
  /-- The bytes kept so far. -/
  written : Array UInt8
  /-- How many bytes can be kept in all; without a bound, any number. -/
  capacity : Option Nat
  /-- Whether what is kept can be handed on at the end of a run. -/
  flushable : Bool
deriving DecidableEq, Repr, Inhabited

namespace Sink

/-- An empty sink without a bound. -/
def unlimited : Sink := ⟨#[], none, true⟩

/-- How many of `n` more bytes can be kept. -/
def accepted (sink : Sink) (n : Nat) : Nat :=
  match sink.capacity with
  | none => n
  | some capacity => min n (capacity - sink.written.size)

/-- The sink after a write of these bytes, of which those that fit are kept. -/
def append (sink : Sink) (bytes : List UInt8) : Sink :=
  { sink with written := sink.written ++ bytes.take (sink.accepted bytes.length) }

/-- Writes all of the bytes, or those that fit with a fault. -/
def write (bytes : List UInt8) : EStateM Fault Sink Unit := fun sink =>
  if sink.accepted bytes.length < bytes.length then
    .error (.output .full) (sink.append bytes)
  else .ok () (sink.append bytes)

/-- Hands on what is kept. -/
def flush (sink : Sink) : Except Fault Unit :=
  if sink.flushable then .ok () else .error (.output .unflushable)

theorem toList_append (sink : Sink) (bytes : List UInt8) :
    (sink.append bytes).written.toList =
      sink.written.toList ++ bytes.take (sink.accepted bytes.length) := by
  simp [append]

/-- What the sink holds is a beginning of what the later one holds. -/
def Precedes (sink later : Sink) : Prop :=
  sink.written.toList <+: later.written.toList

theorem Precedes.refl (sink : Sink) : sink.Precedes sink :=
  List.prefix_refl _

theorem Precedes.trans {sink later latest : Sink} (h : sink.Precedes later)
    (h' : later.Precedes latest) : sink.Precedes latest :=
  List.IsPrefix.trans h h'

theorem precedes_append (sink : Sink) (bytes : List UInt8) : sink.Precedes (sink.append bytes) :=
  ⟨_, (sink.toList_append bytes).symm⟩

end Sink

/-- The UTF-8 bytes of a text. -/
def utf8Bytes (text : String) : List UInt8 :=
  text.toUTF8.data.toList

/-! ## Engines -/

/-- The greatest number of functions in flight that an engine may be set to. -/
def mostCalls : Nat := 1000

/-- The settings of an engine. -/
structure Config where
  /-- How many functions may be in flight at once. -/
  callLimit : Nat
  one_le : 1 ≤ callLimit := by decide
  le_mostCalls : callLimit ≤ mostCalls := by decide
deriving DecidableEq, Repr

namespace Config

/-- Settings with this limit, which has to lie between one and `mostCalls`. -/
def ofCallLimit (limit : Nat) : Except Fault Config :=
  if h : 1 ≤ limit ∧ limit ≤ mostCalls then .ok ⟨limit, h.1, h.2⟩
  else .error (.callDepthOutOfBounds 1 mostCalls limit)

/-- The settings when nothing else is asked for. -/
def standard : Config where
  callLimit := 200

theorem callLimit_of_ofCallLimit {limit : Nat} {config : Config}
    (h : ofCallLimit limit = .ok config) : config.callLimit = limit := by
  unfold ofCallLimit at h
  split at h
  · cases h
    rfl
  · cases h

end Config

instance : Inhabited Config := ⟨.standard⟩

/-- What runs share. -/
structure Engine where
  globals : Environment
  sink : Sink
  config : Config
  /-- How many functions are in flight. -/
  callDepth : Nat

namespace Engine

/-- An engine that has not run anything. -/
def fresh (config : Config) (sink : Sink) : Engine :=
  ⟨.empty, sink, config, 0⟩

/-- The value of a global name; where there is none, the builtin function of that name. -/
def global (e : Engine) (name : String) : Except Fault Value :=
  match e.globals.get? name with
  | some v => .ok v
  | none =>
    match Builtin.ofName? name with
    | some b => .ok (.builtin b)
    | none => .error (.nameNotFound name)

/-- The engine with a global name bound. -/
def setGlobal (e : Engine) (name : String) (v : Value) : Engine :=
  { e with globals := e.globals.set name v }

/-- The engine with one more function in flight. -/
def entered (e : Engine) : Engine :=
  { e with callDepth := e.callDepth + 1 }

/-- The engine with one function less in flight. -/
def exited (e : Engine) : Engine :=
  { e with callDepth := e.callDepth - 1 }

end Engine

end Bytecode
