import Bytecode.Proofs.Coupling

set_option autoImplicit false

/-!
# Limits on output and on the depth of calls

A run on a sink with a limit does what it does on a sink without one, until the first write that
does not fit.  Of that write the beginning is kept that fits, wherever in a line the limit falls,
and the fault of the sink goes up through all the functions in flight and ends the run.

The limit on the depth of calls shows in nothing but the refusal of a call that would nest too
deeply.  A run that comes to its end without such a refusal comes to the same end under every
greater limit.

Main statements: `Engine.ends_limited` and `Engine.ends_of_callLimit_le`.
-/

namespace Bytecode

/-! ## Sinks with a limit -/

namespace Sink

/-- The sink with a limit on what it keeps. -/
def limited (limit : Nat) (sink : Sink) : Sink :=
  { sink with capacity := some limit }

variable {sink : Sink} {limit : Nat} {bytes : List UInt8}

/-- A sink without a limit keeps all that is written. -/
theorem toList_append_of_unlimited (unlimited : sink.capacity = none) :
    (sink.append bytes).written.toList = sink.written.toList ++ bytes := by
  simp [toList_append, accepted, unlimited]

theorem size_append_of_unlimited (unlimited : sink.capacity = none) :
    (sink.append bytes).written.size = sink.written.size + bytes.length := by
  rw [← Array.length_toList, toList_append_of_unlimited unlimited, List.length_append,
    Array.length_toList]

theorem write_of_unlimited (unlimited : sink.capacity = none) :
    write bytes sink = .ok () (sink.append bytes) := by
  simp [write, accepted, unlimited]

/-- What is within the limit is written as on a sink without one. -/
theorem write_limited_of_le (unlimited : sink.capacity = none)
    (fits : (sink.append bytes).written.size ≤ limit) :
    write bytes (sink.limited limit) = .ok () ((sink.append bytes).limited limit) := by
  rw [size_append_of_unlimited unlimited] at fits
  have haccepted : (sink.limited limit).accepted bytes.length = bytes.length := by
    simp only [accepted, limited]
    omega
  have haccepted' : sink.accepted bytes.length = bytes.length := by
    simp only [accepted, unlimited]
  have happend : (sink.limited limit).append bytes = (sink.append bytes).limited limit := by
    simp only [append, haccepted, haccepted']
    rfl
  unfold write
  rw [haccepted, if_neg (Nat.lt_irrefl _), happend]

/-- Of a write that goes past the limit the part within the limit is kept. -/
theorem write_limited_of_lt (unlimited : sink.capacity = none)
    (fits : sink.written.size ≤ limit) (exceeds : limit < (sink.append bytes).written.size) :
    ∃ cut : Sink, write bytes (sink.limited limit) = .error (.output .full) cut ∧
      cut.written.toList = (sink.append bytes).written.toList.take limit := by
  rw [size_append_of_unlimited unlimited] at exceeds
  have haccepted : (sink.limited limit).accepted bytes.length = limit - sink.written.size := by
    simp only [accepted, limited]
    omega
  have hkept : sink.written.toList.take limit = sink.written.toList :=
    List.take_of_length_le (by rwa [Array.length_toList])
  refine ⟨(sink.limited limit).append bytes, ?_, ?_⟩
  · unfold write
    rw [haccepted, if_pos (by omega)]
  · rw [toList_append_of_unlimited unlimited, List.take_append, hkept, toList_append, haccepted,
      Array.length_toList]
    rfl

end Sink

/-! ## Engines with a limit -/

/-- The engine with a limit on its output. -/
def Engine.limited (limit : Nat) (e : Engine) : Engine :=
  { e with sink := e.sink.limited limit }

/-- An engine without a limit that has not come to it, and the engine with the limit; the second is
refused what goes past the limit, and keeps what is within it. -/
def Coupling.outputLimit (limit : Nat) : Coupling where
  alike e e' := e' = e.limited limit ∧ e.sink.capacity = none ∧ e.sink.written.size ≤ limit
  refuses sink fault sink' := fault = .output .full ∧ limit < sink.written.size ∧
    sink'.written.toList = sink.written.toList.take limit
  criterion := .any
  global_eq := by
    rintro e _ code i x ⟨rfl, -⟩ - - -
    rfl
  setGlobal := by
    rintro e _ x v ⟨rfl, h⟩
    exact ⟨rfl, h⟩
  entered := by
    rintro e _ ⟨rfl, h⟩
    exact ⟨rfl, h⟩
  exited := by
    rintro e _ ⟨rfl, h⟩
    exact ⟨rfl, h⟩
  write := by
    rintro e _ bytes ⟨rfl, unlimited, fits⟩
    rw [Sink.write_of_unlimited unlimited]
    rcases Nat.lt_or_ge limit (e.sink.append bytes).written.size with exceeds | hle
    · obtain ⟨cut, hwrite, hcut⟩ := Sink.write_limited_of_lt unlimited fits exceeds
      simp only [Engine.limited, hwrite]
      exact .refused ⟨rfl, exceeds, hcut⟩
    · simp only [Engine.limited, Sink.write_limited_of_le unlimited hle]
      exact .same (.ok ⟨rfl, unlimited, hle⟩)
  calleeFrame := by
    rintro e _ code args ⟨rfl, -⟩
    exact .inl rfl
  flush_eq := by
    rintro e _ ⟨rfl, -⟩
    rfl
  refuses_of_precedes := by
    rintro sink later sink' fault ⟨rfl, exceeds, hcut⟩ ⟨bytes, hlater⟩
    have hsize : later.written.size = sink.written.size + bytes.length := by
      rw [← Array.length_toList, ← hlater, List.length_append, Array.length_toList]
    refine ⟨rfl, by omega, ?_⟩
    rw [hcut, ← hlater, List.take_append_of_le_length]
    rw [Array.length_toList]
    omega

/-- The end of a run with a limit is that of the run without, or that the output has been cut. -/
theorem Coupling.agreesAtEnd_outputLimit {limit : Nat} {outcome outcome' : Outcome}
    (agree : (outputLimit limit).AgreesAtEnd outcome outcome') :
    ((finalState outcome).sink.written.size ≤ limit ∧
      outcome' = outcome.onEngine (Engine.limited limit)) ∨
    (limit < (finalState outcome).sink.written.size ∧
      ∃ e' : Engine, outcome' = .error (.output .full) e' ∧
        e'.sink.written.toList = (finalState outcome).sink.written.toList.take limit) := by
  cases agree with
  | same same =>
    left
    cases same with
    | ok related =>
      obtain ⟨rfl, -, hle⟩ := related
      exact ⟨hle, rfl⟩
    | error related =>
      obtain ⟨rfl, -, hle⟩ := related
      exact ⟨hle, rfl⟩
  | refused refusal =>
    obtain ⟨rfl, exceeds, hcut⟩ := refusal
    exact .inr ⟨exceeds, _, rfl, hcut⟩

namespace Engine

variable {code : Code} {e : Engine} {limit : Nat} {outcome : Outcome}

/-- A limit on the output only cuts it.  Where a run without a limit comes to its end, the run with
the limit comes to the same end if all the output is within the limit; otherwise it fails with the
fault of the sink, and has written what is within the limit.  At every point in either run what has
been written is the beginning of the whole output. -/
theorem ends_limited (unlimited : e.sink.capacity = none) (fits : e.sink.written.size ≤ limit)
    (ends : Ends code e outcome) :
    let output := (finalState outcome).sink.written
    (output.size ≤ limit → Ends code (e.limited limit) (outcome.onEngine (limited limit))) ∧
    (limit < output.size → ∃ e', Ends code (e.limited limit) (.error (.output .full) e') ∧
      e'.sink.written.toList = output.toList.take limit) ∧
    ∀ start ∈ [e, e.limited limit], ∀ n m, Machine.Passes ⟨start, .ofModule code⟩ n m →
      m.engine.sink.written.toList <+: output.toList := by
  intro output
  have alike : (Coupling.outputLimit limit).alike e (e.limited limit) := ⟨rfl, unlimited, fits⟩
  obtain ⟨outcome', ends', agree⟩ := Coupling.agrees_of_ends (Machine.satisfies_any _) alike ends
  have written : (finalState outcome').sink.Precedes (finalState outcome).sink →
      ∀ start ∈ [e, e.limited limit], ∀ n m, Machine.Passes ⟨start, .ofModule code⟩ n m →
        m.engine.sink.written.toList <+: output.toList := by
    intro precedes start hstart n m passes
    simp only [List.mem_cons, List.not_mem_nil, or_false] at hstart
    rcases hstart with rfl | rfl
    · exact ends.precedes_of_passes passes
    · exact (ends'.precedes_of_passes passes).trans precedes
  rcases Coupling.agreesAtEnd_outputLimit agree with ⟨hle, rfl⟩ | ⟨exceeds, e', rfl, hcut⟩
  · refine ⟨fun _ => ends', fun exceeds => absurd exceeds (Nat.not_lt.2 hle), written ?_⟩
    cases outcome <;> exact .refl _
  · have precedes : e'.sink.Precedes (finalState outcome).sink := by
      unfold Sink.Precedes
      rw [hcut]
      exact List.take_prefix ..
    refine ⟨fun hle => absurd exceeds (Nat.not_lt.2 hle), fun _ => ?_, written precedes⟩
    exact ⟨e', ends', hcut⟩

/-- A line that is printed inside of a function, cut before the end of the line. -/
theorem ends_limited_print :
    let e : Engine := .fresh .standard .unlimited
    let body : Code := ⟨"f", 0, [], [⟨0, .loadGlobal, some 1, some (.str "print")⟩,
      ⟨2, .loadConst, none, some (.str "ab")⟩, ⟨4, .call, some 1, none⟩],
      ⟨[(0, 0), (2, 1), (4, 2)]⟩⟩
    let code : Code := ⟨"m", 0, [], [⟨0, .loadConst, none, some (.code body)⟩,
      .bare 2 .makeFunction, ⟨4, .call, some 0, none⟩], ⟨[(0, 0), (2, 1), (4, 2)]⟩⟩
    ∃ outcome, Ends code e outcome ∧ e.sink.capacity = none ∧ e.sink.written.size ≤ 2 ∧
      ∃ e', Ends code (e.limited 2) (.error (.output .full) e') ∧
        e'.sink.written.toList = utf8Bytes "ab" := by
  intro e body code
  let final : Engine := { e with sink := ⟨⟨utf8Bytes "ab\n"⟩, none, true⟩ }
  have ends : Ends code e (.ok .none final) := ⟨9, rfl⟩
  have fits : e.sink.written.size ≤ 2 := by decide
  obtain ⟨-, cuts, -⟩ := ends_limited rfl fits ends
  obtain ⟨e', ends', hcut⟩ := cuts (by decide)
  exact ⟨_, ends, rfl, fits, e', ends', hcut.trans (by decide)⟩

end Engine

/-! ## Limits on the depth of calls -/

/-- The engine with other settings. -/
def Engine.withConfig (config : Config) (e : Engine) : Engine :=
  { e with config := config }

/-- An engine with wider settings and the engine with the narrower ones; the second is refused calls
that nest too deeply for it. -/
def Coupling.callLimit {config wider : Config} (hle : config.callLimit ≤ wider.callLimit) :
    Coupling where
  alike e e' := e.config = wider ∧ e' = e.withConfig config
  refuses _ fault _ := fault.category = .recursionLimit
  criterion := .any
  global_eq := by
    rintro e _ code i x ⟨-, rfl⟩ - - -
    rfl
  setGlobal := by
    rintro e _ x v ⟨hconfig, rfl⟩
    exact ⟨hconfig, rfl⟩
  entered := by
    rintro e _ ⟨hconfig, rfl⟩
    exact ⟨hconfig, rfl⟩
  exited := by
    rintro e _ ⟨hconfig, rfl⟩
    exact ⟨hconfig, rfl⟩
  write := by
    rintro e _ bytes ⟨hconfig, rfl⟩
    simp only [Engine.withConfig]
    cases Sink.write bytes e.sink with
    | ok _ sink => exact .same (.ok ⟨hconfig, rfl⟩)
    | error fault sink => exact .same (.error ⟨hconfig, rfl⟩)
  calleeFrame := by
    rintro e _ code args ⟨rfl, rfl⟩
    unfold Engine.calleeFrame
    by_cases hlength : args.length ≠ code.argcount
    · left
      rw [if_pos hlength, if_pos hlength]
    · rw [if_neg hlength, if_neg hlength]
      by_cases hfull : config.callLimit ≤ e.callDepth
      · exact .inr ⟨_, if_pos hfull, rfl⟩
      · have hfree : ¬ e.config.callLimit ≤ e.callDepth := by omega
        exact .inl ((if_neg hfull).trans (if_neg hfree).symm)
  flush_eq := by
    rintro e _ ⟨-, rfl⟩
    rfl
  refuses_of_precedes := fun refusal _ => refusal

namespace Engine

/-- A greater limit on the depth of calls changes nothing where the smaller one has not been in the
way: a run that comes to its end, and has not failed for too many calls, comes to the same end,
with the same output and the same global names. -/
theorem ends_of_callLimit_le {limit more : Nat} {config wider : Config}
    (hlimit : Config.ofCallLimit limit = .ok config) (hmore : Config.ofCallLimit more = .ok wider)
    (hle : limit ≤ more) {code : Code} {e : Engine} {outcome : Outcome}
    (ends : Ends code (e.withConfig config) outcome)
    (accepted : ∀ fault e', outcome = .error fault e' → fault.category ≠ .recursionLimit) :
    Ends code (e.withConfig wider) (outcome.onEngine (withConfig wider)) := by
  have hle : config.callLimit ≤ wider.callLimit := by
    rwa [Config.callLimit_of_ofCallLimit hlimit, Config.callLimit_of_ofCallLimit hmore]
  have alike : (Coupling.callLimit hle).alike (e.withConfig wider) (e.withConfig config) :=
    ⟨rfl, rfl⟩
  obtain ⟨outcome', ends', same⟩ := Coupling.same_of_ends (Machine.satisfies_any _) alike ends
    fun _ fault e' failed => accepted fault e' failed
  cases same with
  | ok related =>
    obtain ⟨rfl, rfl⟩ := related
    exact ends'
  | error related =>
    obtain ⟨rfl, rfl⟩ := related
    exact ends'

/-- A program that calls a function, with one or two functions in flight at most. -/
theorem ends_of_callLimit_le_returnConst :
    let body : Code := ⟨"f", 0, [], [⟨0, .returnConst, none, some (.int 5)⟩], ⟨[(0, 0)]⟩⟩
    let code : Code := ⟨"m", 0, [], [⟨0, .loadConst, none, some (.code body)⟩,
      .bare 2 .makeFunction, ⟨4, .call, some 0, none⟩, .bare 6 .returnValue],
      ⟨[(0, 0), (2, 1), (4, 2), (6, 3)]⟩⟩
    ∃ (config wider : Config) (e e' : Engine), Config.ofCallLimit 1 = .ok config ∧
      Config.ofCallLimit 2 = .ok wider ∧ 1 ≤ 2 ∧ Ends code (e.withConfig config) (.ok (.int 5) e') ∧
      Ends code (e.withConfig wider) (.ok (.int 5) (e'.withConfig wider)) := by
  intro body code
  let config : Config := ⟨1, by decide, by decide⟩
  let wider : Config := ⟨2, by decide, by decide⟩
  let e : Engine := .fresh config .unlimited
  have ends : Ends code (e.withConfig config) (.ok (.int 5) e) := ⟨5, rfl⟩
  have hconfig : Config.ofCallLimit 1 = .ok config := rfl
  have hwider : Config.ofCallLimit 2 = .ok wider := rfl
  have hle : 1 ≤ 2 := by decide
  refine ⟨config, wider, e, e, hconfig, hwider, hle, ends, ?_⟩
  refine ends_of_callLimit_le hconfig hwider hle ends fun fault e' failed => ?_
  cases failed

end Engine

end Bytecode
