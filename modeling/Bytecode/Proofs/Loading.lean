import Bytecode.Listing
import Bytecode.Proofs.Contents
import Bytecode.Proofs.Document

set_option autoImplicit false

/-!
# Loading what was written

A code object is written as a document in many ways: keys are in any order, a part that has its
default may be left out, and an absent operand may be left out or be `null`; a document, again, has
many texts.  Whichever way is taken, loading the text gives the code object back, but that an
operand `None` cannot be told from an absent one.

Main statements: `Code.load_of_writtenAs`, and `Code.load_eq_self` if there are no operands `None`.
-/

namespace Bytecode

/-! ## Writing code objects -/

namespace Json

def ofText (text : String) : Json :=
  .str (some text)

def ofTexts (texts : List String) : Json :=
  .arr (texts.map ofText)

def ofNat (n : Nat) : Json :=
  .num (.ofInt n)

def ofWord (n : UInt32) : Json :=
  .ofNat n.toNat

end Json

/-- A part that may be left out if it has its default. -/
inductive Defaulted {α : Type} (default : α) (encode : α → Json) : α → Option Json → Prop where
  | written (a : α) : Defaulted default encode a (some (encode a))
  | omitted : Defaulted default encode default none

/-- A part that is left out or `null` if it is absent. -/
inductive Nullable {α : Type} (Writes : α → Json → Prop) : Option α → Option Json → Prop where
  | written {a : α} {j : Json} (h : Writes a j) : Nullable Writes (some a) (some j)
  | omitted : Nullable Writes none none
  | null : Nullable Writes none (some .null)

mutual

/-- The document is one of those that the code object is written as. -/
inductive Code.WrittenAs : Code → Json → Prop where
  | mk {c : Code} {name argcount varnames : Option Json} {items : List Json} {j : Json}
      (hname : Defaulted Code.moduleName Json.ofText c.name name)
      (hargcount : Defaulted 0 Json.ofNat c.argcount argcount)
      (hvarnames : Defaulted [] Json.ofTexts c.varnames varnames)
      (hinstructions : List.Forall₂ Instruction.WrittenAs c.instructions items)
      (fields : Json.HasFields [("name", name), ("argcount", argcount), ("varnames", varnames),
        ("instructions", some (.arr items))] j) : Code.WrittenAs c j

inductive Instruction.WrittenAs : Instruction → Json → Prop where
  | mk {i : Instruction} {arg argval : Option Json} {j : Json}
      (harg : Nullable (fun n j => j = .ofWord n) i.arg arg)
      (hargval : Nullable Value.WrittenAs i.argval argval)
      (fields : Json.HasFields [("offset", some (.ofWord i.offset)),
        ("opname", some (.ofText i.opcode.name)), ("arg", arg), ("argval", argval)] j) :
      Instruction.WrittenAs i j

/-- Operands are written if they are constants. -/
inductive Value.WrittenAs : Value → Json → Prop where
  | none : Value.WrittenAs .none .null
  | bool (b : Bool) : Value.WrittenAs (.bool b) (.bool b)
  | int (n : Int64) : Value.WrittenAs (.int n) (.num (.ofInt n.toInt))
  | str (text : String) : Value.WrittenAs (.str text) (.ofText text)
  | tuple {vs : List Value} {items : List Json} (each : List.Forall₂ Value.WrittenAs vs items) :
      Value.WrittenAs (.tuple vs) (.arr items)
  | code {c : Code} {j j' : Json} (h : Code.WrittenAs c j)
      (fields : Json.HasFields [("code", some j)] j') : Value.WrittenAs (.code c) j'

end

/-! ## What is loaded -/

/-- The value as an operand: `None` and no operand are the same. -/
def Value.asOperand : Value → Option Value
  | .none => Option.none
  | v => some v

mutual

/-- The code object with no operand in place of every operand that is `None`, in the code objects
inside of it too. -/
def Code.loaded : Code → Code
  | ⟨name, argcount, varnames, instructions, index⟩ =>
    ⟨name, argcount, varnames, Instruction.allLoaded instructions, index⟩
termination_by structural c => c

def Instruction.loaded : Instruction → Instruction
  | ⟨offset, opcode, arg, argval⟩ => ⟨offset, opcode, arg, Value.optionLoaded argval⟩
termination_by structural i => i

def Instruction.allLoaded : List Instruction → List Instruction
  | [] => []
  | i :: rest => Instruction.loaded i :: Instruction.allLoaded rest
termination_by structural is => is

def Value.loaded : Value → Value
  | .tuple items => .tuple (Value.allLoaded items)
  | .code c => .code (Code.loaded c)
  | v => v
termination_by structural v => v

def Value.allLoaded : List Value → List Value
  | [] => []
  | v :: rest => Value.loaded v :: Value.allLoaded rest
termination_by structural vs => vs

def Value.optionLoaded : Option Value → Option Value
  | Option.none => Option.none
  | some v => (Value.loaded v).asOperand
termination_by structural o => o

end

/-- Code objects are built of their parts, and the number of parameters fits into 64 bits. -/
def Criterion.loadable : Criterion :=
  .ofCode fun c => c.Built ∧ c.argcount < UInt64.size

theorem Instruction.offsets_allLoaded (is : List Instruction) :
    (Instruction.allLoaded is).map (·.offset) = is.map (·.offset) := by
  induction is with
  | nil => rfl
  | cons i rest ih =>
    obtain ⟨offset, opcode, arg, argval⟩ := i
    exact congrArg (offset :: ·) ih

/-- Offsets do not change, so the code object is still built of its parts. -/
theorem Code.Built.loaded {c : Code} (h : c.Built) :
    ofInstructions c.name c.argcount c.varnames (Instruction.allLoaded c.instructions) =
      .ok c.loaded := by
  obtain ⟨hle, index, hindex, heq⟩ := ofInstructions_eq_ok_iff.1 h
  rw [← Instruction.offsets_allLoaded] at hindex
  refine ofInstructions_eq_ok_iff.2 ⟨hle, index, hindex, ?_⟩
  rw [heq]
  rfl

/-- No operand is `None`, which is loaded as an absent one. -/
def Criterion.unambiguous : Criterion :=
  .ofCode fun c => ∀ i ∈ c.instructions, i.argval ≠ some .none

theorem Value.asOperand_of_ne_none {v : Value} (h : v ≠ none) : v.asOperand = some v := by
  cases v with
  | none => exact absurd rfl h
  | _ => rfl

mutual

theorem Code.loaded_eq_self : ∀ c : Code, c.Satisfies .unambiguous → c.loaded = c
  | ⟨name, argcount, varnames, instructions, index⟩, hc => by
    rw [Code.loaded, Instruction.allLoaded_eq_self instructions hc.instructions hc.own]
termination_by structural c => c

theorem Instruction.loaded_eq_self : ∀ i : Instruction, i.Satisfies .unambiguous →
    i.argval ≠ some .none → i.loaded = i
  | ⟨offset, opcode, arg, argval⟩, .mk all, hne => by
    rw [Instruction.loaded, Value.optionLoaded_eq_self argval all hne]
termination_by structural i => i

theorem Instruction.allLoaded_eq_self : ∀ is : List Instruction,
    (∀ i ∈ is, i.Satisfies .unambiguous) → (∀ i ∈ is, i.argval ≠ some .none) →
      Instruction.allLoaded is = is
  | [], _, _ => rfl
  | i :: rest, all, hne => by
    obtain ⟨hi, hrest⟩ := List.forall_mem_cons.1 all
    obtain ⟨hine, hrestne⟩ := List.forall_mem_cons.1 hne
    rw [Instruction.allLoaded, Instruction.loaded_eq_self i hi hine,
      Instruction.allLoaded_eq_self rest hrest hrestne]
termination_by structural is => is

theorem Value.loaded_eq_self : ∀ v : Value, v.Satisfies .unambiguous → v.loaded = v
  | .tuple items, hv => by
    rw [Value.loaded, Value.allLoaded_eq_self items (Value.satisfies_tuple_iff.1 hv)]
  | .code c, hv => by
    rw [Value.loaded, Code.loaded_eq_self c (Value.satisfies_code_iff.1 hv)]
  | .none, _ | .null, _ | .bool _, _ | .int _, _ | .float _, _ | .str _, _ | .range _, _ => rfl
  | .builtin _, _ | .function _, _ | .iterator _, _ => rfl
termination_by structural v => v

theorem Value.allLoaded_eq_self : ∀ vs : List Value, (∀ v ∈ vs, v.Satisfies .unambiguous) →
    Value.allLoaded vs = vs
  | [], _ => rfl
  | v :: rest, all => by
    obtain ⟨hv, hrest⟩ := List.forall_mem_cons.1 all
    rw [Value.allLoaded, Value.loaded_eq_self v hv, Value.allLoaded_eq_self rest hrest]
termination_by structural vs => vs

theorem Value.optionLoaded_eq_self : ∀ o : Option Value, (∀ v ∈ o, v.Satisfies .unambiguous) →
    o ≠ some .none → Value.optionLoaded o = o
  | Option.none, _, _ => rfl
  | some v, all, hne => by
    rw [Value.optionLoaded, Value.loaded_eq_self v (all v rfl),
      Value.asOperand_of_ne_none fun heq => hne (congrArg some heq)]
termination_by structural o => o

end

/-! ## Scalars -/

theorem Numeral.toNat?_ofInt (n : Nat) : (ofInt n).toNat? = some n := by
  have hsign : ¬ (n : Int) < 0 := Int.not_lt.2 (Int.natCast_nonneg n)
  simp [toNat?, ofInt, hsign]

theorem Numeral.toInt64?_ofInt (n : Int64) : (ofInt n.toInt).toInt64? = some n := by
  have hsigned : (if n.toInt < 0 then -(n.toInt.natAbs : Int) else n.toInt.natAbs) = n.toInt := by
    split <;> omega
  have hzero : (decide (n.toInt < 0) && n.toInt.natAbs == 0) = false := by
    rw [Bool.and_eq_false_iff, decide_eq_false_iff_not, beq_eq_false_iff_ne]
    omega
  simp only [toInt64?, ofInt, Bool.not_true, Bool.false_or, hzero, decide_eq_true_eq, hsigned]
  exact Text.toInt64?_toInt n

theorem Literal.decode?_int64 (depth : Nat) (n : Int64) :
    decode? depth (.num (.ofInt n.toInt)) = some (.int n) := by
  have read : ofNumeral? (.ofInt n.toInt) = some (.int n) := by
    rw [ofNumeral?, Numeral.toInt64?_ofInt]
  cases depth <;> exact read

namespace Json

theorem natBelow?_ofNat {n bound : Nat} (h : n < bound) : natBelow? bound (ofNat n) = some n := by
  simp [natBelow?, ofNat, Numeral.toNat?_ofInt, h]

theorem word?_ofWord (n : UInt32) : word? (ofWord n) = some n := by
  simp [word?, ofWord, natBelow?_ofNat n.toNat_lt_size]

theorem text?_ofText (text : String) : text? (ofText text) = some text := rfl

theorem texts?_ofTexts (texts : List String) : texts? (ofTexts texts) = some texts := by
  rw [ofTexts, texts?]
  induction texts with
  | nil => rfl
  | cons text rest ih =>
    rw [List.map_cons, List.mapM_cons, ih]
    rfl

theorem sound_ofText (text : String) : (ofText text).Sound :=
  fun _ _ => rfl

theorem sound_ofTexts (texts : List String) : (ofTexts texts).Sound := by
  refine sound_arr fun j hj => ?_
  obtain ⟨text, -, rfl⟩ := List.mem_map.1 hj
  exact sound_ofText text

theorem sound_ofNat {n : Nat} (h : n < UInt64.size) : (ofNat n).Sound :=
  sound_int h

theorem sound_int64 (n : Int64) : (num (.ofInt n.toInt)).Sound :=
  (Scalar.int n.minValue_le_toInt (Int.lt_of_le_of_lt n.toInt_le (by decide))).sound

theorem sound_ofWord (n : UInt32) : (ofWord n).Sound :=
  sound_ofNat (Nat.lt_trans n.toNat_lt_size (by decide))

end Json

theorem optionalPart_of_defaulted {α : Type} {default a : α} {encode : α → Json}
    {decode? : Json → Option α} {part : Option Json} (h : Defaulted default encode a part)
    (decodes : decode? (encode a) = some a) : optionalPart default decode? part = some a := by
  cases h with
  | written => exact decodes
  | omitted => rfl

theorem Defaulted.sound {α : Type} {default a : α} {encode : α → Json} {part : Option Json}
    (h : Defaulted default encode a part) (sound : (encode a).Sound) : ∀ j ∈ part, j.Sound := by
  cases h with
  | written =>
    rintro _ ⟨⟩
    exact sound
  | omitted => exact nofun

theorem nullablePart_of_ne_null {α : Type} {decode? : Json → Option α} {j : Json}
    (h : j ≠ .null) : nullablePart decode? (some j) = (decode? j).map some := by
  rw [nullablePart, Json.nonNull.eq_2 _ fun heq => h (Option.some.inj heq)]

theorem nullablePart_word {arg : Option UInt32} {part : Option Json}
    (h : Nullable (fun n j => j = .ofWord n) arg part) :
    nullablePart Json.word? part = some arg := by
  cases h with
  | @written n j h =>
    have hne : Json.ofWord n ≠ .null := nofun
    rw [h, nullablePart_of_ne_null hne, Json.word?_ofWord]
    rfl
  | omitted => rfl
  | null => rfl

theorem sound_word {arg : Option UInt32} {part : Option Json}
    (h : Nullable (fun n j => j = .ofWord n) arg part) : ∀ j ∈ part, j.Sound := by
  cases h with
  | @written n j h =>
    rintro _ ⟨⟩
    rw [h]
    exact Json.sound_ofWord n
  | omitted => exact nofun
  | null =>
    rintro _ ⟨⟩
    exact Json.Scalar.null.sound

/-! ## Loading parts -/

/-- The document can be held in memory.  Within every depth that it does not exceed it is decoded,
and what it is decoded as is built. -/
structure Loads {α δ : Type} (decode? : Nat → Json → Option δ) (build : δ → Except Fault α)
    (a : α) (j : Json) : Prop where
  sound : j.Sound
  decodes : ∀ depth, j.levels ≤ depth → ∃ d, decode? depth j = some d ∧ build d = .ok a

theorem exists_mapM_of_loads {α δ : Type} {decode? : Nat → Json → Option δ}
    {build : δ → Except Fault α} {as : List α} {items : List Json}
    (each : List.Forall₂ (Loads decode? build) as items) {depth : Nat}
    (h : Json.mostLevels items ≤ depth) :
    ∃ ds, items.mapM (decode? depth) = some ds ∧ ds.mapM build = .ok as := by
  induction each with
  | nil => exact ⟨[], rfl, rfl⟩
  | cons first each ih =>
    obtain ⟨hle, hle'⟩ := Nat.max_le.1 h
    obtain ⟨d, decoded, built⟩ := first.decodes depth hle
    obtain ⟨ds, decoded', built'⟩ := ih hle'
    refine ⟨d :: ds, ?_, ?_⟩
    · rw [List.mapM_cons, decoded, decoded']
      rfl
    · rw [List.mapM_cons, built, built']
      rfl

theorem sound_of_loads {α δ : Type} {decode? : Nat → Json → Option δ}
    {build : δ → Except Fault α} {as : List α} {items : List Json}
    (each : List.Forall₂ (Loads decode? build) as items) : (Json.arr items).Sound := by
  refine Json.sound_arr ?_
  induction each with
  | nil => exact nofun
  | cons first each ih => exact List.forall_mem_cons.2 ⟨first.sound, ih⟩

theorem Record.buildAll_eq_mapM (records : List Record) :
    Record.buildAll records = records.mapM Record.build := by
  induction records with
  | nil => rfl
  | cons r rest ih =>
    rw [Record.buildAll, ih, List.mapM_cons]

theorem Literal.buildAll_eq_mapM (literals : List Literal) :
    Literal.buildAll literals = literals.mapM Literal.build := by
  induction literals with
  | nil => rfl
  | cons l rest ih =>
    rw [Literal.buildAll, ih, List.mapM_cons]

/-- A constant that is no tuple and no code object. -/
theorem loads_scalar (l : Literal) {v : Value} {j : Json} (sound : j.Sound)
    (decodes : ∀ depth, Literal.decode? depth j = some l) (built : l.build = .ok v) :
    Loads Literal.decode? Literal.build v j :=
  ⟨sound, fun depth _ => ⟨l, decodes depth, built⟩⟩

theorem loads_tuple {vs : List Value} {items : List Json}
    (each : List.Forall₂ (Loads Literal.decode? Literal.build) vs items) :
    Loads Literal.decode? Literal.build (.tuple vs) (.arr items) := by
  refine ⟨sound_of_loads each, fun depth h => ?_⟩
  cases depth with
  | zero => exact absurd h (Nat.not_succ_le_zero _)
  | succ depth =>
    obtain ⟨ls, decoded, built⟩ := exists_mapM_of_loads each (Nat.le_of_succ_le_succ h)
    refine ⟨.tuple ls, ?_, ?_⟩
    · rw [Literal.decode?, decoded]
      rfl
    · rw [Literal.build, Literal.buildAll_eq_mapM, built]
      rfl

theorem loads_code {c : Code} {j j' : Json} (loads : Loads Listing.decode? Listing.build c j)
    (fields : Json.HasFields [("code", some j)] j') :
    Loads Literal.decode? Literal.build (.code c) j' := by
  refine ⟨fields.sound ?_, fun depth h => ?_⟩
  · simp only [List.forall_mem_singleton, Option.mem_some_iff, forall_eq']
    exact loads.sound
  · have hlevels := fields.levels_lt
    obtain ⟨members, rfl, -, found⟩ := fields.exists_members (by simp)
    simp only [List.forall_mem_singleton, Option.mem_some_iff, forall_eq'] at hlevels found
    cases depth with
    | zero => exact absurd h (by omega)
    | succ depth =>
      obtain ⟨l, decoded, built⟩ := loads.decodes depth (by omega)
      refine ⟨.code l, ?_, ?_⟩
      · simp [Literal.decode?, found, decoded]
      · rw [Literal.build, built]
        rfl

theorem Listing.parts?_of_hasFields {name argcount varnames : Option Json} {instructions j : Json}
    (fields : Json.HasFields [("name", name), ("argcount", argcount), ("varnames", varnames),
      ("instructions", some instructions)] j) :
    Listing.parts? j = some ⟨name, argcount, varnames, instructions⟩ := by
  obtain ⟨members, rfl, valid, found⟩ := fields.exists_members (by simp)
  simp only [List.forall_mem_cons] at found
  obtain ⟨hname, hargcount, hvarnames, hinstructions, -⟩ := found
  simp [parts?, valid, hname, hargcount, hvarnames, hinstructions]

theorem Record.parts?_of_hasFields {offset opname j : Json} {arg argval : Option Json}
    (fields : Json.HasFields [("offset", some offset), ("opname", some opname), ("arg", arg),
      ("argval", argval)] j) :
    Record.parts? j = some ⟨offset, opname, arg, argval⟩ := by
  obtain ⟨members, rfl, valid, found⟩ := fields.exists_members (by simp)
  simp only [List.forall_mem_cons] at found
  obtain ⟨hoffset, hopname, harg, hargval, -⟩ := found
  simp [parts?, valid, hoffset, hopname, harg, hargval]

theorem loads_listing {c : Code} {name argcount varnames : Option Json} {items : List Json}
    {j : Json} {instructions : List Instruction} {c' : Code}
    (hname : Defaulted Code.moduleName Json.ofText c.name name)
    (hargcount : Defaulted 0 Json.ofNat c.argcount argcount)
    (hvarnames : Defaulted [] Json.ofTexts c.varnames varnames)
    (each : List.Forall₂ (Loads Record.decode? Record.build) instructions items)
    (fields : Json.HasFields [("name", name), ("argcount", argcount), ("varnames", varnames),
      ("instructions", some (.arr items))] j)
    (hlt : c.argcount < UInt64.size)
    (built : Code.ofInstructions c.name c.argcount c.varnames instructions = .ok c') :
    Loads Listing.decode? Listing.build c' j := by
  refine ⟨fields.sound ?_, fun depth h => ?_⟩
  · simp only [List.forall_mem_cons, Option.mem_some_iff, forall_eq']
    exact ⟨hname.sound (Json.sound_ofText _), hargcount.sound (Json.sound_ofNat hlt),
      hvarnames.sound (Json.sound_ofTexts _), sound_of_loads each, nofun⟩
  · have hlevels := fields.levels_lt
    simp only [List.forall_mem_cons, Option.mem_some_iff, forall_eq'] at hlevels
    obtain ⟨-, -, -, hlevels, -⟩ := hlevels
    -- The object takes one level of the limit and the array of its records another.
    match depth with
    | 0 | 1 => exact absurd h (by rw [Json.levels] at hlevels; omega)
    | depth + 2 =>
      obtain ⟨records, decoded, recordsBuilt⟩ :=
        exists_mapM_of_loads each (show _ ≤ depth by rw [Json.levels] at hlevels; omega)
      refine ⟨⟨c.name, c.argcount, c.varnames, records⟩, ?_, ?_⟩
      · have decoded : Record.decodeAll? (depth + 1) (.arr items) = some records := by
          rw [Record.decodeAll?]
          exact decoded
        rw [Listing.decode?, Listing.parts?_of_hasFields fields]
        simp only [Option.bind_eq_bind, Option.bind_some, decoded,
          optionalPart_of_defaulted hname (Json.text?_ofText _),
          optionalPart_of_defaulted hargcount (Json.natBelow?_ofNat hlt),
          optionalPart_of_defaulted hvarnames (Json.texts?_ofTexts _)]
        rfl
      · rw [Listing.build, Record.buildAll_eq_mapM, recordsBuilt]
        exact built

/-- The operand of a record is loaded. -/
structure LoadsOperand (operand : Option Value) (part : Option Json) : Prop where
  sound : ∀ j ∈ part, j.Sound
  decodes : ∀ depth, (∀ j ∈ part, j.levels ≤ depth) →
    ∃ l, nullablePart (fun j => if j.isSound depth then Literal.decode? depth j else none) part =
      some l ∧ Literal.buildOption l = .ok operand

/-- Only `None` is written as `null`. -/
theorem Value.WrittenAs.asOperand_loaded {v : Value} {j : Json} (h : v.WrittenAs j) :
    (j = .null ∧ v.loaded.asOperand = Option.none) ∨
      (j ≠ .null ∧ v.loaded.asOperand = some v.loaded) := by
  cases h with
  | none => exact .inl ⟨rfl, rfl⟩
  | code h fields =>
    obtain ⟨order, unknown⟩ := fields
    exact .inr ⟨nofun, rfl⟩
  | _ => exact .inr ⟨nofun, rfl⟩

theorem loadsOperand_none {part : Option Json} (h : ∀ j ∈ part, j = .null) :
    LoadsOperand none part := by
  cases part with
  | none => exact ⟨nofun, fun depth _ => ⟨none, rfl, rfl⟩⟩
  | some j =>
    cases h j rfl
    refine ⟨?_, fun depth _ => ⟨none, rfl, rfl⟩⟩
    rintro _ ⟨⟩
    exact Json.Scalar.null.sound

theorem loadsOperand_of_loads {v : Value} {j : Json} (h : v.WrittenAs j)
    (loads : Loads Literal.decode? Literal.build v.loaded j) :
    LoadsOperand v.loaded.asOperand (some j) := by
  rcases h.asOperand_loaded with ⟨rfl, heq⟩ | ⟨hne, heq⟩
  · rw [heq]
    exact loadsOperand_none fun _ hj => (Option.some.inj hj).symm
  · rw [heq]
    refine ⟨?_, fun depth h => ?_⟩
    · rintro _ ⟨⟩
      exact loads.sound
    · obtain ⟨l, decoded, built⟩ := loads.decodes depth (h j rfl)
      refine ⟨some l, ?_, ?_⟩
      · rw [nullablePart_of_ne_null hne, if_pos (loads.sound depth (h j rfl)), decoded]
        rfl
      · rw [Literal.buildOption, built]
        rfl

theorem loads_record {i : Instruction} {arg argval : Option Json} {j : Json}
    {operand : Option Value} (harg : Nullable (fun n j => j = .ofWord n) i.arg arg)
    (loads : LoadsOperand operand argval)
    (fields : Json.HasFields [("offset", some (.ofWord i.offset)),
      ("opname", some (.ofText i.opcode.name)), ("arg", arg), ("argval", argval)] j) :
    Loads Record.decode? Record.build ⟨i.offset, i.opcode, i.arg, operand⟩ j := by
  refine ⟨fields.sound ?_, fun depth h => ?_⟩
  · simp only [List.forall_mem_cons, Option.mem_some_iff, forall_eq']
    exact ⟨Json.sound_ofWord _, Json.sound_ofText _, sound_word harg, loads.sound, nofun⟩
  · have hlevels := fields.levels_lt
    simp only [List.forall_mem_cons, Option.mem_some_iff, forall_eq'] at hlevels
    obtain ⟨hpos, -, -, hlevels, -⟩ := hlevels
    cases depth with
    | zero => exact absurd h (by omega)
    | succ depth =>
      obtain ⟨l, decoded, built⟩ := loads.decodes depth fun part hpart => by
        have := hlevels part hpart
        omega
      refine ⟨⟨i.offset, i.opcode.name, i.arg, l⟩, ?_, ?_⟩
      · rw [Record.decode?, Record.parts?_of_hasFields fields]
        simp only [Option.bind_eq_bind, Option.bind_some, Json.word?_ofWord, Json.text?_ofText,
          nullablePart_word harg, decoded]
        rfl
      · rw [Record.build, Opcode.ofName?_name]
        simp only [built]
        rfl

/-! ## Loading code objects -/

-- The recursion is on the code object: a derivation of `WrittenAs` has its lists inside of `Forall₂`.
mutual

theorem Code.loads : ∀ c : Code, c.Satisfies .loadable → ∀ {j : Json}, c.WrittenAs j →
    Loads Listing.decode? Listing.build c.loaded j
  | ⟨name, argcount, varnames, instructions, index⟩, hc, j, h => by
    obtain ⟨hname, hargcount, hvarnames, hinstructions, fields⟩ := h
    obtain ⟨built, hlt⟩ := hc.own
    exact loads_listing hname hargcount hvarnames
      (Instruction.all_load instructions hc.instructions hinstructions) fields hlt built.loaded
termination_by structural c => c

theorem Instruction.loads : ∀ i : Instruction, i.Satisfies .loadable → ∀ {j : Json},
    i.WrittenAs j → Loads Record.decode? Record.build i.loaded j
  | ⟨offset, opcode, arg, argval⟩, hi, j, h => by
    obtain ⟨harg, hargval, fields⟩ := h
    obtain ⟨all⟩ := hi
    exact loads_record harg (Value.option_loads argval all hargval) fields
termination_by structural i => i

theorem Instruction.all_load : ∀ is : List Instruction, (∀ i ∈ is, i.Satisfies .loadable) →
    ∀ {items : List Json}, List.Forall₂ Instruction.WrittenAs is items →
      List.Forall₂ (Loads Record.decode? Record.build) (Instruction.allLoaded is) items
  | [], _, _, .nil => .nil
  | i :: rest, all, _, .cons h each =>
    .cons (Instruction.loads i (all i List.mem_cons_self) h)
      (Instruction.all_load rest (fun i hi => all i (List.mem_cons_of_mem _ hi)) each)
termination_by structural is => is

theorem Value.loads : ∀ v : Value, v.Satisfies .loadable → ∀ {j : Json}, v.WrittenAs j →
    Loads Literal.decode? Literal.build v.loaded j
  | .none, _, _, .none =>
    loads_scalar .none Json.Scalar.null.sound (fun depth => by cases depth <;> rfl) rfl
  | .bool b, _, _, .bool _ =>
    loads_scalar (.bool b) (Json.Scalar.bool b).sound (fun depth => by cases depth <;> rfl) rfl
  | .int n, _, _, .int _ =>
    loads_scalar (.int n) (Json.sound_int64 n) (fun depth => Literal.decode?_int64 depth n) rfl
  | .str text, _, _, .str _ =>
    loads_scalar (.str text) (Json.sound_ofText text) (fun depth => by cases depth <;> rfl) rfl
  | .tuple items, hv, _, .tuple each =>
    loads_tuple (Value.all_load items (Value.satisfies_tuple_iff.1 hv) each)
  | .code c, hv, _, .code h fields =>
    loads_code (Code.loads c (Value.satisfies_code_iff.1 hv) h) fields
termination_by structural v => v

theorem Value.all_load : ∀ vs : List Value, (∀ v ∈ vs, v.Satisfies .loadable) →
    ∀ {items : List Json}, List.Forall₂ Value.WrittenAs vs items →
      List.Forall₂ (Loads Literal.decode? Literal.build) (Value.allLoaded vs) items
  | [], _, _, .nil => .nil
  | v :: rest, all, _, .cons h each =>
    .cons (Value.loads v (all v List.mem_cons_self) h)
      (Value.all_load rest (fun v hv => all v (List.mem_cons_of_mem _ hv)) each)
termination_by structural vs => vs

theorem Value.option_loads : ∀ o : Option Value, (∀ v ∈ o, v.Satisfies .loadable) →
    ∀ {part : Option Json}, Nullable Value.WrittenAs o part →
      LoadsOperand (Value.optionLoaded o) part
  | Option.none, _, _, .omitted => loadsOperand_none nofun
  | Option.none, _, _, .null => loadsOperand_none fun _ hj => (Option.some.inj hj).symm
  | some v, all, _, .written h => loadsOperand_of_loads h (Value.loads v (all v rfl) h)
termination_by structural o => o

end

/-- A document that nests no deeper than documents may is loaded from each of its texts. -/
theorem Code.load_of_loads {c : Code} {j : Json} {text : String}
    (loads : Loads Listing.decode? Listing.build c j) (hlevels : j.levels ≤ nestingLimit)
    (htext : j.WrittenAs text.toList) : Code.load text = .ok c := by
  obtain ⟨l, decoded, built⟩ := loads.decodes nestingLimit hlevels
  rw [load, Json.read?_of_writtenAs htext]
  simp only [ofJson, decoded, built]
  rfl

/-- Every text that a code object is written as, with constants for operands and no deeper than
documents may nest, is loaded, and what is loaded is the code object, but that operands `None` are
absent. -/
theorem Code.load_of_writtenAs {c : Code} {j : Json} {text : String} (hc : c.Satisfies .loadable)
    (h : c.WrittenAs j) (hlevels : j.levels ≤ nestingLimit) (htext : j.WrittenAs text.toList) :
    Code.load text = .ok c.loaded :=
  load_of_loads (Code.loads c hc h) hlevels htext

/-- Keys in another order, one that nobody asks for, an escaped letter, and an operand `None` in a
code object that is an operand. -/
theorem Code.load_of_writtenAs_nested :
    load ("\x7b\"instructions\":[\x7b\"argrepr\":true,\"argval\":\x7b\"code\":\x7b" ++
        "\"instructions\":[\x7b\"argval\":null,\"opname\":\"N\\u004fP\",\"offset\":0\x7d]" ++
        "\x7d\x7d,\"opname\":\"LOAD_CONST\",\"offset\":0\x7d]\x7d") =
      .ok ⟨"<module>", 0, [], [⟨0, .loadConst, none, some (.code
        ⟨"<module>", 0, [], [⟨0, .nop, none, none⟩], ⟨[(0, 0)]⟩⟩)⟩], ⟨[(0, 0)]⟩⟩ := by
  let inner : Code := ⟨"<module>", 0, [], [⟨0, .nop, none, some .none⟩], ⟨[(0, 0)]⟩⟩
  let outer : Code :=
    ⟨"<module>", 0, [], [⟨0, .loadConst, none, some (.code inner)⟩], ⟨[(0, 0)]⟩⟩
  have loadable : outer.Satisfies .loadable := by
    refine .mk ⟨rfl, by decide⟩ (List.forall_mem_singleton.2 (.mk ?_))
    rintro _ ⟨⟩
    refine .code (.mk ⟨rfl, by decide⟩ (List.forall_mem_singleton.2 (.mk ?_)))
    rintro _ ⟨⟩
    exact .none
  let record : Json :=
    .obj [⟨some "argval", .null⟩, ⟨some "opname", .ofText "NOP"⟩, ⟨some "offset", .ofNat 0⟩]
  let listing : Json := .obj [⟨some "instructions", .arr [record]⟩]
  let record' : Json :=
    .obj [⟨some "argrepr", .bool true⟩, ⟨some "argval", .obj [⟨some "code", listing⟩]⟩,
      ⟨some "opname", .ofText "LOAD_CONST"⟩, ⟨some "offset", .ofNat 0⟩]
  let document : Json := .obj [⟨some "instructions", .arr [record']⟩]
  have innerWritten : inner.WrittenAs listing :=
    .mk .omitted .omitted .omitted
      (.cons (.mk .omitted (.written .none) (.of_perm (List.reverse_perm _))) .nil)
      (.of_perm (.refl _))
  have unknown : ∀ m ∈ [Member.mk (some "argrepr") (.bool true)], ∃ key, m.key = some key ∧
      key ∉ ["offset", "opname", "arg", "argval"] ∧ m.value.Scalar :=
    List.forall_mem_singleton.2 ⟨"argrepr", rfl, by decide, .bool true⟩
  have outerWritten : outer.WrittenAs document :=
    .mk .omitted .omitted .omitted
      (.cons (.mk .omitted (.written (.code innerWritten (.of_perm (.refl _))))
        (.mk (List.reverse_perm (_ ++ _)) unknown)) .nil)
      (.of_perm (.refl _))
  have digits : Json.WritesUnit 'O'.toNat ['0', '0', '4', 'f'] :=
    @Json.WritesUnit.mk _ _ _ _ 0 0 4 15 ⟨by decide, .inl rfl⟩ ⟨by decide, .inl rfl⟩
      ⟨by decide, .inl rfl⟩ ⟨by decide, .inl rfl⟩
  have name : Json.WritesText ['N', 'O', 'P'] _ :=
    .cons (.plain (by decide) (by decide) (by decide)) (.cons (.unit digits)
      (.cons (.plain (by decide) (by decide) (by decide)) .nil))
  have zero := Json.WrittenBare.int 0
  have written : record.WrittenBare _ :=
    .obj (.more (Json.WrittenBare.null.writesMember (by decide))
      (.more ((Json.WrittenBare.str name).writesMember (by decide))
      (.last (zero.writesMember (by decide)))))
  have written : listing.WrittenBare _ :=
    .obj (.last (Json.WrittenBare.writesMember (.arr (.last written.writtenAs)) (by decide)))
  have written : (Json.obj [⟨some "code", listing⟩]).WrittenBare _ :=
    .obj (.last (written.writesMember (by decide)))
  have written : record'.WrittenBare _ :=
    .obj (.more ((Json.WrittenBare.bool true).writesMember (by decide))
      (.more (written.writesMember (by decide))
      (.more ((Json.Plain.writtenBare (by decide)).writesMember (by decide))
      (.last (zero.writesMember (by decide))))))
  have written : document.WrittenBare _ :=
    .obj (.last (Json.WrittenBare.writesMember (.arr (.last written.writtenAs)) (by decide)))
  refine load_of_writtenAs loadable outerWritten (by decide) ?_
  -- Short literals are much cheaper to evaluate than the text as a whole.
  rw [String.toList_append, String.toList_append]
  exact Eq.subst (by decide +kernel) written.writtenAs

/-- Where no operand is `None`, nothing is lost: the code object itself is loaded. -/
theorem Code.load_eq_self {c : Code} {j : Json} {text : String} (hc : c.Satisfies .loadable)
    (unambiguous : c.Satisfies .unambiguous) (h : c.WrittenAs j)
    (hlevels : j.levels ≤ nestingLimit) (htext : j.WrittenAs text.toList) :
    Code.load text = .ok c := by
  have loads := Code.loads c hc h
  rw [Code.loaded_eq_self c unambiguous] at loads
  exact load_of_loads loads hlevels htext

end Bytecode
