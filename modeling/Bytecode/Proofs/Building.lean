import Bytecode.Proofs.WellFormed

set_option autoImplicit false

/-!
# Building listings

A listing is checked in the order of the document: each record for its opcode and then for what is
checked in its operand, and when all records are through, the listing for its parameters and its
offsets.  `Listing.checks` puts these checks in a row, those of a listing that stands in an operand
among them; `FirstFault` is what the first of a row that fails finds.

Main statement: `Listing.build_first_fault`.  A listing can be built exactly when it and all the
listings in it are well formed; the code object has its shape; and otherwise the fault is the first
in the row.
-/

namespace Bytecode

/-! ## Names and offsets -/

theorem Opcode.ofName?_eq_none_iff {text : String} :
    ofName? text = none ↔ ∀ op : Opcode, text ∉ op.spellings := by
  unfold ofName?
  rw [List.find?_eq_none]
  constructor
  · intro unknown op hmem
    exact unknown op (mem_all op) (List.contains_iff_mem.2 hmem)
  · intro unknown op _ hcontains
    exact unknown op (List.contains_iff_mem.1 hcontains)

namespace OffsetIndex

/-- Offsets in increasing order do not drop. -/
theorem firstDrop?_eq_none_iff {offsets : List UInt32} :
    firstDrop? offsets = none ↔ offsets.Pairwise (· < ·) := by
  refine ⟨pairwise_of_firstDrop?, fun increasing => ?_⟩
  induction offsets with
  | nil => rfl
  | cons a rest ih =>
    cases rest with
    | nil => rfl
    | cons b rest =>
      obtain ⟨hfirst, hrest⟩ := List.pairwise_cons.1 increasing
      rw [firstDrop?, if_pos (hfirst b List.mem_cons_self)]
      exact ih hrest

/-- The first adjacent pair that does not increase has only increasing pairs in front of it. -/
theorem firstDrop?_eq_some_iff {offsets : List UInt32} {drop : OffsetDrop} :
    firstDrop? offsets = some drop ↔ ∃ before after,
      offsets = before ++ drop.previous :: drop.offset :: after ∧
        (before ++ [drop.previous]).IsChain (· < ·) ∧ drop.offset ≤ drop.previous := by
  constructor
  · intro found
    induction offsets with
    | nil => cases found
    | cons a rest ih =>
      cases rest with
      | nil => cases found
      | cons b rest =>
        simp only [firstDrop?] at found
        split at found
        · next hlt =>
          obtain ⟨before, after, heq, increasing, hle⟩ := ih found
          refine ⟨a :: before, after, by rw [heq, List.cons_append], ?_, hle⟩
          cases before with
          | nil =>
            cases heq
            exact .cons_cons hlt increasing
          | cons c before =>
            cases heq
            exact .cons_cons hlt increasing
        · next hge =>
          cases found
          exact ⟨[], rest, rfl, .singleton a, UInt32.not_lt.1 hge⟩
  · rintro ⟨before, after, rfl, increasing, hle⟩
    induction before with
    | nil =>
      rw [List.nil_append, firstDrop?, if_neg (UInt32.not_lt.2 hle)]
    | cons a before ih =>
      cases before with
      | nil =>
        obtain ⟨hlt, hrest⟩ := List.isChain_cons_cons.1 increasing
        rw [List.cons_append, List.nil_append, firstDrop?, if_pos hlt]
        exact ih hrest
      | cons b before =>
        obtain ⟨hlt, hrest⟩ := List.isChain_cons_cons.1 increasing
        rw [List.cons_append, List.cons_append, firstDrop?, if_pos hlt]
        exact ih hrest

theorem ofOffsets_eq_error_iff {offsets : List UInt32} {drop : OffsetDrop} :
    ofOffsets offsets = .error drop ↔ firstDrop? offsets = some drop := by
  unfold ofOffsets
  cases firstDrop? offsets <;> simp

end OffsetIndex

/-! ## Checks -/

/-- One thing that a listing is checked for. -/
inductive Check where
  /-- That a record names an opcode. -/
  | opname (text : String)
  /-- That there are as many local names as parameters. -/
  | parameters (code : String) (argcount locals : Nat)
  /-- That the offsets increase. -/
  | offsets (offsets : List UInt32)
deriving DecidableEq, Repr, Inhabited

namespace Check

/-- The check fails, and this is what is wrong. -/
inductive Finds : Check → Fault → Prop where
  | opname {text : String} (unknown : ∀ op : Opcode, text ∉ op.spellings) :
      Finds (opname text) (.unsupportedOpcode text)
  | parameters {code : String} {argcount locals : Nat} (lacks : locals < argcount) :
      Finds (parameters code argcount locals) (.tooFewLocals code argcount locals)
  /-- Only increasing pairs stand in front of a pair that does not increase. -/
  | offsets {before after : List UInt32} {a b : UInt32}
      (increasing : (before ++ [a]).IsChain (· < ·)) (drops : b ≤ a) :
      Finds (offsets (before ++ a :: b :: after)) (.offsetsNotIncreasing ⟨a, b⟩)

/-- The check finds nothing wrong. -/
def Passes (k : Check) : Prop :=
  ∀ fault, ¬ k.Finds fault

theorem finds_offsets_iff {offsets : List UInt32} {fault : Fault} :
    (Check.offsets offsets).Finds fault ↔
      ∃ drop, OffsetIndex.firstDrop? offsets = some drop ∧ fault = .offsetsNotIncreasing drop := by
  constructor
  · intro finds
    cases finds with
    | offsets increasing drops =>
      exact ⟨⟨_, _⟩, OffsetIndex.firstDrop?_eq_some_iff.2 ⟨_, _, rfl, increasing, drops⟩, rfl⟩
  · rintro ⟨⟨a, b⟩, found, rfl⟩
    obtain ⟨before, after, rfl, increasing, drops⟩ := OffsetIndex.firstDrop?_eq_some_iff.1 found
    exact .offsets increasing drops

theorem Finds.unique {k : Check} {fault fault' : Fault} (h : k.Finds fault) (h' : k.Finds fault') :
    fault = fault' := by
  cases k with
  | opname text =>
    cases h
    cases h'
    rfl
  | parameters code argcount locals =>
    cases h
    cases h'
    rfl
  | offsets offsets =>
    obtain ⟨drop, found, rfl⟩ := finds_offsets_iff.1 h
    obtain ⟨drop', found', rfl⟩ := finds_offsets_iff.1 h'
    rw [Option.some.inj (found.symm.trans found')]

theorem passes_opname_iff {text : String} :
    (opname text).Passes ↔ ∃ op : Opcode, text ∈ op.spellings := by
  constructor
  · intro passes
    by_contra unknown
    exact passes _ (.opname fun op hmem => unknown ⟨op, hmem⟩)
  · rintro ⟨op, hmem⟩ fault finds
    cases finds with
    | opname unknown => exact unknown op hmem

theorem passes_parameters_iff {code : String} {argcount locals : Nat} :
    (parameters code argcount locals).Passes ↔ argcount ≤ locals := by
  constructor
  · intro passes
    by_contra lacks
    exact passes _ (.parameters (Nat.lt_of_not_le lacks))
  · intro hle fault finds
    cases finds with
    | parameters lacks => exact absurd hle (Nat.not_le_of_lt lacks)

theorem passes_offsets_iff {offsets : List UInt32} :
    (Check.offsets offsets).Passes ↔ offsets.Pairwise (· < ·) := by
  rw [← OffsetIndex.firstDrop?_eq_none_iff, Option.eq_none_iff_forall_ne_some]
  constructor
  · intro passes drop found
    exact passes _ (finds_offsets_iff.2 ⟨drop, found, rfl⟩)
  · intro none fault finds
    obtain ⟨drop, found, -⟩ := finds_offsets_iff.1 finds
    exact none drop found

end Check

/-- What the first check of a row finds that fails. -/
inductive FirstFault : List Check → Fault → Prop where
  | here {k : Check} {rest : List Check} {fault : Fault} (finds : k.Finds fault) :
      FirstFault (k :: rest) fault
  | later {k : Check} {rest : List Check} {fault : Fault} (passes : k.Passes)
      (first : FirstFault rest fault) : FirstFault (k :: rest) fault

namespace FirstFault

variable {checks : List Check} {fault : Fault}

theorem append_right (first : FirstFault checks fault) (more : List Check) :
    FirstFault (checks ++ more) fault := by
  induction first with
  | here finds => exact .here finds
  | later passes first ih => exact .later passes ih

theorem append_left {passed : List Check} (h : ∀ k ∈ passed, k.Passes)
    (first : FirstFault checks fault) : FirstFault (passed ++ checks) fault := by
  induction passed with
  | nil => exact first
  | cons k rest ih =>
    obtain ⟨hk, hrest⟩ := List.forall_mem_cons.1 h
    exact .later hk (ih hrest)

theorem not_passed (first : FirstFault checks fault) : ¬ ∀ k ∈ checks, k.Passes := by
  induction first with
  | here finds => exact fun passed => passed _ List.mem_cons_self _ finds
  | later passes first ih => exact fun passed => ih (List.forall_mem_cons.1 passed).2

theorem unique {fault' : Fault} (first : FirstFault checks fault)
    (first' : FirstFault checks fault') : fault = fault' := by
  induction first with
  | here finds =>
    cases first' with
    | here finds' => exact finds.unique finds'
    | later passes => exact absurd finds (passes _)
  | later passes first ih =>
    cases first' with
    | here finds => exact absurd finds (passes _)
    | later passes first' => exact ih first'

end FirstFault

/-- The result that a row of checks lets come about: a value, which has a property, if all of them
pass, and otherwise the first fault. -/
inductive Settles {α : Type} (P : α → Prop) (checks : List Check) : Except Fault α → Prop where
  | ok {a : α} (passed : ∀ k ∈ checks, k.Passes) (holds : P a) : Settles P checks (.ok a)
  | error {fault : Fault} (first : FirstFault checks fault) : Settles P checks (.error fault)

namespace Settles

variable {α β : Type} {P : α → Prop} {Q : β → Prop} {checks checks' : List Check}
  {result : Except Fault α}

theorem pure {a : α} (holds : P a) : Settles P [] (.ok a) :=
  .ok (List.forall_mem_nil _) holds

theorem bind {next : α → Except Fault β} (h : Settles P checks result)
    (hnext : ∀ a, P a → Settles Q checks' (next a)) :
    Settles Q (checks ++ checks') (result >>= next) := by
  cases h with
  | error first => exact .error (first.append_right _)
  | @ok a passed holds =>
    have later := hnext a holds
    simp only [Bind.bind, Except.bind]
    generalize next a = result at later ⊢
    cases later with
    | error first => exact .error (.append_left passed first)
    | ok passed' holds' => exact .ok (List.forall_mem_append.2 ⟨passed, passed'⟩) holds'

theorem cons {k : Check} (passes : k.Passes) (h : Settles P checks result) :
    Settles P (k :: checks) result := by
  cases h with
  | error first => exact .error (.later passes first)
  | ok passed holds => exact .ok (List.forall_mem_cons.2 ⟨passes, passed⟩) holds

theorem map {make : α → β} (h : Settles P checks result) (hmake : ∀ a, P a → Q (make a)) :
    Settles Q checks (make <$> result) := by
  cases h with
  | error first => exact .error first
  | ok passed holds => exact .ok passed (hmake _ holds)

theorem exists_ok_iff (h : Settles P checks result) :
    (∃ a, result = .ok a) ↔ ∀ k ∈ checks, k.Passes := by
  cases h with
  | ok passed holds => exact ⟨fun _ => passed, fun _ => ⟨_, rfl⟩⟩
  | error first => exact ⟨nofun, fun passed => absurd passed first.not_passed⟩

theorem eq_error_iff (h : Settles P checks result) {fault : Fault} :
    result = .error fault ↔ FirstFault checks fault := by
  cases h with
  | ok passed holds => exact ⟨nofun, fun first => absurd passed first.not_passed⟩
  | error first =>
    constructor
    · rintro ⟨⟩
      exact first
    · intro first'
      rw [first.unique first']

end Settles

/-! ## Rows of checks -/

mutual

/-- What a listing is checked for, in the order of the document. -/
def Listing.checks : Listing → List Check
  | ⟨name, argcount, varnames, records⟩ =>
    Record.allChecks records ++
      [.parameters name argcount varnames.length, .offsets (records.map (·.offset))]
termination_by structural l => l

def Record.checks : Record → List Check
  | ⟨_, opname, _, argval⟩ => .opname opname :: Literal.optionChecks argval
termination_by structural r => r

def Record.allChecks : List Record → List Check
  | [] => []
  | r :: rest => Record.checks r ++ Record.allChecks rest
termination_by structural rs => rs

/-- What the listings are checked for that stand in a literal, from left to right. -/
def Literal.checks : Literal → List Check
  | .tuple items => Literal.allChecks items
  | .code listing => Listing.checks listing
  | _ => []
termination_by structural l => l

def Literal.allChecks : List Literal → List Check
  | [] => []
  | l :: rest => Literal.checks l ++ Literal.allChecks rest
termination_by structural ls => ls

def Literal.optionChecks : Option Literal → List Check
  | Option.none => []
  | some l => Literal.checks l
termination_by structural l => l

end

/-! ## Valid trees -/

/-- Every record names an opcode, every parameter has a name, and the offsets increase. -/
structure Listing.WellFormed (l : Listing) : Prop where
  named : ∀ r ∈ l.records, ∃ op : Opcode, r.opname ∈ op.spellings
  argcount_le : l.argcount ≤ l.varnames.length
  increasing : (l.records.map (·.offset)).Pairwise (· < ·)

mutual

/-- The second listing is the first, or stands in one of its operands. -/
inductive Listing.Contains : Listing → Listing → Prop where
  | self (l : Listing) : Listing.Contains l l
  | operand {l inner : Listing} {r : Record} {v : Literal} (hr : r ∈ l.records) (hv : v ∈ r.argval)
      (contains : Literal.Contains v inner) : Listing.Contains l inner

inductive Literal.Contains : Literal → Listing → Prop where
  | item {items : List Literal} {v : Literal} {inner : Listing} (hv : v ∈ items)
      (contains : Literal.Contains v inner) : Literal.Contains (.tuple items) inner
  | code {l inner : Listing} (contains : Listing.Contains l inner) :
      Literal.Contains (.code l) inner

end

theorem Listing.contains_iff {l inner : Listing} :
    l.Contains inner ↔ inner = l ∨ ∃ r ∈ l.records, ∃ v ∈ r.argval, v.Contains inner := by
  constructor
  · intro contains
    cases contains with
    | self => exact .inl rfl
    | operand hr hv contains => exact .inr ⟨_, hr, _, hv, contains⟩
  · rintro (rfl | ⟨r, hr, v, hv, contains⟩)
    · exact .self _
    · exact .operand hr hv contains

theorem Literal.contains_tuple_iff {items : List Literal} {inner : Listing} :
    (tuple items).Contains inner ↔ ∃ v ∈ items, v.Contains inner :=
  ⟨fun | .item hv contains => ⟨_, hv, contains⟩, fun ⟨_, hv, contains⟩ => .item hv contains⟩

theorem Literal.contains_code_iff {l inner : Listing} :
    (code l).Contains inner ↔ l.Contains inner :=
  ⟨fun | .code contains => contains, .code⟩

mutual

/-- The row of a listing passes exactly if all listings in it are well formed. -/
theorem Listing.passes_iff :
    ∀ l : Listing, (∀ k ∈ l.checks, k.Passes) ↔ ∀ inner, l.Contains inner → inner.WellFormed
  | ⟨name, argcount, varnames, records⟩ => by
    rw [Listing.checks, List.forall_mem_append, Record.allPass_iff records, List.forall_mem_cons,
      List.forall_mem_singleton, Check.passes_parameters_iff, Check.passes_offsets_iff]
    constructor
    · rintro ⟨hrecords, argcount_le, increasing⟩ inner contains
      obtain rfl | ⟨r, hr, v, hv, contains⟩ := Listing.contains_iff.1 contains
      · exact ⟨fun r hr => (hrecords r hr).1, argcount_le, increasing⟩
      · exact (hrecords r hr).2 v hv inner contains
    · intro h
      obtain ⟨named, argcount_le, increasing⟩ := h _ (.self _)
      refine ⟨fun r hr => ⟨named r hr, fun v hv inner contains => ?_⟩, argcount_le, increasing⟩
      exact h inner (.operand hr hv contains)
termination_by structural l => l

theorem Record.passes_iff :
    ∀ r : Record, (∀ k ∈ r.checks, k.Passes) ↔
      (∃ op : Opcode, r.opname ∈ op.spellings) ∧
        ∀ v ∈ r.argval, ∀ inner, v.Contains inner → inner.WellFormed
  | ⟨offset, opname, arg, argval⟩ => by
    rw [Record.checks, List.forall_mem_cons, Check.passes_opname_iff, Literal.optionPasses_iff]
termination_by structural r => r

theorem Record.allPass_iff :
    ∀ rs : List Record, (∀ k ∈ Record.allChecks rs, k.Passes) ↔
      ∀ r ∈ rs, (∃ op : Opcode, r.opname ∈ op.spellings) ∧
        ∀ v ∈ r.argval, ∀ inner, v.Contains inner → inner.WellFormed
  | [] => by simp [Record.allChecks]
  | r :: rest => by
    rw [Record.allChecks, List.forall_mem_append, List.forall_mem_cons, Record.passes_iff r,
      Record.allPass_iff rest]
termination_by structural rs => rs

theorem Literal.passes_iff :
    ∀ l : Literal, (∀ k ∈ l.checks, k.Passes) ↔ ∀ inner, l.Contains inner → inner.WellFormed
  | .none | .bool _ | .int _ | .float _ | .str _ =>
    ⟨fun _ _ => nofun, fun _ => List.forall_mem_nil _⟩
  | .tuple items => by
    simp only [Literal.checks, Literal.allPass_iff items, Literal.contains_tuple_iff]
    exact ⟨fun h inner ⟨v, hv, contains⟩ => h v hv inner contains,
      fun h v hv inner contains => h inner ⟨v, hv, contains⟩⟩
  | .code listing => by
    simp only [Literal.checks, Listing.passes_iff listing, Literal.contains_code_iff]
termination_by structural l => l

theorem Literal.allPass_iff :
    ∀ ls : List Literal, (∀ k ∈ Literal.allChecks ls, k.Passes) ↔
      ∀ v ∈ ls, ∀ inner, v.Contains inner → inner.WellFormed
  | [] => by simp [Literal.allChecks]
  | l :: rest => by
    rw [Literal.allChecks, List.forall_mem_append, List.forall_mem_cons, Literal.passes_iff l,
      Literal.allPass_iff rest]
termination_by structural ls => ls

theorem Literal.optionPasses_iff :
    ∀ l : Option Literal, (∀ k ∈ Literal.optionChecks l, k.Passes) ↔
      ∀ v ∈ l, ∀ inner, v.Contains inner → inner.WellFormed
  | Option.none => by simp [Literal.optionChecks]
  | some l => by
    simp only [Literal.optionChecks, Literal.passes_iff l, Option.mem_some_iff, forall_eq']
termination_by structural l => l

end

/-! ## Shapes -/

mutual

/-- The code object has the parts of the listing, and its index covers its instructions. -/
inductive Listing.Describes : Listing → Code → Prop where
  | mk {name : String} {argcount : Nat} {varnames : List String} {records : List Record}
      {instructions : List Instruction} {index : OffsetIndex}
      (each : List.Forall₂ Record.Describes records instructions)
      (indexed : Code.Indexed ⟨name, argcount, varnames, instructions, index⟩) :
      Listing.Describes ⟨name, argcount, varnames, records⟩
        ⟨name, argcount, varnames, instructions, index⟩

inductive Record.Describes : Record → Instruction → Prop where
  | mk {offset : UInt32} {opname : String} {opcode : Opcode} {arg : Option UInt32}
      {argval : Option Literal} {operand : Option Value} (named : opname ∈ opcode.spellings)
      (converted : Option.Rel Literal.Describes argval operand) :
      Record.Describes ⟨offset, opname, arg, argval⟩ ⟨offset, opcode, arg, operand⟩

inductive Literal.Describes : Literal → Value → Prop where
  | none : Literal.Describes .none .none
  | bool (b : Bool) : Literal.Describes (.bool b) (.bool b)
  | int (n : Int64) : Literal.Describes (.int n) (.int n)
  | float (x : Float) : Literal.Describes (.float x) (.float x)
  | str (text : String) : Literal.Describes (.str text) (.str text)
  | tuple {items : List Literal} {vs : List Value} (each : List.Forall₂ Literal.Describes items vs) :
      Literal.Describes (.tuple items) (.tuple vs)
  | code {l : Listing} {c : Code} (describes : Listing.Describes l c) :
      Literal.Describes (.code l) (.code c)

end

theorem Record.Describes.offset_eq {r : Record} {i : Instruction} (h : r.Describes i) :
    i.offset = r.offset := by
  cases h with
  | mk named converted => rfl

theorem Record.offsets_eq {records : List Record} {instructions : List Instruction}
    (each : List.Forall₂ Record.Describes records instructions) :
    instructions.map (·.offset) = records.map (·.offset) := by
  induction each with
  | nil => rfl
  | cons describes each ih => rw [List.map_cons, List.map_cons, describes.offset_eq, ih]

/-! ## Building -/

/-- The parts of a code object are checked behind its instructions. -/
theorem Code.ofInstructions_settles (name : String) (argcount : Nat) (varnames : List String)
    {records : List Record} {instructions : List Instruction}
    (each : List.Forall₂ Record.Describes records instructions) :
    Settles (Listing.Describes ⟨name, argcount, varnames, records⟩)
      [.parameters name argcount varnames.length, .offsets (records.map (·.offset))]
      (ofInstructions name argcount varnames instructions) := by
  unfold ofInstructions
  split
  · next lacks => exact .error (.here (.parameters lacks))
  · next hle =>
    have enough : (Check.parameters name argcount varnames.length).Passes :=
      Check.passes_parameters_iff.2 (Nat.le_of_not_lt hle)
    cases indexed : OffsetIndex.ofOffsets (instructions.map (·.offset)) with
    | ok index =>
      obtain ⟨increasing, -⟩ := OffsetIndex.ofOffsets_eq_ok_iff.1 indexed
      rw [Record.offsets_eq each, OffsetIndex.firstDrop?_eq_none_iff,
        ← Check.passes_offsets_iff] at increasing
      exact .ok (List.forall_mem_cons.2 ⟨enough, List.forall_mem_singleton.2 increasing⟩)
        (.mk each indexed)
    | error drop =>
      rw [OffsetIndex.ofOffsets_eq_error_iff, Record.offsets_eq each] at indexed
      have finds := Check.finds_offsets_iff.2 ⟨drop, indexed, rfl⟩
      exact .error (.later enough (.here finds))

mutual

theorem Listing.build_settles : ∀ l : Listing, Settles l.Describes l.checks l.build
  | ⟨name, argcount, varnames, records⟩ => by
    rw [Listing.build, Listing.checks]
    exact (Record.buildAll_settles records).bind fun is each =>
      Code.ofInstructions_settles name argcount varnames each
termination_by structural l => l

theorem Record.build_settles : ∀ r : Record, Settles r.Describes r.checks r.build
  | ⟨offset, opname, arg, argval⟩ => by
    rw [Record.build, Record.checks]
    split
    · next unknown => exact .error (.here (.opname (Opcode.ofName?_eq_none_iff.1 unknown)))
    · next opcode found =>
      have named := Opcode.mem_spellings_of_ofName? found
      exact .cons (Check.passes_opname_iff.2 ⟨opcode, named⟩) <|
        (Literal.buildOption_settles argval).map fun v converted => .mk named converted
termination_by structural r => r

theorem Record.buildAll_settles :
    ∀ rs : List Record,
      Settles (List.Forall₂ Record.Describes rs) (Record.allChecks rs) (Record.buildAll rs)
  | [] => by
    rw [Record.buildAll, Record.allChecks]
    exact .pure .nil
  | r :: rest => by
    rw [Record.buildAll, Record.allChecks]
    exact (Record.build_settles r).bind fun i hi =>
      (Record.buildAll_settles rest).map fun is his => .cons hi his
termination_by structural rs => rs

theorem Literal.build_settles : ∀ l : Literal, Settles l.Describes l.checks l.build
  | .none => .pure .none
  | .bool b => .pure (.bool b)
  | .int n => .pure (.int n)
  | .float x => .pure (.float x)
  | .str text => .pure (.str text)
  | .tuple items => by
    rw [Literal.build, Literal.checks]
    exact (Literal.buildAll_settles items).map fun vs each => .tuple each
  | .code listing => by
    rw [Literal.build, Literal.checks]
    exact (Listing.build_settles listing).map fun c describes => .code describes
termination_by structural l => l

theorem Literal.buildAll_settles :
    ∀ ls : List Literal,
      Settles (List.Forall₂ Literal.Describes ls) (Literal.allChecks ls) (Literal.buildAll ls)
  | [] => by
    rw [Literal.buildAll, Literal.allChecks]
    exact .pure .nil
  | l :: rest => by
    rw [Literal.buildAll, Literal.allChecks]
    exact (Literal.build_settles l).bind fun v hv =>
      (Literal.buildAll_settles rest).map fun vs hvs => .cons hv hvs
termination_by structural ls => ls

theorem Literal.buildOption_settles :
    ∀ l : Option Literal,
      Settles (Option.Rel Literal.Describes l) (Literal.optionChecks l) (Literal.buildOption l)
  | Option.none => by
    rw [Literal.buildOption, Literal.optionChecks]
    exact .pure .none
  | some l => by
    rw [Literal.buildOption, Literal.optionChecks]
    exact (Literal.build_settles l).map fun v hv => .some hv
termination_by structural l => l

end

/-- A listing can be built exactly when it and all the listings in it are well formed, and the code
object then has its shape.  Otherwise the fault is that of the first check that fails, in the order
of the document. -/
theorem Listing.build_first_fault (l : Listing) :
    ((∃ c, l.build = .ok c) ↔ ∀ inner, l.Contains inner → inner.WellFormed) ∧
      (∀ c, l.build = .ok c → l.Describes c) ∧
      ∀ fault, l.build = .error fault ↔ FirstFault l.checks fault := by
  have settles := l.build_settles
  refine ⟨settles.exists_ok_iff.trans l.passes_iff, ?_, fun fault => settles.eq_error_iff⟩
  intro c built
  rw [built] at settles
  cases settles with
  | ok passed describes => exact describes

/-- What is wrong in an operand comes before the opcode of the next record and before the offsets. -/
example :
    let inner : Listing := ⟨"f", 1, [], []⟩
    (Listing.mk "m" 0 [] [⟨2, "LOAD_CONST", none, some (.tuple [.int 1, .code inner])⟩,
      ⟨2, "UNKNOWN", none, none⟩]).build = .error (.tooFewLocals "f" 1 0) := by
  rfl

end Bytecode
