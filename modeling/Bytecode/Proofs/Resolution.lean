import Bytecode.Proofs.Building
import Bytecode.Proofs.Termination
import Mathlib.Data.List.Chain
import Mathlib.Data.List.Sort

set_option autoImplicit false

/-!
# Resolving jumps

An index can be filled in one pass over the instructions: an ordered map takes in each offset with
its position, and the pass ends at the first offset that is not greater than the one before.  As
long as it goes on, the map holds the instructions seen so far in their order, and their offsets
increase (`OffsetIndex.Pass.Covers`).  So the pass comes to the same end as `OffsetIndex.ofOffsets`.

A jump names its target by a 64-bit integer.  Only those from zero up to below 4294967296 are
offsets, and of these only the ones that instructions have lead anywhere.

Main statements: `OffsetIndex.ofOffsets_eq_along`, from a step and an induction along the pass, and
`OffsetIndex.resolution_exact`.
-/

namespace Bytecode

namespace OffsetIndex

/-! ## An ordered map in one pass -/

/-- An entry with a greater key than all others comes last. -/
theorem toList_insert_of_forall_lt {positions : Std.TreeMap UInt32 Nat} {offset : UInt32}
    {position : Nat} (greatest : ∀ entry ∈ positions.toList, entry.1 < offset) :
    (positions.insert offset position).toList = positions.toList ++ [(offset, position)] := by
  have irrefl : Std.Irrefl fun a b : UInt32 × Nat => a.1 < b.1 := ⟨fun a => UInt32.lt_irrefl a.1⟩
  have antisymm : Std.Antisymm fun a b : UInt32 × Nat => a.1 < b.1 :=
    ⟨fun a b hab hba => absurd hba (UInt32.lt_asymm hab)⟩
  have ordered : ∀ m : Std.TreeMap UInt32 Nat, m.toList.Pairwise fun a b => a.1 < b.1 :=
    fun m => m.ordered_keys_toList.imp Std.compare_eq_lt.1
  have extended : (positions.toList ++ [(offset, position)]).Pairwise fun a b => a.1 < b.1 := by
    refine List.pairwise_append.2 ⟨ordered positions, List.pairwise_singleton _ _, ?_⟩
    intro entry hentry last hlast
    rw [List.mem_singleton.1 hlast]
    exact greatest entry hentry
  -- both lists are in order, so it is enough that they have the same entries
  refine (ordered _).eq_of_mem_iff extended fun entry => ?_
  obtain ⟨key, value⟩ := entry
  rw [List.mem_append, List.mem_singleton, Std.TreeMap.mem_toList_iff_getElem?_eq_some,
    Std.TreeMap.mem_toList_iff_getElem?_eq_some, Std.TreeMap.getElem?_insert]
  by_cases hkey : offset = key
  · subst hkey
    have absent : positions[offset]? ≠ some value := by
      intro found
      have hmem := Std.TreeMap.mem_toList_iff_getElem?_eq_some.2 found
      exact UInt32.lt_irrefl offset (greatest _ hmem)
    simp [absent, eq_comm]
  · simp [hkey, Ne.symm hkey]

/-- What a pass over a sequence has gathered so far. -/
structure Pass where
  positions : Std.TreeMap UInt32 Nat
  /-- The offset that came last. -/
  previous? : Option UInt32

namespace Pass

/-- The pass with one more offset behind it. -/
def recorded (pass : Pass) (offset : UInt32) (position : Nat) : Pass :=
  ⟨pass.positions.insert offset position, some offset⟩

/-- Takes in the next offset, unless it is not greater than the previous one. -/
def next (pass : Pass) (entry : UInt32 × Nat) : Except OffsetDrop Pass :=
  match pass.previous? with
  | some previous =>
    if entry.1 ≤ previous then .error ⟨previous, entry.1⟩
    else .ok (pass.recorded entry.1 entry.2)
  | none => .ok (pass.recorded entry.1 entry.2)

/-- Passes over a whole sequence. -/
def along (offsets : List UInt32) : Except OffsetDrop Pass :=
  offsets.zipIdx.foldlM next ⟨∅, none⟩

/-- The pass has taken in these offsets, which increase. -/
structure Covers (pass : Pass) (offsets : List UInt32) : Prop where
  toList_eq : pass.positions.toList = offsets.zipIdx
  previous?_eq : pass.previous? = offsets.getLast?
  increasing : offsets.Pairwise (· < ·)

variable {pass : Pass} {seen : List UInt32} {offset : UInt32}

theorem covers_start : Covers ⟨∅, none⟩ [] where
  toList_eq := rfl
  previous?_eq := rfl
  increasing := .nil

/-- The next offset is taken in, if it is greater than all before it. -/
theorem Covers.recorded (h : pass.Covers seen) (greatest : ∀ a ∈ seen, a < offset) :
    (pass.recorded offset seen.length).Covers (seen ++ [offset]) where
  toList_eq := by
    have hkeys : ∀ entry ∈ pass.positions.toList, entry.1 < offset := by
      intro entry hentry
      rw [h.toList_eq] at hentry
      exact greatest _ (List.fst_mem_of_mem_zipIdx hentry)
    rw [Pass.recorded, toList_insert_of_forall_lt hkeys, h.toList_eq, List.zipIdx_append]
    simp
  previous?_eq := by rw [Pass.recorded, List.getLast?_concat]
  increasing := by
    refine List.pairwise_append.2 ⟨h.increasing, List.pairwise_singleton _ _, ?_⟩
    intro a ha b hb
    rw [List.mem_singleton.1 hb]
    exact greatest a ha

/-- One step: the offset is taken in, or it is not greater than the last one. -/
theorem Covers.next_cases (h : pass.Covers seen) (offset : UInt32) :
    (∃ pass', pass.next (offset, seen.length) = .ok pass' ∧ pass'.Covers (seen ++ [offset])) ∨
      ∃ before previous, seen = before ++ [previous] ∧ offset ≤ previous ∧
        pass.next (offset, seen.length) = .error ⟨previous, offset⟩ := by
  cases hlast : seen.getLast? with
  | none =>
    obtain rfl : seen = [] := List.getLast?_eq_none_iff.1 hlast
    have hnext : pass.next (offset, 0) = .ok (pass.recorded offset 0) := by
      rw [Pass.next, h.previous?_eq, hlast]
    exact .inl ⟨_, hnext, h.recorded nofun⟩
  | some previous =>
    obtain ⟨before, rfl⟩ := List.getLast?_eq_some_iff.1 hlast
    by_cases hle : offset ≤ previous
    · refine .inr ⟨before, previous, rfl, hle, ?_⟩
      rw [Pass.next, h.previous?_eq, hlast]
      exact if_pos hle
    · have hlt : previous < offset := UInt32.not_le.1 hle
      have greatest : ∀ a ∈ before ++ [previous], a < offset := by
        intro a ha
        rcases List.mem_append.1 ha with hbefore | hprevious
        · have hless := (List.pairwise_append.1 h.increasing).2.2 a hbefore previous
            List.mem_cons_self
          exact UInt32.lt_trans hless hlt
        · rwa [List.mem_singleton.1 hprevious]
      refine .inl ⟨_, ?_, h.recorded greatest⟩
      rw [Pass.next, h.previous?_eq, hlast]
      exact if_neg hle

/-- The whole run: all offsets are taken in, or the first that is not greater ends the pass. -/
theorem Covers.foldlM_cases (h : pass.Covers seen) (rest : List UInt32) :
    (∃ pass', (rest.zipIdx seen.length).foldlM Pass.next pass = .ok pass' ∧
        pass'.Covers (seen ++ rest)) ∨
      ∃ drop, (rest.zipIdx seen.length).foldlM Pass.next pass = .error drop ∧
        firstDrop? (seen ++ rest) = some drop := by
  induction rest generalizing pass seen with
  | nil => exact .inl ⟨pass, rfl, by rwa [List.append_nil]⟩
  | cons offset rest ih =>
    rw [List.zipIdx_cons, List.foldlM_cons]
    rcases h.next_cases offset with ⟨pass', hnext, covers⟩ | ⟨before, previous, rfl, hle, hnext⟩
    · have later := ih covers
      rw [List.length_append, List.length_singleton, List.append_assoc] at later
      rw [hnext]
      exact later
    · rw [hnext]
      refine .inr ⟨_, rfl, firstDrop?_eq_some_iff.2 ⟨before, rest, ?_, ?_, hle⟩⟩
      · rw [List.append_assoc, List.singleton_append]
      · exact h.increasing.isChain

theorem along_cases (offsets : List UInt32) :
    (∃ pass, along offsets = .ok pass ∧ pass.Covers offsets) ∨
      ∃ drop, along offsets = .error drop ∧ firstDrop? offsets = some drop :=
  covers_start.foldlM_cases offsets

end Pass

/-- One pass that fills an ordered map comes to the same index, or to the same fault. -/
theorem ofOffsets_eq_along (offsets : List UInt32) :
    ofOffsets offsets = (Pass.along offsets).map fun pass => ⟨pass.positions.toList⟩ := by
  rcases Pass.along_cases offsets with ⟨pass, halong, covers⟩ | ⟨drop, halong, dropped⟩
  · rw [halong, ofOffsets_eq_ok_iff.2 ⟨firstDrop?_eq_none_iff.2 covers.increasing, rfl⟩,
      ← covers.toList_eq]
    rfl
  · rw [halong, ofOffsets_eq_error_iff.2 dropped]
    rfl

/-! ## What an index finds -/

/-- The entries of the index are the offsets of these instructions with their positions, which are
in the order of the offsets, and the index finds nothing else. -/
structure Locates (index : OffsetIndex) (instructions : List Instruction) : Prop where
  entries_eq : index.entries = instructions.mapIdx fun position i => (i.offset, position)
  ordered : index.entries.Pairwise fun a b => a.1 < b.1
  position?_eq_some_iff : ∀ offset position, index.position? offset = some position ↔
    ∃ i, instructions[position]? = some i ∧ i.offset = offset
  /-- Greater offsets stand at later positions, and different ones at different positions. -/
  lt_iff : ∀ {a b p q}, index.position? a = some p → index.position? b = some q → (p < q ↔ a < b)
  eq_iff : ∀ {a b p q}, index.position? a = some p → index.position? b = some q → (p = q ↔ a = b)

theorem lt_of_position?_lt {offsets : List UInt32} {index : OffsetIndex} {a b : UInt32} {p q : Nat}
    (h : ofOffsets offsets = .ok index) (ha : index.position? a = some p)
    (hb : index.position? b = some q) (hlt : p < q) : a < b := by
  obtain ⟨hdrop, -⟩ := ofOffsets_eq_ok_iff.1 h
  obtain ⟨hp, rfl⟩ := List.getElem?_eq_some_iff.1 ((position?_eq_some_iff h a p).1 ha)
  obtain ⟨hq, rfl⟩ := List.getElem?_eq_some_iff.1 ((position?_eq_some_iff h b q).1 hb)
  exact List.pairwise_iff_getElem.1 (pairwise_of_firstDrop? hdrop) p q hp hq hlt

theorem locates_of_ofOffsets {instructions : List Instruction} {index : OffsetIndex}
    (h : ofOffsets (instructions.map (·.offset)) = .ok index) : index.Locates instructions := by
  obtain ⟨hdrop, hindex⟩ := ofOffsets_eq_ok_iff.1 h
  have eq_of_eq : ∀ {a b p q}, index.position? a = some p → index.position? b = some q →
      p = q → a = b := by
    rintro a b p q ha hb rfl
    rw [position?_eq_some_iff h] at ha hb
    exact Option.some.inj (ha.symm.trans hb)
  refine ⟨?entries, ?ordered, ?found, ?increasing, ?distinct⟩
  case entries =>
    rw [hindex, List.zipIdx_map, List.mapIdx_eq_zipIdx_map]
    rfl
  case ordered =>
    rw [hindex, ← List.pairwise_map, List.zipIdx_map_fst]
    exact pairwise_of_firstDrop? hdrop
  case found =>
    intro offset position
    rw [position?_eq_some_iff h, List.getElem?_map, Option.map_eq_some_iff]
  case increasing =>
    intro a b p q ha hb
    refine ⟨lt_of_position?_lt h ha hb, fun hlt => ?_⟩
    rcases Nat.lt_trichotomy p q with before | same | behind
    · exact before
    · exact absurd (eq_of_eq ha hb same) (UInt32.ne_of_lt hlt)
    · exact absurd hlt (UInt32.lt_asymm (lt_of_position?_lt h hb ha behind))
  case distinct =>
    intro a b p q ha hb
    refine ⟨eq_of_eq ha hb, ?_⟩
    rintro rfl
    exact Option.some.inj (ha.symm.trans hb)

theorem isChain_offsets_iff {before : List Instruction} {i : Instruction} :
    (before.map (·.offset) ++ [i.offset]).IsChain (· < ·) ↔
      (before ++ [i]).IsChain (·.offset < ·.offset) := by
  rw [← List.map_singleton, ← List.map_append, List.isChain_map]

/-- These instructions are the first neighbours with offsets that do not increase. -/
def DropsFirstAt (instructions : List Instruction) (i j : Instruction) : Prop :=
  ∃ before after, instructions = before ++ i :: j :: after ∧
    (before ++ [i]).IsChain (·.offset < ·.offset) ∧ j.offset ≤ i.offset

theorem ofOffsets_map_eq_error_iff {instructions : List Instruction} {drop : OffsetDrop} :
    ofOffsets (instructions.map (·.offset)) = .error drop ↔
      ∃ i j, DropsFirstAt instructions i j ∧ drop = ⟨i.offset, j.offset⟩ := by
  rw [ofOffsets_eq_error_iff, firstDrop?_eq_some_iff]
  constructor
  · rintro ⟨before, after, heq, increasing, hle⟩
    obtain ⟨is, rest, rfl, rfl, hrest⟩ := List.map_eq_append_iff.1 heq
    obtain ⟨i, rest, rfl, hi, hrest⟩ := List.map_eq_cons_iff.1 hrest
    obtain ⟨j, rest, rfl, hj, rfl⟩ := List.map_eq_cons_iff.1 hrest
    rw [← hi] at increasing hle
    rw [← hj] at hle
    refine ⟨i, j, ⟨is, rest, rfl, isChain_offsets_iff.1 increasing, hle⟩, ?_⟩
    rw [hi, hj]
  · rintro ⟨i, j, ⟨before, after, rfl, increasing, hle⟩, rfl⟩
    refine ⟨before.map (·.offset), after.map (·.offset), ?_,
      isChain_offsets_iff.2 increasing, hle⟩
    rw [List.map_append, List.map_cons, List.map_cons]

end OffsetIndex

/-! ## Where jumps go -/

namespace Code

theorem toOffset?_eq_some_iff {target : Int64} {offset : UInt32} :
    toOffset? target = some offset ↔ target.toInt = offset.toNat := by
  refine ⟨toInt_of_toOffset?, fun heq => ?_⟩
  have hlt : offset.toNat < UInt32.size := offset.toNat_lt
  rw [toOffset?, heq, if_pos ⟨Int.natCast_nonneg _, Int.ofNat_lt.2 hlt⟩, Int.toNat_natCast,
    UInt32.ofNat_toNat]

theorem ofInstructions_eq_error_iff {name : String} {argcount : Nat} {varnames : List String}
    {instructions : List Instruction} {fault : Fault} (enough : argcount ≤ varnames.length) :
    ofInstructions name argcount varnames instructions = .error fault ↔
      ∃ drop, OffsetIndex.ofOffsets (instructions.map (·.offset)) = .error drop ∧
        fault = .offsetsNotIncreasing drop := by
  rw [ofInstructions, if_neg (Nat.not_lt.2 enough)]
  cases OffsetIndex.ofOffsets (instructions.map (·.offset)) <;> simp [eq_comm]

variable {c : Code} {i : Instruction} {target : Int64}

theorem resolveJump_eq (hjump : i.opcode.isJump) (hargval : i.argval = some (.int target)) :
    c.resolveJump i =
      match (toOffset? target).bind c.index.position? with
      | some position => .ok position
      | none => .error (.unresolvedJump i.opcode i.offset target) := by
  have htarget : i.jumpTarget = .ok target := by
    rw [Instruction.jumpTarget, if_pos hjump, hargval]
  rw [resolveJump, htarget]
  rfl

/-- The position that a jump names is that of the instruction with this offset. -/
theorem bind_position?_eq_some_iff (indexed : c.Indexed) {position : Nat} :
    (toOffset? target).bind c.index.position? = some position ↔
      ∃ j, c.instructions[position]? = some j ∧ target.toInt = j.offset.toNat := by
  have locates := OffsetIndex.locates_of_ofOffsets indexed
  rw [Option.bind_eq_some_iff]
  constructor
  · rintro ⟨offset, hoffset, hposition⟩
    obtain ⟨j, hj, rfl⟩ := (locates.position?_eq_some_iff offset position).1 hposition
    exact ⟨j, hj, toOffset?_eq_some_iff.1 hoffset⟩
  · rintro ⟨j, hj, heq⟩
    exact ⟨j.offset, toOffset?_eq_some_iff.2 heq,
      (locates.position?_eq_some_iff j.offset position).2 ⟨j, hj, rfl⟩⟩

theorem resolveJump_eq_ok_iff (indexed : c.Indexed) (hjump : i.opcode.isJump)
    (hargval : i.argval = some (.int target)) {position : Nat} :
    c.resolveJump i = .ok position ↔
      ∃ j, c.instructions[position]? = some j ∧ target.toInt = j.offset.toNat := by
  rw [resolveJump_eq hjump hargval, ← bind_position?_eq_some_iff indexed]
  cases (toOffset? target).bind c.index.position? <;> simp

/-- A jump that names no offset of an instruction is not resolved. -/
theorem resolveJump_eq_error_iff (indexed : c.Indexed) (hjump : i.opcode.isJump)
    (hargval : i.argval = some (.int target)) {fault : Fault} :
    c.resolveJump i = .error fault ↔
      (∀ j ∈ c.instructions, target.toInt ≠ j.offset.toNat) ∧
        fault = .unresolvedJump i.opcode i.offset target := by
  have absent_iff : (toOffset? target).bind c.index.position? = none ↔
      ∀ j ∈ c.instructions, target.toInt ≠ j.offset.toNat := by
    rw [Option.eq_none_iff_forall_ne_some]
    constructor
    · intro unresolved j hj heq
      obtain ⟨position, hposition⟩ := List.mem_iff_getElem?.1 hj
      exact unresolved position ((bind_position?_eq_some_iff indexed).2 ⟨j, hposition, heq⟩)
    · intro absent position found
      obtain ⟨j, hj, heq⟩ := (bind_position?_eq_some_iff indexed).1 found
      exact absent j (List.mem_of_getElem? hj) heq
  rw [resolveJump_eq hjump hargval, ← absent_iff]
  cases (toOffset? target).bind c.index.position? <;> simp [eq_comm]

end Code

/-- There is an index of instructions exactly if their offsets increase.  It has the entries of an
ordered map that one pass fills, and finds the offsets of the instructions and no others.  So a jump
is resolved exactly if its target is the offset of an instruction, which no integer is that is
negative or too large for one.  Without an index, the fault names the first neighbours with offsets
that do not increase. -/
theorem OffsetIndex.resolution_exact (instructions : List Instruction) :
    (ofOffsets (instructions.map (·.offset)) =
      (Pass.along (instructions.map (·.offset))).map fun pass => ⟨pass.positions.toList⟩) ∧
    ((∃ index, ofOffsets (instructions.map (·.offset)) = .ok index) ↔
      instructions.Pairwise (·.offset < ·.offset)) ∧
    (∀ index, ofOffsets (instructions.map (·.offset)) = .ok index → index.Locates instructions) ∧
    (∀ name argcount varnames c,
      Code.ofInstructions name argcount varnames instructions = .ok c →
      ∀ (i : Instruction) (target : Int64), i.opcode.isJump → i.argval = some (.int target) →
        (∀ position, c.resolveJump i = .ok position ↔
          ∃ j, instructions[position]? = some j ∧ target.toInt = j.offset.toNat) ∧
        (∀ fault, c.resolveJump i = .error fault ↔
          (∀ j ∈ instructions, target.toInt ≠ j.offset.toNat) ∧
            fault = .unresolvedJump i.opcode i.offset target)) ∧
    (∀ drop, ofOffsets (instructions.map (·.offset)) = .error drop ↔
      ∃ i j, DropsFirstAt instructions i j ∧ drop = ⟨i.offset, j.offset⟩) ∧
    (∀ (name : String) argcount (varnames : List String), argcount ≤ varnames.length →
      ∀ fault, Code.ofInstructions name argcount varnames instructions = .error fault ↔
        ∃ i j, DropsFirstAt instructions i j ∧
          fault = .offsetsNotIncreasing ⟨i.offset, j.offset⟩) := by
  refine ⟨ofOffsets_eq_along _, ?succeeds, fun index => locates_of_ofOffsets, ?jumps,
    fun drop => ofOffsets_map_eq_error_iff, ?fails⟩
  case succeeds =>
    rw [← List.pairwise_map, ← firstDrop?_eq_none_iff]
    constructor
    · rintro ⟨index, built⟩
      exact (ofOffsets_eq_ok_iff.1 built).1
    · intro hdrop
      exact ⟨_, ofOffsets_eq_ok_iff.2 ⟨hdrop, rfl⟩⟩
  case jumps =>
    intro name argcount varnames c built i target hjump hargval
    have indexed := Code.indexed_of_ofInstructions built
    obtain ⟨-, index, -, rfl⟩ := Code.ofInstructions_eq_ok_iff.1 built
    exact ⟨fun position => Code.resolveJump_eq_ok_iff indexed hjump hargval,
      fun fault => Code.resolveJump_eq_error_iff indexed hjump hargval⟩
  case fails =>
    intro name argcount varnames enough fault
    rw [Code.ofInstructions_eq_error_iff enough]
    constructor
    · rintro ⟨drop, hdrop, rfl⟩
      obtain ⟨i, j, drops, rfl⟩ := ofOffsets_map_eq_error_iff.1 hdrop
      exact ⟨i, j, drops, rfl⟩
    · rintro ⟨i, j, drops, rfl⟩
      exact ⟨_, ofOffsets_map_eq_error_iff.2 ⟨i, j, drops, rfl⟩, rfl⟩

/-- The target of the second jump is too large for an offset, although the lower half of its bits is
the target of the first. -/
theorem OffsetIndex.resolution_exact_truncated :
    let back : Instruction := ⟨2, .jump, none, some (.int 0)⟩
    let beyond : Instruction := ⟨4, .jump, none, some (.int 4294967296)⟩
    ∃ c, Code.ofModule [.bare 0 .nop, back, beyond] = .ok c ∧ c.resolveJump back = .ok 0 ∧
      c.resolveJump beyond = .error (.unresolvedJump .jump 4 4294967296) := by
  intro back beyond
  obtain ⟨-, -, -, jumps, -, -⟩ := resolution_exact [.bare 0 .nop, back, beyond]
  obtain ⟨c, built⟩ : ∃ c, Code.ofModule [.bare 0 .nop, back, beyond] = .ok c := ⟨_, rfl⟩
  refine ⟨c, built, ?_, ?_⟩
  · exact ((jumps _ _ _ c built back 0 rfl rfl).1 0).2 ⟨.bare 0 .nop, rfl, rfl⟩
  · refine ((jumps _ _ _ c built beyond 4294967296 rfl rfl).2 _).2 ⟨?_, rfl⟩
    intro j hj
    simp only [List.mem_cons, List.not_mem_nil, or_false] at hj
    rcases hj with rfl | rfl | rfl <;> decide

/-- In words, the second offset of the pair comes first. -/
example :
    Code.ofModule [.bare 0 .nop, .bare 4 .nop, .bare 2 .nop] =
        .error (.offsetsNotIncreasing ⟨4, 2⟩) ∧
      (Fault.offsetsNotIncreasing ⟨4, 2⟩).detail =
        "instruction offsets must be strictly increasing: 2 follows 4" := by
  exact ⟨rfl, by decide +kernel⟩

end Bytecode
