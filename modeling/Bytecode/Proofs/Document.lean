import Bytecode.Proofs.Conversion
import Bytecode.Proofs.JsonText
import Mathlib.Data.List.Perm.Basic

set_option autoImplicit false

/-!
# Fields of a document

An object is read by its keys: their order does not matter, and neither does what stands under keys
that nobody asks for.  `Json.HasFields` holds of the objects that one and the same reader takes for
the same.  What is held in memory as a whole has to be sound, within a limit on how deep it nests;
`Json.Sound` leaves that limit to the nesting of the document itself.

Main statements: `Json.HasFields.exists_members`, each field is found, and `Json.HasFields.sound`.
-/

namespace Bytecode

/-! ## Nesting -/

mutual

/-- How deep arrays and objects nest. -/
def Json.levels : Json → Nat
  | .null => 0
  | .bool _ => 0
  | .num _ => 0
  | .str _ => 0
  | .arr items => Json.mostLevels items + 1
  | .obj members => Member.mostLevels members + 1
termination_by structural j => j

def Json.mostLevels : List Json → Nat
  | [] => 0
  | j :: rest => max (Json.levels j) (Json.mostLevels rest)
termination_by structural js => js

def Member.levels : Member → Nat
  | ⟨_, value⟩ => Json.levels value
termination_by structural m => m

def Member.mostLevels : List Member → Nat
  | [] => 0
  | m :: rest => max (Member.levels m) (Member.mostLevels rest)
termination_by structural ms => ms

end

theorem Member.levels_eq (m : Member) : m.levels = m.value.levels := by
  obtain ⟨key, value⟩ := m
  rfl

theorem Member.levels_le_mostLevels {m : Member} {members : List Member} (h : m ∈ members) :
    m.value.levels ≤ Member.mostLevels members := by
  rw [← m.levels_eq]
  induction members with
  | nil => cases h
  | cons m' rest ih =>
    rw [Member.mostLevels]
    cases h with
    | head => exact Nat.le_max_left ..
    | tail _ hrest => exact Nat.le_trans (ih hrest) (Nat.le_max_right ..)

/-! ## Soundness -/

namespace Json

/-- The document can be held in memory within every depth that it does not exceed. -/
def Sound (j : Json) : Prop :=
  ∀ depth, j.levels ≤ depth → j.isSound depth = true

theorem sound_arr {items : List Json} (each : ∀ j ∈ items, j.Sound) : (arr items).Sound := by
  have all : ∀ depth, mostLevels items ≤ depth → allSound depth items = true := by
    intro depth h
    induction items with
    | nil => rfl
    | cons j rest ih =>
      obtain ⟨hj, hrest⟩ := List.forall_mem_cons.1 each
      obtain ⟨hle, hle'⟩ := Nat.max_le.1 h
      rw [allSound, hj depth hle, ih hrest hle']
      rfl
  intro depth h
  have hpos : 0 < depth := Nat.lt_of_lt_of_le (Nat.succ_pos _) h
  rw [isSound, all (depth - 1) (Nat.le_sub_one_of_lt h), decide_eq_true hpos]
  rfl

theorem sound_obj {members : List Member}
    (each : ∀ m ∈ members, m.key.isSome = true ∧ m.value.Sound) : (obj members).Sound := by
  have all : ∀ depth, Member.mostLevels members ≤ depth →
      Member.allSound depth members = true := by
    intro depth h
    induction members with
    | nil => rfl
    | cons m rest ih =>
      obtain ⟨⟨hkey, hvalue⟩, hrest⟩ := List.forall_mem_cons.1 each
      obtain ⟨hle, hle'⟩ := Nat.max_le.1 h
      have sound : Member.isSound depth m = true := by
        obtain ⟨key, value⟩ := m
        exact Bool.and_eq_true_iff.2 ⟨hkey, hvalue depth hle⟩
      rw [Member.allSound, sound, ih hrest hle']
      rfl
  intro depth h
  have hpos : 0 < depth := Nat.lt_of_lt_of_le (Nat.succ_pos _) h
  rw [isSound, all (depth - 1) (Nat.le_sub_one_of_lt h), decide_eq_true hpos]
  rfl

theorem sound_int {n : Int} (h : n.natAbs < UInt64.size) : (num (.ofInt n)).Sound :=
  fun _ _ => Numeral.isSome_toFloat?_of_integral rfl h

/-- A string, an integer of 64 bits, a boolean or `null`. -/
inductive Scalar : Json → Prop where
  | null : Scalar null
  | bool (b : Bool) : Scalar (bool b)
  | int {n : Int} (least : Int64.minValue.toInt ≤ n) (below : n < UInt64.size) :
      Scalar (num (.ofInt n))
  | str (text : String) : Scalar (str (some text))

theorem Scalar.sound {j : Json} (h : j.Scalar) : j.Sound := by
  cases h with
  | int least below =>
    rw [Int64.toInt_minValue] at least
    have hsize : (UInt64.size : Int) = 2 * 2 ^ 63 := rfl
    exact sound_int (by omega)
  | _ => exact fun _ _ => rfl

/-! ## Fields -/

/-- The fields that are present. -/
def present (fields : List (String × Option Json)) : List Member :=
  fields.filterMap fun field => field.2.map fun j => ⟨some field.1, j⟩

/-- An object has these fields, some of which may be absent, in any order; under other keys it has
scalars. -/
inductive HasFields (fields : List (String × Option Json)) : Json → Prop where
  | mk {members others : List Member} (order : members.Perm (present fields ++ others))
      (unknown : ∀ m ∈ others, ∃ key, m.key = some key ∧ key ∉ fields.map (·.1) ∧ m.value.Scalar) :
      HasFields fields (obj members)

/-- Without other keys. -/
theorem HasFields.of_perm {fields : List (String × Option Json)} {members : List Member}
    (order : members.Perm (present fields)) : HasFields fields (obj members) := by
  rw [← List.append_nil (present fields)] at order
  exact .mk order nofun

theorem mem_present_iff {fields : List (String × Option Json)} {m : Member} :
    m ∈ present fields ↔ ∃ key j, (key, some j) ∈ fields ∧ m = ⟨some key, j⟩ := by
  simp only [present, List.mem_filterMap, Option.map_eq_some_iff, Prod.exists]
  constructor
  · rintro ⟨key, part, hmem, j, rfl, rfl⟩
    exact ⟨key, j, hmem, rfl⟩
  · rintro ⟨key, j, hmem, rfl⟩
    exact ⟨key, some j, hmem, j, rfl, rfl⟩

theorem valuesOf_eq_nil {key : String} {members : List Member}
    (h : ∀ m ∈ members, m.key ≠ some key) : valuesOf key members = [] := by
  have hnone : (members.filter fun m => m.key == some key) = [] :=
    List.filter_eq_nil_iff.2 fun m hm => by simpa using h m hm
  rw [valuesOf, hnone]
  rfl

theorem valuesOf_append (key : String) (members members' : List Member) :
    valuesOf key (members ++ members') = valuesOf key members ++ valuesOf key members' := by
  rw [valuesOf, List.filter_append, List.map_append]
  rfl

theorem valuesOf_perm {members members' : List Member} (key : String)
    (h : members.Perm members') : (valuesOf key members).Perm (valuesOf key members') :=
  (h.filter _).map _

theorem key_of_mem_present {fields : List (String × Option Json)} {m : Member}
    (h : m ∈ present fields) : ∃ key ∈ fields.map (·.1), m.key = some key := by
  obtain ⟨key, j, hmem, rfl⟩ := mem_present_iff.1 h
  exact ⟨key, List.mem_map.2 ⟨_, hmem, rfl⟩, rfl⟩

theorem valuesOf_present_of_not_mem {fields : List (String × Option Json)} {key : String}
    (h : key ∉ fields.map (·.1)) : valuesOf key (present fields) = [] := by
  refine valuesOf_eq_nil fun m hm heq => ?_
  obtain ⟨key', hkey', heq'⟩ := key_of_mem_present hm
  rw [heq'] at heq
  cases heq
  exact h hkey'

theorem valuesOf_present {fields : List (String × Option Json)} {key : String}
    {part : Option Json} (distinct : (fields.map (·.1)).Nodup) (h : (key, part) ∈ fields) :
    valuesOf key (present fields) = part.toList := by
  induction fields with
  | nil => cases h
  | cons field rest ih =>
    obtain ⟨hfirst, hrest⟩ := List.nodup_cons.1 distinct
    have split : present (field :: rest) = present [field] ++ present rest :=
      List.filterMap_append (l := [field])
    rw [split, valuesOf_append]
    cases h with
    | head =>
      rw [valuesOf_present_of_not_mem hfirst, List.append_nil]
      cases part <;> simp [present, valuesOf]
    | tail _ h =>
      have hne : key ∉ [field].map (·.1) := by
        rw [List.map_singleton, List.mem_singleton]
        rintro rfl
        exact hfirst (List.mem_map.2 ⟨_, h, rfl⟩)
      rw [valuesOf_present_of_not_mem hne, List.nil_append, ih hrest h]

/-- Each field is found under its key, or is found to be absent. -/
theorem HasFields.exists_members {fields : List (String × Option Json)} {j : Json}
    (h : HasFields fields j) (distinct : (fields.map (·.1)).Nodup) :
    ∃ members, j = obj members ∧ keysValid members = true ∧
      ∀ field ∈ fields, member? field.1 members = some field.2 := by
  obtain @⟨members, others, order, unknown⟩ := h
  refine ⟨members, rfl, ?_, fun (key, part) hmem => ?_⟩
  · refine List.all_eq_true.2 fun m hm => ?_
    rcases List.mem_append.1 (order.subset hm) with hm | hm
    · obtain ⟨key, -, heq⟩ := key_of_mem_present hm
      rw [heq]
      rfl
    · obtain ⟨key, heq, -⟩ := unknown m hm
      rw [heq]
      rfl
  · have hothers : valuesOf key others = [] := by
      refine valuesOf_eq_nil fun m hm heq => ?_
      obtain ⟨key', heq', hunknown, -⟩ := unknown m hm
      rw [heq'] at heq
      cases heq
      exact hunknown (List.mem_map.2 ⟨_, hmem, rfl⟩)
    have hvalues := valuesOf_perm key order
    rw [valuesOf_append, valuesOf_present distinct hmem, hothers, List.append_nil] at hvalues
    have hvalues : valuesOf key members = part.toList := by
      cases part with
      | none => exact hvalues.eq_nil
      | some j => exact List.perm_singleton.1 hvalues
    rw [member?, hvalues]
    cases part <;> rfl

theorem HasFields.sound {fields : List (String × Option Json)} {j : Json}
    (h : HasFields fields j) (each : ∀ field ∈ fields, ∀ part ∈ field.2, part.Sound) :
    j.Sound := by
  obtain ⟨order, unknown⟩ := h
  refine sound_obj fun m hm => ?_
  rcases List.mem_append.1 (order.subset hm) with hm | hm
  · obtain ⟨key, part, hmem, rfl⟩ := mem_present_iff.1 hm
    exact ⟨rfl, each _ hmem part rfl⟩
  · obtain ⟨key, heq, -, scalar⟩ := unknown m hm
    rw [heq]
    exact ⟨rfl, scalar.sound⟩

theorem HasFields.levels_lt {fields : List (String × Option Json)} {j : Json}
    (h : HasFields fields j) : ∀ field ∈ fields, ∀ part ∈ field.2, part.levels < j.levels := by
  obtain ⟨order, -⟩ := h
  rintro ⟨key, _⟩ hmem part ⟨⟩
  have hpresent := mem_present_iff.2 ⟨key, part, hmem, rfl⟩
  have hle := Member.levels_le_mostLevels (order.symm.subset (List.mem_append_left _ hpresent))
  exact Nat.lt_succ_of_le hle

end Json

end Bytecode
