import Bytecode.Engine
import Bytecode.Proofs.Equality
import Mathlib.Data.List.Forall2

set_option autoImplicit false

/-!
# Coherence of the comparators

On values without floats the six comparators are those of one equality and one order.  Equality is
defined for all values; the order, for integers and booleans among each other and for texts among
each other, and there it is linear.

Texts are ordered by the code points of their characters, and that is the order of their bytes in
UTF-8.  The first byte of a character tells how many bytes it has, and grows with that number; of
two characters with as many bytes, the first byte in which they differ decides as their code points
do.

Main statements: `Text.utf8Bytes_lt_iff`, to compare two texts byte by byte is to compare them
character by character, and `Comparator.coherent_of_floatFree`.
-/

namespace Bytecode

/-! ## The order of texts -/

namespace Text

theorem ofNat_cons_lt_iff {a b : Nat} (ha : a < 256) (hb : b < 256) {s t : List UInt8} :
    UInt8.ofNat a :: s < UInt8.ofNat b :: t ↔ a < b ∨ a = b ∧ s < t := by
  rw [List.cons_lt_cons_iff, UInt8.lt_iff_toNat_lt, ← UInt8.toNat_inj,
    UInt8.toNat_ofNat_of_lt' ha, UInt8.toNat_ofNat_of_lt' hb]

/-- The bytes of a lesser character come first, whatever follows. -/
theorem utf8EncodeChar_append_lt {c d : Char} (h : c < d) (s t : List UInt8) :
    String.utf8EncodeChar c ++ s < String.utf8EncodeChar d ++ t := by
  have hlt : c.val.toNat < d.val.toNat := h
  have hd : d.val.toNat < 1114112 := by
    rcases d.valid with hlow | ⟨-, hhigh⟩ <;> omega
  -- the bytes behind the first one are digits to the base 64
  have hdigits : ∀ n : Nat, n / 4096 = n / 64 / 64 := by omega
  have hdigits' : ∀ n : Nat, n / 262144 = n / 64 / 64 / 64 := by omega
  unfold String.utf8EncodeChar
  generalize c.val.toNat = m at hlt
  generalize d.val.toNat = n at hlt hd
  simp only [hdigits, hdigits']
  (repeat' split) <;>
    simp (disch := omega) only [List.cons_append, List.nil_append, ofNat_cons_lt_iff] <;>
    omega

theorem flatMap_utf8EncodeChar_lt {cs ds : List Char} (h : cs < ds) :
    cs.flatMap String.utf8EncodeChar < ds.flatMap String.utf8EncodeChar := by
  induction h with
  | @nil d ds =>
    obtain ⟨byte, bytes, heq⟩ := List.exists_cons_of_ne_nil (String.utf8EncodeChar_ne_nil (c := d))
    rw [List.flatMap_nil, List.flatMap_cons, heq]
    exact .nil
  | rel hlt =>
    rw [List.flatMap_cons, List.flatMap_cons]
    exact utf8EncodeChar_append_lt hlt _ _
  | cons _ ih =>
    rw [List.flatMap_cons, List.flatMap_cons]
    exact List.append_left_lt ih

theorem utf8Bytes_eq (text : String) :
    utf8Bytes text = text.toList.flatMap String.utf8EncodeChar := by
  rw [utf8Bytes, String.toUTF8, ← String.utf8Encode_toList, List.utf8Encode]
  simp

/-- The bytes of a text come before those of another exactly if it comes before the other by the
code points of their characters. -/
theorem utf8Bytes_lt_iff {a b : String} : utf8Bytes a < utf8Bytes b ↔ a.toList < b.toList := by
  rw [utf8Bytes_eq, utf8Bytes_eq]
  refine ⟨fun hlt => ?_, flatMap_utf8EncodeChar_lt⟩
  rcases Std.lt_trichotomy a.toList b.toList with hbefore | heq | hbehind
  · exact hbefore
  · rw [heq] at hlt
    exact absurd hlt (List.lt_irrefl _)
  · exact absurd hlt (List.lt_asymm (flatMap_utf8EncodeChar_lt hbehind))

end Text

/-! ## The laws -/

/-- The values can be ordered: both are numbers without a point, or both are texts. -/
def Value.Orderable (a b : Value) : Prop :=
  (a.kind ∈ [.int, .bool] ∧ b.kind ∈ [.int, .bool]) ∨ (a.kind = .str ∧ b.kind = .str)

namespace Comparator

/-- The comparator answers that it holds. -/
def Holds (c : Comparator) (a b : Value) : Prop :=
  c.apply a b = .ok (.bool true)

/-- The comparator has an answer. -/
def Answers (c : Comparator) (a b : Value) : Prop :=
  ∃ answer, c.apply a b = .ok answer

/-- The comparators are those of one equality and one order on these values. -/
structure Coherent (among : Value → Prop) : Prop where
  eq_refl {a : Value} : among a → eq.Holds a a
  eq_symm {a b : Value} : among a → among b → eq.Holds a b → eq.Holds b a
  eq_trans {a b c : Value} : among a → among b → among c → eq.Holds a b → eq.Holds b c →
    eq.Holds a c
  /-- Tuples are equal if they have the same length and equal items. -/
  eq_tuple_iff {as bs : List Value} : among (.tuple as) → among (.tuple bs) →
    (eq.Holds (.tuple as) (.tuple bs) ↔ List.Forall₂ eq.Holds as bs)
  ne_eq_not {a b : Value} : among a → among b →
    ∃ answer : Bool, eq.apply a b = .ok (.bool answer) ∧ ne.apply a b = .ok (.bool !answer)
  answers_iff {a b : Value} : among a → among b → ∀ c ∈ [lt, le, gt, ge],
    (c.Answers a b ↔ a.Orderable b)
  answers_comm {a b : Value} : among a → among b → ∀ c ∈ [lt, le, gt, ge],
    (c.Answers a b ↔ c.Answers b a)
  trichotomy {a b : Value} : among a → among b → a.Orderable b →
    (lt.Holds a b ∧ ¬ eq.Holds a b ∧ ¬ gt.Holds a b) ∨
    (¬ lt.Holds a b ∧ eq.Holds a b ∧ ¬ gt.Holds a b) ∨
    (¬ lt.Holds a b ∧ ¬ eq.Holds a b ∧ gt.Holds a b)
  lt_trans {a b c : Value} : among a → among b → among c → lt.Holds a b → lt.Holds b c →
    lt.Holds a c
  le_iff {a b : Value} : among a → among b → a.Orderable b →
    (le.Holds a b ↔ lt.Holds a b ∨ eq.Holds a b)
  lt_iff_gt {a b : Value} : among a → among b → (lt.Holds a b ↔ gt.Holds b a)
  le_iff_ge {a b : Value} : among a → among b → (le.Holds a b ↔ ge.Holds b a)

/-! ## Equality -/

theorem eq_holds_iff {a b : Value} : eq.Holds a b ↔ a.equals b := by
  simp [Holds, apply]

theorem forall₂_eq_holds_iff {as bs : List Value} :
    List.Forall₂ eq.Holds as bs ↔ Value.equalsAll as bs := by
  induction as generalizing bs with
  | nil => cases bs <;> simp [Value.equalsAll]
  | cons a as ih =>
    cases bs with
    | nil => simp [Value.equalsAll]
    | cons b bs => simp [Value.equalsAll, ih, eq_holds_iff]

end Comparator

/-! ## Order -/

namespace Value

variable {a b c : Value} {m n : Int64}

theorem number?_eq_int_iff :
    a.number? = some (.int n) ↔ a = .int n ∨ ∃ b, a = .bool b ∧ boolToInt b = n := by
  cases a <;> simp [number?]

theorem order?_of_int (ha : a.number? = some (.int m)) (hb : b.number? = some (.int n)) :
    a.order? b = some (some (compare m.toInt n.toInt)) := by
  unfold order?
  rw [ha, hb]
  rfl

theorem order?_str (s t : String) : (str s).order? (str t) = some (some (compare s t)) := rfl

theorem equals_of_int (ha : a.number? = some (.int m)) (hb : b.number? = some (.int n)) :
    a.equals b ↔ m = n := by
  rcases number?_eq_int_iff.1 ha with rfl | ⟨b, rfl, rfl⟩ <;>
    rcases number?_eq_int_iff.1 hb with rfl | ⟨b, rfl, rfl⟩ <;>
    simp [equals, number?, Number.eq]

theorem equals_str_iff {s t : String} : (str s).equals (str t) ↔ s = t := by
  simp [equals, number?, same]

/-- An order is found between values that can be ordered, and if no float is among them, only
there. -/
theorem order?_isSome_iff (ha : a.isFloatFree) (hb : b.isFloatFree) :
    (a.order? b).isSome ↔ a.Orderable b := by
  cases a with
  | float x => cases ha
  | bool _ | int _ | str _ =>
    cases b with
    | float x => cases hb
    | _ => simp [order?, number?, Orderable, kind]
  | _ => simp [order?, number?, Orderable, kind]

namespace Orderable

theorem symm (h : a.Orderable b) : b.Orderable a :=
  h.imp And.symm And.symm

/-- What can be ordered is an integer, or text, on both sides. -/
theorem cases (h : a.Orderable b) :
    (∃ m n, a.number? = some (.int m) ∧ b.number? = some (.int n)) ∨
      ∃ s t, a = .str s ∧ b = .str t := by
  rcases h with ⟨ha, hb⟩ | ⟨ha, hb⟩
  · cases a <;> simp [kind] at ha <;> cases b <;> simp [kind] at hb <;> exact .inl ⟨_, _, rfl, rfl⟩
  · cases a <;> simp [kind] at ha
    cases b <;> simp [kind] at hb
    exact .inr ⟨_, _, rfl, rfl⟩

/-- The order is turned around with the operands, and it is that of equal values if they are
equal. -/
theorem exists_order (h : a.Orderable b) :
    ∃ o, a.order? b = some (some o) ∧ b.order? a = some (some o.swap) ∧
      (a.equals b ↔ o = .eq) := by
  rcases h.cases with ⟨m, n, ha, hb⟩ | ⟨s, t, rfl, rfl⟩
  · refine ⟨_, order?_of_int ha hb, ?_, ?_⟩
    · have hswap : compare n.toInt m.toInt = (compare m.toInt n.toInt).swap :=
        Std.OrientedCmp.eq_swap
      rw [order?_of_int hb ha, hswap]
    · rw [equals_of_int ha hb, Std.LawfulEqCmp.compare_eq_iff_eq, Int64.toInt_inj]
  · refine ⟨compare s t, rfl, ?_, ?_⟩
    · exact congrArg (some <| some ·) Std.OrientedCmp.eq_swap
    · rw [equals_str_iff, Std.LawfulEqCmp.compare_eq_iff_eq]

theorem order?_trans (h : a.Orderable b) (h' : b.Orderable c)
    (hlt : a.order? b = some (some .lt)) (hlt' : b.order? c = some (some .lt)) :
    a.order? c = some (some .lt) := by
  rcases h.cases with ⟨m, n, ha, hb⟩ | ⟨s, t, rfl, rfl⟩
  · rcases h'.cases with ⟨n', k, hb', hc⟩ | ⟨s, t, rfl, rfl⟩
    · rw [hb] at hb'
      cases hb'
      rw [order?_of_int ha hb, Option.some.injEq, Option.some.injEq] at hlt
      rw [order?_of_int hb hc, Option.some.injEq, Option.some.injEq] at hlt'
      rw [order?_of_int ha hc, Std.TransCmp.lt_trans hlt hlt']
    · cases hb
  · rcases h'.cases with ⟨n, k, hb, hc⟩ | ⟨_, u, ⟨⟩, rfl⟩
    · cases hb
    · have hst : compare s t = .lt := Option.some.inj (Option.some.inj hlt)
      have htu : compare t u = .lt := Option.some.inj (Option.some.inj hlt')
      have hsu : compare s u = .lt := Std.TransCmp.lt_trans hst htu
      exact congrArg (some <| some ·) hsu

end Orderable

end Value

namespace Comparator

variable {a b : Value}

/-- A comparator other than those of equality holds if it holds of the order that is found. -/
theorem holds_iff_of_order? {c : Comparator} (hc : c ∈ [lt, le, gt, ge]) {o : Option Ordering}
    (found : a.order? b = some o) : c.Holds a b ↔ c.holds o := by
  simp only [List.mem_cons, List.not_mem_nil, or_false] at hc
  rcases hc with rfl | rfl | rfl | rfl <;> simp [Holds, apply, found]

theorem answers_iff_isSome {c : Comparator} (hc : c ∈ [lt, le, gt, ge]) :
    c.Answers a b ↔ (a.order? b).isSome := by
  simp only [List.mem_cons, List.not_mem_nil, or_false] at hc
  cases found : a.order? b <;> rcases hc with rfl | rfl | rfl | rfl <;>
    simp [Answers, apply, found]

/-- Of two values that can be ordered, each comparator says what their order says. -/
theorem exists_holds_iff (h : a.Orderable b) :
    ∃ o : Ordering,
      (∀ c ∈ [lt, le, gt, ge], (c.Holds a b ↔ c.holds (some o)) ∧
        (c.Holds b a ↔ c.holds (some o.swap))) ∧
      (eq.Holds a b ↔ o = .eq) := by
  obtain ⟨o, found, found', heq⟩ := h.exists_order
  exact ⟨o, fun c hc => ⟨holds_iff_of_order? hc found, holds_iff_of_order? hc found'⟩,
    eq_holds_iff.trans heq⟩

/-- Where a comparator other than those of equality holds of values without floats, they can be
ordered. -/
theorem Holds.orderable {c : Comparator} (h : c.Holds a b) (hc : c ∈ [lt, le, gt, ge])
    (ha : a.isFloatFree) (hb : b.isFloatFree) : a.Orderable b :=
  (Value.order?_isSome_iff ha hb).1 ((answers_iff_isSome hc).1 ⟨_, h⟩)

/-- With the operands turned around, the comparator that holds of the order turned around holds. -/
theorem holds_comm {c c' : Comparator} (hc : c ∈ [lt, le, gt, ge]) (hc' : c' ∈ [lt, le, gt, ge])
    (hswap : ∀ o : Ordering, c.holds (some o) = c'.holds (some o.swap)) (ha : a.isFloatFree)
    (hb : b.isFloatFree) : c.Holds a b ↔ c'.Holds b a := by
  by_cases h : a.Orderable b
  · obtain ⟨o, holds, -⟩ := exists_holds_iff h
    rw [(holds c hc).1, (holds c' hc').2, hswap]
  · exact iff_of_false (fun h' => h (h'.orderable hc ha hb))
      (fun h' => h (h'.orderable hc' hb ha).symm)

theorem lt_holds_iff : lt.Holds a b ↔ a.order? b = some (some .lt) := by
  cases found : a.order? b with
  | none => simp [Holds, apply, found]
  | some o =>
    rw [holds_iff_of_order? (by simp) found]
    cases o <;> simp [holds]

/-- On values without floats the comparators are those of one equality, which is defined for all of
them, and one linear order, which is defined for integers and booleans and for texts.  Texts are in
lexicographic order of their code points, which is that of their bytes. -/
theorem coherent_of_floatFree :
    Coherent (fun v => v.isFloatFree) ∧ ∀ s t : String,
      (lt.Holds (.str s) (.str t) ↔ s.toList < t.toList) ∧
      (s.toList < t.toList ↔ utf8Bytes s < utf8Bytes t) := by
  refine ⟨?_, fun s t => ⟨?_, Text.utf8Bytes_lt_iff.symm⟩⟩
  · exact {
      eq_refl := fun ha => by
        rw [eq_holds_iff, Value.equals_iff ha ha]
      eq_symm := fun ha hb h => by
        rw [eq_holds_iff, Value.equals_iff hb ha]
        rw [eq_holds_iff, Value.equals_iff ha hb] at h
        exact h.symm
      eq_trans := fun ha hb hc h h' => by
        rw [eq_holds_iff, Value.equals_iff ha hc]
        rw [eq_holds_iff, Value.equals_iff ha hb] at h
        rw [eq_holds_iff, Value.equals_iff hb hc] at h'
        exact h.trans h'
      eq_tuple_iff := fun _ _ => eq_holds_iff.trans forall₂_eq_holds_iff.symm
      ne_eq_not := fun _ _ => ⟨_, rfl, rfl⟩
      answers_iff := fun ha hb c hc =>
        (answers_iff_isSome hc).trans (Value.order?_isSome_iff ha hb)
      answers_comm := fun ha hb c hc => by
        rw [answers_iff_isSome hc, answers_iff_isSome hc, Value.order?_isSome_iff ha hb,
          Value.order?_isSome_iff hb ha]
        exact ⟨.symm, .symm⟩
      trichotomy := fun _ _ h => by
        obtain ⟨o, holds, heq⟩ := exists_holds_iff h
        rw [(holds lt (by simp)).1, (holds gt (by simp)).1, heq]
        cases o <;> simp [Comparator.holds]
      lt_trans := fun ha hb hc h h' => by
        have hab := h.orderable (by simp) ha hb
        have hbc := h'.orderable (by simp) hb hc
        rw [lt_holds_iff] at h h' ⊢
        exact hab.order?_trans hbc h h'
      le_iff := fun _ _ h => by
        obtain ⟨o, holds, heq⟩ := exists_holds_iff h
        rw [(holds lt (by simp)).1, (holds le (by simp)).1, heq]
        cases o <;> simp [Comparator.holds]
      lt_iff_gt := fun ha hb => holds_comm (by simp) (by simp) (by decide) ha hb
      le_iff_ge := fun ha hb => holds_comm (by simp) (by simp) (by decide) ha hb }
  · rw [lt_holds_iff, Value.order?_str, Option.some.injEq, Option.some.injEq, ← String.lt_iff]
    exact compareOfLessAndEq_eq_lt

end Comparator

end Bytecode
