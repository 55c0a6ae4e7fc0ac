import Bytecode.Proofs.Coherence
import Bytecode.Proofs.Conversion

set_option autoImplicit false

/-!
# Comparison of integers with floats

Two integers are compared by value; an integer and a float are compared as floats.  Since an integer
is converted to the nearest float, and conversion does not change the order of integers, that is
comparison by value with one exception: an integer and the float that it is rounded to are found
equal.

Main statement: `Comparator.numbers_by_value`.
-/

namespace Bytecode

open Decimal (Dyadic IsRounded place)

/-! ## Order of numbers -/

namespace Number

/-- The order in which numbers are found: integers among each other by value, otherwise as floats
stand. -/
def order : Number → Number → Ordering
  | int m, int n => cmp m.toInt n.toInt
  | p, q => cmp (place p.toFloat) (place q.toFloat)

variable {p q r : Number}

theorem order_int (m n : Int64) : (int m).order (int n) = cmp m.toInt n.toInt := rfl

theorem isRounded_int (n : Int64) : IsRounded (int n).toFloat n.toInt :=
  Decimal.isRounded_ofInt (by have := n.toInt_lt; have := n.le_toInt; omega)

/-- The number is not NaN. -/
def IsNumber : Number → Prop
  | int _ => True
  | float x => x.isNaN = false

theorem IsNumber.isNaN_toFloat (h : p.IsNumber) : p.toFloat.isNaN = false := by
  cases p with
  | int n => exact Decimal.isNaN_eq_false (isRounded_int n).1
  | float x => exact h

theorem eq_eq (hp : p.IsNumber) (hq : q.IsNumber) : p.eq q = (p.order q == .eq) := by
  have hfloat : (p.toFloat == q.toFloat) = (cmp (place p.toFloat) (place q.toFloat) == .eq) := by
    rw [Bool.eq_iff_iff, Decimal.beq_iff hp.isNaN_toFloat hq.isNaN_toFloat, beq_iff_eq,
      cmp_eq_eq_iff]
  cases p with
  | float x => cases q <;> exact hfloat
  | int m =>
    cases q with
    | float y => exact hfloat
    | int n =>
      rw [Number.eq, order_int, Bool.eq_iff_iff, beq_iff_eq, beq_iff_eq, cmp_eq_eq_iff,
        Int64.toInt_inj]

theorem order?_eq (hp : p.IsNumber) (hq : q.IsNumber) : p.order? q = some (p.order q) := by
  have hlt := Decimal.lt_iff hp.isNaN_toFloat hq.isNaN_toFloat
  have hgt := Decimal.lt_iff hq.isNaN_toFloat hp.isNaN_toFloat
  have heq := Decimal.beq_iff hp.isNaN_toFloat hq.isNaN_toFloat
  have hfloat : (if p.toFloat < q.toFloat then some Ordering.lt
      else if q.toFloat < p.toFloat then some .gt
      else if p.toFloat == q.toFloat then some .eq
      else none) = some (cmp (place p.toFloat) (place q.toFloat)) := by
    rcases lt_trichotomy (place p.toFloat) (place q.toFloat) with h | h | h
    · rw [if_pos (hlt.2 h), (cmp_eq_lt_iff _ _).2 h]
    · rw [if_neg (mt hlt.1 h.not_lt), if_neg (mt hgt.1 h.not_gt), if_pos (heq.2 h),
        (cmp_eq_eq_iff _ _).2 h]
    · rw [if_neg (mt hlt.1 h.not_gt), if_pos (hgt.2 h), (cmp_eq_gt_iff _ _).2 h]
  cases p with
  | float x => cases q <;> exact hfloat
  | int m =>
    cases q with
    | float y => exact hfloat
    | int n => rw [Number.order?, order_int, cmp_eq_compare]

/-- Conversion to floats does not change the order of integers. -/
theorem place_le_of_le {m n : Int64} (hle : m.toInt ≤ n.toInt) :
    place (int m).toFloat ≤ place (int n).toFloat := by
  obtain ⟨hfinite, hnearest⟩ := isRounded_int m
  obtain ⟨hfinite', hnearest'⟩ := isRounded_int n
  have hmono := hnearest.toRat_mono hnearest' (by exact_mod_cast hle)
  rw [Decimal.place_of_isFinite hfinite, Decimal.place_of_isFinite hfinite']
  exact WithBot.coe_le_coe.2 (WithTop.coe_le_coe.2 hmono)

theorem cmp_ne_gt_iff {α : Type} [LinearOrder α] {a b : α} : cmp a b ≠ .gt ↔ a ≤ b := by
  rw [Ne, cmp_eq_gt_iff, not_lt]

theorem order_float_left (x : Float) (r : Number) :
    (float x).order r = cmp (place x) (place r.toFloat) := by
  cases r <;> rfl

theorem order_float_right (p : Number) (x : Float) :
    p.order (float x) = cmp (place p.toFloat) (place x) := by
  cases p <;> rfl

theorem order_swap (p : Number) (x : Float) : (float x).order p = (p.order (float x)).swap := by
  rw [order_float_left, order_float_right, cmp_swap]

/-- Numbers are found in the order of the floats unless both are integers. -/
theorem ints_or_order_eq (p q : Number) :
    (∃ m n, p = int m ∧ q = int n) ∨ p.order q = cmp (place p.toFloat) (place q.toFloat) := by
  cases p with
  | float x => exact .inr (order_float_left x q)
  | int m =>
    cases q with
    | float y => exact .inr (order_float_right _ y)
    | int n => exact .inl ⟨m, n, rfl, rfl⟩

/-- The order that is found is never against that of the floats. -/
theorem place_le_of_order (h : p.order q ≠ .gt) : place p.toFloat ≤ place q.toFloat := by
  rcases ints_or_order_eq p q with ⟨m, n, rfl, rfl⟩ | horder
  · exact place_le_of_le (cmp_ne_gt_iff.1 h)
  · rw [horder] at h
    exact cmp_ne_gt_iff.1 h

theorem place_eq_of_order (h : p.order q = .eq) : place p.toFloat = place q.toFloat := by
  rcases ints_or_order_eq p q with ⟨m, n, rfl, rfl⟩ | horder
  · rw [Int64.toInt_inj.1 ((cmp_eq_eq_iff _ _).1 h)]
  · rw [horder] at h
    exact (cmp_eq_eq_iff _ _).1 h

/-- A float that stands where an integer is found is the one that the integer is rounded to. -/
theorem isRounded_of_place_eq {n : Int64} {x : Float} (hx : x.isNaN = false)
    (hplace : place (int n).toFloat = place x) : IsRounded x n.toInt := by
  obtain ⟨hfinite, hnearest⟩ := isRounded_int n
  rw [Decimal.place_of_isFinite hfinite] at hplace
  have hfinite' := Decimal.isFinite_of_place hx hplace.symm
  rw [Decimal.place_of_isFinite hfinite', WithBot.coe_inj, WithTop.coe_inj] at hplace
  exact ⟨hfinite', hnearest.congr (Dyadic.canonical_ofFloat x) hplace.symm⟩

theorem place_eq_of_isRounded {n : Int64} {x : Float} (h : IsRounded x n.toInt) :
    place (int n).toFloat = place x := by
  obtain ⟨hfinite, hnearest⟩ := isRounded_int n
  rw [Decimal.place_of_isFinite hfinite, Decimal.place_of_isFinite h.1, hnearest.unique h.2]

/-! ## Transitivity -/

/-- Two integers in this relation are rounded to the float that stands between them. -/
def Confused (R : Int → Int → Prop) (p q r : Number) : Prop :=
  ∃ m n x, p = int m ∧ q = float x ∧ r = int n ∧ R m.toInt n.toInt ∧
    IsRounded x m.toInt ∧ IsRounded x n.toInt

theorem order_le_trans (hq : q.IsNumber) (h : p.order q ≠ .gt) (h' : q.order r ≠ .gt) :
    p.order r ≠ .gt ∨ Confused (· > ·) p q r := by
  have hplace := place_le_of_order h
  have hplace' := place_le_of_order h'
  rcases ints_or_order_eq p r with ⟨m, n, rfl, rfl⟩ | horder
  · cases q with
    | int k =>
      exact .inl (cmp_ne_gt_iff.2 ((cmp_ne_gt_iff.1 h).trans (cmp_ne_gt_iff.1 h')))
    | float x =>
      rcases le_or_gt m.toInt n.toInt with hle | hgt
      · exact .inl (cmp_ne_gt_iff.2 hle)
      · -- The greater integer is found below the float, and the less one above it.
        have hback := place_le_of_le hgt.le
        exact .inr ⟨m, n, x, rfl, rfl, rfl, hgt,
          isRounded_of_place_eq hq (hplace.antisymm (hplace'.trans hback)),
          isRounded_of_place_eq hq ((hback.trans hplace).antisymm hplace')⟩
  · rw [horder, cmp_ne_gt_iff]
    exact .inl (hplace.trans hplace')

theorem order_eq_trans (hq : q.IsNumber) (h : p.order q = .eq) (h' : q.order r = .eq) :
    p.order r = .eq ∨ Confused (· ≠ ·) p q r := by
  have hplace := place_eq_of_order h
  have hplace' := place_eq_of_order h'
  rcases ints_or_order_eq p r with ⟨m, n, rfl, rfl⟩ | horder
  · cases q with
    | int k =>
      exact .inl ((cmp_eq_eq_iff _ _).2
        (((cmp_eq_eq_iff _ _).1 h).trans ((cmp_eq_eq_iff _ _).1 h')))
    | float x =>
      rcases eq_or_ne m.toInt n.toInt with heq | hne
      · exact .inl ((cmp_eq_eq_iff _ _).2 heq)
      · exact .inr ⟨m, n, x, rfl, rfl, rfl, hne, isRounded_of_place_eq hq hplace,
          isRounded_of_place_eq hq hplace'.symm⟩
  · rw [horder, cmp_eq_eq_iff]
    exact .inl (hplace.trans hplace')

theorem order_eq_of_isRounded {n : Int64} {x : Float} (h : IsRounded x n.toInt) :
    (int n).order (float x) = .eq := by
  rw [order_float_right, cmp_eq_eq_iff]
  exact place_eq_of_isRounded h

/-- Both integers are found equal to the float between them. -/
theorem Confused.order_eq {R : Int → Int → Prop} (h : Confused R p q r) :
    p.order q = .eq ∧ q.order r = .eq := by
  obtain ⟨m, n, x, rfl, rfl, rfl, -, hm, hn⟩ := h
  rw [order_swap, order_eq_of_isRounded hm, order_eq_of_isRounded hn]
  exact ⟨rfl, rfl⟩

end Number

/-! ## An integer and a float -/

/-- The float is the nearest to the integer, though it is another number. -/
def Conflated (n : Int64) (x : Float) : Prop :=
  IsRounded x n.toInt ∧ (Dyadic.ofFloat x).toRat ≠ n.toInt

namespace Number

theorem order_of_not_conflated {n : Int64} {x : Float} (hx : x.isFinite) (h : ¬ Conflated n x) :
    (int n).order (float x) = cmp (n.toInt : ℚ) (Dyadic.ofFloat x).toRat := by
  obtain ⟨hfinite, hnearest⟩ := isRounded_int n
  have hcanonical := Dyadic.canonical_ofFloat x
  rw [order_float_right, Decimal.cmp_place hfinite hx]
  by_cases hvalue : (Dyadic.ofFloat (int n).toFloat).toRat = (Dyadic.ofFloat x).toRat
  · have hexact : (Dyadic.ofFloat x).toRat = n.toInt := by
      by_contra hne
      exact h ⟨⟨hx, hnearest.congr hcanonical hvalue.symm⟩, hne⟩
    rw [hvalue, hexact]
  · exact hnearest.cmp_eq hcanonical hvalue

end Number

/-- Floats stand for all integers up to the length of a significand. -/
theorem not_conflated {n : Int64} {x : Float} (hn : |n.toInt| ≤ 2 ^ 53) : ¬ Conflated n x := by
  rintro ⟨⟨-, hnearest⟩, hne⟩
  obtain ⟨c, hc, hvalue⟩ := Decimal.exists_canonical hn
  exact hne (hnearest.toRat_eq hc hvalue)

/-- The next integer is rounded. -/
theorem conflated_two_pow_add_one : Conflated 9007199254740993 9007199254740992.0 := by
  have hfloat : (Number.int 9007199254740993).toFloat = 9007199254740992.0 := rfl
  have hexact : Dyadic.ofFloat 9007199254740992.0 = ⟨false, 2 ^ 52, 1⟩ := rfl
  have hn : Int64.toInt 9007199254740993 = 9007199254740993 := rfl
  refine ⟨hfloat ▸ Number.isRounded_int _, ?_⟩
  rw [hexact, hn, Decimal.Dyadic.toRat, if_neg Bool.false_ne_true]
  norm_num

namespace Comparator

/-- The comparators answer as of operands in this order. -/
def AgreeOn (o : Ordering) (a b : Value) : Prop :=
  ∀ c : Comparator, c.apply a b = .ok (.bool (c.holds (some o)))

variable {a b c : Value} {p q r : Number}

theorem agreeOn_of_numbers (ha : a.number? = some p) (hb : b.number? = some q)
    (hp : p.IsNumber) (hq : q.IsNumber) : AgreeOn (p.order q) a b := by
  have hequals : a.equals b = (p.order q == .eq) := by
    rw [← p.eq_eq hp hq]
    cases a <;> cases ha <;> cases b <;> cases hb <;> rfl
  have horder : a.order? b = some (some (p.order q)) := by
    unfold Value.order?
    rw [ha, hb]
    exact congrArg some (p.order?_eq hp hq)
  intro c
  cases c <;> simp only [apply, hequals, horder] <;> rfl

theorem AgreeOn.holds_iff {o : Ordering} (h : AgreeOn o a b) (c : Comparator) :
    c.Holds a b ↔ c.holds (some o) := by
  rw [Holds, h c]
  simp

theorem AgreeOn.eq_holds_iff {o : Ordering} (h : AgreeOn o a b) : eq.Holds a b ↔ o = .eq := by
  rw [h.holds_iff]
  cases o <;> simp [holds]

theorem AgreeOn.le_holds_iff {o : Ordering} (h : AgreeOn o a b) : le.Holds a b ↔ o ≠ .gt := by
  rw [h.holds_iff]
  cases o <;> simp [holds]

/-- Numbers are compared by value, except that an integer is found equal to the float that it is
rounded to.  That is another number only beyond the length of a significand.  Equality and order are
transitive unless it is two integers that are rounded to the float between them. -/
theorem numbers_by_value (ha : a.number? = some p) (hb : b.number? = some q)
    (hc : c.number? = some r) (hp : p.IsNumber) (hq : q.IsNumber) (hr : r.IsNumber) :
    (∀ (n : Int64) (x : Float), p = .int n → q = .float x → x.isFinite → ¬ Conflated n x →
      AgreeOn (cmp (n.toInt : ℚ) (Dyadic.ofFloat x).toRat) a b ∧
      AgreeOn (cmp (Dyadic.ofFloat x).toRat (n.toInt : ℚ)) b a) ∧
    (∀ (n : Int64) (x : Float), p = .int n → q = .float x → Conflated n x →
      2 ^ 53 < |n.toInt| ∧ AgreeOn .eq a b ∧ AgreeOn .eq b a) ∧
    (eq.Holds a b ∧ eq.Holds b c ∧ ¬ eq.Holds a c ↔ Number.Confused (· ≠ ·) p q r) ∧
    (le.Holds a b ∧ le.Holds b c ∧ ¬ le.Holds a c ↔ Number.Confused (· > ·) p q r) := by
  have hab := agreeOn_of_numbers ha hb hp hq
  have hba := agreeOn_of_numbers hb ha hq hp
  have hbc := agreeOn_of_numbers hb hc hq hr
  have hac := agreeOn_of_numbers ha hc hp hr
  refine ⟨?byValue, ?conflated, ?eqTransitive, ?leTransitive⟩
  case byValue =>
    rintro n x rfl rfl hx hconflated
    rw [Number.order_swap, Number.order_of_not_conflated hx hconflated, cmp_swap] at hba
    rw [Number.order_of_not_conflated hx hconflated] at hab
    exact ⟨hab, hba⟩
  case conflated =>
    rintro n x rfl rfl hconflated
    have horder := Number.order_eq_of_isRounded hconflated.1
    rw [Number.order_swap, horder] at hba
    rw [horder] at hab
    exact ⟨not_le.1 fun hle => not_conflated hle hconflated, hab, hba⟩
  case eqTransitive =>
    rw [hab.eq_holds_iff, hbc.eq_holds_iff, hac.eq_holds_iff]
    refine ⟨fun ⟨h, h', hne⟩ => (Number.order_eq_trans hq h h').resolve_left hne, fun h => ?_⟩
    refine ⟨h.order_eq.1, h.order_eq.2, ?_⟩
    obtain ⟨m, n, x, rfl, rfl, rfl, hne, -, -⟩ := h
    exact fun heq => hne ((cmp_eq_eq_iff _ _).1 heq)
  case leTransitive =>
    rw [hab.le_holds_iff, hbc.le_holds_iff, hac.le_holds_iff]
    refine ⟨fun ⟨h, h', hgt⟩ => (Number.order_le_trans hq h h').resolve_left hgt, fun h => ?_⟩
    rw [h.order_eq.1, h.order_eq.2]
    refine ⟨nofun, nofun, ?_⟩
    obtain ⟨m, n, x, rfl, rfl, rfl, hgt, -, -⟩ := h
    exact not_not.2 ((cmp_eq_gt_iff _ _).2 hgt)

/-- `True` is greater than a half.  The integer `2 ^ 53 + 1` is found equal to the float `2 ^ 53`,
which is equal to another integer. -/
theorem numbers_by_value_half :
    gt.Holds (.bool true) (.float 0.5) ∧ lt.Holds (.float 0.5) (.bool true) ∧
      eq.Holds (.int 9007199254740993) (.float 9007199254740992.0) ∧
      ¬ eq.Holds (.int 9007199254740993) (.int 9007199254740992) := by
  have hhalf : Dyadic.ofFloat 0.5 = ⟨false, 2 ^ 52, -53⟩ := rfl
  obtain ⟨h, h'⟩ := (numbers_by_value (a := .bool true) (b := .float 0.5) (c := .int 0)
    rfl rfl rfl trivial rfl trivial).1 _ _ rfl rfl rfl (not_conflated (by decide))
  have hlt : (Dyadic.ofFloat 0.5).toRat < ((boolToInt true).toInt : ℚ) := by
    rw [hhalf, Decimal.Dyadic.toRat, if_neg Bool.false_ne_true]
    show _ < ((1 : ℤ) : ℚ)
    norm_num
  rw [(cmp_eq_gt_iff _ _).2 hlt] at h
  rw [(cmp_eq_lt_iff _ _).2 hlt] at h'
  have hfloat : (Number.int 9007199254740992).toFloat = 9007199254740992.0 := rfl
  have hconfused : Number.Confused (· ≠ ·) (.int 9007199254740993) (.float 9007199254740992.0)
      (.int 9007199254740992) :=
    ⟨_, _, _, rfl, rfl, rfl, by decide, conflated_two_pow_add_one.1,
      hfloat ▸ Number.isRounded_int _⟩
  obtain ⟨-, -, hintransitive, -⟩ := numbers_by_value (a := .int 9007199254740993)
    (b := .float 9007199254740992.0) (c := .int 9007199254740992) rfl rfl rfl trivial rfl trivial
  obtain ⟨hequal, -, hunequal⟩ := hintransitive.2 hconfused
  exact ⟨h gt, h' lt, hequal, hunequal⟩

/-- The integer `2 ^ 53 + 1` is found equal to the float `2 ^ 53`, and that to another integer. -/
theorem not_numbers_by_value :
    ¬ (∀ (n : Int64) (x : Float), x.isFinite →
      AgreeOn (cmp (n.toInt : ℚ) (Dyadic.ofFloat x).toRat) (.int n) (.float x)) ∧
    ¬ (∀ (m n : Int64) (x : Float), x.isFinite → eq.Holds (.int m) (.float x) →
      eq.Holds (.float x) (.int n) → eq.Holds (.int m) (.int n)) ∧
    ¬ ∀ (m n : Int64) (x : Float), x.isFinite → le.Holds (.int m) (.float x) →
      le.Holds (.float x) (.int n) → le.Holds (.int m) (.int n) := by
  have hne : eq.apply (.int 9007199254740993) (.int 9007199254740992) = .ok (.bool false) := rfl
  have hgt : le.apply (.int 9007199254740993) (.int 9007199254740992) = .ok (.bool false) := rfl
  refine ⟨fun h => ?_, fun h => ?_, fun h => ?_⟩
  · have hequal : eq.Holds (.int 9007199254740993) (.float 9007199254740992.0) := rfl
    have hcmp := (h 9007199254740993 9007199254740992.0 rfl).eq_holds_iff.1 hequal
    exact conflated_two_pow_add_one.2 ((cmp_eq_eq_iff _ _).1 hcmp).symm
  · have heq := h 9007199254740993 9007199254740992 9007199254740992.0 rfl rfl rfl
    rw [Holds, hne] at heq
    cases heq
  · have hle := h 9007199254740993 9007199254740992 9007199254740992.0 rfl rfl rfl
    rw [Holds, hgt] at hle
    cases hle

end Comparator

end Bytecode
