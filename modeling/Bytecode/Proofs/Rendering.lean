import Bytecode.Value

set_option autoImplicit false

/-!
# What the text of a value stands for

The quoted form of a value can be taken apart again, although texts may hold whatever the form is
built of.  Its first character tells the kind of the value.  An integer goes on up to a character
that no integer has, and a text up to a quote without a backslash; all other forms have ends of
their own.  In a tuple every item is followed by a comma or a parenthesis.  So the form of a value
in front of other characters determines both the value and where it ends.

Main statements: `Value.eq_of_repr_append`, by induction on the items of tuples, and
`Value.repr_unambiguous`.
-/

namespace Bytecode

/-! ## Texts of integers and quoted texts -/

/-- A character that the text of an integer can have. -/
def Text.IsNumeral (c : Char) : Prop :=
  c.isDigit ∨ c = '-'

theorem Text.isNumeral_of_mem_toDigits {n : Nat} {c : Char} (h : c ∈ Nat.toDigits 10 n) :
    IsNumeral c :=
  .inl (Nat.isDigit_of_mem_toDigits (by decide) (by decide) h)

theorem Value.isNumeral_of_mem_intText {n : Int64} {c : Char} (h : c ∈ (intText n).toList) :
    Text.IsNumeral c := by
  rw [intText] at h
  cases hn : n.toInt with
  | ofNat k =>
    rw [hn, Text.toList_toString_ofNat] at h
    exact Text.isNumeral_of_mem_toDigits h
  | negSucc k =>
    rw [hn, Text.toList_toString_negSucc] at h
    rcases List.mem_cons.1 h with rfl | h
    · exact .inr rfl
    · exact Text.isNumeral_of_mem_toDigits h

theorem Value.intText_injective {a b : Int64} (h : (intText a).toList = (intText b).toList) :
    a = b := by
  have hread := congrArg Text.readSigned? h
  rw [intText, intText, Text.readSigned?_toString, Text.readSigned?_toString] at hread
  exact Int64.toInt_inj.1 (Option.some.inj hread)

/-- Where characters of one sort are followed by one of another, both parts are determined. -/
theorem append_inj_of_forall {α : Type} {P : α → Prop} {xs ys s t : List α} (hxs : ∀ x ∈ xs, P x)
    (hys : ∀ y ∈ ys, P y) (hs : ∀ x ∈ s.head?, ¬ P x) (ht : ∀ y ∈ t.head?, ¬ P y)
    (h : xs ++ s = ys ++ t) : xs = ys ∧ s = t := by
  induction xs generalizing ys with
  | nil =>
    cases ys with
    | nil => exact ⟨rfl, h⟩
    | cons y ys =>
      rw [List.nil_append, List.cons_append] at h
      subst h
      exact absurd (hys y List.mem_cons_self) (hs y rfl)
  | cons x xs ih =>
    cases ys with
    | nil =>
      rw [List.nil_append, List.cons_append] at h
      subst h
      exact absurd (hxs x List.mem_cons_self) (ht x rfl)
    | cons y ys =>
      rw [List.cons_append, List.cons_append, List.cons.injEq] at h
      obtain ⟨rfl, h⟩ := h
      obtain ⟨rfl, hst⟩ := ih (fun z hz => hxs z (List.mem_cons_of_mem x hz))
        (fun z hz => hys z (List.mem_cons_of_mem x hz)) h
      exact ⟨rfl, hst⟩

theorem Value.eq_of_intText_append {a b : Int64} {s t : List Char}
    (hs : ∀ c ∈ s.head?, ¬ Text.IsNumeral c) (ht : ∀ c ∈ t.head?, ¬ Text.IsNumeral c)
    (h : (intText a).toList ++ s = (intText b).toList ++ t) : a = b ∧ s = t := by
  obtain ⟨htext, hst⟩ := append_inj_of_forall (fun _ => isNumeral_of_mem_intText)
    (fun _ => isNumeral_of_mem_intText) hs ht h
  exact ⟨intText_injective htext, hst⟩

/-- The quote behind an encoded text is the first one without a backslash. -/
theorem Text.Quoted.eq_of_encode_append {a b s t : List Char}
    (h : encode a ++ '\x27' :: s = encode b ++ '\x27' :: t) : a = b ∧ s = t := by
  -- no encoded text begins with a quote, and one that begins with a backslash shows its character
  -- behind that
  induction a generalizing b with
  | nil =>
    cases b with
    | nil => exact ⟨rfl, (List.cons.inj h).2⟩
    | cons d b => grind [encode, isSpecial]
  | cons c a ih =>
    cases b with
    | nil => grind [encode, isSpecial]
    | cons d b =>
      have hparts : c = d ∧ encode a ++ '\x27' :: s = encode b ++ '\x27' :: t := by
        grind [encode, isSpecial]
      obtain ⟨rfl, hrest⟩ := hparts
      obtain ⟨rfl, hst⟩ := ih hrest
      exact ⟨rfl, hst⟩

namespace Value

/-! ## Data -/

mutual

/-- The value is built of constants, integers, texts, ranges and tuples. -/
def isData : Value → Bool
  | none | null | bool _ | int _ | str _ | range _ => true
  | tuple items => allData items
  | float _ | builtin _ | code _ | function _ | iterator _ => false
termination_by structural v => v

def allData : List Value → Bool
  | [] => true
  | v :: rest => v.isData && allData rest
termination_by structural vs => vs

end

/-! ## The characters of a form -/

/-- The end of the form of a range, from behind the stop. -/
def stepChars (step : Int64) : List Char :=
  if step = 1 then [')'] else ',' :: ' ' :: ((intText step).toList ++ [')'])

/-- The form of a tuple from behind its second item on. -/
def tailChars : List Value → List Char
  | [] => [')']
  | v :: rest => ',' :: ' ' :: (v.repr.toList ++ tailChars rest)

/-- The form of a tuple from behind its first item on. -/
def restChars : List Value → List Char
  | [] => [',', ')']
  | rest => tailChars rest

/-- The form of a tuple from behind its opening parenthesis on. -/
def itemsChars : List Value → List Char
  | [] => [')']
  | v :: rest => v.repr.toList ++ restChars rest

theorem repr_str (text : String) : (str text).repr = Text.quote text := rfl

theorem repr_range (r : Range) : (range r).repr = rangeText r := rfl

theorem repr_tuple (items : List Value) : (tuple items).repr = tupleText (reprs items) := rfl

theorem reprs_cons (v : Value) (rest : List Value) : reprs (v :: rest) = v.repr :: reprs rest := rfl

theorem toList_comma : ", ".toList = [',', ' '] := rfl

theorem toList_close : ")".toList = [')'] := rfl

theorem toList_repr_str (text : String) :
    (str text).repr.toList = '\x27' :: (Text.Quoted.encode text.toList ++ ['\x27']) := by
  simp [repr_str, Text.quote]

theorem toList_repr_range (r : Range) :
    (range r).repr.toList =
      "range(".toList ++ ((intText r.start).toList ++
        (',' :: ' ' :: ((intText r.stop).toList ++ stepChars r.step))) := by
  rw [repr_range, rangeText, stepChars]
  split <;>
    simp only [String.toList_append, List.append_assoc, toList_comma, toList_close,
      List.cons_append, List.nil_append]

/-- Items with commas between them and the parenthesis behind. -/
theorem toList_intercalate_reprs (v : Value) (rest : List Value) :
    (String.intercalate ", " (reprs (v :: rest))).toList ++ [')'] =
      v.repr.toList ++ tailChars rest := by
  induction rest generalizing v with
  | nil =>
    have hsingle : reprs [v] = [v.repr] := rfl
    rw [hsingle, String.intercalate_singleton, tailChars]
  | cons w rest ih =>
    have hsplit : (String.intercalate ", " (reprs (v :: w :: rest))).toList =
        v.repr.toList ++ (',' :: ' ' :: (String.intercalate ", " (reprs (w :: rest))).toList) := by
      simp only [reprs_cons, String.toList_intercalate, List.map_cons, List.intercalate_cons_cons,
        toList_comma, List.append_assoc, List.cons_append, List.nil_append]
    rw [hsplit, tailChars, ← ih, List.append_assoc, List.cons_append, List.cons_append]

theorem length_reprs (items : List Value) : (reprs items).length = items.length := by
  induction items with
  | nil => rfl
  | cons v rest ih => rw [reprs_cons, List.length_cons, List.length_cons, ih]

theorem toList_repr_tuple (items : List Value) :
    (tuple items).repr.toList = '(' :: itemsChars items := by
  have hopen : "(".toList = ['('] := rfl
  have hcomma : ",".toList = [','] := rfl
  rw [repr_tuple, tupleText, length_reprs]
  simp only [String.toList_append, hopen, toList_close, List.append_assoc, List.cons_append,
    List.nil_append, List.cons.injEq, true_and]
  match items with
  | [] => rfl
  | [v] =>
    have hsingle : reprs [v] = [v.repr] := rfl
    rw [if_pos List.length_singleton, hcomma, hsingle, String.intercalate_singleton, itemsChars,
      restChars]
    rfl
  | v :: w :: rest =>
    have hlength : (v :: w :: rest).length ≠ 1 := by simp
    rw [if_neg hlength, String.toList_empty, List.nil_append, toList_intercalate_reprs, itemsChars]
    rfl

/-! ## Where a form begins and ends -/

/-- The kind of the value with a form that begins with this character. -/
def kindOf? (c : Char) : Option Kind :=
  if c.isDigit ∨ c = '-' then some .int
  else
    match c with
    | 'N' => some .none
    | '<' => some .null
    | 'T' | 'F' => some .bool
    | '\x27' => some .str
    | '(' => some .tuple
    | 'r' => some .range
    | _ => Option.none

/-- What follows an item of a tuple. -/
def Stops (rest : List Char) : Prop :=
  ∀ c ∈ rest.head?, c = ',' ∨ c = ')'

theorem not_isNumeral_of_stops {rest : List Char} (h : Stops rest) :
    ∀ c ∈ rest.head?, ¬ Text.IsNumeral c := by
  intro c hc
  rcases h c hc with rfl | rfl <;> simp [Text.IsNumeral]

theorem stops_comma (rest : List Char) : Stops (',' :: rest) :=
  fun _ hc => .inl (Option.some.inj hc).symm

theorem stops_close (rest : List Char) : Stops (')' :: rest) :=
  fun _ hc => .inr (Option.some.inj hc).symm

theorem stops_stepChars (step : Int64) (s : List Char) : Stops (stepChars step ++ s) := by
  rw [stepChars]
  split
  · exact stops_close s
  · exact stops_comma _

theorem stops_tailChars (items : List Value) (s : List Char) : Stops (tailChars items ++ s) := by
  cases items with
  | nil => exact stops_close s
  | cons v rest => exact stops_comma _

theorem stops_restChars (items : List Value) (s : List Char) : Stops (restChars items ++ s) := by
  cases items with
  | nil => exact stops_comma _
  | cons v rest => exact stops_tailChars (v :: rest) s

/-- The first character of a form tells the kind. -/
theorem toList_repr_exists_cons {v : Value} (h : v.isData) :
    ∃ c rest, v.repr.toList = c :: rest ∧ kindOf? c = some v.kind := by
  cases v with
  | none => exact ⟨_, _, rfl, by decide⟩
  | null => exact ⟨_, _, rfl, by decide⟩
  | bool b => cases b <;> exact ⟨_, _, rfl, by decide⟩
  | int n =>
    obtain ⟨c, rest, hrepr⟩ : ∃ c rest, (intText n).toList = c :: rest := by
      rw [intText]
      cases n.toInt with
      | ofNat k =>
        obtain ⟨c, rest, hdigits, -⟩ := Text.toDigits_exists_cons k
        exact ⟨c, rest, by rw [Text.toList_toString_ofNat, hdigits]⟩
      | negSucc k => exact ⟨'-', _, Text.toList_toString_negSucc k⟩
    have hnumeral : Text.IsNumeral c := isNumeral_of_mem_intText (hrepr ▸ List.mem_cons_self)
    exact ⟨c, rest, hrepr, if_pos hnumeral⟩
  | str text => exact ⟨'\x27', _, toList_repr_str text, rfl⟩
  | range r => exact ⟨'r', _, toList_repr_range r, rfl⟩
  | tuple items => exact ⟨'(', _, toList_repr_tuple items, rfl⟩
  | float _ | builtin _ | code _ | function _ | iterator _ => cases h

theorem kind_eq_of_repr_append {u v : Value} (hu : u.isData) (hv : v.isData) {s t : List Char}
    (h : u.repr.toList ++ s = v.repr.toList ++ t) : u.kind = v.kind := by
  obtain ⟨c, rest, hc, hkind⟩ := toList_repr_exists_cons hu
  obtain ⟨d, rest', hd, hkind'⟩ := toList_repr_exists_cons hv
  rw [hc, hd, List.cons_append, List.cons_append, List.cons.injEq] at h
  rw [h.1, hkind'] at hkind
  exact (Option.some.inj hkind).symm

/-- No form begins with the parenthesis that closes a tuple. -/
theorem repr_append_ne_close {v : Value} (hv : v.isData) (s t : List Char) :
    v.repr.toList ++ s ≠ ')' :: t := by
  obtain ⟨c, rest, hc, hkind⟩ := toList_repr_exists_cons hv
  intro h
  rw [hc, List.cons_append, List.cons.injEq] at h
  rw [h.1] at hkind
  cases hkind

/-! ## Taking a form apart -/

theorem eq_of_stepChars_append {a b : Int64} {s t : List Char}
    (h : stepChars a ++ s = stepChars b ++ t) : a = b ∧ s = t := by
  rw [stepChars, stepChars] at h
  split at h <;> split at h
  case isTrue.isTrue ha hb => exact ⟨ha.trans hb.symm, (List.cons.inj h).2⟩
  case isTrue.isFalse => simp at h
  case isFalse.isTrue => simp at h
  case isFalse.isFalse =>
    simp only [List.cons_append, List.append_assoc, List.nil_append, List.cons.injEq,
      true_and] at h
    obtain ⟨hstep, hrest⟩ := eq_of_intText_append (not_isNumeral_of_stops (stops_close s))
      (not_isNumeral_of_stops (stops_close t)) h
    exact ⟨hstep, (List.cons.inj hrest).2⟩

theorem eq_of_repr_range_append {a b : Range} {s t : List Char}
    (h : (range a).repr.toList ++ s = (range b).repr.toList ++ t) : a = b ∧ s = t := by
  simp only [toList_repr_range, List.append_assoc, List.append_cancel_left_eq,
    List.cons_append] at h
  obtain ⟨hstart, hrest⟩ := eq_of_intText_append (not_isNumeral_of_stops (stops_comma _))
    (not_isNumeral_of_stops (stops_comma _)) h
  simp only [List.cons.injEq, true_and] at hrest
  obtain ⟨hstop, hrest⟩ := eq_of_intText_append
    (not_isNumeral_of_stops (stops_stepChars a.step s))
    (not_isNumeral_of_stops (stops_stepChars b.step t)) hrest
  obtain ⟨hstep, hst⟩ := eq_of_stepChars_append hrest
  cases a
  cases b
  cases hstart
  cases hstop
  cases hstep
  exact ⟨rfl, hst⟩

theorem eq_of_repr_bool_append {a b : Bool} {s t : List Char}
    (h : (bool a).repr.toList ++ s = (bool b).repr.toList ++ t) : a = b ∧ s = t := by
  have htrue : (bool true).repr.toList = ['T', 'r', 'u', 'e'] := rfl
  have hfalse : (bool false).repr.toList = ['F', 'a', 'l', 's', 'e'] := rfl
  cases a <;> cases b <;> simp_all

theorem eq_of_repr_str_append {a b : String} {s t : List Char}
    (h : (str a).repr.toList ++ s = (str b).repr.toList ++ t) : a = b ∧ s = t := by
  simp only [toList_repr_str, List.append_assoc, List.cons_append, List.nil_append,
    List.cons.injEq, true_and] at h
  obtain ⟨htext, hst⟩ := Text.Quoted.eq_of_encode_append h
  exact ⟨String.toList_inj.1 htext, hst⟩

/-- The comma after a single item is not one between items. -/
theorem tailChars_append_of_restChars_append {us vs : List Value} {s t : List Char}
    (h : restChars us ++ s = restChars vs ++ t) : tailChars us ++ s = tailChars vs ++ t := by
  cases us with
  | nil =>
    cases vs with
    | nil => exact (List.cons.inj h).2
    | cons v vs => simp [restChars, tailChars] at h
  | cons u us =>
    cases vs with
    | nil => simp [restChars, tailChars] at h
    | cons v vs => exact h

mutual

/-- The form of a value before what can follow an item determines the value and where it ends. -/
theorem eq_of_repr_append : ∀ {u v : Value}, u.isData → v.isData → ∀ {s t : List Char},
    Stops s → Stops t → u.repr.toList ++ s = v.repr.toList ++ t → u = v ∧ s = t
  | .none, v, hu, hv, s, t, _, _, h => by
    cases v with
    | none => exact ⟨rfl, List.append_cancel_left h⟩
    | _ => cases kind_eq_of_repr_append hu hv h
  | .null, v, hu, hv, s, t, _, _, h => by
    cases v with
    | null => exact ⟨rfl, List.append_cancel_left h⟩
    | _ => cases kind_eq_of_repr_append hu hv h
  | .bool a, v, hu, hv, s, t, _, _, h => by
    cases v with
    | bool b =>
      obtain ⟨rfl, hst⟩ := eq_of_repr_bool_append h
      exact ⟨rfl, hst⟩
    | _ => cases kind_eq_of_repr_append hu hv h
  | .int a, v, hu, hv, s, t, hs, ht, h => by
    cases v with
    | int b =>
      obtain ⟨rfl, hst⟩ := eq_of_intText_append (not_isNumeral_of_stops hs)
        (not_isNumeral_of_stops ht) h
      exact ⟨rfl, hst⟩
    | _ => cases kind_eq_of_repr_append hu hv h
  | .str a, v, hu, hv, s, t, _, _, h => by
    cases v with
    | str b =>
      obtain ⟨rfl, hst⟩ := eq_of_repr_str_append h
      exact ⟨rfl, hst⟩
    | _ => cases kind_eq_of_repr_append hu hv h
  | .range a, v, hu, hv, s, t, _, _, h => by
    cases v with
    | range b =>
      obtain ⟨rfl, hst⟩ := eq_of_repr_range_append h
      exact ⟨rfl, hst⟩
    | _ => cases kind_eq_of_repr_append hu hv h
  | .tuple us, v, hu, hv, s, t, _, _, h => by
    cases v with
    | tuple vs =>
      rw [toList_repr_tuple, toList_repr_tuple, List.cons_append, List.cons_append,
        List.cons.injEq] at h
      obtain ⟨rfl, hst⟩ := eq_of_itemsChars_append hu hv h.2
      exact ⟨rfl, hst⟩
    | _ => cases kind_eq_of_repr_append hu hv h
termination_by structural u => u

theorem eq_of_itemsChars_append : ∀ {us vs : List Value}, allData us → allData vs →
    ∀ {s t : List Char}, itemsChars us ++ s = itemsChars vs ++ t → us = vs ∧ s = t
  | [], [], _, _, s, t, h => ⟨rfl, (List.cons.inj h).2⟩
  | [], v :: vs, _, hv, s, t, h => by
    rw [allData, Bool.and_eq_true] at hv
    rw [itemsChars, itemsChars, List.append_assoc] at h
    exact absurd h.symm (repr_append_ne_close hv.1 _ _)
  | u :: us, [], hu, _, s, t, h => by
    rw [allData, Bool.and_eq_true] at hu
    rw [itemsChars, itemsChars, List.append_assoc] at h
    exact absurd h (repr_append_ne_close hu.1 _ _)
  | u :: us, v :: vs, hu, hv, s, t, h => by
    rw [allData, Bool.and_eq_true] at hu hv
    rw [itemsChars, itemsChars, List.append_assoc, List.append_assoc] at h
    -- what follows the first item is a comma or a parenthesis, whatever follows the tuple
    obtain ⟨rfl, hrest⟩ := eq_of_repr_append hu.1 hv.1 (stops_restChars us s)
      (stops_restChars vs t) h
    obtain ⟨rfl, hst⟩ :=
      eq_of_tailChars_append hu.2 hv.2 (tailChars_append_of_restChars_append hrest)
    exact ⟨rfl, hst⟩
termination_by structural us => us

theorem eq_of_tailChars_append : ∀ {us vs : List Value}, allData us → allData vs →
    ∀ {s t : List Char}, tailChars us ++ s = tailChars vs ++ t → us = vs ∧ s = t
  | [], [], _, _, s, t, h => ⟨rfl, (List.cons.inj h).2⟩
  | [], v :: vs, _, _, s, t, h => by simp [tailChars] at h
  | u :: us, [], _, _, s, t, h => by simp [tailChars] at h
  | u :: us, v :: vs, hu, hv, s, t, h => by
    rw [allData, Bool.and_eq_true] at hu hv
    simp only [tailChars, List.cons_append, List.append_assoc, List.cons.injEq, true_and] at h
    obtain ⟨rfl, hrest⟩ := eq_of_repr_append hu.1 hv.1 (stops_tailChars us s)
      (stops_tailChars vs t) h
    obtain ⟨rfl, hst⟩ := eq_of_tailChars_append hu.2 hv.2 hrest
    exact ⟨rfl, hst⟩
termination_by structural us => us

end

/-- Two data are shown by the same text only if they are the same. -/
theorem repr_unambiguous {u v : Value} (hu : u.isData) (hv : v.isData) :
    u.repr = v.repr ↔ u = v := by
  constructor
  · intro h
    have hends : Stops [] := nofun
    exact (eq_of_repr_append hu hv hends hends (congrArg (·.toList ++ []) h)).1
  · exact congrArg repr

/-- A quote inside of an item is not the end of it. -/
theorem repr_unambiguous_quotes :
    (tuple [str "a', 'b"]).isData ∧ (tuple [str "a", str "b"]).isData ∧
      (tuple [str "a', 'b"]).repr ≠ (tuple [str "a", str "b"]).repr :=
  ⟨rfl, rfl, fun h => by simpa using (repr_unambiguous rfl rfl).1 h⟩

end Value

end Bytecode
