import Bytecode.Builtin
import Bytecode.Proofs.Rendering
import Mathlib.Data.List.Induction
import Mathlib.Data.List.TakeWhile
import Mathlib.Data.Nat.Digits.Defs

set_option autoImplicit false

/-!
# Texts that denote integers

A text denotes an integer if, without the blanks at its ends, it is an optional sign and one or more
digits.  There is no bound to the number of digits, and zeros may stand in front.  The builtin `int`
reads exactly these texts, as far as they denote 64-bit integers, and `str` writes such texts.

Main statements: `Text.trims_iff`, `Text.readSigned?_eq_some_iff` and `Builtin.int_reads_back`.
-/

namespace Bytecode

namespace Text

/-! ## Blanks at the ends -/

/-- The second text is the first without the blanks at its ends. -/
structure Trims (text core : List Char) : Prop where
  exists_blanks : ∃ before after, (∀ c ∈ before, isBlank c) ∧ (∀ c ∈ after, isBlank c) ∧
    text = before ++ core ++ after
  head? : ∀ c ∈ core.head?, ¬ isBlank c
  getLast? : ∀ c ∈ core.getLast?, ¬ isBlank c

theorem dropWhile_isBlank_of_head? {text : List Char} (h : ∀ c ∈ text.head?, ¬ isBlank c) :
    text.dropWhile isBlank = text := by
  cases text with
  | nil => rfl
  | cons c rest => exact List.dropWhile_cons_of_neg (h c rfl)

theorem trim_eq_of_trims {text core : List Char} (h : Trims text core) : trim text = core := by
  obtain ⟨⟨before, after, hbefore, hafter, rfl⟩, hhead, hlast⟩ := h
  rw [trim, List.append_assoc, List.dropWhile_append_of_pos hbefore]
  cases core with
  | nil =>
    -- the blanks behind are dropped in front already
    rw [List.nil_append, List.dropWhile_eq_nil_iff.2 hafter]
    rfl
  | cons c rest =>
    have hfront : (c :: rest ++ after).dropWhile isBlank = c :: rest ++ after :=
      dropWhile_isBlank_of_head? hhead
    have hbehind : ∀ d ∈ after.reverse, isBlank d := by
      intro d hd
      exact hafter d (List.mem_reverse.1 hd)
    have hreverse : ∀ d ∈ (c :: rest).reverse.head?, ¬ isBlank d := by
      rwa [List.head?_reverse]
    rw [hfront, List.reverse_append, List.dropWhile_append_of_pos hbehind,
      dropWhile_isBlank_of_head? hreverse, List.reverse_reverse]

theorem head?_dropWhile_isBlank (text : List Char) :
    ∀ c ∈ (text.dropWhile isBlank).head?, ¬ isBlank c := by
  intro c hc hblank
  have hnot := List.head?_dropWhile_not isBlank text
  rw [hc] at hnot
  rw [hnot] at hblank
  cases hblank

theorem trims_trim (text : List Char) : Trims text (trim text) := by
  -- what is dropped behind is what is taken in front of the reversed text
  have hmiddle : text.dropWhile isBlank =
      trim text ++ ((text.dropWhile isBlank).reverse.takeWhile isBlank).reverse := by
    rw [trim, ← List.reverse_append, List.takeWhile_append_dropWhile, List.reverse_reverse]
  refine ⟨⟨text.takeWhile isBlank, ((text.dropWhile isBlank).reverse.takeWhile isBlank).reverse,
    ?before, ?after, ?split⟩, ?head, ?last⟩
  case before =>
    intro c hc
    exact List.mem_takeWhile_imp hc
  case after =>
    intro c hc
    exact List.mem_takeWhile_imp (List.mem_reverse.1 hc)
  case split =>
    rw [List.append_assoc, ← hmiddle, List.takeWhile_append_dropWhile]
  case head =>
    intro c hc
    apply head?_dropWhile_isBlank text c
    rw [hmiddle, List.head?_append, hc]
    rfl
  case last =>
    rw [trim, List.getLast?_reverse]
    exact head?_dropWhile_isBlank _

theorem trims_iff {text core : List Char} : Trims text core ↔ trim text = core := by
  refine ⟨trim_eq_of_trims, ?_⟩
  rintro rfl
  exact trims_trim text

/-! ## Digits and signs -/

/-- One or more of the ten digits, and the number that they stand for in the decimal system. -/
structure WritesNat (digits : List Char) (n : Nat) : Prop where
  ne_nil : digits ≠ []
  isDigit : ∀ c ∈ digits, '0' ≤ c ∧ c ≤ '9'
  value : n = Nat.ofDigits 10 (digits.reverse.map fun c => c.toNat - '0'.toNat)

/-- Digits, with or without a sign in front, and the integer that they stand for. -/
inductive WritesInt : List Char → Int → Prop where
  | unsigned {digits : List Char} {n : Nat} (h : WritesNat digits n) : WritesInt digits n
  | plus {digits : List Char} {n : Nat} (h : WritesNat digits n) : WritesInt ('+' :: digits) n
  | minus {digits : List Char} {n : Nat} (h : WritesNat digits n) : WritesInt ('-' :: digits) (-n)

theorem isDigit_iff {c : Char} : c.isDigit ↔ '0' ≤ c ∧ c ≤ '9' := by
  simp [Char.isDigit, Char.le_def]

/-- The digits are read from the front; each counts ten times as much as the next. -/
theorem ofDigitChars_eq_ofDigits (digits : List Char) :
    Nat.ofDigitChars 10 digits 0 =
      Nat.ofDigits 10 (digits.reverse.map fun c => c.toNat - '0'.toNat) := by
  induction digits using List.reverseRecOn with
  | nil => rfl
  | append_singleton front c ih =>
    rw [Nat.ofDigitChars_append, ih, Nat.ofDigitChars_cons, Nat.ofDigitChars_nil,
      List.reverse_concat, List.map_cons, Nat.ofDigits_cons, Nat.add_comm]

theorem readDigits?_eq_some_iff {text : List Char} {n : Nat} :
    readDigits? text = some n ↔ WritesNat text n := by
  have hdigits : text.all Char.isDigit ↔ ∀ c ∈ text, '0' ≤ c ∧ c ≤ '9' := by
    simp only [List.all_eq_true, isDigit_iff]
  unfold readDigits?
  split
  · next h =>
    rw [Option.some.injEq, ofDigitChars_eq_ofDigits]
    constructor
    · rintro rfl
      exact ⟨h.1, hdigits.1 h.2, rfl⟩
    · intro writes
      exact writes.value.symm
  · next h =>
    constructor
    · nofun
    · intro writes
      exact absurd ⟨writes.ne_nil, hdigits.2 writes.isDigit⟩ h

theorem readSigned?_minus (rest : List Char) :
    readSigned? ('-' :: rest) = (readDigits? rest).map fun n : Nat => -(n : Int) := by
  rw [readSigned?]
  cases readDigits? rest <;> rfl

theorem readSigned?_plus (rest : List Char) :
    readSigned? ('+' :: rest) = (readDigits? rest).map Int.ofNat :=
  rfl

/-- Without a sign in front, there have to be digits only. -/
theorem readSigned?_of_ne {text : List Char} (hminus : ∀ rest, text ≠ '-' :: rest)
    (hplus : ∀ rest, text ≠ '+' :: rest) :
    readSigned? text = (readDigits? text).map Int.ofNat := by
  rw [readSigned?, readUnsigned?]
  · exact hplus
  · exact hminus

theorem WritesNat.ne_cons {text : List Char} {n : Nat} (h : WritesNat text n) {c : Char}
    (hc : ¬ c.isDigit) (rest : List Char) : text ≠ c :: rest := by
  rintro rfl
  exact hc (isDigit_iff.2 (h.isDigit c List.mem_cons_self))

/-- What is read is what is written, and all of it. -/
theorem readSigned?_eq_some_iff {text : List Char} {n : Int} :
    readSigned? text = some n ↔ WritesInt text n := by
  constructor
  · intro h
    by_cases hminus : ∃ rest, text = '-' :: rest
    · obtain ⟨rest, rfl⟩ := hminus
      rw [readSigned?_minus] at h
      obtain ⟨m, hm, rfl⟩ := Option.map_eq_some_iff.1 h
      exact .minus (readDigits?_eq_some_iff.1 hm)
    by_cases hplus : ∃ rest, text = '+' :: rest
    · obtain ⟨rest, rfl⟩ := hplus
      rw [readSigned?_plus] at h
      obtain ⟨m, hm, rfl⟩ := Option.map_eq_some_iff.1 h
      exact .plus (readDigits?_eq_some_iff.1 hm)
    rw [readSigned?_of_ne (not_exists.1 hminus) (not_exists.1 hplus)] at h
    obtain ⟨m, hm, rfl⟩ := Option.map_eq_some_iff.1 h
    exact .unsigned (readDigits?_eq_some_iff.1 hm)
  · intro h
    cases h with
    | unsigned writes =>
      rw [readSigned?_of_ne (writes.ne_cons (by decide)) (writes.ne_cons (by decide)),
        readDigits?_eq_some_iff.2 writes]
      rfl
    | plus writes =>
      rw [readSigned?_plus, readDigits?_eq_some_iff.2 writes]
      rfl
    | minus writes =>
      rw [readSigned?_minus, readDigits?_eq_some_iff.2 writes]
      rfl

/-! ## Texts of integers -/

/-- Without the blanks at its ends, the text is an integer in digits. -/
def Denotes (text : String) (n : Int) : Prop :=
  ∃ core, Trims text.toList core ∧ WritesInt core n

theorem denotes_iff {text : String} {n : Int} :
    Denotes text n ↔ readSigned? (trim text.toList) = some n := by
  constructor
  · rintro ⟨core, trims, writes⟩
    rw [trims_iff.1 trims]
    exact readSigned?_eq_some_iff.2 writes
  · intro h
    exact ⟨trim text.toList, trims_trim _, readSigned?_eq_some_iff.1 h⟩

theorem not_isBlank_of_isNumeral {c : Char} (h : IsNumeral c) : ¬ isBlank c := by
  rcases h with hdigit | rfl
  · rw [isDigit_iff] at hdigit
    have hlow : 48 ≤ c.toNat := hdigit.1
    have hhigh : c.toNat ≤ 57 := hdigit.2
    simp only [isBlank, blankRuns, List.any_cons, List.any_nil, Bool.or_eq_true, Bool.and_eq_true,
      decide_eq_true_eq, Bool.false_eq_true, or_false]
    omega
  · decide

end Text

open Text

theorem Value.denotes_intText (n : Int64) {before after : String}
    (hbefore : ∀ c ∈ before.toList, isBlank c) (hafter : ∀ c ∈ after.toList, isBlank c) :
    Denotes (before ++ intText n ++ after) n.toInt := by
  have numeral : ∀ c ∈ (intText n).toList, ¬ isBlank c := by
    intro c hc
    exact not_isBlank_of_isNumeral (isNumeral_of_mem_intText hc)
  refine ⟨(intText n).toList, ⟨⟨before.toList, after.toList, hbefore, hafter, ?_⟩, ?_, ?_⟩, ?_⟩
  · rw [String.toList_append, String.toList_append]
  · intro c hc
    exact numeral c (List.mem_of_mem_head? hc)
  · intro c hc
    exact numeral c (List.mem_of_mem_getLast? hc)
  · exact readSigned?_eq_some_iff.1 (readSigned?_toString n.toInt)

namespace Builtin

theorem parseInt?_eq_some_iff {text : String} {n : Int64} :
    parseInt? text = some n ↔ Denotes text n.toInt := by
  rw [parseInt?, Option.bind_eq_some_iff, denotes_iff]
  constructor
  · rintro ⟨m, hread, hm⟩
    rw [toInt64?_eq_some_iff.1 hm]
    exact hread
  · intro hread
    exact ⟨n.toInt, hread, toInt64?_toInt n⟩

/-- No integer is read, because the text denotes none, or one that is out of bounds. -/
theorem parseInt?_eq_none_iff {text : String} :
    parseInt? text = none ↔ ∀ n, Denotes text n →
      n < Int64.minValue.toInt ∨ Int64.maxValue.toInt < n := by
  rw [parseInt?, Option.bind_eq_none_iff]
  refine forall_congr' fun n => ?_
  rw [denotes_iff, toInt64?]
  refine imp_congr_right fun _ => ?_
  split
  · next fits => exact ⟨nofun, fun exceeds => by omega⟩
  · next exceeds => exact ⟨fun _ => by omega, fun _ => rfl⟩

/-! ## What `int` makes of a text -/

theorem int_call_str (text : String) (sink : Sink) :
    int.call [.str text] sink =
      match parseInt? text with
      | some n => .ok (.int n) sink
      | none => .error (.notAnInteger (quote text)) sink := by
  have hresult : int.result [.str text] =
      match parseInt? text with
      | some n => .ok (.int n)
      | none => .error (.notAnInteger (quote text)) := rfl
  rw [call_of_written_eq_nil rfl, hresult]
  cases parseInt? text <;> rfl

theorem int_call_str_eq_ok_iff {text : String} {sink sink' : Sink} {v : Value} :
    int.call [.str text] sink = .ok v sink' ↔
      sink' = sink ∧ ∃ n : Int64, v = .int n ∧ parseInt? text = some n := by
  rw [int_call_str]
  constructor
  · intro h
    split at h
    · next n hparse =>
      cases h
      exact ⟨rfl, n, rfl, hparse⟩
    · cases h
  · rintro ⟨rfl, n, rfl, hparse⟩
    rw [hparse]

theorem int_call_str_eq_error_iff {text : String} {sink sink' : Sink} {fault : Fault} :
    int.call [.str text] sink = .error fault sink' ↔
      sink' = sink ∧ fault = .notAnInteger (quote text) ∧ parseInt? text = none := by
  rw [int_call_str]
  constructor
  · intro h
    split at h
    · cases h
    · next hparse =>
      cases h
      exact ⟨rfl, rfl, hparse⟩
  · rintro ⟨rfl, rfl, hparse⟩
    rw [hparse]

/-- What `str` writes for an integer is read back by `int`, whatever blanks stand around it.  From
other texts `int` reads the number that they denote, if it is a 64-bit integer, and fails if they
denote none or one that is not. -/
theorem int_reads_back :
    (∀ (n : Int64) (before after : String) (sink : Sink),
      (∀ c ∈ before.toList, isBlank c) → (∀ c ∈ after.toList, isBlank c) →
      ∃ text, str.call [.int n] sink = .ok (.str text) sink ∧
        int.call [.str (before ++ text ++ after)] sink = .ok (.int n) sink) ∧
    (∀ (text : String) (sink sink' : Sink) (v : Value),
      int.call [.str text] sink = .ok v sink' ↔
        sink' = sink ∧ ∃ n : Int64, v = .int n ∧ Denotes text n.toInt) ∧
    (∀ (text : String) (sink sink' : Sink) (fault : Fault),
      int.call [.str text] sink = .error fault sink' ↔
        sink' = sink ∧ fault = .notAnInteger (quote text) ∧ fault.category = .typeError ∧
          ∀ m, Denotes text m → m < Int64.minValue.toInt ∨ Int64.maxValue.toInt < m) := by
  refine ⟨?back, ?reads, ?fails⟩
  case back =>
    intro n before after sink hbefore hafter
    have hparse := parseInt?_eq_some_iff.2 (Value.denotes_intText n hbefore hafter)
    exact ⟨Value.intText n, call_of_written_eq_nil rfl sink,
      int_call_str_eq_ok_iff.2 ⟨rfl, n, rfl, hparse⟩⟩
  case reads =>
    intro text sink sink' v
    simp only [int_call_str_eq_ok_iff, parseInt?_eq_some_iff]
  case fails =>
    intro text sink sink' fault
    rw [int_call_str_eq_error_iff, parseInt?_eq_none_iff]
    constructor
    · rintro ⟨hsink, rfl, exceeds⟩
      exact ⟨hsink, rfl, rfl, exceeds⟩
    · rintro ⟨hsink, hfault, -, exceeds⟩
      exact ⟨hsink, hfault, exceeds⟩

/-- The least integer is read back, and the opposite number is too large. -/
theorem int_reads_back_least :
    (∃ text, str.call [.int Int64.minValue] .unlimited = .ok (.str text) .unlimited ∧
      int.call [.str ("\u3000" ++ text ++ "\n")] .unlimited =
        .ok (.int Int64.minValue) .unlimited) ∧
    int.call [.str "9223372036854775808"] .unlimited =
      .error (.notAnInteger "'9223372036854775808'") .unlimited := by
  obtain ⟨back, -, fails⟩ := int_reads_back
  have hspace : ∀ c ∈ "\u3000".toList, isBlank c := by
    rw [← List.all_eq_true]
    decide +kernel
  have hline : ∀ c ∈ "\n".toList, isBlank c := by
    rw [← List.all_eq_true]
    decide +kernel
  refine ⟨back _ _ _ _ hspace hline, (fails _ _ _ _).2 ⟨rfl, ?_, rfl, ?_⟩⟩
  · exact congrArg Fault.notAnInteger (by decide +kernel)
  · intro m denotes
    have hread : readSigned? (trim "9223372036854775808".toList) = some 9223372036854775808 := by
      decide +kernel
    rw [denotes_iff, hread] at denotes
    cases denotes
    exact .inr (by decide)

end Builtin

end Bytecode
