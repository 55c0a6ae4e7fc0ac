import Bytecode.Json.Reader
import Mathlib.Data.List.TakeWhile

set_option autoImplicit false

/-!
# Texts of documents

One document has many texts: there may be white space between the tokens, and a character of a
string may stand for itself or be escaped in several ways.  `Json.WrittenAs` holds of a document and
all of its texts, as far as its numbers are integers, which have no fraction, no exponent and no
leading zeros.  Every one of these texts is read as the document.

Main statement: `Json.read?_of_writtenAs`.
-/

namespace Bytecode

/-- The integer as a number. -/
def Numeral.ofInt (n : Int) : Numeral :=
  ⟨decide (n < 0), n.natAbs, 0, true⟩

namespace Json

/-! ## Texts of strings -/

/-- A hexadecimal digit, in either case. -/
def IsHexDigit (d : Char) (n : Nat) : Prop :=
  n < 16 ∧ (d = Nat.digitChar n ∨ d = (Nat.digitChar n).toUpper)

/-- A number is written with four hexadecimal digits. -/
inductive WritesUnit : Nat → List Char → Prop where
  | mk {a b c d : Char} {n₃ n₂ n₁ n₀ : Nat} (ha : IsHexDigit a n₃) (hb : IsHexDigit b n₂)
      (hc : IsHexDigit c n₁) (hd : IsHexDigit d n₀) :
      WritesUnit (4096 * n₃ + 256 * n₂ + 16 * n₁ + n₀) [a, b, c, d]

/-- The letters that stand for a character behind a backslash. -/
def shortEscapes : List (Char × Char) :=
  [('\x22', '\x22'), ('\x5c', '\x5c'), ('/', '/'), ('b', '\x08'), ('f', '\x0c'), ('n', '\n'),
    ('r', '\r'), ('t', '\t')]

/-- The ways to write a character of a string. -/
inductive WritesChar (c : Char) : List Char → Prop where
  | plain (printable : 0x20 ≤ c.toNat) (not_quote : c ≠ '\x22') (not_backslash : c ≠ '\x5c') :
      WritesChar c [c]
  | short {letter : Char} (h : (letter, c) ∈ shortEscapes) : WritesChar c ['\x5c', letter]
  | unit {digits : List Char} (h : WritesUnit c.toNat digits) :
      WritesChar c ('\x5c' :: 'u' :: digits)
  /-- Two halves, for a character that does not fit into sixteen bits. -/
  | pair {digits digits' : List Char} (beyond : 0x10000 ≤ c.toNat)
      (high : WritesUnit (0xd800 + (c.toNat - 0x10000) / 0x400) digits)
      (low : WritesUnit (0xdc00 + (c.toNat - 0x10000) % 0x400) digits') :
      WritesChar c ('\x5c' :: 'u' :: digits ++ '\x5c' :: 'u' :: digits')

/-- A text is written character by character. -/
inductive WritesText : List Char → List Char → Prop where
  | nil : WritesText [] []
  | cons {c : Char} {text w ws : List Char} (head : WritesChar c w) (tail : WritesText text ws) :
      WritesText (c :: text) (w ++ ws)

/-! ## Texts of documents -/

/-- The digits of an integer, with a minus sign if it is negative. -/
def integerText (n : Int) : List Char :=
  if n < 0 then '-' :: Nat.toDigits 10 n.natAbs else Nat.toDigits 10 n.natAbs

def boolText : Bool → List Char
  | true => ['t', 'r', 'u', 'e']
  | false => ['f', 'a', 'l', 's', 'e']

/-- White space. -/
def Blank (text : List Char) : Prop :=
  ∀ c ∈ text, isSpace c = true

mutual

/-- The text is one of those of the document, without white space around it. -/
inductive WrittenBare : Json → List Char → Prop where
  | null : WrittenBare null ['n', 'u', 'l', 'l']
  | bool (b : Bool) : WrittenBare (bool b) (boolText b)
  | int (n : Int) : WrittenBare (num (.ofInt n)) (integerText n)
  | str {text w : List Char} (h : WritesText text w) :
      WrittenBare (str (some (String.ofList text))) ('\x22' :: w ++ ['\x22'])
  | emptyArr {blank : List Char} (h : Blank blank) : WrittenBare (arr []) ('[' :: blank ++ [']'])
  | arr {items : List Json} {w : List Char} (h : WritesItems items w) :
      WrittenBare (arr items) ('[' :: w ++ [']'])
  | emptyObj {blank : List Char} (h : Blank blank) :
      WrittenBare (obj []) ('\x7b' :: blank ++ ['\x7d'])
  | obj {members : List Member} {w : List Char} (h : WritesMembers members w) :
      WrittenBare (obj members) ('\x7b' :: w ++ ['\x7d'])

/-- The text is one of those of the document, with white space around it. -/
inductive WrittenAs : Json → List Char → Prop where
  | mk {j : Json} {before w after : List Char} (hbefore : Blank before) (h : WrittenBare j w)
      (hafter : Blank after) : WrittenAs j (before ++ w ++ after)

/-- Items with commas between them. -/
inductive WritesItems : List Json → List Char → Prop where
  | last {j : Json} {w : List Char} (h : WrittenAs j w) : WritesItems [j] w
  | more {j : Json} {items : List Json} {w ws : List Char} (h : WrittenAs j w)
      (rest : WritesItems items ws) : WritesItems (j :: items) (w ++ ',' :: ws)

/-- A key and its value with a colon between them. -/
inductive WritesMember : Member → List Char → Prop where
  | mk {key : List Char} {j : Json} {before k between w : List Char} (hbefore : Blank before)
      (hkey : WritesText key k) (hbetween : Blank between) (h : WrittenAs j w) :
      WritesMember ⟨some (String.ofList key), j⟩
        (before ++ '\x22' :: k ++ '\x22' :: between ++ ':' :: w)

/-- Members with commas between them. -/
inductive WritesMembers : List Member → List Char → Prop where
  | last {m : Member} {w : List Char} (h : WritesMember m w) : WritesMembers [m] w
  | more {m : Member} {members : List Member} {w ws : List Char} (h : WritesMember m w)
      (rest : WritesMembers members ws) : WritesMembers (m :: members) (w ++ ',' :: ws)

end

/-! ## Compact texts -/

/-- No character has to be escaped. -/
def Plain (text : List Char) : Prop :=
  ∀ c ∈ text, 0x20 ≤ c.toNat ∧ c ≠ '\x22' ∧ c ≠ '\x5c'

instance (text : List Char) : Decidable (Plain text) :=
  List.decidableBAll _ text

theorem Plain.writesText {text : List Char} (h : Plain text) : WritesText text text := by
  induction text with
  | nil => exact .nil
  | cons c rest ih =>
    obtain ⟨⟨printable, not_quote, not_backslash⟩, hrest⟩ := List.forall_mem_cons.1 h
    exact .cons (.plain printable not_quote not_backslash) (ih hrest)

theorem Plain.writtenBare {text : String} (h : Plain text.toList) :
    (str (some text)).WrittenBare ('\x22' :: text.toList ++ ['\x22']) := by
  have written := WrittenBare.str h.writesText
  rwa [String.ofList_toList] at written

theorem WrittenBare.writtenAs {j : Json} {w : List Char} (h : j.WrittenBare w) :
    j.WrittenAs w := by
  have written := @WrittenAs.mk j [] w [] nofun h nofun
  rwa [List.nil_append, List.append_nil] at written

theorem WrittenBare.writesMember {j : Json} {w : List Char} (h : j.WrittenBare w) {key : String}
    (plain : Plain key.toList) :
    WritesMember ⟨some key, j⟩ ('\x22' :: key.toList ++ '\x22' :: ':' :: w) := by
  have written := @WritesMember.mk _ j [] _ [] w nofun plain.writesText nofun h.writtenAs
  rw [String.ofList_toList] at written
  simpa using written

/-! ## Strings -/

theorem hexDigit?_of_isHexDigit {d : Char} {n : Nat} (h : IsHexDigit d n) :
    hexDigit? d = some n := by
  have digits : ∀ n < 16, hexDigit? (Nat.digitChar n) = some n ∧
      hexDigit? (Nat.digitChar n).toUpper = some n := by decide
  obtain ⟨hn, rfl | rfl⟩ := h
  · exact (digits n hn).1
  · exact (digits n hn).2

theorem readPieces_of_writesUnit {n : Nat} {digits rest rest' : List Char} {pieces : List Piece}
    (h : WritesUnit n digits) (read : readPieces rest = some (pieces, rest')) :
    readPieces ('\x5c' :: 'u' :: digits ++ rest) = some (.ofUnit n :: pieces, rest') := by
  obtain ⟨ha, hb, hc, hd⟩ := h
  simp [readPieces, hexUnit?, hexDigit?_of_isHexDigit ha, hexDigit?_of_isHexDigit hb,
    hexDigit?_of_isHexDigit hc, hexDigit?_of_isHexDigit hd, read]

theorem readPieces_of_short {letter c : Char} {rest rest' : List Char} {pieces : List Piece}
    (h : (letter, c) ∈ shortEscapes) (read : readPieces rest = some (pieces, rest')) :
    readPieces ('\x5c' :: letter :: rest) = some (.char c :: pieces, rest') := by
  have escapes : ∀ e ∈ shortEscapes, escaped? e.1 = some e.2 ∧ e.1 ≠ 'u' := by decide
  obtain ⟨hescaped, hne⟩ := escapes _ h
  rw [readPieces.eq_4 _ _ fun _ _ _ _ _ hu _ => hne hu]
  simp [hescaped, read]

theorem readPieces_of_plain {c : Char} {rest rest' : List Char} {pieces : List Piece}
    (printable : 0x20 ≤ c.toNat) (not_quote : c ≠ '\x22') (not_backslash : c ≠ '\x5c')
    (read : readPieces rest = some (pieces, rest')) :
    readPieces (c :: rest) = some (.char c :: pieces, rest') := by
  rw [readPieces.eq_5 _ _ not_quote (fun _ _ _ _ _ h _ => not_backslash h)
    fun _ _ h _ => not_backslash h, if_neg (Nat.not_lt.2 printable), read]
  rfl

/-- Characters are no halves of others. -/
theorem ofUnit_toNat (c : Char) : Piece.ofUnit c.toNat = .char c := by
  have valid : c.toNat < 0xd800 ∨ 0xdfff < c.toNat ∧ c.toNat < 0x110000 := c.valid
  have whole : (isHighHalf c.toNat || isLowHalf c.toNat) = false := by
    simp only [isHighHalf, isLowHalf, Bool.or_eq_false_iff, decide_eq_false_iff_not]
    omega
  rw [Piece.ofUnit, whole, Char.ofNat_toNat]
  rfl

/-- The halves of a character make it up. -/
theorem joinPieces_of_halves {c : Char} (beyond : 0x10000 ≤ c.toNat) (pieces : List Piece) :
    joinPieces (.ofUnit (0xd800 + (c.toNat - 0x10000) / 0x400) ::
        .ofUnit (0xdc00 + (c.toNat - 0x10000) % 0x400) :: pieces) =
      (joinPieces pieces).map (c :: ·) := by
  have valid : c.toNat < 0xd800 ∨ 0xdfff < c.toNat ∧ c.toNat < 0x110000 := c.valid
  have hhigh : isHighHalf (0xd800 + (c.toNat - 0x10000) / 0x400) = true := by
    simp only [isHighHalf, decide_eq_true_eq]
    omega
  have hlow : isLowHalf (0xdc00 + (c.toNat - 0x10000) % 0x400) = true := by
    simp only [isLowHalf, decide_eq_true_eq]
    omega
  have hcombined : combineHalves (0xd800 + (c.toNat - 0x10000) / 0x400)
      (0xdc00 + (c.toNat - 0x10000) % 0x400) = c := by
    have hsum : 0x10000 + (0xd800 + (c.toNat - 0x10000) / 0x400 - 0xd800) * 0x400 +
        (0xdc00 + (c.toNat - 0x10000) % 0x400 - 0xdc00) = c.toNat := by
      omega
    rw [combineHalves, hsum, Char.ofNat_toNat]
  simp only [Piece.ofUnit, hhigh, hlow, Bool.true_or, Bool.or_true, if_true, joinPieces,
    Bool.and_true, hcombined]

/-- A character in front of a string that is read. -/
theorem exists_pieces_of_writesChar {c : Char} {w rest rest' text : List Char}
    {pieces : List Piece} (h : WritesChar c w) (read : readPieces rest = some (pieces, rest'))
    (joined : joinPieces pieces = some text) :
    ∃ pieces, readPieces (w ++ rest) = some (pieces, rest') ∧
      joinPieces pieces = some (c :: text) := by
  have joined' : joinPieces (.char c :: pieces) = some (c :: text) := by
    rw [joinPieces, joined]
    rfl
  cases h with
  | plain printable not_quote not_backslash =>
    exact ⟨_, readPieces_of_plain printable not_quote not_backslash read, joined'⟩
  | short h => exact ⟨_, readPieces_of_short h read, joined'⟩
  | unit h =>
    rw [← ofUnit_toNat] at joined'
    exact ⟨_, readPieces_of_writesUnit h read, joined'⟩
  | pair beyond high low =>
    refine ⟨_, ?_, (joinPieces_of_halves beyond pieces).trans (by rw [joined]; rfl)⟩
    rw [List.append_assoc]
    exact readPieces_of_writesUnit high (readPieces_of_writesUnit low read)

theorem exists_pieces_of_writesText {text w : List Char} (h : WritesText text w)
    (rest : List Char) :
    ∃ pieces, readPieces (w ++ '\x22' :: rest) = some (pieces, rest) ∧
      joinPieces pieces = some text := by
  induction h with
  | nil => exact ⟨[], rfl, rfl⟩
  | cons head tail ih =>
    obtain ⟨pieces, read, joined⟩ := ih
    rw [List.append_assoc]
    exact exists_pieces_of_writesChar head read joined

theorem readString_of_writesText {text w : List Char} (h : WritesText text w)
    (rest : List Char) :
    readString (w ++ '\x22' :: rest) = some (some (String.ofList text), rest) := by
  obtain ⟨pieces, read, joined⟩ := exists_pieces_of_writesText h rest
  simp [readString, read, joined]

/-! ## Numbers -/

/-- The text is at its end, or goes on with what may stand behind a document in another. -/
def Closing (rest : List Char) : Prop :=
  ∀ c ∈ rest.head?, c = ',' ∨ c = ']' ∨ c = '\x7d'

/-- The text does not go on with more of a number. -/
def Delimited (rest : List Char) : Prop :=
  ∀ c ∈ rest.head?, c.isDigit = false ∧ c ≠ '.' ∧ c ≠ 'e' ∧ c ≠ 'E'

theorem Closing.delimited {rest : List Char} (h : Closing rest) : Delimited rest := by
  intro c hc
  rcases h c hc with rfl | rfl | rfl <;> decide

theorem Closing.delimited_append {after rest : List Char} (h : Closing rest)
    (blank : Blank after) : Delimited (after ++ rest) := by
  cases after with
  | nil => exact h.delimited
  | cons c after =>
    rintro _ ⟨⟩
    have hspace := blank c List.mem_cons_self
    simp only [isSpace, Bool.or_eq_true, beq_iff_eq] at hspace
    rcases hspace with ((rfl | rfl) | rfl) | rfl <;> decide

/-- Only zero begins with a zero. -/
theorem eq_zero_of_head?_toDigits {n : Nat} (h : (Nat.toDigits 10 n).head? = some '0') : n = 0 := by
  have small : ∀ n < 10, Nat.digitChar n = '0' → n = 0 := by decide
  induction n using Nat.strongRecOn with
  | ind n ih =>
    rcases Nat.lt_or_ge n 10 with hlt | hge
    · rw [Nat.toDigits_of_lt_base hlt] at h
      exact small n hlt (Option.some.inj h)
    · rw [Nat.toDigits_of_base_le (by decide) hge, List.head?_append,
        List.head?_eq_some_head Nat.toDigits_ne_nil, Option.some_or] at h
      have hzero := ih (n / 10) (by omega) ((List.head?_eq_some_head Nat.toDigits_ne_nil).trans h)
      omega

theorem toDigits_ne_zero_cons (n : Nat) (d : Char) (ds : List Char) :
    Nat.toDigits 10 n ≠ '0' :: d :: ds := by
  intro heq
  have hzero := eq_zero_of_head?_toDigits (congrArg List.head? heq)
  rw [hzero, Nat.toDigits_zero] at heq
  cases heq

theorem readDigits_toDigits (n : Nat) {rest : List Char} (h : Delimited rest) :
    readDigits (Nat.toDigits 10 n ++ rest) = some (Nat.toDigits 10 n, rest) := by
  have digits : ∀ c ∈ Nat.toDigits 10 n, c.isDigit = true := fun c hc =>
    Nat.isDigit_of_mem_toDigits (by decide) (by decide) hc
  have none_left : rest.takeWhile Char.isDigit = [] ∧ rest.dropWhile Char.isDigit = rest := by
    cases rest with
    | nil => exact ⟨rfl, rfl⟩
    | cons c rest =>
      simp [(h c rfl).1]
  rw [readDigits, List.takeWhile_append_of_pos digits, List.dropWhile_append_of_pos digits,
    none_left.1, none_left.2, List.append_nil]
  cases hdigits : Nat.toDigits 10 n with
  | nil => exact absurd hdigits Nat.toDigits_ne_nil
  | cons d ds => rfl

theorem readWhole_toDigits (n : Nat) {rest : List Char} (h : Delimited rest) :
    readWhole (Nat.toDigits 10 n ++ rest) = some (Nat.toDigits 10 n, rest) := by
  rw [readWhole, readDigits_toDigits n h]
  simp only [Option.bind_eq_bind, Option.bind_some]
  split
  · next heq => exact absurd heq (toDigits_ne_zero_cons n _ _)
  · rfl

theorem readFraction_of_delimited {rest : List Char} (h : Delimited rest) :
    readFraction rest = some (none, rest) := by
  rw [readFraction.eq_2]
  rintro rest rfl
  exact (h '.' rfl).2.1 rfl

theorem readExponent_of_delimited {rest : List Char} (h : Delimited rest) :
    readExponent rest = some (none, rest) := by
  cases rest with
  | nil => rfl
  | cons c rest =>
    obtain ⟨-, -, he, hE⟩ := h c rfl
    simp [readExponent, he, hE]

theorem readNumeral_integerText (n : Int) {rest : List Char} (h : Delimited rest) :
    readNumeral (integerText n ++ rest) = some (.ofInt n, rest) := by
  have signed : readMinus (integerText n ++ rest) =
      (decide (n < 0), Nat.toDigits 10 n.natAbs ++ rest) := by
    unfold integerText
    split
    · next hneg =>
      simp [readMinus, hneg]
    · next hneg =>
      obtain ⟨c, tail, heq, hdigit⟩ := Text.toDigits_exists_cons n.natAbs
      rw [heq, readMinus.eq_2, decide_eq_false hneg]
      rintro _ ⟨⟩
      revert hdigit
      decide
  simp [readNumeral, signed, readWhole_toDigits _ h, readFraction_of_delimited h,
    readExponent_of_delimited h, Numeral.ofInt, Nat.ofDigitChars_toDigits]

/-! ## White space -/

theorem skipSpace_append {blank : List Char} (h : Blank blank) (text : List Char) :
    skipSpace (blank ++ text) = skipSpace text :=
  List.dropWhile_append_of_pos h

theorem skipSpace_cons {c : Char} (h : isSpace c = false) (text : List Char) :
    skipSpace (c :: text) = c :: text := by
  rw [skipSpace, List.dropWhile_cons, h]
  rfl

theorem Closing.skipSpace_eq {rest : List Char} (h : Closing rest) : skipSpace rest = rest := by
  cases rest with
  | nil => rfl
  | cons c rest =>
    refine skipSpace_cons ?_ rest
    rcases h c rfl with rfl | rfl | rfl <;> decide

theorem exists_eq_append_skipSpace (text : List Char) :
    ∃ blank, Blank blank ∧ text = blank ++ skipSpace text := by
  refine ⟨text.takeWhile isSpace, fun c hc => ?_, List.takeWhile_append_dropWhile.symm⟩
  exact List.mem_takeWhile_imp hc

/-- A value is read from behind the white space in front of it. -/
theorem readValue_append {blank : List Char} (h : Blank blank) (fuel : Nat) (text : List Char) :
    readValue fuel (blank ++ text) = readValue fuel text := by
  cases fuel with
  | zero => rfl
  | succ fuel => rw [readValue, readValue, skipSpace_append h]

theorem readItems_skipSpace (fuel : Nat) (text : List Char) :
    readItems fuel (skipSpace text) = readItems fuel text := by
  obtain ⟨blank, h, heq⟩ := exists_eq_append_skipSpace text
  cases fuel with
  | zero => rfl
  | succ fuel =>
    rw [readItems, readItems, ← readValue_append h fuel (skipSpace text), ← heq]

theorem readMembers_append {blank : List Char} (h : Blank blank) (fuel : Nat) (text : List Char) :
    readMembers fuel (blank ++ text) = readMembers fuel text := by
  cases fuel with
  | zero => rfl
  | succ fuel => rw [readMembers, readMembers, skipSpace_append h]

theorem readMembers_skipSpace (fuel : Nat) (text : List Char) :
    readMembers fuel (skipSpace text) = readMembers fuel text := by
  obtain ⟨blank, h, heq⟩ := exists_eq_append_skipSpace text
  rw [← readMembers_append h, ← heq]

/-! ## Reading documents -/

theorem readValue_str (fuel : Nat) (text : List Char) :
    readValue (fuel + 1) ('\x22' :: text) =
      (readString text).bind fun read => some (str read.1, read.2) := rfl

theorem readValue_emptyArr {fuel : Nat} {text rest : List Char}
    (h : skipSpace text = ']' :: rest) :
    readValue (fuel + 1) ('[' :: text) = some (arr [], rest) := by
  rw [readValue, skipSpace_cons rfl]
  simp [h]

theorem readValue_emptyObj {fuel : Nat} {text rest : List Char}
    (h : skipSpace text = '\x7d' :: rest) :
    readValue (fuel + 1) ('\x7b' :: text) = some (obj [], rest) := by
  rw [readValue, skipSpace_cons rfl]
  simp [h]

theorem readValue_arr {fuel : Nat} {text : List Char}
    (h : ∀ rest, skipSpace text ≠ ']' :: rest) :
    readValue (fuel + 1) ('[' :: text) =
      (readItems fuel text).bind fun read => some (arr read.1, read.2) := by
  rw [readValue, skipSpace_cons rfl]
  split
  case h_5 heq =>
    cases heq
    split
    · next heq => exact absurd heq (h _)
    · rw [readItems_skipSpace]
      rfl
  case h_7 not_array _ => exact absurd rfl (not_array text)
  all_goals
    next heq => cases heq

theorem readValue_obj {fuel : Nat} {text : List Char}
    (h : ∀ rest, skipSpace text ≠ '\x7d' :: rest) :
    readValue (fuel + 1) ('\x7b' :: text) =
      (readMembers fuel text).bind fun read => some (obj read.1, read.2) := by
  rw [readValue, skipSpace_cons rfl]
  split
  case h_6 heq =>
    cases heq
    split
    · next heq => exact absurd heq (h _)
    · rw [readMembers_skipSpace]
      rfl
  case h_7 not_object => exact absurd rfl (not_object text)
  all_goals
    next heq => cases heq

theorem integerText_exists_cons (n : Int) :
    ∃ c tail, integerText n = c :: tail ∧ (c.isDigit = true ∨ c = '-') := by
  unfold integerText
  split
  · exact ⟨_, _, rfl, .inr rfl⟩
  · obtain ⟨c, tail, heq, hdigit⟩ := Text.toDigits_exists_cons n.natAbs
    exact ⟨c, tail, heq, .inl hdigit⟩

/-- No other document, and no other token, begins as a number does. -/
theorem not_mem_of_numeral {c : Char} (h : c.isDigit = true ∨ c = '-') :
    c ∉ [' ', '\n', '\t', '\r', ']', '\x22', '[', '\x7b', 'n', 't', 'f'] := by
  have others : [' ', '\n', '\t', '\r', ']', '\x22', '[', '\x7b', 'n', 't', 'f'].all
      (fun d => !d.isDigit && d != '-') = true := by decide
  intro hmem
  have other := List.all_eq_true.1 others c hmem
  simp only [Bool.and_eq_true, Bool.not_eq_true', bne_iff_ne] at other
  rcases h with h | h
  · exact absurd h (Bool.eq_false_iff.1 other.1)
  · exact other.2 h

theorem isSpace_of_numeral {c : Char} (h : c.isDigit = true ∨ c = '-') : isSpace c = false := by
  have hne := not_mem_of_numeral h
  simp only [List.mem_cons, not_or] at hne
  simp [isSpace, hne]

theorem readValue_numeral {fuel : Nat} {c : Char} {tail : List Char}
    (h : c.isDigit = true ∨ c = '-') :
    readValue (fuel + 1) (c :: tail) =
      (readNumeral (c :: tail)).bind fun read => some (num read.1, read.2) := by
  have hne := not_mem_of_numeral h
  rw [readValue, skipSpace_cons (isSpace_of_numeral h)]
  split
  case h_7 => rfl
  all_goals
    next heq =>
      cases heq
      exact absurd (by decide) hne

theorem readValue_integer (fuel : Nat) (n : Int) {rest : List Char} (hrest : Delimited rest) :
    readValue (fuel + 1) (integerText n ++ rest) = some (num (.ofInt n), rest) := by
  have read := readNumeral_integerText n hrest
  obtain ⟨c, tail, heq, hc⟩ := integerText_exists_cons n
  rw [heq, List.cons_append] at read ⊢
  rw [readValue_numeral hc, read]
  rfl

/-- No document begins with white space or with a closing bracket. -/
theorem WrittenBare.exists_cons {j : Json} {w : List Char} (h : j.WrittenBare w) :
    ∃ c tail, w = c :: tail ∧ isSpace c = false ∧ c ≠ ']' := by
  cases h with
  | int n =>
    obtain ⟨c, tail, heq, hc⟩ := integerText_exists_cons n
    refine ⟨c, tail, heq, isSpace_of_numeral hc, fun hbracket => not_mem_of_numeral hc ?_⟩
    rw [hbracket]
    decide
  | bool b => cases b <;> exact ⟨_, _, rfl, by decide, by decide⟩
  | _ => exact ⟨_, _, rfl, by decide, by decide⟩

theorem WrittenAs.skipSpace_ne {j : Json} {w : List Char} (h : WrittenAs j w)
    (rest rest' : List Char) : skipSpace (w ++ rest) ≠ ']' :: rest' := by
  obtain ⟨hbefore, h, hafter⟩ := h
  obtain ⟨c, tail, rfl, hspace, hne⟩ := h.exists_cons
  rw [List.append_assoc, List.append_assoc, skipSpace_append hbefore, List.cons_append,
    skipSpace_cons hspace]
  exact fun heq => hne (List.cons.inj heq).1

theorem WritesItems.skipSpace_ne {items : List Json} {w : List Char} (h : WritesItems items w)
    (rest rest' : List Char) : skipSpace (w ++ rest) ≠ ']' :: rest' := by
  cases h with
  | last h => exact h.skipSpace_ne rest rest'
  | more h others =>
    rw [List.append_assoc]
    exact h.skipSpace_ne _ rest'

theorem WritesMember.skipSpace_ne {m : Member} {w : List Char} (h : WritesMember m w)
    (rest rest' : List Char) : skipSpace (w ++ rest) ≠ '\x7d' :: rest' := by
  obtain ⟨hbefore, hkey, hbetween, h⟩ := h
  simp only [List.append_assoc, List.cons_append]
  rw [skipSpace_append hbefore, skipSpace_cons rfl]
  exact fun heq => absurd (List.cons.inj heq).1 (by decide)

theorem WritesMembers.skipSpace_ne {members : List Member} {w : List Char}
    (h : WritesMembers members w) (rest rest' : List Char) :
    skipSpace (w ++ rest) ≠ '\x7d' :: rest' := by
  cases h with
  | last h => exact h.skipSpace_ne rest rest'
  | more h others =>
    rw [List.append_assoc]
    exact h.skipSpace_ne _ rest'

/-- The values of a budget are read: those that are not longer than half of it. -/
def ReadsValues (fuel : Nat) : Prop :=
  ∀ {j : Json} {w rest : List Char}, j.WrittenBare w → Delimited rest → 2 * w.length ≤ fuel →
    readValue fuel (w ++ rest) = some (j, rest)

/-- A document with white space around it is read but for the white space behind it. -/
theorem WrittenAs.exists_readValue {fuel : Nat} {j : Json} {w rest : List Char}
    (h : WrittenAs j w) (hrest : Closing rest) (hfuel : 2 * w.length ≤ fuel)
    (reads : ReadsValues fuel) :
    ∃ rest', readValue fuel (w ++ rest) = some (j, rest') ∧ skipSpace rest' = rest := by
  obtain @⟨_, before, w, after, hbefore, h, hafter⟩ := h
  have hlength : 2 * w.length ≤ fuel := by
    simp only [List.length_append] at hfuel
    omega
  refine ⟨after ++ rest, ?_, ?_⟩
  · rw [List.append_assoc, List.append_assoc, readValue_append hbefore]
    exact reads h (hrest.delimited_append hafter) hlength
  · rw [skipSpace_append hafter, hrest.skipSpace_eq]

/-- Behind an item the array is closed or goes on. -/
theorem readItems_of_writtenAs {fuel : Nat} {j : Json} {w rest : List Char}
    (h : WrittenAs j w) (hfuel : 2 * w.length ≤ fuel) (reads : ReadsValues fuel) :
    Closing rest → readItems (fuel + 1) (w ++ rest) =
      (match rest with
      | ',' :: rest => (readItems fuel rest).bind fun read => some (j :: read.1, read.2)
      | ']' :: rest => some ([j], rest)
      | _ => none) := by
  intro hrest
  obtain ⟨rest', read, rfl⟩ := h.exists_readValue hrest hfuel reads
  rewrite [readItems, read]
  rfl

/-- Behind a member the object is closed or goes on. -/
theorem readMembers_of_writesMember {fuel : Nat} {m : Member} {w rest : List Char}
    (h : WritesMember m w) (hfuel : 2 * w.length ≤ fuel) (reads : ReadsValues fuel) :
    Closing rest → readMembers (fuel + 1) (w ++ rest) =
      (match rest with
      | ',' :: rest => (readMembers fuel rest).bind fun read => some (m :: read.1, read.2)
      | '\x7d' :: rest => some ([m], rest)
      | _ => none) := by
  intro hrest
  obtain @⟨key, j, before, k, between, w, hbefore, hkey, hbetween, h⟩ := h
  have hlength : 2 * w.length ≤ fuel := by
    simp only [List.length_append, List.length_cons] at hfuel
    omega
  obtain ⟨rest', read, rfl⟩ := h.exists_readValue hrest hlength reads
  have hcolon : skipSpace (between ++ ':' :: (w ++ skipSpace rest')) =
      ':' :: (w ++ skipSpace rest') := by
    rw [skipSpace_append hbetween, skipSpace_cons rfl]
  simp only [List.append_assoc, List.cons_append]
  rewrite [readMembers_append hbefore, readMembers, skipSpace_cons rfl]
  simp only [readString_of_writesText hkey, Option.bind_eq_bind, Option.bind_some, hcolon]
  rewrite [read]
  rfl

theorem enclosed_append (opening closing : Char) (w rest : List Char) :
    opening :: w ++ [closing] ++ rest = opening :: (w ++ closing :: rest) := by
  simp

mutual

theorem readValue_of_writtenBare : ∀ (fuel : Nat) {j : Json} {w rest : List Char},
    j.WrittenBare w → Delimited rest → 2 * w.length ≤ fuel →
      readValue fuel (w ++ rest) = some (j, rest)
  | 0, _, _, _, h, _, hfuel => by
    obtain ⟨c, tail, rfl, -⟩ := h.exists_cons
    simp at hfuel
  | fuel + 1, _, _, rest, h, hrest, hfuel => by
    cases h with
    | null => rfl
    | bool b => cases b <;> rfl
    | int n => exact readValue_integer fuel n hrest
    | str h =>
      rw [enclosed_append, readValue_str, readString_of_writesText h]
      rfl
    | emptyArr h =>
      rw [enclosed_append, readValue_emptyArr]
      rw [skipSpace_append h, skipSpace_cons rfl]
    | arr h =>
      rw [List.length_append, List.length_cons] at hfuel
      rw [enclosed_append, readValue_arr (h.skipSpace_ne _),
        readItems_of_writesItems fuel rest h (by omega)]
      rfl
    | emptyObj h =>
      rw [enclosed_append, readValue_emptyObj]
      rw [skipSpace_append h, skipSpace_cons rfl]
    | obj h =>
      rw [List.length_append, List.length_cons] at hfuel
      rw [enclosed_append, readValue_obj (h.skipSpace_ne _),
        readMembers_of_writesMembers fuel rest h (by omega)]
      rfl
termination_by structural fuel => fuel

theorem readItems_of_writesItems :
    ∀ (fuel : Nat) {items : List Json} {w : List Char} (rest : List Char),
    WritesItems items w → 2 * w.length + 1 ≤ fuel →
      readItems fuel (w ++ ']' :: rest) = some (items, rest)
  | 0, _, _, _, _, hfuel => absurd hfuel (by omega)
  | fuel + 1, _, _, rest, h, hfuel => by
    have reads : ReadsValues fuel := fun h => readValue_of_writtenBare fuel h
    cases h with
    | last h =>
      exact readItems_of_writtenAs h (by omega) reads (by simp [Closing])
    | more h others =>
      simp only [List.length_append, List.length_cons] at hfuel
      rw [List.append_assoc, List.cons_append,
        readItems_of_writtenAs h (by omega) reads (by simp [Closing])]
      simp only [readItems_of_writesItems fuel rest others (by omega), Option.bind_some]
termination_by structural fuel => fuel

theorem readMembers_of_writesMembers :
    ∀ (fuel : Nat) {members : List Member} {w : List Char} (rest : List Char),
    WritesMembers members w → 2 * w.length + 1 ≤ fuel →
      readMembers fuel (w ++ '\x7d' :: rest) = some (members, rest)
  | 0, _, _, _, _, hfuel => absurd hfuel (by omega)
  | fuel + 1, _, _, rest, h, hfuel => by
    have reads : ReadsValues fuel := fun h => readValue_of_writtenBare fuel h
    cases h with
    | last h =>
      exact readMembers_of_writesMember h (by omega) reads (by simp [Closing])
    | more h others =>
      simp only [List.length_append, List.length_cons] at hfuel
      rw [List.append_assoc, List.cons_append,
        readMembers_of_writesMember h (by omega) reads (by simp [Closing])]
      simp only [readMembers_of_writesMembers fuel rest others (by omega), Option.bind_some]
termination_by structural fuel => fuel

end

/-- Every text of a document is read as the document. -/
theorem read?_of_writtenAs {j : Json} {text : String} (h : WrittenAs j text.toList) :
    read? text = some j := by
  have hfuel : 2 * text.toList.length ≤ fuelFor text.toList := Nat.le_add_right _ 2
  obtain ⟨rest, read, hskip⟩ :=
    h.exists_readValue (show Closing [] from nofun) hfuel fun h => readValue_of_writtenBare _ h
  rw [List.append_nil] at read
  simp [read?, read, hskip]

end Json

end Bytecode
