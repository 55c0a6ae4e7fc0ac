set_option autoImplicit false

/-!
# Texts

How integers are read from text, how a text is quoted, and which characters are blank.

A decimal integer is an optional sign and one or more of the ten digits.  Leading zeros are
allowed, and nothing else is.  Between quotes a backslash stands before each quote and each
backslash of the text, and all other characters stand for themselves.

Main statements: `readSigned?_toString`, what is written for an integer reads back, and
`toInt64?_eq_some_iff`.
-/

namespace Bytecode.Text

/-! ## Integers -/

/-- The number that a text of one or more digits stands for. -/
def readDigits? (text : List Char) : Option Nat :=
  if text ≠ [] ∧ text.all Char.isDigit then some (Nat.ofDigitChars 10 text 0) else none

/-- The number that an optional plus sign and digits stand for. -/
def readUnsigned? : List Char → Option Nat
  | '+' :: rest => readDigits? rest
  | text => readDigits? text

/-- The number that an optional sign and digits stand for. -/
def readSigned? : List Char → Option Int
  | '-' :: rest => (readDigits? rest).map fun n => -(n : Int)
  | text => (readUnsigned? text).map Int.ofNat

/-- The integer as a 64-bit integer, if it is one. -/
def toInt64? (n : Int) : Option Int64 :=
  if Int64.minValue.toInt ≤ n ∧ n ≤ Int64.maxValue.toInt then some (Int64.ofInt n) else none

theorem readDigits?_toDigits (n : Nat) : readDigits? (Nat.toDigits 10 n) = some n := by
  unfold readDigits?
  rw [if_pos, Nat.ofDigitChars_toDigits (by decide) (by decide)]
  refine ⟨Nat.toDigits_ne_nil, ?_⟩
  rw [List.all_eq_true]
  intro c hc
  exact Nat.isDigit_of_mem_toDigits (by decide) (by decide) hc

theorem toDigits_exists_cons (n : Nat) :
    ∃ c tail, Nat.toDigits 10 n = c :: tail ∧ c.isDigit = true := by
  cases hdigits : Nat.toDigits 10 n with
  | nil => exact absurd hdigits Nat.toDigits_ne_nil
  | cons c tail =>
    have hmem : c ∈ Nat.toDigits 10 n := by
      rw [hdigits]
      exact List.mem_cons_self
    exact ⟨c, tail, rfl, Nat.isDigit_of_mem_toDigits (by decide) (by decide) hmem⟩

theorem toList_toString_ofNat (n : Nat) :
    (toString (Int.ofNat n)).toList = Nat.toDigits 10 n :=
  String.toList_ofList

theorem toList_toString_negSucc (n : Nat) :
    (toString (Int.negSucc n)).toList = '-' :: Nat.toDigits 10 (n + 1) := by
  have htext : toString (Int.negSucc n) = "-" ++ String.ofList (Nat.toDigits 10 (n + 1)) := rfl
  have hdigits : (String.ofList (Nat.toDigits 10 (n + 1))).toList = Nat.toDigits 10 (n + 1) :=
    String.toList_ofList
  rw [htext, String.toList_append, hdigits]
  rfl

/-- What is written for an integer reads back. -/
theorem readSigned?_toString (n : Int) : readSigned? (toString n).toList = some n := by
  cases n with
  | ofNat n =>
    obtain ⟨c, tail, hdigits, hdigit⟩ := toDigits_exists_cons n
    have hread := readDigits?_toDigits n
    rw [hdigits] at hread
    have hminus : c ≠ '-' := by
      rintro rfl
      cases hdigit
    have hplus : c ≠ '+' := by
      rintro rfl
      cases hdigit
    rw [toList_toString_ofNat, hdigits]
    simp [readSigned?, readUnsigned?, hminus, hplus, hread]
  | negSucc n =>
    rw [toList_toString_negSucc, readSigned?, readDigits?_toDigits]
    rfl

theorem toInt64?_toInt (n : Int64) : toInt64? n.toInt = some n := by
  unfold toInt64?
  rw [if_pos ⟨n.minValue_le_toInt, n.toInt_le⟩, Int64.ofInt_toInt]

theorem toInt_of_toInt64? {n : Int} {i : Int64} (h : toInt64? n = some i) : i.toInt = n := by
  unfold toInt64? at h
  split at h
  · next hn =>
    cases h
    obtain ⟨hlow, hhigh⟩ := hn
    rw [Int64.toInt_minValue] at hlow
    rw [Int64.toInt_maxValue] at hhigh
    exact Int64.toInt_ofInt_of_le hlow (Int.lt_of_le_sub_one hhigh)
  · cases h

theorem toInt64?_eq_some_iff {n : Int} {i : Int64} : toInt64? n = some i ↔ i.toInt = n := by
  refine ⟨toInt_of_toInt64?, ?_⟩
  rintro rfl
  exact toInt64?_toInt i

/-! ## Quotes -/

namespace Quoted

/-- Whether a backslash has to stand before the character. -/
def isSpecial (c : Char) : Bool :=
  c == '\x27' || c == '\x5c'

def encode : List Char → List Char
  | [] => []
  | c :: rest => if isSpecial c then '\x5c' :: c :: encode rest else c :: encode rest

end Quoted

/-- The text between single quotes. -/
def quote (text : String) : String :=
  "'" ++ String.ofList (Quoted.encode text.toList) ++ "'"

/-! ## Blanks -/

/-- The first and last code point of each run of blank characters. -/
def blankRuns : List (Nat × Nat) :=
  [(0x9, 0xd), (0x20, 0x20), (0x85, 0x85), (0xa0, 0xa0), (0x1680, 0x1680), (0x2000, 0x200a),
    (0x2028, 0x2029), (0x202f, 0x202f), (0x205f, 0x205f), (0x3000, 0x3000)]

def isBlank (c : Char) : Bool :=
  blankRuns.any fun run => run.1 ≤ c.toNat && c.toNat ≤ run.2

/-- The text without the blank characters at its ends. -/
def trim (text : List Char) : List Char :=
  ((text.dropWhile isBlank).reverse.dropWhile isBlank).reverse

/-- The runs hold 25 characters. -/
example : (blankRuns.map fun run => run.2 + 1 - run.1).sum = 25 := by decide

end Bytecode.Text
