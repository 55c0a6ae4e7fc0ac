import Bytecode.Json.Basic

set_option autoImplicit false

/-!
# Reading JSON

A reader takes a beginning of the text and gives what it stands for with the text
that is left, or nothing if no beginning has the form it reads.  The grammar is
strict: no comments, no trailing commas, no leading zeros, no text behind the
document.
-/

namespace Bytecode.Json

/-- The characters that may stand between tokens. -/
def isSpace (c : Char) : Bool :=
  c == ' ' || c == '\n' || c == '\t' || c == '\r'

def skipSpace (text : List Char) : List Char :=
  text.dropWhile isSpace

/-! ## Numbers -/

/-- One or more digits. -/
def readDigits (text : List Char) : Option (List Char × List Char) :=
  match text.takeWhile Char.isDigit with
  | [] => none
  | digits => some (digits, text.dropWhile Char.isDigit)

/-- A minus sign, if there is one. -/
def readMinus : List Char → Bool × List Char
  | '-' :: rest => (true, rest)
  | text => (false, text)

/-- Digits that do not begin with a zero, or a single zero. -/
def readWhole (text : List Char) : Option (List Char × List Char) := do
  let (digits, rest) ← readDigits text
  match digits with
  | '0' :: _ :: _ => none
  | _ => some (digits, rest)

/-- The digits behind a point, if there is one. -/
def readFraction : List Char → Option (Option (List Char) × List Char)
  | '.' :: rest => do
    let (digits, rest) ← readDigits rest
    some (some digits, rest)
  | text => some (none, text)

/-- An optional sign and digits. -/
def readExponentValue : List Char → Option (Int × List Char)
  | '-' :: rest => do
    let (digits, rest) ← readDigits rest
    some (-(Nat.ofDigitChars 10 digits 0 : Int), rest)
  | '+' :: rest => do
    let (digits, rest) ← readDigits rest
    some ((Nat.ofDigitChars 10 digits 0 : Int), rest)
  | text => do
    let (digits, rest) ← readDigits text
    some ((Nat.ofDigitChars 10 digits 0 : Int), rest)

/-- An exponent, if there is one. -/
def readExponent : List Char → Option (Option Int × List Char)
  | c :: rest =>
    if c == 'e' || c == 'E' then do
      let (value, rest) ← readExponentValue rest
      some (some value, rest)
    else some (none, c :: rest)
  | [] => some (none, [])

def readNumeral (text : List Char) : Option (Numeral × List Char) := do
  let (negative, rest) := readMinus text
  let (whole, rest) ← readWhole rest
  let (fraction, rest) ← readFraction rest
  let (exponent, rest) ← readExponent rest
  let places := fraction.getD []
  some (⟨negative, Nat.ofDigitChars 10 (whole ++ places) 0, exponent.getD 0 - places.length,
    fraction.isNone && exponent.isNone⟩, rest)

/-! ## Strings -/

/-- What a string is made of: characters, and halves of surrogate pairs, which only escapes
can write. -/
inductive Piece where
  | char (c : Char)
  | half (unit : Nat)
deriving DecidableEq, Repr, Inhabited

def isHighHalf (unit : Nat) : Bool :=
  decide (0xd800 ≤ unit ∧ unit < 0xdc00)

def isLowHalf (unit : Nat) : Bool :=
  decide (0xdc00 ≤ unit ∧ unit < 0xe000)

/-- The piece that a 16-bit unit stands for. -/
def Piece.ofUnit (unit : Nat) : Piece :=
  if isHighHalf unit || isLowHalf unit then .half unit else .char (Char.ofNat unit)

/-- The character that two halves make up. -/
def combineHalves (high low : Nat) : Char :=
  Char.ofNat (0x10000 + (high - 0xd800) * 0x400 + (low - 0xdc00))

/-- The text of the pieces; each half needs its partner. -/
def joinPieces : List Piece → Option (List Char)
  | [] => some []
  | .char c :: rest => (joinPieces rest).map (c :: ·)
  | .half high :: .half low :: rest =>
    if isHighHalf high && isLowHalf low then
      (joinPieces rest).map (combineHalves high low :: ·)
    else none
  | .half _ :: _ => none

def hexDigit? (c : Char) : Option Nat :=
  if '0' ≤ c ∧ c ≤ '9' then some (c.toNat - 48)
  else if 'a' ≤ c ∧ c ≤ 'f' then some (c.toNat - 87)
  else if 'A' ≤ c ∧ c ≤ 'F' then some (c.toNat - 55)
  else none

/-- The number that four hexadecimal digits stand for. -/
def hexUnit? (a b c d : Char) : Option Nat := do
  return 4096 * (← hexDigit? a) + 256 * (← hexDigit? b) + 16 * (← hexDigit? c) + (← hexDigit? d)

/-- The character that a backslash and this character stand for. -/
def escaped? (c : Char) : Option Char :=
  if c == '\x22' || c == '\x5c' || c == '/' then some c
  else if c == 'b' then some '\x08'
  else if c == 'f' then some '\x0c'
  else if c == 'n' then some '\n'
  else if c == 'r' then some '\r'
  else if c == 't' then some '\t'
  else none

/-- A string from behind its opening quote up to and with its closing quote. -/
def readPieces : List Char → Option (List Piece × List Char)
  | [] => none
  | '\x22' :: rest => some ([], rest)
  | '\x5c' :: 'u' :: a :: b :: c :: d :: rest => do
    let unit ← hexUnit? a b c d
    let (pieces, rest) ← readPieces rest
    some (.ofUnit unit :: pieces, rest)
  | '\x5c' :: c :: rest => do
    let c ← escaped? c
    let (pieces, rest) ← readPieces rest
    some (.char c :: pieces, rest)
  | c :: rest =>
    if c.toNat < 0x20 then none
    else do
      let (pieces, rest) ← readPieces rest
      some (.char c :: pieces, rest)

/-- A string from behind its opening quote, with its text if it has one. -/
def readString (text : List Char) : Option (Option String × List Char) := do
  let (pieces, rest) ← readPieces text
  some ((joinPieces pieces).map String.ofList, rest)

/-! ## Values -/

mutual

/-- A value, with white space in front of it. -/
def readValue : Nat → List Char → Option (Json × List Char)
  | 0, _ => none
  | fuel + 1, text =>
    match skipSpace text with
    | 'n' :: 'u' :: 'l' :: 'l' :: rest => some (.null, rest)
    | 't' :: 'r' :: 'u' :: 'e' :: rest => some (.bool true, rest)
    | 'f' :: 'a' :: 'l' :: 's' :: 'e' :: rest => some (.bool false, rest)
    | '\x22' :: rest => do
      let (text, rest) ← readString rest
      some (.str text, rest)
    | '[' :: rest =>
      match skipSpace rest with
      | ']' :: rest => some (.arr [], rest)
      | rest => do
        let (items, rest) ← readItems fuel rest
        some (.arr items, rest)
    | '\x7b' :: rest =>
      match skipSpace rest with
      | '\x7d' :: rest => some (.obj [], rest)
      | rest => do
        let (members, rest) ← readMembers fuel rest
        some (.obj members, rest)
    | text => do
      let (n, rest) ← readNumeral text
      some (.num n, rest)

/-- The items of an array that has some, with its closing bracket. -/
def readItems : Nat → List Char → Option (List Json × List Char)
  | 0, _ => none
  | fuel + 1, text => do
    let (item, rest) ← readValue fuel text
    match skipSpace rest with
    | ',' :: rest =>
      let (items, rest) ← readItems fuel rest
      some (item :: items, rest)
    | ']' :: rest => some ([item], rest)
    | _ => none

/-- The members of an object that has some, with its closing brace. -/
def readMembers : Nat → List Char → Option (List Member × List Char)
  | 0, _ => none
  | fuel + 1, text =>
    match skipSpace text with
    | '\x22' :: rest => do
      let (key, rest) ← readString rest
      match skipSpace rest with
      | ':' :: rest =>
        let (value, rest) ← readValue fuel rest
        match skipSpace rest with
        | ',' :: rest =>
          let (members, rest) ← readMembers fuel rest
          some (⟨key, value⟩ :: members, rest)
        | '\x7d' :: rest => some ([⟨key, value⟩], rest)
        | _ => none
      | _ => none
    | _ => none

end

/-- Enough for a text of this length: every two calls take at least one character off. -/
def fuelFor (text : List Char) : Nat :=
  2 * text.length + 2

/-- The document that a text consists of. -/
def read? (text : String) : Option Json := do
  let chars := text.toList
  let (document, rest) ← readValue (fuelFor chars) chars
  if (skipSpace rest).isEmpty then some document else none

end Bytecode.Json
