import Bytecode.Text

set_option autoImplicit false

/-!
# JSON documents

A document as a tree that keeps what its readers tell apart: the members of an object
in their order and with repetitions, whether a number is written as an integer, and
whether a string is text at all.  A string with half of a surrogate pair is not.
-/

namespace Bytecode

/-- A number as it is written: `± significand * 10 ^ exponent`. -/
structure Numeral where
  negative : Bool
  significand : Nat
  exponent : Int
  /-- Whether it has neither a fraction nor an exponent. -/
  integral : Bool
deriving DecidableEq, Repr, Inhabited

mutual

inductive Json where
  | null
  | bool (b : Bool)
  | num (n : Numeral)
  /-- A string, with its text if it has one. -/
  | str (text : Option String)
  | arr (items : List Json)
  | obj (members : List Member)

/-- A key with its value. -/
structure Member where
  key : Option String
  value : Json

end

instance : Inhabited Json := ⟨.null⟩

/-! ## Numbers -/

namespace Numeral

/-- The number as a natural number; a minus sign is not allowed, not even on zero. -/
def toNat? (n : Numeral) : Option Nat :=
  if n.integral && !n.negative then some n.significand else none

/-- The number as a 64-bit integer; a negative zero is none. -/
def toInt64? (n : Numeral) : Option Int64 :=
  if !n.integral || (n.negative && n.significand == 0) then none
  else Text.toInt64? (if n.negative then -n.significand else n.significand)

/-- Greater than the exponent of any finite float, and than that of the least one negated. -/
def exponentBound : Int := 400

/-- The float nearest to the magnitude, found by a bound on the exponent alone where that
decides. -/
def magnitude (n : Numeral) : Float :=
  let leading := n.exponent + (Nat.toDigits 10 n.significand).length
  if n.significand = 0 ∨ leading < -exponentBound then 0
  else if exponentBound < leading then Float.ofScientific 1 false exponentBound.toNat
  else Float.ofScientific n.significand (decide (n.exponent < 0)) n.exponent.natAbs

/-- The float nearest to the number, unless that is infinite. -/
def toFloat? (n : Numeral) : Option Float :=
  if n.magnitude.isInf then none
  else some (if n.negative then -n.magnitude else n.magnitude)

end Numeral

/-! ## Reading parts of a tree -/

namespace Json

/-- The text of a string. -/
def text? : Json → Option String
  | str text => text
  | _ => none

/-- A list of texts. -/
def texts? : Json → Option (List String)
  | arr items => items.mapM text?
  | _ => none

/-- A natural number below a bound. -/
def natBelow? (bound : Nat) : Json → Option Nat
  | num n => n.toNat?.filter (· < bound)
  | _ => none

/-- The values under a key, in their order. -/
def valuesOf (key : String) (members : List Member) : List Json :=
  (members.filter fun m => m.key == some key).map (·.value)

/-- The value under a key, or its absence; there must not be two. -/
def member? (key : String) (members : List Member) : Option (Option Json) :=
  match valuesOf key members with
  | [] => some .none
  | [value] => some (some value)
  | _ => .none

/-- Whether every key is text. -/
def keysValid (members : List Member) : Bool :=
  members.all fun m => m.key.isSome

/-- An absent value and `null` are the same. -/
def nonNull : Option Json → Option Json
  | some null => .none
  | value => value

end Json

mutual

/-- Whether the whole tree can be held in memory: arrays and objects nest at most `depth`
deep, all strings are texts and no number is too large. -/
def Json.isSound (depth : Nat) : Json → Bool
  | .null => true
  | .bool _ => true
  | .num n => n.toFloat?.isSome
  | .str text => text.isSome
  | .arr items => decide (0 < depth) && Json.allSound (depth - 1) items
  | .obj members => decide (0 < depth) && Member.allSound (depth - 1) members
termination_by structural j => j

def Json.allSound (depth : Nat) : List Json → Bool
  | [] => true
  | j :: rest => Json.isSound depth j && Json.allSound depth rest
termination_by structural js => js

def Member.isSound (depth : Nat) : Member → Bool
  | ⟨key, value⟩ => key.isSome && Json.isSound depth value
termination_by structural m => m

def Member.allSound (depth : Nat) : List Member → Bool
  | [] => true
  | m :: rest => Member.isSound depth m && Member.allSound depth rest
termination_by structural ms => ms

end

end Bytecode
