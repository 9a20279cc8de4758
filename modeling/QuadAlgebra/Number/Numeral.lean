/-!
# Reading numerals

A numeral is an optional sign, then digits with at most one point among, before or after
them, then an optional exponent; or, in letters of either case, one of the words for infinity
and for an undefined value. It reads as the nearest double.
-/

namespace QuadAlgebra

/-- A written number: its digits as one whole number, and the power of ten they are scaled by. -/
structure Numeral where
  digits : Nat
  exponent : Int
deriving DecidableEq, Inhabited

namespace Numeral

/-- The leading decimal digits of a text and what follows them. -/
def digitRun (cs : List Char) : List Char × List Char :=
  (cs.takeWhile Char.isDigit, cs.dropWhile Char.isDigit)

def valueOfDigits (cs : List Char) : Nat :=
  cs.foldl (fun n c => 10 * n + (c.toNat - '0'.toNat)) 0

/-- The sign at the head of a text: whether it is a minus, and the rest. -/
def splitSign : List Char → Bool × List Char
  | '+' :: rest => (false, rest)
  | '-' :: rest => (true, rest)
  | rest => (false, rest)

/-- An exponent part that fills the whole text; the empty text is the exponent zero. -/
def readExponent : List Char → Option Int
  | [] => some 0
  | c :: rest =>
    if c = 'e' ∨ c = 'E' then
      let (negative, digits) := splitSign rest
      if digits.isEmpty || digits.any (!·.isDigit) then none
      else
        let n : Int := valueOfDigits digits
        some (if negative then -n else n)
    else none

/-- An unsigned numeral in digits. -/
def read (cs : List Char) : Option Numeral :=
  let (whole, rest) := digitRun cs
  let (fraction, rest) := match rest with
    | '.' :: rest => digitRun rest
    | _ => ([], rest)
  if whole.isEmpty && fraction.isEmpty then none
  else (readExponent rest).map fun e =>
    ⟨valueOfDigits (whole ++ fraction), e - (fraction.length : Int)⟩

/-- The nearest double. Numbers beyond the range of doubles need no exact scaling. -/
def toFloat (n : Numeral) : Float :=
  let size := (n.digits.repr.length : Int) + n.exponent
  if n.digits = 0 then 0.0
  else if size > 400 then Float.ofScientific 1 false 400
  else if size < -400 then 0.0
  else Float.ofScientific n.digits (n.exponent < 0) n.exponent.natAbs

end Numeral

/-- The double that a text denotes, if it is a numeral. -/
def readFloat (s : String) : Option Float :=
  let (negative, rest) := Numeral.splitSign s.toList
  let size :=
    match Numeral.read rest with
    | some n => some n.toFloat
    | none =>
      let word := String.ofList (rest.map Char.toLower)
      if word = "inf" ∨ word = "infinity" then some (Float.ofScientific 1 false 400)
      else if word = "nan" then some (0.0 / 0.0)
      else none
  size.map fun x => if negative then -x else x

end QuadAlgebra
