import QuadAlgebra.Number.Binary

/-!
# The shortest decimal that reads back

A double is written with the fewest decimal digits that still read back as it: on the coarsest
decimal grid that has a point in the interval of numbers rounding to the double, the point
nearest to it, and the upper one of two equally near. The digits are then laid out
positionally, never with an exponent.
-/

namespace QuadAlgebra

/-- The number `digits * 10 ^ exponent`. -/
structure Decimal where
  digits : Nat
  exponent : Int
deriving DecidableEq, Inhabited

namespace Decimal

/-- The two sides of a comparison of multiples of `2 ^ p` with multiples of `10 ^ q`, both made
whole. -/
def scales (p q : Int) : Nat × Nat :=
  (Nat.pow 2 p.toNat * Nat.pow 10 (-q).toNat, Nat.pow 2 (-p).toNat * Nat.pow 10 q.toNat)

/-- The point of the grid `10 ^ q` that stands for the double, if the interval
from `(4 * m - below) * 2 ^ (e - 2)` to `(4 * m + 2) * 2 ^ (e - 2)` has one. Its ends belong to it
when `m` is even. -/
def onGrid (m : Nat) (e : Int) (below : Nat) (q : Int) : Option Nat :=
  let (a, b) := scales (e - 2) q
  let value := 4 * m * a
  let inside (d : Nat) : Bool :=
    let low := (4 * m - below) * a
    let high := (4 * m + 2) * a
    if m % 2 = 0 then low ≤ d * b && d * b ≤ high else low < d * b && d * b < high
  let d := value / b
  let up := 2 * (value % b) ≥ b
  match inside d, inside (d + 1) with
  | true, true => some (if up then d + 1 else d)
  | true, false => some d
  | false, true => some (d + 1)
  | false, false => none

/-- Tries finer and finer grids. -/
def search (m : Nat) (e : Int) (below : Nat) : Nat → Int → Decimal
  | 0, q => ⟨0, q⟩
  | fuel + 1, q =>
    match onGrid m e below q with
    | some d => ⟨d, q⟩
    | none => search m e below fuel (q - 1)

/-- The shortest decimal that reads back as the positive double `m * 2 ^ e`. The first grid is
coarser than the number, and at most seventeen digits are ever needed. -/
def shortest (m : Nat) (e : Int) : Decimal :=
  let below := if m = Nat.pow 2 52 ∧ -1074 < e then 1 else 2
  let start := (((4 * m + 2).log2 : Int) + 1 + (e - 2)) * 30103 / 100000 + 1
  search m e below 24 start

/-- Positional notation, with a point only before a fractional part. -/
def positional (d : Decimal) : String :=
  let text := d.digits.repr.toList
  let places := (-d.exponent).toNat
  if places = 0 then String.ofList (text ++ List.replicate d.exponent.toNat '0')
  else
    let padded := List.replicate (places + 1 - text.length) '0' ++ text
    let whole := padded.length - places
    String.ofList (padded.take whole ++ '.' :: padded.drop whole)

end Decimal

/-- The text of a double. -/
def Binary.text : Binary → String
  | .nan => "NaN"
  | .infinite negative => if negative then "-inf" else "inf"
  | .finite negative m e =>
    (if negative then "-" else "") ++ if m = 0 then "0" else (Decimal.shortest m e).positional

end QuadAlgebra
