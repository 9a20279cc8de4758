/-!
# The exact value of a double

A finite double is a sign, a whole significand and a power of two. Reading these off the
bits keeps every later question (is it whole, which decimals read back as it) in exact
arithmetic on naturals.
-/

namespace QuadAlgebra

/-- What a double stands for. -/
inductive Binary where
  | nan
  | infinite (negative : Bool)
  /-- The number `significand * 2 ^ exponent` with a sign. -/
  | finite (negative : Bool) (significand : Nat) (exponent : Int)
deriving DecidableEq

namespace Binary

/-- Splits the bits of a double into sign, exponent field and fraction field. -/
def ofFloat (x : Float) : Binary :=
  let bits : Nat := x.toBits.toNat
  let negative := bits / Nat.pow 2 63 == 1
  let field : Nat := bits / Nat.pow 2 52 % 2048
  let fraction := bits % Nat.pow 2 52
  if field = 2047 then
    if fraction = 0 then .infinite negative else .nan
  else if field = 0 then .finite negative fraction (-1074)
  else .finite negative (Nat.pow 2 52 + fraction) ((field : Int) - 1075)

/-- The value of a finite double that has no fractional part. -/
def toInt? : Binary → Option Int
  | .finite negative m e =>
    let unit := Nat.pow 2 (-e).toNat
    let size : Option Nat := if 0 ≤ e then some (m * Nat.pow 2 e.toNat)
      else if m % unit = 0 then some (m / unit) else none
    size.map fun n => if negative then -(n : Int) else n
  | _ => none

end Binary

end QuadAlgebra
