import QuadAlgebra.Number.Numeral
import QuadAlgebra.Number.Shortest
import QuadAlgebra.Term.Basic

/-!
# Values of terms

Numbers and truth values are terms with a datatype. Numbers are read as doubles; whole
results are written back as integers, all others as doubles.
-/

namespace QuadAlgebra

namespace Datatype

def integer : String := "http://www.w3.org/2001/XMLSchema#integer"
def decimal : String := "http://www.w3.org/2001/XMLSchema#decimal"
def double : String := "http://www.w3.org/2001/XMLSchema#double"
def boolean : String := "http://www.w3.org/2001/XMLSchema#boolean"

end Datatype

namespace Term

/-! ## Writing values -/

def integer (n : Int) : Term := .typed n.repr Datatype.integer

def double (x : Float) : Term := .typed (Binary.ofFloat x).text Datatype.double

def boolean (b : Bool) : Term := .typed (if b then "true" else "false") Datatype.boolean

/-! ## Reading values -/

/-- Whether the term has the datatype of integers, whatever its text. -/
def isInteger : Term → Bool
  | .typed _ d => d == Datatype.integer
  | _ => false

/-- The number that a term of a numeric datatype denotes. -/
def number? : Term → Option Float
  | .typed s d =>
    if d = Datatype.integer ∨ d = Datatype.decimal ∨ d = Datatype.double then readFloat s else none
  | _ => none

/-- The truth value that a term of the datatype of truth values denotes. -/
def bool? : Term → Option Bool
  | .typed s d =>
    if d = Datatype.boolean then
      if s = "true" ∨ s = "1" then some true
      else if s = "false" ∨ s = "0" then some false
      else none
    else none
  | _ => none

/-- Whether a condition with this value holds: a truth value says so itself, a number unless it is
zero or undefined, a plain string unless it is empty. Other terms have no answer. -/
def effectiveBool? (t : Term) : Option Bool :=
  match t.bool? with
  | some b => some b
  | none =>
    match t.number? with
    | some x => some (!(x == 0.0) && x == x)
    | none =>
      match t with
      | .simple s => some (s != "")
      | _ => none

/-- The term for a computed number. It is an integer if the operands were, the number is whole and
its size stays below `2 ^ 63`. -/
def ofNumber (x : Float) (integral : Bool) : Term :=
  match (Binary.ofFloat x).toInt? with
  | some n => if integral && n.natAbs < Nat.pow 2 63 then integer n else double x
  | none => double x

end Term

end QuadAlgebra
