import QuadAlgebra.Solution.Basic
import QuadAlgebra.Syntax.Scope
import QuadAlgebra.Term.Value
import QuadAlgebra.Text.Case

/-!
# Values of expressions

The value of an expression under a solution. An error, such as arithmetic on a text, and a
missing value are the same: no value. Conjunction and disjunction have a value as soon as one
side decides them.

Values are also ordered: no value first, then numbers by size, then all other terms.
-/

namespace QuadAlgebra

/-! ## Comparison of numbers and terms -/

/-- The order of two doubles; an undefined number has none. -/
def compareFloats (a b : Float) : Option Ordering :=
  if a < b then some .lt else if a == b then some .eq else if b < a then some .gt else none

namespace Term

/-- Numbers before other terms. An undefined number counts as equal to every number. -/
def order (s t : Term) : Ordering :=
  match s.number?, t.number? with
  | some a, some b => (compareFloats a b).getD .eq
  | some _, none => .lt
  | none, some _ => .gt
  | none, none => compare s t

/-- Equality of values: numbers by size, all other terms by identity. -/
def equalValue (s t : Term) : Bool :=
  match s.number?, t.number? with
  | some a, some b => a == b
  | _, _ => s == t

/-- The order that comparison operators see: between two numbers or two plain strings. -/
def compareValues (s t : Term) : Option Ordering :=
  match s.number?, t.number? with
  | some a, some b => compareFloats a b
  | none, none =>
    match s, t with
    | .simple a, .simple b => some (compare a b)
    | _, _ => none
  | _, _ => none

end Term

/-- The order of optional values; a missing one comes first. -/
def orderOptional : Option Term → Option Term → Ordering
  | none, none => .eq
  | none, some _ => .lt
  | some _, none => .gt
  | some s, some t => s.order t

/-! ## Operators and functions -/

/-- The value of an arithmetic operation on two numbers. -/
def arithmetic (op : Float → Float → Float) (s t : Term) : Option Term := do
  let a ← s.number?
  let b ← t.number?
  return Term.ofNumber (op a b) (s.isInteger && t.isInteger)

/-- The quotient of two numbers, always a double. -/
def quotient (s t : Term) : Option Term := do
  let a ← s.number?
  let b ← t.number?
  if b == 0.0 then none else some (.double (a / b))

/-- The value of an operator that evaluates both of its operands. -/
def Symbol.apply (op : Symbol) (s t : Term) : Option Term :=
  let holds (test : Ordering → Bool) : Option Term :=
    (s.compareValues t).map fun o => .boolean (test o)
  match op with
  | .plus => arithmetic (· + ·) s t
  | .minus => arithmetic (· - ·) s t
  | .star => arithmetic (· * ·) s t
  | .slash => quotient s t
  | .sameTerm => some (.boolean (s == t))
  | .equal => some (.boolean (s.equalValue t))
  | .notEqual => some (.boolean !s.equalValue t)
  | .lessThan => holds (· == .lt)
  | .lessEqual => holds (· != .gt)
  | .greaterThan => holds (· == .gt)
  | .greaterEqual => holds (· != .lt)
  | .and | .or | .not => none

/-- The value of an operator with one operand. -/
def Symbol.applyOne (op : Symbol) (t : Term) : Option Term :=
  match op with
  | .not => t.effectiveBool?.map fun b => .boolean !b
  | .minus => t.number?.map fun x => .ofNumber (-x) t.isInteger
  | .plus => t.number?.map fun _ => t
  | _ => none

/-- Conjunction of two conditions that may have no answer. -/
def conjunction (a b : Option Bool) : Option Bool :=
  if a = some false ∨ b = some false then some false
  else if a = some true ∧ b = some true then some true
  else none

/-- Disjunction of two conditions that may have no answer. -/
def disjunction (a b : Option Bool) : Option Bool :=
  if a = some true ∨ b = some true then some true
  else if a = some false ∧ b = some false then some false
  else none

/-- Whether a list occurs in another as a block. -/
def hasBlock (part : List Char) : List Char → Bool
  | [] => part.isEmpty
  | c :: rest => part.isPrefixOf (c :: rest) || hasBlock part rest

/-- The value of a named function. Letter case does not matter in its name. -/
def applyFunction (name : String) (args : List Term) : Option Term :=
  let chars (t : Term) : List Char := t.lexical.toList
  match name.toLower, args with
  | "sameterm", [s, t] => some (.boolean (s == t))
  | "str", [t] => some (.simple t.lexical)
  | "isiri", [t] | "isuri", [t] => some (.boolean t.isIri)
  | "isblank", [t] => some (.boolean t.isBlank)
  | "isliteral", [t] => some (.boolean (!t.isIri && !t.isBlank))
  | "isnumeric", [t] => some (.boolean t.number?.isSome)
  | "strlen", [t] => some (.integer (chars t).length)
  | "contains", [s, t] => some (.boolean (hasBlock (chars t) (chars s)))
  | "strstarts", [s, t] => some (.boolean ((chars t).isPrefixOf (chars s)))
  | "strends", [s, t] => some (.boolean ((chars t).isSuffixOf (chars s)))
  | "ucase", [t] => some (.simple (upperCase t.lexical))
  | "lcase", [t] => some (.simple (lowerCase t.lexical))
  | "abs", [t] => t.number?.map fun x => .ofNumber x.abs t.isInteger
  | "if", [c, s, t] => c.effectiveBool?.map fun b => if b then s else t
  | _, _ => none

/-! ## Expressions -/

namespace Expression

section Value

variable (row : Solution)

mutual

/-- The value of an expression under a solution. The second argument holds, for each existence
pattern of the expression in order, the solutions of the pattern. -/
def value : Expression → List (List Solution) → Option Term
  | .variable v, _ => row.get? v
  | .constant t, _ => some t
  | .bound v, _ => some (.boolean (row.contains v))
  | .existence positive _, found =>
    found.head?.map fun solutions => .boolean (solutions.any (·.compatible row) == positive)
  | .unary s e, found => (e.value found).bind s.applyOne
  | .binary l s r, found =>
    let count := l.existencePatterns.length
    let left := l.value (found.take count)
    let right := r.value (found.drop count)
    let truth (t : Option Term) : Option Bool := t.bind Term.effectiveBool?
    match s with
    | .and => (conjunction (truth left) (truth right)).map .boolean
    | .or => (disjunction (truth left) (truth right)).map .boolean
    | s => left.bind fun l => right.bind fun r => s.apply l r
  | .call name args, found => (values args found).bind (applyFunction name)
  | .aggregate _, _ => none

/-- The values of expressions, if all have one. -/
def values : List Expression → List (List Solution) → Option (List Term)
  | [], _ => some []
  | e :: rest, found =>
    let count := e.existencePatterns.length
    (e.value (found.take count)).bind fun t => (values rest (found.drop count)).map (t :: ·)

end

end Value

/-- Whether a condition holds for a solution; without an answer it does not. -/
def holds (e : Expression) (found : List (List Solution)) (row : Solution) : Bool :=
  ((e.value row found).bind Term.effectiveBool?).getD false

end Expression

end QuadAlgebra
