import QuadAlgebra.Json.Basic

/-!
# Records and variants in JSON

How structured data is laid out in JSON. A record is an object with its fields by name, where a
field that is not a field of the record is passed over; it may also be an array of all its
fields in order. One of several variants is an object with one member, whose name is the
variant's; a variant without data may be just the name.
-/

namespace QuadAlgebra

namespace Json

/-! ## Leaves -/

def string? : Json → Option String
  | .string s => some s
  | _ => none

def bool? : Json → Option Bool
  | .bool b => some b
  | _ => none

/-- A whole number from zero up to, but not including, a bound. -/
def natBelow? (bound : Nat) : Json → Option Nat
  | .integer n => if 0 ≤ n ∧ n < bound then some n.toNat else none
  | _ => none

/-- A count that fits into 64 bits. -/
def count? : Json → Option Nat := natBelow? (Nat.pow 2 64)

def items? : Json → Option (List Json)
  | .array items => some items
  | _ => none

/-- An array whose items are all readable. -/
def list? {α : Type} (read : Json → Option α) (j : Json) : Option (List α) := do
  (← j.items?).mapM read

/-- Either null or something readable. -/
def nullable? {α : Type} (read : Json → Option α) : Json → Option (Option α)
  | .null => some none
  | j => (read j).map some

def pair? : Json → Option (Json × Json)
  | .array [a, b] => some (a, b)
  | _ => none

/-! ## Records -/

/-- The fields of a record, by name. -/
abbrev Fields := List (String × Json)

/-- The fields of a value that is laid out as a record with the given field names. No known field
may occur twice. -/
def record? (names : List String) : Json → Option Fields
  | .object members =>
    if names.any fun n => (members.filter (·.1 == n)).length > 1 then none else some members
  | .array items => if items.length = names.length then some (names.zip items) else none
  | _ => none

/-- As `record?`, but an array may stop early. -/
def openRecord? (names : List String) : Json → Option Fields
  | .array items => if items.length ≤ names.length then some (names.zip items) else none
  | j => j.record? names

/-- A field that has to be there. -/
def Fields.get? {α : Type} (fields : Fields) (name : String) (read : Json → Option α) : Option α :=
  (fields.lookup name).bind read

/-- A field that may be null or absent. -/
def Fields.option? {α : Type} (fields : Fields) (name : String) (read : Json → Option α) :
    Option (Option α) :=
  ((fields.lookup name).getD .null).nullable? read

/-- A field that has a value when absent. -/
def Fields.getD? {α : Type} (fields : Fields) (name : String) (fallback : α)
    (read : Json → Option α) : Option α :=
  match fields.lookup name with
  | none => some fallback
  | some j => read j

/-! ## Variants -/

/-- The name of a variant and its data. -/
def variant? : Json → Option (String × Option Json)
  | .string s => some (s, none)
  | .object [(s, j)] => some (s, some j)
  | _ => none

/-- The data of a variant that has none. -/
def unit? : Option Json → Option Unit
  | none | some .null => some ()
  | _ => none

/-- The JSON of a variant with data. -/
def variant (name : String) (data : Json) : Json := .object [(name, data)]

def option {α : Type} (write : α → Json) : Option α → Json
  | none => .null
  | some a => write a

def list {α : Type} (write : α → Json) (l : List α) : Json := .array (l.map write)

def nat (n : Nat) : Json := .integer n

end Json

end QuadAlgebra
