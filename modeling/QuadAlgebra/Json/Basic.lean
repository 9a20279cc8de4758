/-!
# JSON values and their texts

A value keeps the members of an object in written order, repetitions included, and tells whole
numbers from all others. Two printers are given: a compact one and one that indents by two
spaces.
-/

namespace QuadAlgebra

inductive Json where
  | null
  | bool (b : Bool)
  /-- A number written without point and exponent. -/
  | integer (n : Int)
  /-- Any other number, by its text. -/
  | real (text : String)
  | string (s : String)
  | array (items : List Json)
  | object (members : List (String × Json))
  /-- A string with half of a surrogate pair, or an object with a member of such a name. Nothing
  can be read from it; it is written as null. -/
  | illegible
deriving Inhabited

namespace Json

/-! ## Strings -/

/-- A character inside a JSON string. Only quotes, backslashes and control characters are
escaped. -/
def escapeChar (c : Char) : String :=
  if c = '"' then "\\\""
  else if c = '\\' then "\\\\"
  else if c = '\x08' then "\\b"
  else if c = '\t' then "\\t"
  else if c = '\n' then "\\n"
  else if c = '\x0c' then "\\f"
  else if c = '\r' then "\\r"
  else if c.toNat < 0x20 then
    let digits := Nat.toDigits 16 c.toNat
    "\\u" ++ String.ofList (List.replicate (4 - digits.length) '0' ++ digits)
  else c.toString

def quote (s : String) : String := "\"" ++ String.join (s.toList.map escapeChar) ++ "\""

/-! ## Compact text -/

mutual

def compact : Json → String
  | .null | .illegible => "null"
  | .bool b => if b then "true" else "false"
  | .integer n => n.repr
  | .real s => s
  | .string s => quote s
  | .array items => "[" ++ ",".intercalate (compactItems items) ++ "]"
  | .object members => "\x7b" ++ ",".intercalate (compactMembers members) ++ "\x7d"

def compactItems : List Json → List String
  | [] => []
  | j :: rest => j.compact :: compactItems rest

def compactMembers : List (String × Json) → List String
  | [] => []
  | (k, j) :: rest => (quote k ++ ":" ++ j.compact) :: compactMembers rest

end

/-! ## Indented text -/

/-- Lines of a bracketed list at some depth; an empty list stays on one line. -/
def block (depth : Nat) (left right : String) (items : List String) : String :=
  if items.isEmpty then left ++ right
  else
    let indent := String.join (List.replicate depth "  ")
    let lines := ",\n".intercalate (items.map fun s => indent ++ "  " ++ s)
    left ++ "\n" ++ lines ++ "\n" ++ indent ++ right

mutual

/-- The text of a value that starts on a line of the given depth. -/
def indented (depth : Nat) : Json → String
  | .null | .illegible => "null"
  | .bool b => if b then "true" else "false"
  | .integer n => n.repr
  | .real s => s
  | .string s => quote s
  | .array items => block depth "[" "]" (indentedItems (depth + 1) items)
  | .object members => block depth "\x7b" "\x7d" (indentedMembers (depth + 1) members)

def indentedItems (depth : Nat) : List Json → List String
  | [] => []
  | j :: rest => j.indented depth :: indentedItems depth rest

def indentedMembers (depth : Nat) : List (String × Json) → List String
  | [] => []
  | (k, j) :: rest => (quote k ++ ": " ++ j.indented depth) :: indentedMembers depth rest

end

/-- The text with two spaces per level. -/
def pretty (j : Json) : String := j.indented 0

/-! ## Nesting and repetition -/

mutual

/-- The number of levels of a value. -/
def depth : Json → Nat
  | .array items => depthItems items + 1
  | .object members => depthMembers members + 1
  | _ => 1

def depthItems : List Json → Nat
  | [] => 0
  | j :: rest => max j.depth (depthItems rest)

def depthMembers : List (String × Json) → Nat
  | [] => 0
  | (_, j) :: rest => max j.depth (depthMembers rest)

end

mutual

/-- Keeps only the last member of every name, at all levels. -/
def dedup : Json → Json
  | .array items => .array (dedupItems items)
  | .object members => .object (dedupMembers members)
  | j => j

def dedupItems : List Json → List Json
  | [] => []
  | j :: rest => j.dedup :: dedupItems rest

def dedupMembers : List (String × Json) → List (String × Json)
  | [] => []
  | (k, j) :: rest =>
    let later := dedupMembers rest
    if later.any (·.1 == k) then later else (k, j.dedup) :: later

end

end Json

end QuadAlgebra
