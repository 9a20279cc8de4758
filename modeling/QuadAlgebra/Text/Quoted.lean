import QuadAlgebra.Text.Hidden

/-!
# Quoted text

How texts and compound values are shown in descriptions: a text between double quotes with
hidden characters by number, a constructor with its arguments in parentheses, a record with
its named fields in braces, lists in brackets.
-/

namespace QuadAlgebra

namespace Shown

/-- A character inside quotes. -/
def char (c : Char) : String :=
  if c = '"' then "\\\""
  else if c = '\\' then "\\\\"
  else if c = '\n' then "\\n"
  else if c = '\r' then "\\r"
  else if c = '\t' then "\\t"
  else if c = '\x00' then "\\0"
  else if isHidden c then "\\u\x7b" ++ String.ofList (Nat.toDigits 16 c.toNat) ++ "\x7d"
  else c.toString

def text (s : String) : String := "\"" ++ String.join (s.toList.map char) ++ "\""

def bool (b : Bool) : String := if b then "true" else "false"

def list (items : List String) : String := "[" ++ ", ".intercalate items ++ "]"

/-- A constructor applied to arguments. -/
def apply (name : String) (arguments : List String) : String :=
  name ++ "(" ++ ", ".intercalate arguments ++ ")"

/-- A constructor with named fields. -/
def fields (name : String) (members : List (String × String)) : String :=
  let shown := members.map fun m => m.1 ++ ": " ++ m.2
  name ++ " \x7b " ++ ", ".intercalate shown ++ " \x7d"

def option : Option String → String
  | none => "None"
  | some s => apply "Some" [s]

/-- The members of a set or the entries of a map. -/
def braces (items : List String) : String := "\x7b" ++ ", ".intercalate items ++ "\x7d"

end Shown

end QuadAlgebra
