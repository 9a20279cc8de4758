import QuadAlgebra.Solution.Basic
import QuadAlgebra.Syntax.Shown

/-!
# Rows

What flows along the edges of a plan: solutions, quads made from templates or rule heads,
facts about named predicates, and changes to a store. Rows are ordered by kind in this order
and then by content.
-/

namespace QuadAlgebra

attribute [local instance] lexOrd

/-! ## Facts -/

/-- A derived statement that a named predicate holds of some terms. -/
structure Fact where
  name : Term
  arguments : List Term
deriving DecidableEq

namespace Fact

/-- What a fact is ordered by. -/
def key (f : Fact) : Term × List Term := (f.name, f.arguments)

/-- Facts with one key are equal. -/
theorem key_injective (a b : Fact) (h : a.key = b.key) : a = b := by
  cases a; cases b; simp_all [key]

instance : Ord Fact := ⟨compareKeys key⟩

instance : Std.TransOrd Fact := compareKeys_trans key

instance : Std.LawfulEqOrd Fact := compareKeys_lawful key key_injective

end Fact

/-! ## Changes -/

/-- A change to a store. -/
inductive Action where
  | insert (quad : Quad)
  | delete (quad : Quad)
  | command (command : GraphCommand)
deriving DecidableEq

namespace Action

/-- What an action is ordered by: first its kind, then its content. -/
def key : Action → Nat × Option Quad × Option GraphCommand
  | .insert q => (0, some q, none)
  | .delete q => (1, some q, none)
  | .command c => (2, none, some c)

/-- Actions with one key are equal. -/
theorem key_injective (a b : Action) (h : a.key = b.key) : a = b := by
  cases a <;> cases b <;> simp_all [key]

instance : Ord Action := ⟨compareKeys key⟩

instance : Std.TransOrd Action := compareKeys_trans key

instance : Std.LawfulEqOrd Action := compareKeys_lawful key key_injective

end Action

/-! ## Rows -/

/-- What flows along the edges of a plan. -/
inductive Row where
  | solution (s : Solution)
  | quad (q : Quad)
  | fact (f : Fact)
  | action (a : Action)
deriving DecidableEq

namespace Row

/-- What a row is ordered by: first its kind, then its content. -/
def key : Row → Nat × Option (List (Variable × Term)) × Option Quad × Option Fact × Option Action
  | .solution s => (0, some s.entries, none, none, none)
  | .quad q => (1, none, some q, none, none)
  | .fact f => (2, none, none, some f, none)
  | .action a => (3, none, none, none, some a)

/-- Rows with one key are equal. -/
theorem key_injective (a b : Row) (h : a.key = b.key) : a = b := by
  cases a <;> cases b <;> simp_all [key]
  exact OrdMap.ext h

instance : Ord Row := ⟨compareKeys key⟩

instance : Std.TransOrd Row := compareKeys_trans key

instance : Std.LawfulEqOrd Row := compareKeys_lawful key key_injective

/-- The solution that a row is, if it is one. -/
def solution? : Row → Option Solution
  | .solution s => some s
  | _ => none

end Row

/-! ## Descriptions -/

namespace Shown

/-- A solution as it is printed. -/
def solution (s : Solution) : String :=
  braces (s.entries.map fun e => var e.1 ++ ": " ++ term e.2)

/-- A fact as it is printed. -/
def fact (f : Fact) : String :=
  fields "Fact" [("name", term f.name), ("arguments", list (f.arguments.map term))]

/-- A command on graphs as it is printed. -/
def graphCommand : GraphCommand → String
  | .load source destination silent =>
    fields "Load" [("source", term source), ("destination", option (destination.map term)),
      ("silent", bool silent)]
  | .clear target silent =>
    fields "Clear" [("target", graphTarget target), ("silent", bool silent)]
  | .create graph silent => fields "Create" [("graph", term graph), ("silent", bool silent)]
  | .drop target silent =>
    fields "Drop" [("target", graphTarget target), ("silent", bool silent)]

/-- An action as it is printed. -/
def action : Action → String
  | .insert q => apply "Insert" [quad q]
  | .delete q => apply "Delete" [quad q]
  | .command c => graphCommand c

/-- A row as it is printed. -/
def row : Row → String
  | .solution s => apply "Solution" [solution s]
  | .quad q => apply "Quad" [quad q]
  | .fact f => apply "Fact" [fact f]
  | .action a => apply "Action" [action a]

end Shown

end QuadAlgebra
