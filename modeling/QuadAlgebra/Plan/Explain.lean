import QuadAlgebra.Plan.Nested

/-!
# The text of a plan

A plan is shown as an indented tree that starts at each result and goes towards the sources. An
operator is printed in full once; later it is only referred to. Feedback edges are shown as
references as well. The root is left out.
-/

namespace QuadAlgebra

/-- What has been printed: the operators, and the text. -/
structure Printout where
  printed : List OperatorId
  text : String

namespace Printout

/-- Adds a line, indented by the given number of levels. -/
def line (p : Printout) (depth : Nat) (s : String) : Printout :=
  { p with text := p.text ++ String.join (List.replicate depth "  ") ++ s ++ "\n" }

end Printout

/-- The lines of a text that ends every line. A carriage return before the end of a line does not
belong to it. -/
def linesOf (s : String) : List String :=
  let dropReturn (line : String) : String :=
    match line.toList.reverse with
    | '\r' :: rest => String.ofList rest.reverse
    | _ => line
  ((s.splitOn "\n").dropLast).map dropReturn

namespace Graph

/-- Prints an operator and what feeds it. Each level of the tree adds an operator to those printed,
so the first argument, which bounds the levels, need not exceed their number. -/
def explainFrom (g : Graph String) : Nat → Nat → Printout → OperatorId → Printout
  | 0, _, p, _ => p
  | levels + 1, depth, p, id =>
    match g.node? id with
    | none => p.line depth ("<removed " ++ idText id ++ ">")
    | some node =>
      if p.printed.contains id then p.line depth ("^ " ++ idText id ++ " (shared)")
      else
        let vars :=
          if node.possible.isEmpty then ""
          else " -> \x7b" ++ Operator.varTexts node.possible.toList ++ "\x7d"
        let p : Printout := { p with printed := id :: p.printed }
        let p := p.line depth (idText id ++ " " ++ node.operator.label ++ vars)
        let p := node.operator.nested.foldl (fun p (place, text) =>
          let p := p.line (depth + 1) ("exists #" ++ place.repr ++ ":")
          (linesOf text).foldl (fun p s => p.line (depth + 2) s) p) p
        let groups := g.operandGroups id
        let many := groups.length > 1 ||
          [Kind.join, .optional, .minus].contains node.operator.kind
        groups.foldl (fun p (operand, inputs) =>
          let p := if many then p.line (depth + 1) ("operand " ++ operand.repr ++ ":") else p
          let depth := if many then depth + 2 else depth + 1
          inputs.foldl (fun p input =>
            if input.feedback then p.line depth ("<~ " ++ idText input.source ++ " (loop)")
            else if input.source = root then p
            else explainFrom g levels depth p input.source) p) p

/-- The text of a graph whose nested plans are given by their texts. A graph without results is
shown from its sinks. -/
def explain (g : Graph String) : String :=
  let sinks := g.ids.filter fun id => (g.succeeding id).isEmpty
  let tops := if g.results.isEmpty then sinks else g.results
  (tops.foldl (explainFrom g (g.slots.length + 2) 0) ⟨[], ""⟩).text

end Graph

/-- The text of a plan. -/
def Plan.explain (p : Plan) : String := p.fold Graph.explain

end QuadAlgebra
