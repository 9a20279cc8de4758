import QuadAlgebra.Compilation
import QuadAlgebra.Proofs.Planning.Groups
import QuadAlgebra.Proofs.Planning.Paths
import QuadAlgebra.Semantics.Plan
import QuadAlgebra.Syntax.Build
import QuadAlgebra.Syntax.OfJson
import QuadAlgebra.Syntax.ToJson
import QuadAlgebra.Proofs.Typing.Documents
import QuadAlgebra.Proofs.Updates.Operations
import QuadAlgebra.Proofs.Optimization.Documents
import QuadAlgebra.Proofs.Variables.Bounds
import QuadAlgebra.Proofs.Variables.Certain
import QuadAlgebra.Proofs.Variables.Recasting
import QuadAlgebra.Proofs.Variables.Replacing
import QuadAlgebra.Proofs.Modifiers.Aggregates
import QuadAlgebra.Proofs.Modifiers.Dependencies
import QuadAlgebra.Proofs.Modifiers.Extraction
import QuadAlgebra.Proofs.Modifiers.Ordering
import QuadAlgebra.Proofs.Plan.Symmetry
import QuadAlgebra.Proofs.Optimization.Extents
import QuadAlgebra.Proofs.Store.Invariants
import QuadAlgebra.Proofs.Scope.Labels
import QuadAlgebra.Proofs.Scope.Paths
import QuadAlgebra.Proofs.Scope.Patterns
import QuadAlgebra.Proofs.Scope.Rows
import QuadAlgebra.Proofs.Modifiers.Arrangements
import QuadAlgebra.Proofs.Modifiers.Schedules
import QuadAlgebra.Proofs.Modifiers.Selections
import QuadAlgebra.Proofs.Modifiers.Sorting
import QuadAlgebra.Proofs.Number.Integers
import QuadAlgebra.Proofs.Variables.Copying
import QuadAlgebra.Proofs.Variables.Extending
import QuadAlgebra.Proofs.Variables.Rewriting
import QuadAlgebra.Proofs.Variables.Sketches
import QuadAlgebra.Proofs.Capabilities.Documents
import QuadAlgebra.Proofs.Equivalence.Conditions
import QuadAlgebra.Proofs.Equivalence.Equalities
import QuadAlgebra.Proofs.Equivalence.MergedScans
import QuadAlgebra.Proofs.Equivalence.PushedFilters
import QuadAlgebra.Proofs.Equivalence.RenamedScans
import QuadAlgebra.Proofs.Equivalence.Specializations
import QuadAlgebra.Proofs.Equivalence.Splits
import QuadAlgebra.Proofs.Equivalence.Unions
import QuadAlgebra.Proofs.Variables.Documents
import QuadAlgebra.Proofs.Planning.Duplicates
import QuadAlgebra.Proofs.Planning.Reuse
import QuadAlgebra.Proofs.Rules.Models
import QuadAlgebra.Proofs.Agreement.Grades
import QuadAlgebra.Proofs.Agreement.Copies
import QuadAlgebra.Proofs.Agreement.Removals
import QuadAlgebra.Proofs.Agreement.Sinks
import QuadAlgebra.Proofs.Agreement.Rewriting
import QuadAlgebra.Proofs.Agreement.Plans
import QuadAlgebra.Proofs.Agreement.Threads
import QuadAlgebra.Proofs.Agreement.Queries
import QuadAlgebra.Proofs.Plan.Analyses
import QuadAlgebra.Proofs.Plan.Outlines
import QuadAlgebra.Proofs.Semantics.Orders
import QuadAlgebra.Proofs.Updates.Blanks
