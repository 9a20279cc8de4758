import QuadAlgebra.Error
import QuadAlgebra.Json.Reader
import QuadAlgebra.Json.Record

/-!
# Configuration

What the evaluator of the plans can do, how plans are optimized, and whether paths remove
repeated pairs. A configuration is also a JSON document in which every part that is left out
has its default.
-/

namespace QuadAlgebra

/-- What an evaluator can run. -/
structure Capabilities where
  namedGraphs : Bool
  streaming : Bool
  federation : Bool
deriving DecidableEq

namespace Capabilities

/-- All capabilities. -/
def full : Capabilities := ⟨true, true, true⟩

/-- The abilities of an evaluator of one local graph. -/
def localOnly : Capabilities := ⟨false, false, false⟩

end Capabilities

/-- How the optimizer runs. -/
structure OptimizerConfig where
  enabled : Bool
  /-- The number of passes after which the optimizer gives up. -/
  maxPasses : Nat
  /-- The names of the rules that are left out. -/
  disabledRules : List String
deriving DecidableEq

namespace OptimizerConfig

/-- The optimizer with all rules, for up to 64 passes. -/
def standard : OptimizerConfig := ⟨true, 64, []⟩

/-- Whether a rule may be applied. -/
def allows (c : OptimizerConfig) (rule : String) : Bool :=
  c.enabled && !c.disabledRules.contains rule

end OptimizerConfig

/-- What a translation may use and how it is optimized. -/
structure Config where
  capabilities : Capabilities
  optimizer : OptimizerConfig
  /-- Whether unions and loops of paths remove repeated pairs. -/
  distinctPaths : Bool
deriving DecidableEq

namespace Config

/-- Everything is allowed and optimized. -/
def standard : Config := ⟨.full, .standard, true⟩

/-- The same configuration with the optimizer off. -/
def withoutOptimizer (c : Config) : Config :=
  { c with optimizer := { c.optimizer with enabled := false } }

end Config

/-! ## JSON -/

def Capabilities.toJson (c : Capabilities) : Json :=
  .object [("named_graphs", .bool c.namedGraphs), ("streaming", .bool c.streaming),
    ("federation", .bool c.federation)]

def OptimizerConfig.toJson (c : OptimizerConfig) : Json :=
  .object [("enabled", .bool c.enabled), ("max_passes", Json.nat c.maxPasses),
    ("disabled_rules", Json.list .string c.disabledRules)]

def Config.toJson (c : Config) : Json :=
  .object [("capabilities", c.capabilities.toJson), ("rewrite", c.optimizer.toJson),
    ("distinct_paths", .bool c.distinctPaths)]

def Capabilities.ofJson? (j : Json) : Option Capabilities := do
  let fields ← j.openRecord? ["named_graphs", "streaming", "federation"]
  return ⟨← fields.getD? "named_graphs" true Json.bool?,
    ← fields.getD? "streaming" true Json.bool?, ← fields.getD? "federation" true Json.bool?⟩

def OptimizerConfig.ofJson? (j : Json) : Option OptimizerConfig := do
  let fields ← j.openRecord? ["enabled", "max_passes", "disabled_rules"]
  return ⟨← fields.getD? "enabled" true Json.bool?, ← fields.getD? "max_passes" 64 Json.count?,
    ← fields.getD? "disabled_rules" [] (Json.list? Json.string?)⟩

def Config.ofJson? (j : Json) : Option Config := do
  let fields ← j.openRecord? ["capabilities", "rewrite", "distinct_paths"]
  return ⟨← fields.getD? "capabilities" .full Capabilities.ofJson?,
    ← fields.getD? "rewrite" .standard OptimizerConfig.ofJson?,
    ← fields.getD? "distinct_paths" true Json.bool?⟩

/-- Reads a configuration document. -/
def Config.ofJsonText (text : String) : Except Error Config :=
  match (Json.read? text).bind Config.ofJson? with
  | some c => .ok c
  | none => .error (.internal .unreadableConfiguration)

/-- The configuration document, indented. -/
def Config.toJsonText (c : Config) : String := c.toJson.pretty

end QuadAlgebra
