/-
Plans as they are printed on a command line.
-/
import SemanticPlanner.Cte.Plan
import SemanticPlanner.Json.Printer
import SemanticPlanner.Search.Query
import SemanticPlanner.Text.Split

namespace SemanticPlanner

/-- the lines of a step: its name and kind, then what it reads, hands on and does to its rows -/
def Cte.listing (c : Cte) (isRoot : Bool) : List String :=
  let sources := c.datasources.map Datasource.identifier
  [c.name ++ " [" ++ c.kind.name ++ "]" ++ (if isRoot then " (root)" else "")]
    ++ (if c.parents.isEmpty then [] else ["  from: " ++ Text.join ", " c.parents])
    ++ (if sources.isEmpty then [] else ["  datasources: " ++ Text.join ", " sources])
    ++ ["  columns: " ++ Text.join ", " c.visible, "  grain: " ++ c.grain.display]
    ++ (if c.grouped then ["  grouped"] else [])
    ++ (match c.condition with
      | some x => ["  where: " ++ x.display]
      | none => [])
    ++ c.constants.toList.map fun e => "  constant: " ++ e.1 ++ " = " ++ e.2.display

def CtePlan.listing (p : CtePlan) : List String := p.ctes.flatMap fun c => c.listing (c.name == p.root)

/-- the lines of a plan tree, with an empty one after them -/
def QueryPlan.listing (p : QueryPlan) : List String := p.explain ++ [""]

end SemanticPlanner
