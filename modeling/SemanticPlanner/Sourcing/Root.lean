/-
Sourcing roots and constants that no single match of datasources provides.

Roots asked for along with derived companions, and a constant asked for along with anything else, are searched for
together with them. Otherwise a bridge is looked for, then pseudonyms are tried, and constants can stand alone.
-/
import SemanticPlanner.Sourcing.Bridged
import SemanticPlanner.Sourcing.Synonym

namespace SemanticPlanner.Root

/-- the targets have to be searched for together -/
def needsRowContext (targets : List Concept) : Bool :=
  match targets with
  | [] => false
  | first :: rest =>
    !targets.all Concept.isPlain
      || (decide (first.derivation = .constant) && rest.any fun c => decide (c.derivation ≠ .constant))

/-- what a bridged node keeps: the targets, and pseudonyms that stand for one -/
def keptOutputs (targets : List Concept) (outputs : List String) : List String :=
  outputs.filter fun o => targets.any fun t => t.address == o || t.pseudonyms.contains o

/-- pseudonyms that stand for a target which is there itself -/
def redundantOutputs (targets : List Concept) (outputs : List String) : List String :=
  outputs.filter fun o =>
    !(targets.any fun t => t.address == o) &&
      (targets.find? fun t => t.pseudonyms.contains o).any fun t => outputs.contains t.address

/-- a bridged node cut down to the targets -/
def restrict (id : PlanId) (targets : List Concept) : Planning Unit := do
  let outputs := (← Planning.core id).outputs
  Planning.edit fun a =>
    (a.setOutputs id (keptOutputs targets outputs)).hideOutputs id (redundantOutputs targets outputs)

/-- a bridge over complete sources, or else over partial ones where those are accepted -/
def bridged (search : Search) (r : Request) : Planning (Option PlanId) := do
  match ← Bridged.source search { r with acceptPartial := false } with
  | some id => pure (some id)
  | none => if r.acceptPartial then Bridged.source search r else pure none

/-- pseudonyms in the place of targets, unless the same search is under way -/
def synonyms (search : Search) (r : Request) : Planning (Option PlanId) := do
  let p ← get
  if r.acceptPartial && p.settings.synonymFallback && !p.history.isStarted r.key then
    Planning.during r.key (Synonym.source search r)
  else pure none

/-- constants alone -/
def constants (r : Request) : Planning (Option PlanId) := do
  if r.concepts.all fun c => decide (c.derivation = .constant) then
    some <$> Planning.insert .constant ((NodeCore.of [] (Concept.addresses r.concepts)).withDepth r.depth)
  else pure none

/-- the targets searched for together, unless they are being searched for already -/
def together (search : Search) (r : Request) : Planning (Option PlanId) := do
  if (← get).history.isStarted r.key then pure none
  else Planning.during r.key (search { r with condition := none })

def source (search : Search) : Search := fun r => do
  if needsRowContext r.concepts then return ← together search r
  match ← bridged search r with
  | some id =>
    restrict id r.concepts
    pure (some id)
  | none =>
    match ← synonyms search r with
    | some id => pure (some id)
    | none => constants r

end SemanticPlanner.Root
