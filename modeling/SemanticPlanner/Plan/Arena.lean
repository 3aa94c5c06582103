/-
The arena: every node of a planning pass, by number.

Each change to a node gives it a fresh version from the arena's clock, so the highest version among a node and its
ancestors (`stamp`) tells whether anything below it has changed since it was last resolved. New parents are refused
if the node is among their ancestors, so no node becomes its own ancestor. A plan is written as a line per node
(`explain`), parents indented below the nodes that read them.
-/
import SemanticPlanner.Environment.Basic
import SemanticPlanner.Order.Reach
import SemanticPlanner.Plan.Node
import SemanticPlanner.Relation.Basic

namespace SemanticPlanner

/-- a node, the time of its last change, and the relation last resolved for it with the stamp it was resolved at -/
structure Slot where
  node : PlanNode
  version : Nat
  memo : Option (Nat × Relation) := none
deriving Inhabited

structure Arena where
  environment : Environment
  slots : Array Slot
  clock : Nat
deriving Inhabited

namespace Arena

def empty (env : Environment) : Arena := ⟨env, #[], 0⟩

def size (a : Arena) : Nat := a.slots.size

def contains (a : Arena) (id : PlanId) : Bool := decide (id.index < a.size)

def slot (a : Arena) (id : PlanId) : Slot := a.slots.getD id.index default

def node (a : Arena) (id : PlanId) : PlanNode := (a.slot id).node

def core (a : Arena) (id : PlanId) : NodeCore := (a.node id).core

def version (a : Arena) (id : PlanId) : Nat := (a.slot id).version

def parents (a : Arena) (id : PlanId) : List PlanId := (a.core id).parents

/-! ## Growth -/

/-- a node put at the end, as it is -/
def append (a : Arena) (node : PlanNode) : PlanId × Arena :=
  (⟨a.size⟩, { a with slots := a.slots.push ⟨node, a.clock + 1, none⟩, clock := a.clock + 1 })

/-- an output that some parent has, and that is partial on each one that has it -/
def isPartialAbove (above : List NodeCore) (address : String) : Bool :=
  let providers := above.filter fun c => c.outputs.contains address
  !providers.isEmpty && providers.all fun c => c.partials.contains address

/-- partial and nullable outputs taken from the parents where the node states none -/
def inheriting (a : Arena) (c : NodeCore) : NodeCore :=
  if c.parents.isEmpty then c
  else
    let above := c.parents.map a.core
    { c with
      partials := if c.partials.isEmpty then c.outputs.filter (isPartialAbove above) else c.partials
      nullables :=
        if c.nullables.isEmpty then c.outputs.filter fun x => above.any fun p => p.nullables.contains x
        else c.nullables }

/-- a new node -/
def insert (a : Arena) (node : PlanNode) : PlanId × Arena := a.append { node with core := a.inheriting node.core }

/-! ## Changes -/

/-- a node's core changed, under a fresh version -/
def change (a : Arena) (id : PlanId) (f : NodeCore → NodeCore) : Arena :=
  { a with
    slots := a.slots.modify id.index fun s =>
      { s with node := { s.node with core := f s.node.core }, version := a.clock + 1 }
    clock := a.clock + 1 }

/-- outputs added, and shown where they were hidden -/
def addOutputs (a : Arena) (id : PlanId) (cs : List String) : Arena :=
  a.change id fun c =>
    { c with outputs := addAllNew c.outputs cs, hidden := c.hidden.filter fun h => !cs.contains h }

/-- the outputs replaced; what stays an output stays hidden if it was -/
def setOutputs (a : Arena) (id : PlanId) (cs : List String) : Arena :=
  a.change id fun c => { c with outputs := distinct cs, hidden := c.hidden.filter cs.contains }

def hideOutputs (a : Arena) (id : PlanId) (cs : List String) : Arena :=
  a.change id fun c => { c with hidden := c.hidden.insertAll (cs.filter c.outputs.contains) }

def showOutputs (a : Arena) (id : PlanId) (cs : List String) : Arena :=
  a.change id fun c => { c with hidden := c.hidden.filter fun h => !cs.contains h }

def removeOutputs (a : Arena) (id : PlanId) (cs : List String) : Arena :=
  a.change id fun c =>
    { c with
      outputs := c.outputs.filter fun x => !cs.contains x
      hidden := c.hidden.filter fun h => !cs.contains h }

def addPartials (a : Arena) (id : PlanId) (cs : List String) : Arena :=
  a.change id fun c => { c with partials := addAllNew c.partials cs }

/-- a condition AND-ed in unless it holds already; the node's rows are then known to satisfy the whole -/
def addCondition (a : Arena) (id : PlanId) (condition : Condition) : Arena :=
  a.change id fun c =>
    let whole :=
      if condition.holdsInOption c.condition then c.condition else some (Condition.conjoin c.condition condition)
    { c with condition := whole, preexisting := whole }

def setPreexisting (a : Arena) (id : PlanId) (condition : Option Condition) : Arena :=
  a.change id fun c => { c with preexisting := condition }

def setForceGroup (a : Arena) (id : PlanId) (forceGroup : Option Bool) : Arena :=
  a.change id fun c => { c with forceGroup }

def setGrain (a : Arena) (id : PlanId) (grain : Option Grain) : Arena := a.change id fun c => { c with grain }

def setWholeGrain (a : Arena) (id : PlanId) (wholeGrain : Bool) : Arena := a.change id fun c => { c with wholeGrain }

def addExistence (a : Arena) (id : PlanId) (cs : List String) : Arena :=
  a.change id fun c => { c with existence := addAllNew c.existence cs }

def setVirtual (a : Arena) (id : PlanId) (cs : List String) : Arena := a.change id fun c => { c with virtual := cs }

/-! ## Ancestors -/

/-- every node reached through parents, the node itself apart -/
def ancestors (a : Arena) (id : PlanId) : SortedSet PlanId :=
  Reach.grow a.parents (a.size + 1) (SortedSet.ofList (a.parents id))

/-- the highest version among a node and its ancestors -/
def stamp (a : Arena) (id : PlanId) : Nat :=
  (a.ancestors id).toList.foldl (fun v p => max v (a.version p)) (a.version id)

/-- more parents, none of which may depend on the node -/
def addParents (a : Arena) (id : PlanId) (ps : List PlanId) : Except PlanningError Arena :=
  if ps.any fun p => p == id || (a.ancestors p).contains id then .error (.cyclicPlan (a.node id).display)
  else .ok (a.change id fun c => { c with parents := addAllNew c.parents ps })

/-! ## Explanation -/

/-- the line of a node: number, kind and outputs, then grain, condition and partial concepts where it has them -/
def line (a : Arena) (depth : Nat) (id : PlanId) : String :=
  let n := a.node id
  let grain := match n.core.grain with
    | some g => " grain=" ++ g.fingerprint
    | none => ""
  let condition := match n.core.condition with
    | some c => " where " ++ c.display
    | none => ""
  let partials := if n.core.partials.isEmpty then "" else " partial=[" ++ Text.join "," n.core.partials ++ "]"
  Text.join "" (List.replicate depth "  ") ++ id.display ++ " " ++ n.display ++ grain ++ condition ++ partials

def linesFrom (a : Arena) : Nat → Nat → PlanId → List String
  | 0, _, _ => []
  | fuel + 1, depth, id => a.line depth id :: (a.parents id).flatMap (linesFrom a fuel (depth + 1))

/-- the lines of a node and everything below it; a node read twice is shown twice -/
def explain (a : Arena) (id : PlanId) : List String := a.linesFrom (a.size + 1) 0 id

end Arena

end SemanticPlanner
