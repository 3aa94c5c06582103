/-
Plans of named steps, one of which is the root.

Steps the root does not read are left out by `prune`; `reorder` lists every step after the steps it reads. The
topological sort behind it is a parameter of `reorderBy`.
-/
import SemanticPlanner.Cte.Basic
import SemanticPlanner.Environment.Basic
import SemanticPlanner.Order.Reach
import SemanticPlanner.Order.Topological

namespace SemanticPlanner

/-- the steps of a plan and the name of the one whose rows are the result -/
structure CtePlan where
  ctes : List Cte
  root : String
deriving Inhabited

/-- the names of the steps that read a step -/
abbrev Readers := NameMap (List String)

namespace CtePlan

instance : BEq CtePlan := ⟨fun p q => p.ctes == q.ctes && p.root == q.root⟩

/-- the step of a name, the first of several -/
def find? (p : CtePlan) (name : String) : Option Cte := p.ctes.find? fun c => c.name == name

def rootCte (p : CtePlan) : Option Cte := p.find? p.root

def names (p : CtePlan) : List String := p.ctes.map Cte.name

/-- a function applied to the first step of a name -/
def modifyIn (name : String) (f : Cte → Cte) : List Cte → List Cte
  | [] => []
  | c :: cs => if c.name = name then f c :: cs else c :: modifyIn name f cs

/-- the step of a name changed -/
def modify (p : CtePlan) (name : String) (f : Cte → Cte) : CtePlan := { p with ctes := modifyIn name f p.ctes }

/-- the readers of every step that is read -/
def readers (p : CtePlan) : Readers :=
  p.ctes.foldl (fun m c => c.parents.foldl (fun m q => m.update q [] fun l => addNew l c.name) m) ∅

/-- the readers of one step -/
def readersOf (m : Readers) (name : String) : List String := m.getD name []

def parentsOf (p : CtePlan) (name : String) : List String :=
  match p.find? name with
  | some c => c.parents
  | none => []

/-- the names that the root reads, itself included -/
def reachable (p : CtePlan) : NameSet := Reach.grow p.parentsOf (p.ctes.length + 2) (SortedSet.singleton p.root)

/-- the plan without the steps that its root does not read -/
def prune (p : CtePlan) : CtePlan :=
  let kept := p.reachable
  { p with ctes := p.ctes.filter fun c => kept.contains c.name }

/-- the position of a step, the last of several of one name -/
def position (p : CtePlan) (name : String) : Option Nat :=
  ((p.ctes.zipIdx.filter fun e => e.1.name == name).getLast?).map Prod.snd

/-- an edge from each parent to the step that reads it -/
def edges (p : CtePlan) : List Topological.Edge :=
  p.ctes.flatMap fun c => c.parents.filterMap fun q =>
    match p.position q, p.position c.name with
    | some i, some j => some (i, j)
    | _, _ => none

/-- the steps listed parents first, by a topological sort -/
def reorderBy (sort : Topological.Sorting) (p : CtePlan) : Except PlanningError CtePlan :=
  match sort p.ctes.length p.edges with
  | .ok positions => .ok { p with ctes := positions.filterMap fun i => p.ctes[i]? }
  | .error i => .error (.cyclicPlan ((p.ctes[i]?).map Cte.name |>.getD ""))

def reorder (p : CtePlan) : Except PlanningError CtePlan := p.reorderBy Topological.order

end CtePlan

/-! ## As JSON -/

def CteJoin.toJson : CteJoin → Json
  | .base left right kind keys =>
    .object [("kind", .text "base"), ("left", Json.optional .text left), ("right", .text right),
      ("join_type", .text kind.name), ("keys", .array (keys.map fun k => Json.texts [k.1, k.2]))]
  | .unnest j => .object [("kind", .text "unnest"), ("concepts", Json.texts j.concepts), ("alias", .text j.label)]

def Cte.toJson (c : Cte) : Json :=
  .object [("name", .text c.name), ("source_type", .text c.kind.name), ("parent_ctes", Json.texts c.parents),
    ("datasources", .array (c.datasources.map Datasource.toJson)),
    ("source_map", .object (c.sourceMap.toList.map fun e => (e.1, Json.texts e.2))),
    ("input_concepts", Json.texts c.inputs), ("output_columns", Json.texts c.outputs),
    ("hidden_concepts", Json.texts c.hidden.toList), ("partial_concepts", Json.texts c.partials),
    ("nullable_concepts", Json.texts c.nullables), ("grain", c.grain.toJson), ("group_to_grain", .bool c.grouped),
    ("joins", .array (c.joins.map CteJoin.toJson)), ("condition", Json.optional Condition.toJson c.condition),
    ("inlined_constants", .object (c.constants.toList.map fun e => (e.1, e.2.toJson)))]

def CtePlan.toJson (p : CtePlan) : Json :=
  .object [("ctes", .array (p.ctes.map Cte.toJson)), ("root", .text p.root)]

end SemanticPlanner
