/-
Resolving a plan node, given its resolved parents, into a relation.

Each kind of node has its rule. A merge puts parents of one identifier together, drops parents that a sibling covers,
hands back a parent that already is what it asks for, and else joins its parents. A group applies a condition on
aggregates in a layer of its own above the grouping.
-/
import SemanticPlanner.Environment.Scalar
import SemanticPlanner.Plan.JoinOrder
import SemanticPlanner.Relation.ConceptMap
import SemanticPlanner.Relation.Grouping
import SemanticPlanner.Relation.Identifier
import SemanticPlanner.Relation.NodeJoins

namespace SemanticPlanner.Resolve

/-- inputs, and concepts read by membership tests -/
def inherited (c : NodeCore) : List String := addAllNew c.inputs c.existence

/-- the rule of filters, windows, recursions and unions -/
def base (env : Environment) (c : NodeCore) (sources : List RelationSource) (kind : SourceKind) :
    Except PlanningError Relation := do
  let grain ← match c.grain with
    | some g => pure g
    | none => env.grainOf c.outputs
  pure
    { identifier := Relation.identifierOf kind.name sources grain c.condition
      kind
      inputs := c.inputs
      outputs := c.outputs
      hidden := c.hidden
      partials := c.partials
      nullables := c.nullables
      sources
      conceptMap := ConceptMap.resolve sources c.outputs (inherited c) []
      joins := []
      grain
      condition := c.condition
      forceGroup := c.forceGroup }

def constant (c : NodeCore) : Relation :=
  { identifier := Relation.identifierOf "constant" [] Grain.single c.condition
    kind := .constant
    inputs := []
    outputs := c.outputs
    hidden := c.hidden
    partials := []
    nullables := []
    sources := []
    conceptMap := SortedMap.ofList (c.outputs.map fun a => (a, ∅))
    joins := []
    grain := Grain.single
    condition := c.condition
    forceGroup := none }

/-! ## Selects -/

/-- a concept that a select may compute itself -/
def isComputable (c : Concept) : Bool :=
  match c.derivation with
  | .multiselect => true
  | .filter => true
  | .basic => true
  | .rowset => true
  | _ => false

/-- an output of a select recorded: read from the datasource, or computed here -/
def addSelected (d : Datasource) (m : NameMap NameSet) (c : Concept) : NameMap NameSet :=
  if m.contains c.address then m
  else if d.provides c.address then m.insert c.address (SortedSet.singleton d.identifier)
  else if isComputable c then m.insert c.address ∅
  else m

/-- a parent's concept recorded where the datasource has nothing for it -/
def addFromParent (m : NameMap NameSet) (e : String × NameSet) : NameMap NameSet :=
  if !e.2.isEmpty && !m.contains e.1 then m.insert e.1 e.2 else m

def select (env : Environment) (c : NodeCore) (d : Datasource) (parents : List RelationSource) :
    Except PlanningError Relation := do
  let outputs ← env.conceptsFor c.outputs
  if !outputs.isEmpty && outputs.all fun o => decide (o.derivation = .constant) then return constant c
  let own := SortedMap.ofList (c.inputs.map fun a => (a, SortedSet.singleton d.identifier))
  let own := outputs.foldl (addSelected d) own
  -- without grouping the rows stay at the datasource's grain
  let grain := match c.forceGroup, c.grain with
    | some false, _ => d.grain
    | _, none => d.grain
    | _, some g => g
  let conceptMap :=
    if parents.isEmpty then own
    else (ConceptMap.resolve parents c.outputs (inherited c) []).toList.foldl addFromParent own
  let sources := .datasource d :: parents
  pure
    { identifier := Relation.identifierOf "select" sources grain c.condition
      kind := .select
      inputs := c.inputs
      outputs := c.outputs
      hidden := c.hidden
      partials := c.partials
      nullables := c.nullables
      sources
      conceptMap
      joins := []
      grain
      condition := c.condition
      forceGroup := c.forceGroup }

/-! ## Groups -/

/-- the grouping itself, with any condition on its rows -/
def grouped (c : NodeCore) (parents : List RelationSource) (v : Grouping.Verdict) : Relation :=
  let kind := if !v.required && c.forceGroup != some true then SourceKind.select else .group
  let targets := match c.condition with
    | some condition => addAllNew c.outputs condition.concepts
    | none => c.outputs
  let conceptMap := ConceptMap.resolve parents targets (inherited c) []
  let nullables := ConceptMap.nullables conceptMap parents []
  { identifier := Relation.identifierOf kind.name parents v.target c.condition
    kind
    inputs := c.inputs
    outputs := c.outputs
    hidden := c.hidden
    partials := c.partials
    nullables := c.outputs.filter nullables.contains
    sources := parents
    conceptMap
    joins := []
    grain := v.target
    condition := c.condition
    forceGroup := c.forceGroup }

/-- the grouping without its condition, showing what the condition reads -/
def bare (g : Relation) (condition : Condition) : Relation :=
  let outputs := addAllNew g.outputs condition.rowArguments
  { g with
    condition := none
    outputs
    hidden := g.hidden.filter fun h => !outputs.contains h
    identifier := Relation.identifierOf g.kind.name g.sources g.grain none }

/-- the condition applied in a layer above the grouping -/
def filtered (c : NodeCore) (below : Relation) (condition : Condition) : Relation :=
  let sources := [RelationSource.query below]
  { identifier := Relation.identifierOf "select" sources below.grain (some condition)
    kind := .select
    inputs := below.outputs
    outputs := c.outputs
    hidden := c.hidden
    partials := c.partials
    nullables := below.nullables
    sources
    conceptMap := ConceptMap.resolve sources c.outputs below.outputs []
    joins := []
    grain := below.grain
    condition := some condition
    forceGroup := none }

def group (env : Environment) (c : NodeCore) (parents : List RelationSource) : Except PlanningError Relation := do
  let v ← Grouping.check env c.outputs parents
  let g := grouped c parents v
  match c.condition with
  | none => pure g
  | some condition =>
    if condition.isScalar env ∅ then pure g else pure (filtered c (bare g condition) condition)

/-! ## Unnests -/

/-- the name of an array expansion -/
def unnestLabel (concepts : List String) : String :=
  "unnest_" ++ Text.join "_" (SortedSet.ofList (concepts.map Address.underscored)).toList

def unnest (env : Environment) (c : NodeCore) (concepts : List String) (parents : List RelationSource) :
    Except PlanningError Relation := do
  let r ← base env c parents .unnest
  let label := unnestLabel concepts
  pure
    { r with
      joins := r.joins ++ [.unnest ⟨concepts, label⟩]
      conceptMap := concepts.foldl (fun m a => m.insert a (SortedSet.singleton label)) r.conceptMap }

/-! ## Merges -/

/-- a source added to a list, put together with the one of its identifier; datasources are never put together -/
def addParent : List RelationSource → RelationSource → List RelationSource
  | [], s => [s]
  | m :: rest, s =>
    if m.identifier = s.identifier then
      match m, s with
      | .query a, .query b => .query (a.mergedWith b) :: rest
      | _, _ => m :: rest
    else m :: addParent rest s

def completeOutputs (s : RelationSource) : NameSet :=
  SortedSet.ofList (s.outputs.filter fun c => !s.partials.contains c)

/-- a complete and unconditional source whose outputs and grain another such source has too -/
def isCovered (a b : RelationSource) : Bool :=
  (completeOutputs a).isSubset (completeOutputs b) && a.grain.isSubset b.grain && a.partials.isEmpty
    && b.partials.isEmpty && a.condition.isNone && b.condition.isNone

/-- the position of the first source that another one covers -/
def coveredAt (sources : List RelationSource) : Option Nat :=
  let numbered := sources.zipIdx
  (numbered.find? fun (a, i) => numbered.any fun (b, j) => i != j && isCovered a b).map Prod.snd

/-- the sources that no other one covers, dropping one at a time -/
def dropCovered : Nat → List RelationSource → List RelationSource
  | 0, sources => sources
  | fuel + 1, sources =>
    match coveredAt sources with
    | some i => dropCovered fuel (sources.eraseIdx i)
    | none => sources

/-- the identifiers of the sources that are dropped -/
def droppedIds : Nat → List RelationSource → List String
  | 0, _ => []
  | fuel + 1, sources =>
    match coveredAt sources with
    | some i => ((sources[i]?).map RelationSource.identifier).toList ++ droppedIds fuel (sources.eraseIdx i)
    | none => []

/-- an explicit join with the identifiers that its two sides resolve to -/
structure NamedJoin where
  join : NodeJoin
  left : String
  right : String

def fullJoins (sources : List RelationSource) : List RelationJoin :=
  match sources with
  | [] => []
  | first :: rest => rest.map fun s => .base ⟨some first.identifier, s.identifier, .full, []⟩

/-- the identifier a joined node resolves to -/
def idOf (joins : List NamedJoin) (id : PlanId) : String :=
  match joins.find? fun j => j.join.left == id || j.join.right == id with
  | some j => if j.join.left == id then j.left else j.right
  | none => ""

def explicitJoins (joins : List NamedJoin) : Except PlanningError (List RelationJoin) := do
  let ordered ← JoinOrder.order (joins.map NamedJoin.join)
  pure (ordered.map fun j =>
    let left := idOf joins j.left
    .base ⟨some left, idOf joins j.right, j.kind, j.concepts.map fun c => ⟨c, c, left⟩⟩)

/-- the joins of a merge's sources, those of finer grain first -/
def mergeJoins (env : Environment) (sources : List RelationSource) (explicit : Option (List NamedJoin))
    (pregrain : Grain) : Except PlanningError (List RelationJoin) :=
  let ordered := sortBy (fun a b => decide (b.grain.size ≤ a.grain.size)) sources
  match explicit with
  | none =>
    if pregrain.isAbstract then pure (fullJoins ordered)
    else pure ((NodeJoins.infer env ordered).map .base)
  | some [] => pure []
  | some joins => explicitJoins joins

/-- a parent that is what the merge asks for: a single one with the same outputs, or one that has every output -/
def passThrough (c : NodeCore) (merged : List RelationSource) : Option Relation :=
  if c.condition.isSome then none
  else
    let covering := merged.findSome? fun s =>
      match s with
      | .query r => if c.outputs.all r.complete.contains then some r else none
      | .datasource _ => none
    match merged with
    | [.query r] =>
      if SortedSet.ofList r.outputs = SortedSet.ofList c.outputs then some r else covering
    | _ => covering

/-- a source that is read by membership tests only -/
def isExistenceOnly (c : NodeCore) (s : RelationSource) : Bool :=
  !s.outputs.isEmpty && !c.existence.isEmpty && s.outputs.all c.existence.contains

/-- whether a merge groups its rows -/
def mergeForceGroup (c : NodeCore) (merged : List RelationSource) (grain pregrain : Grain) : Option Bool :=
  if c.wholeGrain || c.forceGroup == some false then some false
  else if !(merged.any fun s => s.grain.isSubset grain) && !pregrain.isSubset grain then some true
  else none

/-- the keys of full joins, which every source provides -/
def fullJoinKeys (joins : List RelationJoin) : List String :=
  ((joins.filterMap RelationJoin.base?).filter fun j => decide (j.kind = .full)).flatMap BaseJoin.keys

def merge (env : Environment) (c : NodeCore) (explicit : Option (List NamedJoin)) (parents : List RelationSource) :
    Except PlanningError Relation := do
  let combined := parents.foldl addParent []
  let merged := dropCovered combined.length combined
  let dropped := droppedIds combined.length combined
  let explicit := explicit.map fun js => js.filter fun j =>
    j.left != j.right && !dropped.contains j.left && !dropped.contains j.right
  match passThrough c merged with
  | some r => pure r
  | none =>
    let pregrain := Grain.unionAll (merged.map RelationSource.grain)
    let grain := c.grain.getD pregrain
    let rows := merged.filter fun s => !isExistenceOnly c s
    let joins ← if rows.length > 1 then mergeJoins env rows explicit pregrain else pure []
    let conceptMap := ConceptMap.resolve merged c.outputs (inherited c) (fullJoinKeys joins)
    let nullables := ConceptMap.nullables conceptMap merged joins
    pure
      { identifier := Relation.identifierOf "merge" merged grain c.condition
        kind := .merge
        inputs := c.inputs
        outputs := c.outputs
        hidden := c.hidden
        partials := c.partials
        nullables := c.outputs.filter nullables.contains
        sources := merged
        conceptMap
        joins
        grain
        condition := c.condition
        forceGroup := mergeForceGroup c merged grain pregrain }

/-! ## Every kind -/

/-- the relation of a node, given its resolved parents and its explicit joins by identifier -/
def node (env : Environment) (n : PlanNode) (parents : List Relation) (explicit : List NamedJoin) :
    Except PlanningError Relation :=
  let sources := parents.map RelationSource.query
  match n.kind with
  | .select d _ => select env n.core d sources
  | .constant => pure (constant n.core)
  | .group => group env n.core sources
  | .merge joins => merge env n.core (joins.map fun _ => explicit) sources
  | .unnest concepts => unnest env n.core concepts sources
  | .filter => base env n.core sources .filter
  | .window => base env n.core sources .window
  | .recursive => base env n.core sources .recursive
  | .union => base env n.core sources .union

end SemanticPlanner.Resolve
