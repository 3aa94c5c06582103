/-
The environment: the concepts and datasources that a query is planned against.

Declarations go through the `declare` functions, which compute purpose, grain and granularity of a derived concept
from the concepts its lineage reads. Each returns the changed environment; `declareMultiselect` is the one that can
have declared some concepts before it fails, so it returns the environment with its outcome.
-/
import SemanticPlanner.Error
import SemanticPlanner.Concept.Datasource

namespace SemanticPlanner

structure Environment where
  concepts : NameMap Concept
  datasources : NameMap Datasource
deriving Inhabited

namespace Environment

def empty : Environment := ⟨∅, ∅⟩

/-! ## Look-up -/

def find? (env : Environment) (address : String) : Option Concept := env.concepts.get? address

def isDeclared (env : Environment) (address : String) : Bool := env.concepts.contains address

def concept (env : Environment) (address : String) : Except PlanningError Concept :=
  match env.find? address with
  | some c => .ok c
  | none => .error (.undefinedConcept address)

/-- the concepts at the listed addresses, in order, each once -/
def conceptsFor (env : Environment) (addresses : List String) : Except PlanningError (List Concept) :=
  (distinct addresses).mapM env.concept

def datasource (env : Environment) (identifier : String) : Except PlanningError Datasource :=
  match env.datasources.get? identifier with
  | some d => .ok d
  | none => .error (.unknownDatasource identifier)

/-- the pseudonyms of an address -/
def pseudonyms (env : Environment) (address : String) : List String :=
  match env.find? address with
  | some c => c.pseudonyms.toList
  | none => []

/-- the lineage declared at an address -/
def lineage? (env : Environment) (address : String) : Option Lineage := (env.find? address).bind Concept.lineage

/-- the concepts exposed by a rowset, by address -/
def rowsetConcepts (env : Environment) (rowset : String) : List Concept :=
  env.concepts.values.filter fun c =>
    match c.lineage with
    | some (.rowset r) => r.rowset == rowset
    | _ => false

/-- the concepts aligned by a multiselect, by address -/
def multiselectConcepts (env : Environment) (name : String) : List Concept :=
  env.concepts.values.filter fun c =>
    match c.lineage with
    | some (.multiselect m) => m.name == name
    | _ => false

/-- the grain of a row that carries the listed addresses -/
def grainOf (env : Environment) (addresses : List String) : Except PlanningError Grain := do
  pure (Grain.ofConcepts (← env.conceptsFor addresses))

/-! ## Declarations -/

/-- the concept put at its address, in place of any other -/
def add (env : Environment) (c : Concept) : Environment := { env with concepts := env.concepts.insert c.address c }

/-- purpose, grain, keys and granularity of a derived concept -/
structure Attributes where
  purpose : Purpose
  grain : Grain
  keys : NameSet
  granularity : Granularity

/-- the attributes that a lineage gives to the concept at `address` -/
def attributesOf (env : Environment) (address : String) (lineage : Lineage) : Except PlanningError Attributes := do
  let args := lineage.arguments.filterMap env.find?
  let general : Attributes :=
    if args.all Concept.isSingleRow then ⟨.property, Grain.single, ∅, .singleRow⟩
    else
      let grain := Grain.unionAll (args.map Concept.grain)
      ⟨.property, grain, grain.components, .multiRow⟩
  match lineage.derivation, lineage with
  | .constant, _ => pure ⟨.constant, Grain.single, ∅, .singleRow⟩
  | _, .aggregate a =>
    let byKeys := SortedSet.ofList a.byKeys
    pure ⟨.metric, ⟨byKeys, none⟩, byKeys, if byKeys.isEmpty then .singleRow else .multiRow⟩
  | .groupTo, .function f =>
    let byKeys := SortedSet.ofList (Lineage.argumentsOf (f.args.drop 1))
    pure ⟨.property, ⟨byKeys, none⟩, byKeys, .multiRow⟩
  | _, .filter f =>
    let content ← env.concept f.content
    let grain := if content.purpose = .key then Grain.ofList [address] else content.grain
    pure ⟨content.purpose, grain, content.keys, content.granularity⟩
  | _, .window w =>
    let content ← env.concept w.content
    pure ⟨.property, content.grain, content.grain.components, .multiRow⟩
  | .unnest, _ => pure ⟨.key, Grain.ofList [address], ∅, .multiRow⟩
  | .union, _ => pure ⟨.key, Grain.ofList [address], ∅, .multiRow⟩
  | .recursive, _ => pure ⟨.key, Grain.ofList [address], ∅, .multiRow⟩
  | _, _ => pure general

/-- a derived concept; every concept it reads, itself apart, is declared before it -/
def declareDerived (env : Environment) (name : String) (datatype : DataType) (lineage : Lineage) :
    Except PlanningError (Environment × String) := do
  let address := Address.qualify name
  for a in lineage.arguments do
    if a != address && !env.isDeclared a then throw (.undefinedConcept a)
  let attributes ← env.attributesOf address lineage
  let c := Concept.derived name datatype attributes.purpose lineage attributes.grain attributes.granularity
  pure (env.add { c with keys := attributes.keys }, address)

/-- an aggregate of one concept, grouped by `byKeys` -/
def declareMetric (env : Environment) (name : String) (datatype : DataType) (op : AggregateOp) (argument : String)
    (byKeys : List String) : Except PlanningError (Environment × String) :=
  env.declareDerived name datatype
    (.aggregate ⟨op, [.concept (Address.qualify argument)], byKeys.map Address.qualify⟩)

/-- a pseudonym recorded on a declared concept -/
def addPseudonym (env : Environment) (address pseudonym : String) : Environment :=
  match env.find? address with
  | some c => { env with concepts := env.concepts.insert address { c with pseudonyms := c.pseudonyms.insert pseudonym } }
  | none => env

/-- two declared concepts recorded as equivalent, each a pseudonym of the other -/
def merge (env : Environment) (source target : String) : Except PlanningError Environment :=
  let source := Address.qualify source
  let target := Address.qualify target
  if !env.isDeclared source then .error (.undefinedConcept source)
  else if !env.isDeclared target then .error (.undefinedConcept target)
  else if source = target then .ok env
  else .ok ((env.addPseudonym source target).addPseudonym target source)

/-- a datasource whose columns all carry declared concepts -/
def declareDatasource (env : Environment) (d : Datasource) : Except PlanningError Environment :=
  match d.columns.find? fun c => !env.isDeclared c.concept with
  | some c => .error (.undefinedConcept c.concept)
  | none => .ok { env with datasources := env.datasources.insert d.identifier d }

/-- the address under which a rowset exposes a concept -/
def rowsetAddress (rowset : String) (content : Concept) : String := rowset ++ "." ++ content.name

/-- the concept by which a rowset exposes `content`, given the addresses it exposes -/
def rowsetConcept (rowset : String) (select : InnerSelect) (exposed : NameMap String) (content : Concept) : Concept :=
  let address := rowsetAddress rowset content
  let mapped := content.grain.components.toList.filterMap exposed.get?
  let grain :=
    if content.purpose = .key then Grain.ofList [address]
    else if mapped.isEmpty && !content.isSingleRow then Grain.ofList [address]
    else Grain.ofList mapped
  let c := Concept.derived address content.datatype content.purpose (.rowset ⟨rowset, content.address, select⟩) grain
    content.granularity
  { c with keys := SortedSet.ofList (content.keys.toList.filterMap exposed.get?) }

/-- a named rowset, which exposes every output of its select; also the exposed addresses -/
def declareRowset (env : Environment) (name : String) (select : InnerSelect) :
    Except PlanningError (Environment × List String) := do
  let contents ← env.conceptsFor select.output
  let exposed := SortedMap.ofList (contents.map fun c => (c.address, rowsetAddress name c))
  let created := contents.map (rowsetConcept name select exposed)
  pure (created.foldl add env, Concept.addresses created)

/-- the concept that an alignment of a multiselect produces -/
def alignedConcept (env : Environment) (name : String) (selects : List InnerSelect) (align : List Alignment)
    (item : Alignment) : Except PlanningError Concept := do
  let members ← env.conceptsFor item.concepts
  match members with
  | [] => throw (.invalidLineage item.aligned "alignment lists no concepts")
  | first :: _ =>
    let isKey := members.any fun m => decide (m.purpose = .key)
    pure (Concept.derived item.aligned first.datatype (if isKey then .key else first.purpose)
      (.multiselect ⟨name, selects, align, item.aligned⟩)
      (if isKey then Grain.ofList [item.aligned] else Grain.single) .multiRow)

/-- the aligned concepts of a multiselect declared one after the other, up to the first that fails -/
def declareAligned (name : String) (selects : List InnerSelect) (align : List Alignment) (created : List String) :
    Environment → List Alignment → Environment × Except PlanningError (List String)
  | env, [] => (env, .ok created)
  | env, item :: rest =>
    match env.alignedConcept name selects align item with
    | .error e => (env, .error e)
    | .ok c => declareAligned name selects align (created ++ [c.address]) (env.add c) rest

/-- a multiselect, whose aligned concepts collect values across its branches; also their addresses -/
def declareMultiselect (env : Environment) (name : String) (selects : List InnerSelect) (align : List Alignment) :
    Environment × Except PlanningError (List String) :=
  let align := align.map fun a => { a with aligned := Address.qualify a.aligned }
  declareAligned name selects align [] env align

/-! ## The environment of one select -/

/-- an aggregate declared without keys -/
def isUngrouped (c : Concept) : Bool :=
  match c.lineage with
  | some (.aggregate a) => a.byKeys.isEmpty
  | _ => false

/-- the environment as one select sees it: aggregates without keys are evaluated at the grain of the select's other
concepts, if that is not abstract -/
def inSelect (env : Environment) (select : List String) : Except PlanningError Environment := do
  let selected ← env.conceptsFor select
  let grain := Grain.ofConcepts (selected.filter fun c => !c.isAggregate)
  if grain.isAbstract then pure env
  else
    pure ((selected.filter isUngrouped).foldl
      (fun env c => env.add { c with grain, keys := grain.components, granularity := .multiRow }) env)

end Environment

end SemanticPlanner
