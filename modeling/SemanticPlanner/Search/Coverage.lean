/-
Whether a stack of nodes covers the concepts of a search and joins into one graph.

A node covers its visible outputs and what their pseudonyms lead to; an output it has only partially counts if partial
sources are accepted. Nodes connect where they share an address. Parts that hold only concepts which can be joined in
later (single rows, metrics without a grain) are not counted.
-/
import SemanticPlanner.Order.DisjointSets
import SemanticPlanner.Plan.Memo

namespace SemanticPlanner

/-- how a stack covers a search -/
inductive CoverageResult where
  | complete
  /-- everything is there but the nodes do not connect -/
  | disconnected
  | incomplete
  /-- the condition is neither applied by every node nor evaluable from what is there -/
  | conditionUnmet
deriving DecidableEq, Repr, Inhabited

def CoverageResult.name : CoverageResult → String
  | complete => "complete"
  | disconnected => "disconnected"
  | incomplete => "incomplete"
  | conditionUnmet => "incomplete_condition"

structure Coverage where
  result : CoverageResult
  found : NameSet
  missing : NameSet
  partials : NameSet
  virtual : NameSet
deriving Inhabited

namespace Coverage

/-- what the nodes counted so far provide -/
structure Tally where
  found : NameSet := ∅
  complete : NameSet := ∅
  partials : NameSet := ∅
  virtual : NameSet := ∅
  seen : NameSet := ∅
  /-- the addresses that each node provides -/
  provided : SortedMap PlanId NameSet := ∅
deriving Inhabited

/-- a concept of a node counted, pseudonyms apart; false if they are not to be followed -/
def count (node : PlanId) (nodePartials : List String) (acceptPartial : Bool) (t : Tally) (address : String) :
    Tally × Bool :=
  let t := { t with
    provided := t.provided.update node ∅ fun s => s.insert address
    seen := t.seen.insert address }
  if nodePartials.contains address then
    if t.complete.contains address then (t, false)
    else
      ({ t with
          partials := t.partials.insert address
          found := if acceptPartial then t.found.insert address else t.found }, true)
  else
    ({ t with
        found := t.found.insert address
        complete := t.complete.insert address
        partials := t.partials.erase address
        virtual := t.virtual.erase address }, true)

/-- pseudonyms followed in order, up to the first that was seen already or is not declared -/
def follow (env : Environment) (visit : Tally → Concept → Tally) : List String → Tally → Tally
  | [], t => t
  | p :: ps, t =>
    if t.seen.contains p then t
    else match env.find? p with
      | none => t
      | some c => follow env visit ps (visit t c)

/-- a concept of a node counted together with what its pseudonyms lead to -/
def visit (env : Environment) (node : PlanId) (nodePartials : List String) (acceptPartial : Bool) :
    Nat → Tally → Concept → Tally
  | 0, t, _ => t
  | fuel + 1, t, c =>
    let (t, further) := count node nodePartials acceptPartial t c.address
    if further then follow env (visit env node nodePartials acceptPartial fuel) c.pseudonyms.toList t else t

/-- an output that a node has through a pseudonym -/
def addVirtual (t : Tally) (address : String) : Tally :=
  if t.complete.contains address then t
  else { t with found := t.found.insert address, virtual := t.virtual.insert address }

/-- a node of the stack counted, given the visible outputs it resolves to -/
def addNode (env : Environment) (acceptPartial : Bool) (node : PlanId) (core : NodeCore) (outputs : List Concept)
    (t : Tally) : Tally :=
  core.virtual.foldl addVirtual
    (outputs.foldl (visit env node core.partials acceptPartial (env.concepts.size + 2)) t)

/-! ## Connection -/

/-- a concept that cannot be joined in later -/
def isRelevant (env : Environment) (address : String) : Bool :=
  match env.find? address with
  | none => true
  | some c => !c.isSingleRow && !(decide (c.purpose = .metric) && c.grain.isAbstract)

/-- the addresses that some node provides -/
def addresses (provided : SortedMap PlanId NameSet) : NameSet := provided.values.foldl SortedSet.union ∅

/-- the numbers of the addresses, which go on where those of the nodes end -/
def addressNumbers (provided : SortedMap PlanId NameSet) : NameMap Nat :=
  SortedMap.ofList ((addresses provided).toList.zipIdx provided.size)

/-- how many nodes and addresses are numbered -/
def space (provided : SortedMap PlanId NameSet) : Nat := provided.size + (addresses provided).size

/-- each node with each address it provides, by number -/
def links (provided : SortedMap PlanId NameSet) : List (Nat × Nat) :=
  provided.values.zipIdx.flatMap fun n => n.1.toList.map fun a => (n.2, (addressNumbers provided).getD a 0)

section
variable (uf : UnionFind)

/-- nodes and addresses in one space of numbers, each node put together with what it provides -/
def joined (provided : SortedMap PlanId NameSet) : uf.Sets :=
  uf.unite (space provided) (links provided)

/-- the numbers that stand for sets with a relevant address -/
def relevantRoots (env : Environment) (provided : SortedMap PlanId NameSet) : SortedSet Nat :=
  let relevant := (addressNumbers provided).toList.filter fun e => isRelevant env e.1
  SortedSet.ofList (relevant.map fun e => uf.find (joined uf provided) e.2)

/-- the number of parts of a stack that hold a relevant address, with disjoint sets by `uf` -/
def componentsBy (env : Environment) (provided : SortedMap PlanId NameSet) : Nat := (relevantRoots uf env provided).size

end

def components (env : Environment) (provided : SortedMap PlanId NameSet) : Nat :=
  componentsBy RankedSets.unionFind env provided

/-! ## The check -/

/-- every node's rows are known to satisfy exactly the condition -/
def appliedBy (condition : Condition) (cores : List NodeCore) : Bool :=
  cores.all fun c => c.preexisting == some condition

/-- the outcome for a stack whose nodes are counted -/
def conclude (env : Environment) (t : Tally) (cores : List NodeCore) (mandatory completion : List Concept)
    (condition : Option Condition) : Coverage :=
  let missing := SortedSet.ofList ((Concept.addresses mandatory).filter fun a => !t.found.contains a)
  let met := match condition with
    | none => true
    | some c => appliedBy c cores || (Concept.addresses completion).all t.found.contains
  let result :=
    if !missing.isEmpty then .incomplete
    else if !met then .conditionUnmet
    else if components env t.provided ≤ 1 then .complete
    else .disconnected
  ⟨result, t.found, missing, t.partials, t.virtual⟩

/-- one more node of a stack resolved and counted -/
def tallyNode (acceptPartial : Bool) (t : Tally) (id : PlanId) : Arena.Resolving Tally := do
  let r ← Arena.resolveWithin ((← get).size + 1) id
  let a ← get
  let outputs ← r.visible.mapM fun x => (a.environment.concept x : Except PlanningError Concept)
  pure (addNode a.environment acceptPartial id (a.core id) outputs t)

/-- how a stack covers `mandatory`; `completion` adds what the condition reads -/
def check (stack : List PlanId) (mandatory completion : List Concept) (condition : Option Condition)
    (acceptPartial : Bool) : Arena.Resolving Coverage := do
  let t ← stack.foldlM (tallyNode acceptPartial) {}
  let a ← get
  pure (conclude a.environment t (stack.map a.core) mandatory completion condition)

end Coverage

end SemanticPlanner
