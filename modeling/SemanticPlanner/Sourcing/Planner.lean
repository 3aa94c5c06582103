/-
The state of one planning pass, and steps on it.

A step changes the arena and the history and can fail; what it changed before it failed stays.
-/
import SemanticPlanner.Plan.History
import SemanticPlanner.Plan.Memo
import SemanticPlanner.Reference.Build
import SemanticPlanner.Settings

namespace SemanticPlanner

structure Planner where
  arena : Arena
  graph : ReferenceGraph
  history : History
  settings : PlannerSettings
deriving Inhabited

/-- a pass over an environment in which nothing is planned yet -/
def Planner.start (env : Environment) (settings : PlannerSettings) : Except PlanningError Planner := do
  pure ⟨Arena.empty env, ← ReferenceGraph.ofEnvironment env, {}, settings⟩

/-- a step of a planning pass -/
abbrev Planning := ExceptT PlanningError (StateM Planner)

namespace Planning

def environment : Planning Environment := do pure (← get).arena.environment

def conceptsFor (addresses : List String) : Planning (List Concept) := do
  let env ← environment
  env.conceptsFor addresses

def concept (address : String) : Planning Concept := do
  let env ← environment
  env.concept address

def core (id : PlanId) : Planning NodeCore := do pure ((← get).arena.core id)

/-- a new node -/
def insert (kind : NodeKind) (core : NodeCore) : Planning PlanId :=
  modifyGet fun p =>
    let (id, arena) := p.arena.insert ⟨kind, core⟩
    (id, { p with arena })

/-- a change to a node that is there -/
def edit (change : Arena → Arena) : Planning Unit := modify fun p => { p with arena := change p.arena }

def resolving {α : Type} (x : Arena.Resolving α) : Planning α :=
  ExceptT.mk (modifyGet fun p =>
    let (r, arena) := x.run p.arena
    (r, { p with arena }))

/-- the relation of a node -/
def resolve (id : PlanId) : Planning Relation := resolving (ExceptT.mk fun a => a.resolve id)

def addParents (id : PlanId) (parents : List PlanId) : Planning Unit := do
  let arena ← (← get).arena.addParents id parents
  modify fun p => { p with arena }

/-- a step run while a search is marked as under way; the mark goes even if the step fails -/
def during {α : Type} (key : SearchKey) (x : Planning α) : Planning α :=
  ExceptT.mk do
    modify fun p => { p with history := p.history.start key }
    let r ← x.run
    modify fun p => { p with history := p.history.finish key }
    pure r

/-- the remembered outcome of a search -/
def recallSearch (key : SearchKey) : Planning (Option (Option PlanId)) :=
  modifyGet fun p =>
    let (r, arena) := p.history.searches.lookUp key p.arena
    (r, { p with arena })

def storeSearch (key : SearchKey) (node : Option PlanId) : Planning Unit :=
  modify fun p =>
    let (searches, arena) := p.history.searches.store key node p.arena
    { p with arena, history := { p.history with searches } }

/-- the remembered outcome of matching datasources -/
def recallMatch (key : SearchKey) : Planning (Option (Option PlanId)) :=
  modifyGet fun p =>
    let (r, arena) := p.history.matched.lookUp key p.arena
    (r, { p with arena })

def storeMatch (key : SearchKey) (node : Option PlanId) : Planning Unit :=
  modify fun p =>
    let (matched, arena) := p.history.matched.store key node p.arena
    { p with arena, history := { p.history with matched } }

end Planning

/-- concepts to be sourced into one node -/
structure Request where
  concepts : List Concept
  depth : Nat
  acceptPartial : Bool := false
  condition : Option Condition := none
deriving Inhabited

namespace Request

def key (r : Request) : SearchKey := SearchKey.of (Concept.addresses r.concepts) r.acceptPartial r.condition

end Request

/-- a way to source a request; no node means that there is none to be had -/
abbrev Search := Request → Planning (Option PlanId)

/-- a concept to be produced by its derivation, with others that may come along -/
structure Task where
  concept : Concept
  companions : List Concept
  depth : Nat
  condition : Option Condition
deriving Inhabited

end SemanticPlanner
