/-
The joins between the sources of a merge, inferred from the concepts they expose themselves or by pseudonyms.
-/
import SemanticPlanner.Relation.Basic
import SemanticPlanner.Relation.JoinChain
import SemanticPlanner.Environment.Basic

namespace SemanticPlanner.NodeJoins

/-- concepts a source can be joined on, and every concept met so far -/
structure Pool where
  entry : NameSet
  seen : NameSet

/-- a concept with the pseudonyms that were not met before; each level of nesting meets a new one -/
def withPseudonyms (env : Environment) : Nat → Pool → String → Pool
  | 0, p, _ => p
  | fuel + 1, p, a =>
    (env.pseudonyms a).foldl
      (fun p q => if p.seen.contains q || q == a then p else withPseudonyms env fuel p q)
      ⟨p.entry.insert a, p.seen.insert a⟩

/-- what is known while the sources are read one after the other -/
structure Reading where
  input : JoinChain.Input
  seen : NameSet

/-- one source read: its visible outputs with their pseudonyms, its partial and its nullable concepts -/
def addSource (env : Environment) (r : Reading) (s : RelationSource) : Reading :=
  let id := s.identifier
  let pool := (s.outputs.filter fun a => !s.isHidden a).foldl (withPseudonyms env (env.concepts.size + 2))
    ⟨r.input.sources.getD id ∅, r.seen⟩
  { input :=
      { sources := r.input.sources.insert id pool.entry
        partials := r.input.partials.insert id (SortedSet.ofList s.partials)
        nullables := r.input.nullables.insert id (SortedSet.ofList s.nullables) }
    seen := pool.seen }

/-- the address under which a source exposes `a`: itself or a pseudonym -/
def exposedAs (env : Environment) (a : String) (s : RelationSource) : Option String :=
  if s.outputs.contains a then some a else (env.pseudonyms a).find? s.outputs.contains

/-- the pairs without property keys whose own keys already join -/
def reducePairs (env : Environment) (pairs : List ConceptPair) : List ConceptPair :=
  let purpose (a : String) := (env.find? a).map Concept.purpose
  let keysOf (a : String) : NameSet := match env.find? a with
    | some c => c.keys
    | none => ∅
  let leftKeys := SortedSet.ofList ((pairs.map ConceptPair.left).filter fun a => purpose a == some .key)
  let rightKeys := SortedSet.ofList ((pairs.map ConceptPair.right).filter fun a => purpose a == some .key)
  let covered (a : String) (keys : NameSet) : Bool :=
    purpose a == some .property && !(keysOf a).isEmpty && (keysOf a).isSubset keys
  pairs.filter fun p => !covered p.left leftKeys && !covered p.right rightKeys

/-- the source listed last under an identifier -/
def sourceOf (sources : List RelationSource) (identifier : String) : Option RelationSource :=
  sources.reverse.find? fun s => s.identifier == identifier

/-- the pairs of a join of the chain -/
def pairsOf (env : Environment) (sources : List RelationSource) (right : RelationSource) (l : JoinChain.Link) :
    List ConceptPair :=
  l.keys.toList.flatMap fun (leftId, concepts) =>
    match sourceOf sources leftId with
    | none => []
    | some left => concepts.toList.filterMap fun a =>
      match exposedAs env a left, exposedAs env a right with
      | some x, some y => some ⟨x, y, leftId⟩
      | _, _ => none

/-- a join of the chain between the sources themselves -/
def ofLink (env : Environment) (sources : List RelationSource) (l : JoinChain.Link) : Option BaseJoin :=
  (sourceOf sources l.right).map fun right =>
    ⟨l.left, l.right, l.kind, reducePairs env (pairsOf env sources right l)⟩

/-- the joins between sources -/
def infer (env : Environment) (sources : List RelationSource) : List BaseJoin :=
  let r := sources.foldl (addSource env) ⟨⟨∅, ∅, ∅⟩, ∅⟩
  (JoinChain.order r.input).filterMap (ofLink env sources)

end SemanticPlanner.NodeJoins
