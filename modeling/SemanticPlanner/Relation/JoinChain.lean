/-
Inferred joins: sources linked into one chain over the concepts they share.

Concepts that several sources share (pivots) are taken those with the fewest sources first, one that touches the
chain before one that does not; sources that no pivot reaches are attached by a keyless full join. An inner join that
reads from the right side of an outer one becomes a left outer join, so that no outer row is lost.
-/
import SemanticPlanner.Relation.Join

namespace SemanticPlanner.JoinChain

/-- the concepts of each source -/
abbrev Exposed := NameMap NameSet

/-- a join of the chain -/
structure Link where
  left : Option String
  right : String
  kind : JoinKind
  /-- the shared concepts, by left source -/
  keys : NameMap NameSet
deriving DecidableEq, Inhabited

/-- the chain so far: the sources it reaches, in order, and its joins -/
structure Chain where
  reached : List String
  links : List Link

/-- what joins are inferred from -/
structure Input where
  sources : Exposed
  partials : Exposed
  nullables : Exposed

/-- the sources that expose each concept -/
def exposedBy (sources : Exposed) : NameMap (List String) :=
  sources.toList.foldl
    (fun m e => e.2.toList.foldl (fun m c => m.update c [] fun l => l ++ [e.1]) m) ∅

/-- a source of the map holds one of the concepts -/
def touches (m : Exposed) (source : String) (concepts : NameSet) : Bool :=
  concepts.toList.any (m.getD source ∅).contains

/-- how well a source serves a pivot; the best comes last: reached ones, complete ones, long names -/
def score (inp : Input) (pivot : String) (reached : List String) (source : String) : Nat × Nat × String :=
  let base := (if reached.contains source then 4 else 1)
    - (if (inp.partials.getD source ∅).contains pivot then 1 else 0)
  (base, source.utf8ByteSize, source)

def kindOf (inp : Input) (left right : String) (common : NameSet) : JoinKind :=
  if touches inp.partials left common then .full
  else if touches inp.partials right common || touches inp.nullables right common then .leftOuter
  else .inner

/-- the keys and kinds of joining `right` to the reached sources `lefts`; a set of keys already used is passed over -/
def keysOf (inp : Input) (right : String) (lefts : List String) : NameMap NameSet × List JoinKind :=
  lefts.foldl
    (fun acc left =>
      let common := (inp.sources.getD left ∅).inter (inp.sources.getD right ∅)
      if common.isEmpty || acc.1.values.any fun v => decide (v = common) then acc
      else (acc.1.insert left common, kindOf inp left right common :: acc.2))
    (∅, [])

/-- the kind of a join with several left sources -/
def combine (kinds : List JoinKind) : JoinKind :=
  if kinds.contains .leftOuter then .leftOuter else if kinds.contains .full then .full else .inner

/-- a source joined to the reached sources `lefts`, worst first -/
def joinTo (inp : Input) (c : Chain) (lefts : List String) (right : String) : Chain :=
  let (keys, kinds) := keysOf inp right lefts.reverse
  ⟨c.reached ++ [right], c.links ++ [⟨none, right, combine kinds, keys⟩]⟩

/-- the sources of a pivot not yet reached are joined, best first; `waiting` has the best last -/
def joinPivot (inp : Input) (pivot : String) (sources : List String) : Nat → List String → Chain → Chain
  | 0, _, c => c
  | fuel + 1, waiting, c =>
    let lefts := sortOn (score inp pivot c.reached) (sources.filter c.reached.contains)
    match lefts, waiting.getLast? with
    | _, none => c
    | [], some first =>
      let c := { c with reached := c.reached ++ [first] }
      match waiting.dropLast.getLast? with
      | none => c
      | some right => joinPivot inp pivot sources fuel waiting.dropLast.dropLast (joinTo inp c [first] right)
    | lefts, some right => joinPivot inp pivot sources fuel waiting.dropLast (joinTo inp c lefts right)

/-- the pivot to take next and the ones left: the first that touches the chain, or else the last -/
def nextPivot (exposed : NameMap (List String)) (reached : List String) (pivots : List String) :
    Option (String × List String) :=
  match pivots.find? fun p => (exposed.getD p []).any reached.contains with
  | some p => some (p, pivots.erase p)
  | none => pivots.getLast?.map fun p => (p, pivots.dropLast)

def joinPivots (inp : Input) (exposed : NameMap (List String)) : Nat → List String → Chain → Chain
  | 0, _, c => c
  | fuel + 1, pivots, c =>
    match nextPivot exposed c.reached pivots with
    | none => c
    | some (p, rest) =>
      let sources := exposed.getD p []
      let waiting := sortOn (score inp p c.reached) (sources.filter fun s => !c.reached.contains s)
      joinPivots inp exposed fuel rest (joinPivot inp p sources waiting.length waiting c)

/-- a source that shares nothing: it begins the chain, or is attached to its first source without keys -/
def attach (c : Chain) (source : String) : Chain :=
  if c.reached.contains source then c
  else match c.reached with
    | [] => { c with reached := [source] }
    | first :: _ => ⟨c.reached ++ [source], c.links ++ [⟨some first, source, .full, ∅⟩]⟩

def isOuter (l : Link) : Bool := decide (l.kind = .leftOuter ∨ l.kind = .full)

/-- an inner join that reads an outer join's right side keeps the outer rows -/
def preserve (outer : List String) (l : Link) : Link :=
  if l.kind = .inner && l.keys.keys.any outer.contains then { l with kind := .leftOuter } else l

/-- the joins that link all sources -/
def order (inp : Input) : List Link :=
  let exposed := exposedBy inp.sources
  let shared := (exposed.toList.filter fun e => e.2.length > 1).map Prod.fst
  let pivots := sortOn (fun p => ((exposed.getD p []).length, p.utf8ByteSize, p)) shared
  let alone := exposed.toList.filter fun e => e.2.length == 1
  let c := joinPivots inp exposed pivots.length pivots ⟨[], []⟩
  let c := (alone.flatMap Prod.snd).foldl attach c
  let outer := (c.links.filter isOuter).map Link.right
  c.links.map (preserve outer)

end SemanticPlanner.JoinChain
