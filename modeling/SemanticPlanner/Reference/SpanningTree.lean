/-
Minimum spanning forests by Kruskal's rule.

Edges are taken lightest first, and an edge is kept if its ends lie in different trees. Which of several equally
light edges comes first is settled by a binary heap that the edges are put into one after the other: a taken edge is
replaced at the root by the last one, which sinks to the bottom along the lighter children (the right one of equals)
and then rises again while it is lighter than its parent.
-/
namespace SemanticPlanner

/-- an edge between two numbered nodes -/
structure WeightedEdge where
  weight : Nat
  left : Nat
  right : Nat
deriving DecidableEq, Repr, Inhabited

namespace SpanningTree

/-! ## The heap -/

abbrev Heap := Array WeightedEdge

def weightAt (h : Heap) (i : Nat) : Nat :=
  match h[i]? with
  | some e => e.weight
  | none => 0

/-- the edge at `i` rises while it is lighter than its parent -/
def rise : Nat → Heap → Nat → Heap
  | 0, h, _ => h
  | fuel + 1, h, i =>
    let parent := (i - 1) / 2
    if 0 < i && weightAt h i < weightAt h parent then rise fuel (h.swapIfInBounds i parent) parent else h

/-- the edge at `i` sinks to the bottom; also where it ends -/
def sink : Nat → Heap → Nat → Heap × Nat
  | 0, h, i => (h, i)
  | fuel + 1, h, i =>
    let child := 2 * i + 1
    if child + 2 ≤ h.size then
      let child := if weightAt h (child + 1) ≤ weightAt h child then child + 1 else child
      sink fuel (h.swapIfInBounds i child) child
    else if child + 1 = h.size then (h.swapIfInBounds i child, child)
    else (h, i)

def push (h : Heap) (e : WeightedEdge) : Heap := rise (h.size + 1) (h.push e) h.size

/-- the lightest edge and the heap without it -/
def pop (h : Heap) : Option (WeightedEdge × Heap) :=
  match h[0]?, h.back? with
  | some first, some last =>
    let rest := h.pop
    if rest.isEmpty then some (first, rest)
    else
      let (sunk, i) := sink rest.size (rest.setIfInBounds 0 last) 0
      some (first, rise (sunk.size + 1) sunk i)
  | _, _ => none

/-- the edges as they come out of a heap -/
def drain : Nat → Heap → List WeightedEdge
  | 0, _ => []
  | fuel + 1, h =>
    match pop h with
    | some (e, h) => e :: drain fuel h
    | none => []

/-- the edges lightest first -/
def lightestFirst (edges : List WeightedEdge) : List WeightedEdge := drain edges.length (edges.foldl push #[])

/-! ## Kruskal's rule -/

/-- the tree each node lies in, by the number of one of its nodes -/
abbrev Trees := Nat → Nat

/-- both ends' trees made one -/
def joinTrees (t : Trees) (e : WeightedEdge) : Trees := fun i => if t i = t e.right then t e.left else t i

/-- the edges that join two trees, in order -/
def keep : Trees → List WeightedEdge → List WeightedEdge
  | _, [] => []
  | t, e :: rest => if t e.left = t e.right then keep t rest else e :: keep (joinTrees t e) rest

/-- a minimum spanning forest, in the order in which its edges are found -/
def forest (edges : List WeightedEdge) : List WeightedEdge := keep id (lightestFirst edges)

end SpanningTree

end SemanticPlanner
