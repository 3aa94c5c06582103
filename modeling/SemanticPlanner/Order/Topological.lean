/-
Listing the nodes of a directed graph so that every edge leads forward.

Nodes are `0, …, n - 1`, edges are listed in the order in which they were added. A depth first walk lists a node before
everything that was listed while its successors were walked; the list is then checked, and the first node found before
one of its predecessors names that predecessor as part of a cycle.
-/
namespace SemanticPlanner.Topological

abbrev Edge := Nat × Nat

/-- a way to list the nodes below a bound, or to name one on a cycle -/
abbrev Sorting := Nat → List Edge → Except Nat (List Nat)

def successors (edges : List Edge) (i : Nat) : List Nat := (edges.filter fun e => e.1 == i).map Prod.snd

def predecessors (edges : List Edge) (i : Nat) : List Nat := (edges.filter fun e => e.2 == i).map Prod.fst

/-- the nodes walked into, and the list of those walked out of, the latest first -/
structure Walk where
  entered : List Nat
  listed : List Nat

/-- a walk from a node; a node with an edge to itself stops it -/
def walkFrom (edges : List Edge) : Nat → Walk → Nat → Except Nat Walk
  | 0, w, _ => .ok w
  | fuel + 1, w, i =>
    if w.entered.contains i then .ok w
    else if (successors edges i).contains i then .error i
    else do
      let w ← (successors edges i).foldlM (walkFrom edges fuel) { w with entered := i :: w.entered }
      pure { w with listed := i :: w.listed }

/-- the first node of a list that comes before one of its predecessors names the predecessor -/
def firstBroken (edges : List Edge) : List Nat → List Nat → Option Nat
  | _, [] => none
  | before, i :: rest =>
    match (predecessors edges i).find? fun p => !before.contains p with
    | some p => some p
    | none => firstBroken edges (i :: before) rest

/-- the nodes in an order that every edge follows, or a node on a cycle -/
def order : Sorting := fun n edges => do
  let w ← (List.range n).foldlM (walkFrom edges (n + 1)) ⟨[], []⟩
  match firstBroken edges [] w.listed with
  | some p => .error p
  | none => .ok w.listed

end SemanticPlanner.Topological
