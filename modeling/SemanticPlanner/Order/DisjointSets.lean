/-
Numbers in disjoint sets, which are put together two at a time.

`UnionFind` is what a user of such sets asks for: numbers by themselves, two sets put together, and the number that
stands for a set. `RankedSets` is the structure that runs. It keeps for each number the one that stands for it. Where
two sets are put together the one of lower rank gives way, and of two equal ranks the second.
-/

namespace SemanticPlanner

/-- a structure of disjoint sets of the numbers below a bound -/
structure UnionFind where
  Sets : Type
  /-- every number by itself -/
  init : Nat → Sets
  /-- the sets of two numbers put together -/
  union : Sets → Nat → Nat → Sets
  /-- the number that stands for the set of a number -/
  find : Sets → Nat → Nat

/-- the numbers below a bound, after a union for each pair -/
def UnionFind.unite (uf : UnionFind) (n : Nat) (pairs : List (Nat × Nat)) : uf.Sets :=
  pairs.foldl (fun s e => uf.union s e.1 e.2) (uf.init n)

/-- disjoint sets, by the number that stands for each number and the rank of those that stand for some -/
structure RankedSets where
  roots : List Nat
  ranks : List Nat
deriving DecidableEq, Repr, Inhabited

namespace RankedSets

def init (n : Nat) : RankedSets := ⟨List.range n, List.replicate n 0⟩

def find (s : RankedSets) (x : Nat) : Nat := s.roots.getD x x

def rank (s : RankedSets) (x : Nat) : Nat := s.ranks.getD x 0

/-- what one number stood for handed to another -/
def handOver (s : RankedSets) (p q : Nat) : List Nat := s.roots.map fun r => if r = p then q else r

def union (s : RankedSets) (x y : Nat) : RankedSets :=
  let p := s.find x
  let q := s.find y
  if p = q then s
  else if s.rank p < s.rank q then { s with roots := s.handOver p q }
  else if s.rank q < s.rank p then { s with roots := s.handOver q p }
  else ⟨s.handOver q p, s.ranks.set p (s.rank p + 1)⟩

def unionFind : UnionFind := ⟨RankedSets, init, union, find⟩

end RankedSets

end SemanticPlanner
