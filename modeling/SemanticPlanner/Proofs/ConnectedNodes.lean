/-
How many parts the nodes of a stack make.

  connections           the graph that links each node to the addresses it provides
  number                the numbers of its nodes and addresses, no two of them alike
  mem_links             the unions are those of its edges
  same_joined_iff       after the unions, two of them are in one set exactly if they are connected
  length_eq_card        a list whose items belong one to one to the things with a property
  componentsBy_eq_card  the count is the number of connected components that hold a relevant address

Nodes and addresses share one space of numbers, the addresses after the nodes. How the sets are kept is a parameter, of
which only the promises of `IsUnionFind` are used. A component has one number that stands for it, however many relevant
addresses it holds, and none of them is counted twice.
-/
import Mathlib.Combinatorics.SimpleGraph.Connectivity.Connected
import Mathlib.SetTheory.Cardinal.Finite
import SemanticPlanner.Proofs.DisjointSets
import SemanticPlanner.Proofs.Following
import SemanticPlanner.Proofs.ItemByItem
import SemanticPlanner.Search.Coverage

namespace SemanticPlanner.Coverage

open UnionFind

variable {env : Environment} {uf : UnionFind} {x y : String}

/-! ## The graph of nodes and addresses -/

/-- an address that cannot be joined in later: it is unknown, or neither a single row nor a metric without a grain -/
def Relevant (env : Environment) (x : String) : Prop :=
  ∀ c, env.find? x = some c → c.granularity ≠ .singleRow ∧ ¬ (c.purpose = .metric ∧ c.grain.isAbstract = true)

theorem isRelevant_iff : isRelevant env x = true ↔ Relevant env x := by
  rw [isRelevant, Relevant]
  cases hfind : env.find? x with
  | none => simp
  | some c =>
    simp only [Option.some.injEq, forall_eq', Concept.isSingleRow, Bool.and_eq_true, Bool.not_eq_true',
      decide_eq_false_iff_not, Bool.and_eq_false_iff, not_and_or, Bool.not_eq_true, ne_eq]

variable {provided : SortedMap PlanId NameSet}

/-- the node provides the address -/
def Provides (provided : SortedMap PlanId NameSet) (id : PlanId) (x : String) : Prop :=
  ∃ s, provided.get? id = some s ∧ x ∈ s

/-- the nodes of a stack -/
abbrev StackNode (provided : SortedMap PlanId NameSet) : Type := {id // id ∈ provided.keys}

/-- the addresses that its nodes provide -/
abbrev StackAddress (provided : SortedMap PlanId NameSet) : Type := {x // ∃ id, Provides provided id x}

/-- each node of a stack linked to the addresses it provides -/
def connections (provided : SortedMap PlanId NameSet) :
    SimpleGraph (StackNode provided ⊕ StackAddress provided) :=
  .fromRel fun
    | .inl id, .inr x => Provides provided id.1 x.1
    | _, _ => False

theorem connections_adj {id : StackNode provided} {x : StackAddress provided} :
    (connections provided).Adj (.inl id) (.inr x) ↔ Provides provided id.1 x.1 := by
  simp [connections]

/-! ## Numbers -/

theorem mem_addresses : x ∈ addresses provided ↔ ∃ id, Provides provided id x := by
  have hmem : x ∈ addresses provided ↔ x ∈ (∅ : NameSet) ∨ ∃ s ∈ provided.values, x ∈ s :=
    foldl_iff (Q := (x ∈ ·)) (x ∈ ·) (fun _ _ => SortedSet.mem_union) provided.values ∅
  rw [hmem]
  constructor
  · intro h
    obtain ⟨s, hs, hx⟩ := h.resolve_left (SortedSet.not_mem_empty x)
    obtain ⟨id, hid⟩ := SortedMap.mem_values.1 hs
    exact ⟨id, s, hid, hx⟩
  · rintro ⟨id, s, hid, hx⟩
    exact Or.inr ⟨s, SortedMap.mem_values.2 ⟨id, hid⟩, hx⟩

/-- the number of a node or of an address -/
def number : StackNode provided ⊕ StackAddress provided → Nat
  | .inl id => provided.keys.idxOf id.1
  | .inr x => provided.size + (addresses provided).toList.idxOf x.1

theorem length_keys : provided.keys.length = provided.size := List.length_map _

theorem number_lt (v : StackNode provided ⊕ StackAddress provided) : number v < space provided := by
  cases v with
  | inl id =>
    have h : number (.inl id) < provided.size := length_keys ▸ List.idxOf_lt_length_of_mem id.2
    exact Nat.lt_add_right _ h
  | inr x => exact Nat.add_lt_add_left (List.idxOf_lt_length_of_mem (mem_addresses.2 x.2)) _

/-- no number stands for two things -/
theorem number_injective : Function.Injective (@number provided) := by
  have hapart : ∀ (id : StackNode provided) (x : StackAddress provided), number (.inl id) ≠ number (.inr x) := by
    intro id x
    have h : number (.inl id) < provided.size := length_keys ▸ List.idxOf_lt_length_of_mem id.2
    exact Nat.ne_of_lt (Nat.lt_add_right _ h)
  intro v w h
  match v, w with
  | .inl id, .inl id' => exact congrArg Sum.inl (Subtype.ext ((List.idxOf_inj id.2).1 h))
  | .inl id, .inr x => exact absurd h (hapart id x)
  | .inr x, .inl id => exact absurd h.symm (hapart id x)
  | .inr x, .inr y =>
    have hidx := Nat.add_left_cancel h
    exact congrArg Sum.inr (Subtype.ext ((List.idxOf_inj (mem_addresses.2 x.2)).1 hidx))

/-- the numbers of the addresses are those after the nodes -/
theorem get?_addressNumbers {i : Nat} : (addressNumbers provided).get? x = some i ↔
    ∃ h : ∃ id, Provides provided id x, i = @number provided (.inr ⟨x, h⟩) := by
  have hnodup : (((addresses provided).toList.zipIdx provided.size).map Prod.fst).Nodup := by
    rw [List.zipIdx_map_fst]
    exact (addresses provided).nodup
  rw [addressNumbers, SortedMap.get?_ofList hnodup, List.mk_mem_zipIdx_iff_le_and_getElem?_sub,
    getElem?_eq_some_iff_idxOf (addresses provided).nodup, ← SortedSet.mem_def, mem_addresses]
  constructor
  · rintro ⟨hle, hx, hi⟩
    refine ⟨hx, ?_⟩
    rw [number, ← hi]
    omega
  · rintro ⟨hx, rfl⟩
    exact ⟨Nat.le_add_right _ _, hx, Nat.add_sub_cancel_left _ _⟩

theorem getD_addressNumbers {id : PlanId} (h : Provides provided id x) :
    (addressNumbers provided).getD x 0 = @number provided (.inr ⟨x, id, h⟩) := by
  rw [SortedMap.getD, get?_addressNumbers.2 ⟨⟨id, h⟩, rfl⟩, Option.getD_some]

/-- what a node provides stands at its number -/
theorem values_getElem? {i : Nat} {s : NameSet} :
    provided.values[i]? = some s ↔ ∃ id, provided.get? id = some s ∧ i = provided.keys.idxOf id := by
  have hindex : ∀ {i id}, provided.toList[i]? = some (id, s) → i = provided.keys.idxOf id := by
    intro i id h
    have hkey : provided.keys[i]? = some id := by rw [SortedMap.keys, List.getElem?_map, h, Option.map_some]
    exact ((getElem?_eq_some_iff_idxOf provided.nodup_keys).1 hkey).2
  rw [SortedMap.values, List.getElem?_map, Option.map_eq_some_iff]
  constructor
  · rintro ⟨⟨id, _⟩, hentry, rfl⟩
    exact ⟨id, SortedMap.get?_eq_some_iff.2 (List.mem_of_getElem? hentry), hindex hentry⟩
  · rintro ⟨id, hid, rfl⟩
    obtain ⟨i, hentry⟩ := List.getElem?_of_mem (SortedMap.get?_eq_some_iff.1 hid)
    exact ⟨(id, s), hindex hentry ▸ hentry, rfl⟩

/-- the pairs of a union are the edges of the graph -/
theorem mem_links {e : Nat × Nat} : e ∈ links provided ↔
    ∃ id x, (connections provided).Adj (.inl id) (.inr x) ∧ e = (number (.inl id), number (.inr x)) := by
  simp only [links, List.mem_flatMap, List.mem_zipIdx_iff_getElem?, List.mem_map]
  constructor
  · rintro ⟨⟨s, i⟩, hs, x, hx, rfl⟩
    obtain ⟨id, hid, rfl⟩ := values_getElem?.1 hs
    have hprovides : Provides provided id x := ⟨s, hid, hx⟩
    refine ⟨⟨id, SortedMap.mem_keys.2 ⟨s, hid⟩⟩, ⟨x, id, hprovides⟩, connections_adj.2 hprovides, ?_⟩
    exact Prod.ext rfl (getD_addressNumbers hprovides)
  · rintro ⟨node, x, hadj, rfl⟩
    have hprovides := connections_adj.1 hadj
    obtain ⟨s, hid, hx⟩ := id hprovides
    refine ⟨(s, number (.inl node)), values_getElem?.2 ⟨node.1, hid, rfl⟩, x.1, hx, ?_⟩
    exact Prod.ext rfl (getD_addressNumbers hprovides)

/-! ## Unions -/

/-- a chain of unions leads along the edges, or nowhere -/
theorem reachable_of_chained {v w : StackNode provided ⊕ StackAddress provided}
    (h : Chained (links provided) (number v) (number w)) : (connections provided).Reachable v w := by
  have hends : ∀ i j, Chained (links provided) i j → i = j ∨
      ∃ v w, i = number v ∧ j = number w ∧ (connections provided).Reachable v w := by
    intro i j h
    induction h with
    | rel i j hij =>
      obtain ⟨id, x, hadj, he⟩ := mem_links.1 hij
      cases he
      exact Or.inr ⟨_, _, rfl, rfl, hadj.reachable⟩
    | refl i => exact Or.inl rfl
    | symm i j _ ih =>
      rcases ih with h | ⟨v, w, hv, hw, h⟩
      · exact Or.inl h.symm
      · exact Or.inr ⟨w, v, hw, hv, h.symm⟩
    | trans i j k _ _ ih ih' =>
      rcases ih with rfl | ⟨v, w, rfl, rfl, h⟩
      · exact ih'
      · rcases ih' with rfl | ⟨w', u, hw, rfl, h'⟩
        · exact Or.inr ⟨v, w, rfl, rfl, h⟩
        · cases number_injective hw
          exact Or.inr ⟨v, u, rfl, rfl, h.trans h'⟩
  rcases hends _ _ h with heq | ⟨v', w', hv, hw, h⟩
  · exact number_injective heq ▸ .refl v
  · cases number_injective hv
    cases number_injective hw
    exact h

theorem chained_of_reachable {v w : StackNode provided ⊕ StackAddress provided}
    (h : (connections provided).Reachable v w) : Chained (links provided) (number v) (number w) := by
  have hedge : ∀ {id x}, (connections provided).Adj (.inl id) (.inr x) →
      Chained (links provided) (number (.inl id)) (number (.inr x)) := fun hadj =>
    .rel _ _ (mem_links.2 ⟨_, _, hadj, rfl⟩)
  rw [SimpleGraph.reachable_iff_reflTransGen] at h
  induction h with
  | refl => exact .refl _
  | @tail u w _ hadj ih =>
    match u, w with
    | .inl id, .inr x => exact ih.trans (hedge hadj)
    | .inr x, .inl id => exact ih.trans (hedge hadj.symm).symm
    | .inl id, .inl id' => simp [connections] at hadj
    | .inr x, .inr x' => simp [connections] at hadj

/-- **after the unions, nodes and addresses are in one set exactly if they are connected** -/
theorem same_joined_iff (huf : uf.IsUnionFind) {v w : StackNode provided ⊕ StackAddress provided} :
    uf.Same (joined uf provided) (number v) (number w) ↔ (connections provided).Reachable v w := by
  have hl : ∀ e ∈ links provided, e.1 < space provided ∧ e.2 < space provided := by
    intro e he
    obtain ⟨id, x, -, rfl⟩ := mem_links.1 he
    exact ⟨number_lt (.inl id), number_lt (.inr x)⟩
  exact (same_unite_iff huf hl (number_lt v) (number_lt w)).trans ⟨reachable_of_chained, chained_of_reachable⟩

/-! ## Counting -/

/-- as many things have a property as there are items in a list, if each item belongs to one of them, each of them to an
item, and different ones to different items -/
theorem length_eq_card {α β : Type} {l : List α} {Q : β → Prop} {R : α → β → Prop} (hl : l.Nodup)
    (hto : ∀ a ∈ l, ∃ b, Q b ∧ R a b) (hfrom : ∀ b, Q b → ∃ a ∈ l, R a b)
    (hsame : ∀ a ∈ l, ∀ a' ∈ l, ∀ b b', R a b → R a' b' → (a = a' ↔ b = b')) : l.length = Nat.card {b // Q b} := by
  classical
  choose f hQ hR using fun a : {a // a ∈ l} => hto a.1 a.2
  let image (a : {a // a ∈ l}) : {b // Q b} := ⟨f a, hQ a⟩
  have hinjective : Function.Injective image := fun a a' heq =>
    Subtype.ext ((hsame a.1 a.2 a'.1 a'.2 _ _ (hR a) (hR a')).2 (congrArg Subtype.val heq))
  have hsurjective : Function.Surjective image := by
    rintro ⟨b, hb⟩
    obtain ⟨a, ha, hab⟩ := hfrom b hb
    exact ⟨⟨a, ha⟩, Subtype.ext ((hsame a ha a ha _ _ (hR ⟨a, ha⟩) hab).1 rfl)⟩
  calc l.length
      = l.toFinset.card := (List.toFinset_card_of_nodup hl).symm
    _ = Nat.card {a // a ∈ l} := (Nat.subtype_card l.toFinset fun _ => List.mem_toFinset).symm
    _ = Nat.card {b // Q b} := Nat.card_eq_of_bijective image ⟨hinjective, hsurjective⟩

/-- the numbers that stand for sets with a relevant address -/
theorem mem_relevantRoots {r : Nat} : r ∈ relevantRoots uf env provided ↔
    ∃ x : StackAddress provided, Relevant env x.1 ∧ r = uf.find (joined uf provided) (number (.inr x)) := by
  simp only [relevantRoots, SortedSet.mem_ofList, List.mem_map, List.mem_filter, isRelevant_iff]
  constructor
  · rintro ⟨⟨x, i⟩, ⟨hentry, hrelevant⟩, rfl⟩
    obtain ⟨h, rfl⟩ := get?_addressNumbers.1 (SortedMap.get?_eq_some_iff.2 hentry)
    exact ⟨⟨x, h⟩, hrelevant, rfl⟩
  · rintro ⟨x, hrelevant, rfl⟩
    have hentry := SortedMap.get?_eq_some_iff.1 (get?_addressNumbers.2 ⟨x.2, rfl⟩)
    exact ⟨(x.1, number (.inr x)), ⟨hentry, hrelevant⟩, rfl⟩

/-! ## The result -/

/-- **The count of the parts.** It is the number of connected components, in the graph that links each node to the
addresses it provides, that hold an address which cannot be joined in later. -/
theorem componentsBy_eq_card (huf : uf.IsUnionFind) (env : Environment) (provided : SortedMap PlanId NameSet) :
    componentsBy uf env provided = Nat.card {c : (connections provided).ConnectedComponent //
      ∃ x : StackAddress provided, Sum.inr x ∈ c.supp ∧ Relevant env x.1} := by
  -- a number belongs to the component of the relevant addresses that it stands for
  refine length_eq_card (R := fun r c => ∃ x : StackAddress provided,
    r = uf.find (joined uf provided) (number (.inr x)) ∧ Sum.inr x ∈ c.supp)
    (relevantRoots uf env provided).nodup ?component ?root ?same
  case component =>
    intro r hr
    obtain ⟨x, hrelevant, hrx⟩ := mem_relevantRoots.1 hr
    exact ⟨(connections provided).connectedComponentMk (.inr x), ⟨x, rfl, hrelevant⟩, x, hrx, rfl⟩
  case root =>
    rintro c ⟨x, hxc, hrelevant⟩
    exact ⟨_, mem_relevantRoots.2 ⟨x, hrelevant, rfl⟩, x, rfl, hxc⟩
  case same =>
    rintro r - r' - c c' ⟨x, rfl, rfl⟩ ⟨y, rfl, rfl⟩
    rw [SimpleGraph.ConnectedComponent.eq]
    exact same_joined_iff huf

/-- five nodes: the third joins the first and the fourth, the second has a total only, the last is on its own -/
def fiveNodes : SortedMap PlanId NameSet :=
  .ofList [(⟨0⟩, .ofList ["local.order", "local.customer"]), (⟨1⟩, .ofList ["local.total"]),
    (⟨2⟩, .ofList ["local.customer", "local.product"]), (⟨3⟩, .ofList ["local.product", "local.supplier"]),
    (⟨4⟩, .ofList ["local.region"])]

/-- a total over all rows, which can be joined in later -/
def grandTotal : Environment :=
  Environment.empty.add
    (.derived "total" .float .metric (.aggregate ⟨.sum, [.concept "local.amount"], []⟩) Grain.single .singleRow)

/-- two parts count, with sets by rank -/
theorem componentsBy_eq_card_fiveNodes : RankedSets.unionFind.IsUnionFind ∧
    componentsBy RankedSets.unionFind grandTotal fiveNodes = 2 ∧
    2 = Nat.card {c : (connections fiveNodes).ConnectedComponent //
      ∃ x : StackAddress fiveNodes, Sum.inr x ∈ c.supp ∧ Relevant grandTotal x.1} := by
  have hcount : componentsBy RankedSets.unionFind grandTotal fiveNodes = 2 := by decide
  exact ⟨RankedSets.isUnionFind, hcount,
    hcount.symm.trans (componentsBy_eq_card RankedSets.isUnionFind grandTotal fiveNodes)⟩

end SemanticPlanner.Coverage
