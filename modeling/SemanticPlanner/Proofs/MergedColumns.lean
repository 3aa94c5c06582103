/-
The columns of two resolutions put together.

  mem_visible_mergedWith   a column is hidden only if both sides hide it
  mem_partials_mergedWith  a side that lacks a column has no say in whether it is partial
  mergedWith_shows         what either side shows is shown, and what one side hides and the other knows nothing of
  price_shown              a column that neither side shows and both together do

A column that one side hides and the other does not even have is hidden on one side only, so it is shown. The rule for
partial columns, in contrast, leaves out the side that lacks the column.
-/
import SemanticPlanner.Relation.Identifier

namespace SemanticPlanner.Relation

variable {a b : Relation} {x : String}

/-! ## Membership -/

theorem mem_visible {r : Relation} : x ∈ r.visible ↔ x ∈ r.outputs ∧ x ∉ r.hidden := by
  rw [visible, List.mem_filter, SortedSet.not_contains_iff]

theorem mem_outputs_mergedWith : x ∈ (a.mergedWith b).outputs ↔ x ∈ a.outputs ∨ x ∈ b.outputs := mem_addAllNew

theorem mem_visible_mergedWith :
    x ∈ (a.mergedWith b).visible ↔ (x ∈ a.outputs ∨ x ∈ b.outputs) ∧ ¬ (x ∈ a.hidden ∧ x ∈ b.hidden) := by
  rw [mem_visible, mem_outputs_mergedWith]
  exact and_congr_right fun _ => not_congr SortedSet.mem_inter

/-- partial columns of the first side that the second does not complete, and those that only the second side has -/
theorem mem_partials_mergedWith : x ∈ (a.mergedWith b).partials ↔
    x ∈ a.partials ∧ (x ∈ b.partials ∨ x ∉ b.outputs) ∨ x ∈ b.partials ∧ x ∉ a.outputs := by
  refine mem_addAllNew.trans ?_
  simp only [List.mem_filter, Bool.or_eq_true, Bool.not_eq_true', List.contains_iff_mem, ← Bool.not_eq_true]

/-! ## What is shown -/

/-- `a` has a column and hides it, and `b` neither has nor hides it -/
structure HidesAlone (a b : Relation) (x : String) : Prop where
  has : x ∈ a.outputs
  hides : x ∈ a.hidden
  lacks : x ∉ b.outputs
  unaware : x ∉ b.hidden

/-- a column of one side that not both sides hide -/
theorem shown_or_hidesAlone (hx : x ∈ a.outputs) (hboth : ¬ (x ∈ a.hidden ∧ x ∈ b.hidden)) :
    x ∈ a.visible ∨ x ∈ b.visible ∨ HidesAlone a b x := by
  by_cases hidden : x ∈ a.hidden
  · have hunaware : x ∉ b.hidden := fun h => hboth ⟨hidden, h⟩
    by_cases hb : x ∈ b.outputs
    · exact Or.inr (Or.inl (mem_visible.2 ⟨hb, hunaware⟩))
    · exact Or.inr (Or.inr ⟨hx, hidden, hb, hunaware⟩)
  · exact Or.inl (mem_visible.2 ⟨hx, hidden⟩)

/-- **What two resolutions of one relation show together.** The merged relation has the columns of both sides. It shows
those that either side shows, and those that one side hides while the other neither has nor hides them. A column of it
is partial exactly if it is partial on each side that has it. -/
theorem mergedWith_shows (a b : Relation) (x : String) :
    (x ∈ (a.mergedWith b).outputs ↔ x ∈ a.outputs ∨ x ∈ b.outputs) ∧
    (x ∈ (a.mergedWith b).visible ↔ x ∈ a.visible ∨ x ∈ b.visible ∨ HidesAlone a b x ∨ HidesAlone b a x) ∧
    (x ∈ (a.mergedWith b).outputs →
      (x ∈ (a.mergedWith b).partials ↔ (x ∈ a.outputs → x ∈ a.partials) ∧ (x ∈ b.outputs → x ∈ b.partials))) := by
  refine ⟨mem_outputs_mergedWith, ?_, fun hx => ?_⟩
  · rw [mem_visible_mergedWith]
    constructor
    · rintro ⟨hx | hx, hboth⟩
      · exact (shown_or_hidesAlone hx hboth).imp_right (Or.imp_right Or.inl)
      · rcases shown_or_hidesAlone hx fun h => hboth h.symm with h | h | h
        · exact Or.inr (Or.inl h)
        · exact Or.inl h
        · exact Or.inr (Or.inr (Or.inr h))
    · rintro (h | h | h | h)
      · obtain ⟨hx, hshown⟩ := mem_visible.1 h
        exact ⟨Or.inl hx, fun hboth => hshown hboth.1⟩
      · obtain ⟨hx, hshown⟩ := mem_visible.1 h
        exact ⟨Or.inr hx, fun hboth => hshown hboth.2⟩
      · exact ⟨Or.inl h.has, fun hboth => h.unaware hboth.2⟩
      · exact ⟨Or.inr h.has, fun hboth => h.unaware hboth.1⟩
  · rw [mem_partials_mergedWith]
    rcases mem_outputs_mergedWith.1 hx with ha | hb
    · by_cases hb : x ∈ b.outputs <;> simp [ha, hb]
    · by_cases ha : x ∈ a.outputs <;> simp [ha, hb]

/-! ## A column that is shown again -/

/-- a relation of orders -/
def ofOrders (outputs partials hidden : List String) : Relation :=
  { (default : Relation) with
    identifier := "orders"
    outputs
    partials
    hidden := SortedSet.ofList hidden }

/-- orders with some of their customers -/
def someCustomers : Relation := ofOrders ["local.order", "local.customer"] ["local.customer"] []

/-- customers with some prices -/
def somePrices : Relation := ofOrders ["local.customer", "local.price"] ["local.price"] []

/-- the customers are completed by the other side, and the prices stay partial as only one side has them -/
theorem mergedWith_shows_orders :
    "local.customer" ∈ (someCustomers.mergedWith somePrices).outputs ∧
    "local.customer" ∉ (someCustomers.mergedWith somePrices).partials ∧
    "local.price" ∈ (someCustomers.mergedWith somePrices).outputs ∧
    "local.price" ∈ (someCustomers.mergedWith somePrices).partials := by
  have hcustomer : "local.customer" ∈ (someCustomers.mergedWith somePrices).outputs := by decide +kernel
  have hprice : "local.price" ∈ (someCustomers.mergedWith somePrices).outputs := by decide +kernel
  refine ⟨hcustomer, fun h => ?_, hprice, ((mergedWith_shows _ _ _).2.2 hprice).2 (by decide)⟩
  exact absurd (((mergedWith_shows _ _ _).2.2 hcustomer).1 h) (by decide)

/-- orders alone -/
def bareOrders : Relation := ofOrders ["local.order"] [] []

/-- orders with prices that are hidden -/
def hiddenPrices : Relation := ofOrders ["local.order", "local.price"] [] ["local.price"]

/-- **A hidden column that is shown again.** One side has the price and hides it, the other side has no price. Neither
shows it, and both together do. -/
theorem price_shown :
    HidesAlone hiddenPrices bareOrders "local.price" ∧
    "local.price" ∈ (bareOrders.mergedWith hiddenPrices).visible ∧
    ¬ (∀ a b : Relation, ∀ x, x ∈ (a.mergedWith b).visible ↔ x ∈ a.visible ∨ x ∈ b.visible) := by
  have hshown : "local.price" ∈ (bareOrders.mergedWith hiddenPrices).visible := by decide +kernel
  refine ⟨⟨by decide, by decide, by decide, by decide⟩, hshown, fun h => ?_⟩
  exact absurd ((h _ _ _).1 hshown) (by decide)

end SemanticPlanner.Relation
