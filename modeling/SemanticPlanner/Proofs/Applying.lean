/-
Which conditions a node applies.

  PartOf     a condition is an AND-ed part of another one, as it stands or as one that compares equal
  Applies    a condition of the given text is part of what the rows of a node satisfy already
  Meets      a node applies a condition that may be absent

A search is remembered by the text of its condition, so that conditions of one text are told apart nowhere. What a node
applies is kept in its core, and no change of its outputs, its parents or its grain touches it.
-/
import SemanticPlanner.Proofs.Copy

namespace SemanticPlanner

namespace Condition

/-- `c` is an AND-ed part of a condition, or compares equal to one -/
inductive PartOf (c : Condition) : Condition → Prop
  | self : PartOf c c
  | equal {d : Condition} : (c == d) = true → PartOf c d
  | left {l r : Condition} : PartOf c l → PartOf c (.and l r)
  | right {l r : Condition} : PartOf c r → PartOf c (.and l r)

theorem partOf_of_holdsIn {c d : Condition} (h : c.holdsIn d = true) : c.PartOf d := by
  induction d with
  | and l r ihl ihr =>
    rw [holdsIn, Bool.or_eq_true, Bool.or_eq_true] at h
    rcases h with (h | h) | h
    · exact .equal h
    · exact .left (ihl h)
    · exact .right (ihr h)
  | comparison | membership | or | not => exact .equal h

end Condition

namespace NodeCore

variable {core : NodeCore} {text : String}

/-- a condition of the text is part of what the rows satisfy already -/
def Applies (core : NodeCore) (text : String) : Prop :=
  ∃ c known : Condition, c.display = text ∧ core.preexisting = some known ∧ c.PartOf known

theorem applies_withPreexisting (core : NodeCore) (c : Condition) : (core.withPreexisting (some c)).Applies c.display := by
  rw [withPreexisting, syncPreexisting]
  split
  · rename_i h
    cases h
  · rename_i h
    cases h
    split
    · exact ⟨c, _, rfl, rfl, .right .self⟩
    · exact ⟨c, c, rfl, rfl, .self⟩
  · exact ⟨c, c, rfl, rfl, .self⟩

theorem meets_withPreexisting {condition : Option Condition} (core : NodeCore) :
    ∀ c ∈ condition, (core.withPreexisting condition).Applies c.display := by
  rintro c rfl
  exact core.applies_withPreexisting c

/-- a condition of its own takes nothing from what the rows satisfy -/
theorem Applies.withCondition (h : core.Applies text) (own : Option Condition) : (core.withCondition own).Applies text := by
  obtain ⟨c, known, hc, hknown, hpart⟩ := h
  rw [NodeCore.withCondition, syncPreexisting]
  split
  · rename_i h
    exact absurd (hknown.symm.trans h) (Option.some_ne_none _)
  · rename_i h
    cases hknown.symm.trans h
    split
    · exact ⟨c, _, hc, rfl, .right hpart⟩
    · exact ⟨c, known, hc, hknown, hpart⟩
  · exact ⟨c, known, hc, hknown, hpart⟩

theorem applies_withCondition (h : core.preexisting = none) (c : Condition) :
    (core.withCondition (some c)).Applies c.display := by
  refine ⟨c, c, rfl, ?_, .self⟩
  rw [NodeCore.withCondition, syncPreexisting, h]

theorem Applies.congr {other : NodeCore} (h : core.Applies text) (he : other.preexisting = core.preexisting) :
    other.Applies text := by
  rw [Applies, he]
  exact h

end NodeCore

namespace Arena

variable {a b : Arena} {id x : PlanId} {text : String} {condition : Option Condition}

def Applies (a : Arena) (id : PlanId) (text : String) : Prop := (a.core id).Applies text

/-- the condition is applied, if there is one -/
def Meets (a : Arena) (id : PlanId) (condition : Option Condition) : Prop :=
  ∀ c ∈ condition, a.Applies id c.display

theorem Meets.none : a.Meets id none := fun _ h => by cases h

theorem Applies.of_node (h : a.Applies id text) (hn : b.node id = a.node id) : b.Applies id text :=
  h.congr (congrArg (fun n : PlanNode => n.core.preexisting) hn)

theorem Meets.of_node (h : a.Meets id condition) (hn : b.node id = a.node id) : b.Meets id condition := fun c hc =>
  (h c hc).of_node hn

/-- an inserted core that keeps what is known of the rows meets the condition it was given -/
theorem meets_of_core {core : NodeCore} (h : (a.core id).preexisting = core.preexisting)
    (hc : ∀ c ∈ condition, core.Applies c.display) : a.Meets id condition := fun c hmem => (hc c hmem).congr h

/-- a change that leaves alone what the rows satisfy -/
def Unfiltered (g : Arena → Arena) : Prop := ∀ a x, ((g a).core x).preexisting = (a.core x).preexisting

theorem Unfiltered.change {f : NodeCore → NodeCore} (hf : ∀ c, (f c).preexisting = c.preexisting) :
    Unfiltered fun a => a.change id f := by
  intro a x
  rw [core, node, slot_change]
  split
  · rename_i h
    exact (hf _).trans (congrArg (fun y => (a.core y).preexisting) h.1.symm)
  · rfl

theorem Unfiltered.comp {g h : Arena → Arena} (hg : Unfiltered g) (hh : Unfiltered h) : Unfiltered fun a => h (g a) :=
  fun a x => (hh (g a) x).trans (hg a x)

theorem Meets.edit {g : Arena → Arena} (h : a.Meets id condition) (hg : Unfiltered g) : (g a).Meets id condition :=
  fun c hc => (h c hc).congr (hg a id)

end Arena

end SemanticPlanner
