/-
Sources that are dropped because another one covers them.

  CoveredBy        two complete and unconditional sources, the second with the outputs and the grain of the first
  coveredAt_eq_some, coveredAt_eq_none
                   one round finds a source that another one covers, and none only if there is none
  exists_dropped   every dropped source is covered by a kept one, over any number of rounds
  dropCovered_keeps
                   what is kept, what covers what is dropped, and when all that was shown is still shown
  codes_lost       a source that covers another one and hides what that one shows

A source can be dropped for the sake of one that is dropped in a later round. Covering is transitive, so at the end there
is one that is kept. It has all outputs of the dropped source, but it is not asked whether it shows them.
-/
import SemanticPlanner.Proofs.Providers
import SemanticPlanner.Plan.Resolve
import Mathlib.Data.List.Perm.Basic

namespace SemanticPlanner.Resolve

variable {sources kept dropped : List RelationSource} {s t u : RelationSource} {i n : Nat} {x : String}

/-! ## Covering -/

/-- complete in all outputs, and not conditional -/
structure Whole (s : RelationSource) : Prop where
  complete : s.partials = []
  unconditional : s.condition = none

/-- both sources are whole, and the second has every output of the first and every component of its grain -/
structure CoveredBy (s t : RelationSource) : Prop where
  whole : Whole s
  cover : Whole t
  outputs : ∀ x ∈ s.outputs, x ∈ t.outputs
  grain : ∀ a ∈ s.grain.components, a ∈ t.grain.components

theorem CoveredBy.trans (h : CoveredBy s t) (h' : CoveredBy t u) : CoveredBy s u :=
  ⟨h.whole, h'.cover, fun x hx => h'.outputs x (h.outputs x hx), fun a ha => h'.grain a (h.grain a ha)⟩

theorem isCovered_iff : isCovered s t = true ↔ CoveredBy s t := by
  have hcomplete : ∀ {s : RelationSource}, s.partials = [] → ∀ x, x ∈ completeOutputs s ↔ x ∈ s.outputs := by
    intro s hs x
    simp [completeOutputs, SortedSet.mem_ofList, hs]
  unfold isCovered
  simp only [Bool.and_eq_true, List.isEmpty_iff, Option.isNone_iff_eq_none, SortedSet.isSubset_iff, Grain.isSubset]
  constructor
  · rintro ⟨⟨⟨⟨⟨houtputs, hgrain⟩, hs⟩, ht⟩, hs'⟩, ht'⟩
    simp only [hcomplete hs, hcomplete ht] at houtputs
    exact ⟨⟨hs, hs'⟩, ⟨ht, ht'⟩, houtputs, hgrain⟩
  · intro h
    simp only [hcomplete h.whole.complete, hcomplete h.cover.complete]
    exact ⟨⟨⟨⟨⟨h.outputs, h.grain⟩, h.whole.complete⟩, h.cover.complete⟩, h.whole.unconditional⟩, h.cover.unconditional⟩

/-! ## One round -/

/-- a round finds a source that another one covers -/
theorem coveredAt_eq_some (h : coveredAt sources = some i) :
    ∃ s, sources[i]? = some s ∧ ∃ t ∈ sources.eraseIdx i, CoveredBy s t := by
  unfold coveredAt at h
  obtain ⟨⟨s, i⟩, hfind, rfl⟩ := Option.map_eq_some_iff.1 h
  have hs := List.mem_zipIdx_iff_getElem?.1 (List.mem_of_find?_eq_some hfind)
  have hany := List.find?_some hfind
  dsimp only at hany
  obtain ⟨⟨t, j⟩, ht, hcovered⟩ := List.any_eq_true.1 hany
  obtain ⟨hne, hcovered⟩ := Bool.and_eq_true_iff.1 hcovered
  refine ⟨s, hs, t, ?_, isCovered_iff.1 hcovered⟩
  exact List.mem_eraseIdx_iff_getElem?.2 ⟨j, (bne_iff_ne.1 hne).symm, List.mem_zipIdx_iff_getElem?.1 ht⟩

/-- it finds none only if no source covers another one -/
theorem coveredAt_eq_none (h : coveredAt sources = none) :
    sources.Pairwise fun s t => ¬ CoveredBy s t ∧ ¬ CoveredBy t s := by
  unfold coveredAt at h
  rw [Option.map_eq_none_iff, List.find?_eq_none] at h
  have hnone : ∀ i j (hi : i < sources.length) (hj : j < sources.length), i ≠ j →
      ¬ CoveredBy sources[i] sources[j] := by
    intro i j hi hj hne hcovered
    refine h (sources[i], i) (List.mem_zipIdx_iff_getElem?.2 (List.getElem?_eq_getElem hi)) ?_
    refine List.any_eq_true.2 ⟨(sources[j], j), List.mem_zipIdx_iff_getElem?.2 (List.getElem?_eq_getElem hj), ?_⟩
    exact Bool.and_eq_true_iff.2 ⟨bne_iff_ne.2 hne, isCovered_iff.2 hcovered⟩
  apply List.pairwise_iff_getElem.2
  intro i j hi hj hlt
  exact ⟨hnone i j hi hj (Nat.ne_of_lt hlt), hnone j i hj hi (Nat.ne_of_gt hlt)⟩

/-! ## All rounds -/

theorem dropCovered_sublist (n : Nat) (sources : List RelationSource) : (dropCovered n sources).Sublist sources := by
  induction n generalizing sources with
  | zero => exact List.Sublist.refl _
  | succ n ih =>
    rw [dropCovered]
    split
    · exact (ih _).trans (List.eraseIdx_sublist _ _)
    · exact List.Sublist.refl _

/-- **every dropped source is covered by a kept one** -/
theorem exists_dropped (n : Nat) (sources : List RelationSource) : ∃ dropped,
    (dropCovered n sources ++ dropped).Perm sources ∧ dropped.map RelationSource.identifier = droppedIds n sources ∧
      ∀ s ∈ dropped, ∃ t ∈ dropCovered n sources, CoveredBy s t := by
  induction n generalizing sources with
  | zero => exact ⟨[], by simp [dropCovered], rfl, fun s hs => absurd hs List.not_mem_nil⟩
  | succ n ih =>
    rw [dropCovered, droppedIds]
    cases hfound : coveredAt sources with
    | none => exact ⟨[], by simp, rfl, fun s hs => absurd hs List.not_mem_nil⟩
    | some i =>
      obtain ⟨s, hs, t, ht, hcovered⟩ := coveredAt_eq_some hfound
      obtain ⟨dropped, hparts, hids, hall⟩ := ih (sources.eraseIdx i)
      refine ⟨s :: dropped, ?_, by simp [hs, hids], ?_⟩
      · obtain ⟨hi, rfl⟩ := List.getElem?_eq_some_iff.1 hs
        exact List.perm_middle.trans ((hparts.cons _).trans (List.getElem_cons_eraseIdx_perm hi))
      · intro u hu
        rcases List.mem_cons.1 hu with rfl | hu
        · -- what covers it is kept itself, or dropped for one that is
          rcases List.mem_append.1 (hparts.mem_iff.2 ht) with hkept | hdropped
          · exact ⟨t, hkept, hcovered⟩
          · obtain ⟨v, hv, hcovers⟩ := hall t hdropped
            exact ⟨v, hv, hcovered.trans hcovers⟩
        · exact hall u hu

/-- as many rounds as there are sources are enough -/
theorem coveredAt_dropCovered (h : sources.length ≤ n) : coveredAt (dropCovered n sources) = none := by
  induction n generalizing sources with
  | zero =>
    cases List.eq_nil_of_length_eq_zero (Nat.le_zero.1 h)
    rfl
  | succ n ih =>
    rw [dropCovered]
    cases hfound : coveredAt sources with
    | none => exact hfound
    | some i =>
      obtain ⟨s, hs, -⟩ := coveredAt_eq_some hfound
      obtain ⟨hi, -⟩ := List.getElem?_eq_some_iff.1 hs
      apply ih
      rw [List.length_eraseIdx_of_lt hi]
      omega

/-! ## What is kept -/

/-- no source hides what a source that it covers shows -/
def ShowsCovered (sources : List RelationSource) : Prop :=
  ∀ s ∈ sources, ∀ t ∈ sources, CoveredBy s t → ∀ x ∈ s.visible, x ∈ t.visible

/-- **What is kept when covered sources are dropped.** Some source is kept if there is one, the kept ones are in order,
and none of them covers another. The others are the dropped ones, whose identifiers are told, and each of them is covered
by a kept source: a whole one with all of its outputs and its grain. That one shows all that the dropped source showed, if
no source hides what it covers. -/
theorem dropCovered_keeps (sources : List RelationSource) :
    (sources ≠ [] → dropCovered sources.length sources ≠ []) ∧
    (dropCovered sources.length sources).Sublist sources ∧
    ((dropCovered sources.length sources).Pairwise fun s t => ¬ CoveredBy s t ∧ ¬ CoveredBy t s) ∧
    ∃ dropped, (dropCovered sources.length sources ++ dropped).Perm sources ∧
      dropped.map RelationSource.identifier = droppedIds sources.length sources ∧
      ∀ s ∈ dropped, ∃ t ∈ dropCovered sources.length sources, CoveredBy s t ∧
        (ShowsCovered sources → ∀ x ∈ s.visible, x ∈ t.visible) := by
  have hsublist := dropCovered_sublist sources.length sources
  obtain ⟨dropped, hparts, hids, hcovered⟩ := exists_dropped sources.length sources
  refine ⟨fun hne hnone => ?_, hsublist, coveredAt_eq_none (coveredAt_dropCovered (Nat.le_refl _)), dropped, hparts, hids,
    fun s hs => ?_⟩
  · -- if all were dropped, one that was would be covered by none
    rw [hnone, List.nil_append] at hparts
    obtain ⟨s, hs⟩ := List.exists_mem_of_ne_nil sources hne
    obtain ⟨t, ht, -⟩ := hcovered s (hparts.mem_iff.2 hs)
    rw [hnone] at ht
    exact absurd ht List.not_mem_nil
  · obtain ⟨t, ht, hcovers⟩ := hcovered s hs
    refine ⟨t, ht, hcovers, fun hshows => hshows s ?_ t (hsublist.subset ht) hcovers⟩
    exact hparts.mem_iff.1 (List.mem_append_right _ hs)

/-- a relation of codes -/
def coded (identifier : String) (outputs hidden : List String) : RelationSource :=
  .query { (default : Relation) with
    identifier
    outputs
    hidden := SortedSet.ofList hidden
    grain := Grain.ofList ["local.code"] }

def codes : RelationSource := coded "codes" ["local.code"] []

def labels : RelationSource := coded "labels" ["local.code", "local.label"] []

def prices : RelationSource := coded "prices" ["local.code", "local.label", "local.price"] []

theorem showsCovered_prices : ShowsCovered [codes, labels, prices] := by
  have hshown : ∀ s ∈ [codes, labels, prices], s.visible = s.outputs := by decide +kernel
  intro s hs t ht hcovered x hx
  rw [hshown s hs] at hx
  rw [hshown t ht]
  exact hcovered.outputs x hx

/-- the codes are dropped for the labels and these for the prices, which show the codes -/
theorem dropCovered_keeps_prices : ShowsCovered [codes, labels, prices] ∧
    dropCovered 3 [codes, labels, prices] = [prices] ∧ CoveredBy codes prices ∧ ∀ x ∈ codes.visible, x ∈ prices.visible := by
  have hkept : dropCovered 3 [codes, labels, prices] = [prices] := rfl
  obtain ⟨-, -, -, dropped, hparts, -, hcovered⟩ := dropCovered_keeps [codes, labels, prices]
  change (dropCovered 3 _ ++ dropped).Perm _ at hparts
  have hdropped : codes ∈ dropped := by
    rcases List.mem_append.1 (hparts.mem_iff.2 List.mem_cons_self) with hmem | hmem
    · rw [hkept] at hmem
      exact absurd (congrArg RelationSource.identifier (List.mem_singleton.1 hmem)) (by decide)
    · exact hmem
  obtain ⟨t, ht, hcovers, hshows⟩ := hcovered codes hdropped
  change t ∈ dropCovered 3 _ at ht
  rw [hkept] at ht
  cases List.mem_singleton.1 ht
  exact ⟨showsCovered_prices, hkept, hcovers, hshows showsCovered_prices⟩

/-! ## A column that is lost -/

/-- labels that hide their codes -/
def bareLabels : RelationSource := coded "labels" ["local.code", "local.label"] ["local.code"]

/-- **A source that is dropped for one that hides its column.** The labels have the codes and hide them. The codes are
dropped for them all the same, and then the code is read from nowhere. -/
theorem codes_lost : dropCovered 2 [codes, bareLabels] = [bareLabels] ∧ droppedIds 2 [codes, bareLabels] = ["codes"] ∧
    "local.code" ∈ codes.visible ∧ (∀ t ∈ dropCovered 2 [codes, bareLabels], "local.code" ∉ t.visible) ∧
    (ConceptMap.resolve [codes, bareLabels] ["local.code"] ["local.code"] []).get? "local.code" =
      some (SortedSet.singleton "codes") ∧
    (ConceptMap.resolve (dropCovered 2 [codes, bareLabels]) ["local.code"] ["local.code"] []).get? "local.code" = none := by
  have hkept : dropCovered 2 [codes, bareLabels] = [bareLabels] := rfl
  refine ⟨hkept, by decide +kernel, by decide, ?_, by decide +kernel, ?_⟩
  · intro t ht
    cases List.mem_singleton.1 (hkept ▸ ht)
    decide
  · rw [hkept]
    decide +kernel

end SemanticPlanner.Resolve
