/-
The steps of a lowered plan: whose they are, in which order they stand, and when their names repeat.

  ParentsFirst       every step stands after the steps it names as parents
  mem_lower          every step is the step of a relation that the lowered one reads
  parentsFirst_lower lowering puts parents first
  nodup_lower_iff    the names are pairwise distinct unless a step that is written repeats a source of its own

Lowering goes through the sources before it writes a step, and asks only before that whether the name is taken. A
relation below another one of its name is therefore written first and the other one still follows; as identifiers grow
upwards, this happens only where a relation has the identifier of a source of its own.
-/
import SemanticPlanner.Proofs.Naming
import SemanticPlanner.Cte.Lower

namespace SemanticPlanner

namespace Relation

/-! ## Lowering, step by step -/

theorem sizeOf_source {r q : Relation} (h : .query q ∈ r.sources) : sizeOf q < sizeOf r := by
  have hq : sizeOf q < sizeOf (RelationSource.query q) := by simp
  have hs : sizeOf (RelationSource.query q) < sizeOf r.sources := List.sizeOf_lt_of_mem h
  have hr : sizeOf r.sources < sizeOf r := by
    cases r
    simp
    omega
  omega

/-- what holds of a relation if it holds of its sources holds of every relation -/
theorem inductSources {P : Relation → Prop} (h : ∀ r, (∀ q, .query q ∈ r.sources → P q) → P r) (r : Relation) : P r :=
  h r fun q _ => inductSources h q
termination_by sizeOf r
decreasing_by exact sizeOf_source (by assumption)

theorem lowerInto_eq (r : Relation) (out : List Cte) : lowerInto r out =
    if (out.any fun c => c.name == r.identifier) = true then out else lowerSources r.sources out ++ [r.toCte] := by
  cases r
  rw [lowerInto]

/-- the name of a relation is among the steps -/
def IsWritten (r : Relation) (ctes : List Cte) : Prop := ∃ c ∈ ctes, c.name = r.identifier

theorem any_name_iff {r : Relation} {out : List Cte} :
    (out.any fun c => c.name == r.identifier) = true ↔ r.IsWritten out := by
  simp [IsWritten]

/-- steps are added behind those that are there, each the step of a relation with the given property -/
def Adds (P : Relation → Prop) (out res : List Cte) : Prop :=
  ∃ added, res = out ++ added ∧ ∀ c ∈ added, ∃ q, P q ∧ c = q.toCte

theorem Adds.mem {P : Relation → Prop} {out res : List Cte} (h : Adds P out res) {c : Cte} (hc : c ∈ out) : c ∈ res := by
  obtain ⟨added, rfl, -⟩ := h
  exact List.mem_append_left _ hc

theorem Adds.trans {P Q R : Relation → Prop} {out mid res : List Cte} (h : Adds P out mid) (h' : Adds Q mid res)
    (hP : ∀ q, P q → R q) (hQ : ∀ q, Q q → R q) : Adds R out res := by
  obtain ⟨l, rfl, hl⟩ := h
  obtain ⟨m, rfl, hm⟩ := h'
  refine ⟨l ++ m, List.append_assoc _ _ _, fun c hc => ?_⟩
  rcases List.mem_append.1 hc with hc | hc
  · obtain ⟨q, hq, rfl⟩ := hl c hc
    exact ⟨q, hP q hq, rfl⟩
  · obtain ⟨q, hq, rfl⟩ := hm c hc
    exact ⟨q, hQ q hq, rfl⟩

/-- the relations that those of a list read, themselves included -/
def Below (sources : List RelationSource) (q : Relation) : Prop := ∃ s, .query s ∈ sources ∧ s.Within q

theorem lowerSources_adds {sources : List RelationSource}
    (h : ∀ q, .query q ∈ sources → ∀ out, Adds q.Within out (lowerInto q out) ∧ q.IsWritten (lowerInto q out))
    (out : List Cte) : Adds (Below sources) out (lowerSources sources out) ∧
      ∀ q, .query q ∈ sources → q.IsWritten (lowerSources sources out) := by
  induction sources generalizing out with
  | nil => exact ⟨⟨[], by simp [lowerSources], by simp⟩, fun q hq => absurd hq List.not_mem_nil⟩
  | cons s rest ih =>
    have hrest := ih fun q hq => h q (List.mem_cons_of_mem _ hq)
    have hbelow : ∀ q, Below rest q → Below (s :: rest) q := fun q ⟨t, ht, hq⟩ => ⟨t, List.mem_cons_of_mem _ ht, hq⟩
    cases s with
    | datasource d =>
      rw [lowerSources]
      obtain ⟨⟨added, he, ha⟩, hw⟩ := hrest out
      refine ⟨⟨added, he, fun c hc => ?_⟩, fun q hq => ?_⟩
      · obtain ⟨q, hq, rfl⟩ := ha c hc
        exact ⟨q, hbelow q hq, rfl⟩
      · rcases List.mem_cons.1 hq with hq | hq
        · cases hq
        · exact hw q hq
    | query q =>
      rw [lowerSources]
      obtain ⟨hq, hqw⟩ := h q List.mem_cons_self out
      obtain ⟨hr, hrw⟩ := hrest (lowerInto q out)
      refine ⟨hq.trans hr (fun s hs => ⟨q, List.mem_cons_self, hs⟩) hbelow, fun s hs => ?_⟩
      rcases List.mem_cons.1 hs with hs | hs
      · cases hs
        obtain ⟨c, hc, hn⟩ := hqw
        exact ⟨c, hr.mem hc, hn⟩
      · exact hrw s hs

/-- lowering adds steps of relations that are read, one of them with the name of the relation -/
theorem lowerInto_adds (r : Relation) :
    ∀ out, Adds r.Within out (lowerInto r out) ∧ r.IsWritten (lowerInto r out) := by
  induction r using inductSources with
  | h r ih =>
    intro out
    rw [lowerInto_eq]
    split
    · rename_i h
      exact ⟨⟨[], by simp, by simp⟩, any_name_iff.1 h⟩
    · obtain ⟨⟨added, he, ha⟩, -⟩ := lowerSources_adds ih out
      refine ⟨⟨added ++ [r.toCte], ?_, fun c hc => ?_⟩, r.toCte, by simp, rfl⟩
      · rw [he, List.append_assoc]
      · rcases List.mem_append.1 hc with hc | hc
        · obtain ⟨q, ⟨s, hs, hq⟩, rfl⟩ := ha c hc
          exact ⟨q, (Within.self.source hs).trans hq, rfl⟩
        · exact ⟨r, .self, List.mem_singleton.1 hc⟩

/-- **every step is that of a relation that is read** -/
theorem mem_lower {r : Relation} {c : Cte} (h : c ∈ r.lower.ctes) : ∃ q, r.Within q ∧ c = q.toCte := by
  obtain ⟨⟨added, he, ha⟩, -⟩ := lowerInto_adds r []
  rw [List.nil_append] at he
  exact ha c (he ▸ h)

/-! ## The order of steps -/

theorem mem_parentNames {r : Relation} {n : String} :
    n ∈ r.parentNames ↔ ∃ q, .query q ∈ r.sources ∧ q.identifier = n := by
  simp only [parentNames, mem_distinct, List.mem_filterMap]
  constructor
  · rintro ⟨s, hs, he⟩
    cases s with
    | datasource d => exact absurd he (by simp)
    | query q => exact ⟨q, hs, by simpa using he⟩
  · rintro ⟨q, hq, rfl⟩
    exact ⟨.query q, hq, rfl⟩

end Relation

/-- every step stands after the steps it reads -/
def ParentsFirst (ctes : List Cte) : Prop :=
  ∀ (i : Nat) (c : Cte), ctes[i]? = some c → ∀ n ∈ c.parents, ∃ (j : Nat) (d : Cte), j < i ∧ ctes[j]? = some d ∧
    d.name = n

theorem ParentsFirst.concat {ctes : List Cte} {c : Cte} (h : ParentsFirst ctes)
    (hc : ∀ n ∈ c.parents, ∃ d ∈ ctes, d.name = n) : ParentsFirst (ctes ++ [c]) := by
  intro i e he n hn
  rcases Nat.lt_or_ge i ctes.length with hi | hi
  · rw [List.getElem?_append_left hi] at he
    obtain ⟨j, d, hj, hd, hname⟩ := h i e he n hn
    exact ⟨j, d, hj, by rw [List.getElem?_append_left (by omega), hd], hname⟩
  · rw [List.getElem?_append_right hi] at he
    have hlast : i - ctes.length = 0 ∧ c = e := by
      cases hk : i - ctes.length with
      | zero => simpa [hk] using he
      | succ k => simp [hk] at he
    obtain ⟨d, hd, hname⟩ := hc n (hlast.2 ▸ hn)
    obtain ⟨j, hj, hget⟩ := List.getElem_of_mem hd
    refine ⟨j, d, by omega, ?_, hname⟩
    rw [List.getElem?_append_left hj, List.getElem?_eq_getElem hj, hget]

/-- steps that stand after their parents are of different names only if none names itself -/
theorem ParentsFirst.name_not_mem {ctes : List Cte} (h : ParentsFirst ctes)
    (hn : (ctes.map Cte.name).Nodup) {c : Cte} (hc : c ∈ ctes) : c.name ∉ c.parents := by
  intro hself
  obtain ⟨i, hi, rfl⟩ := List.getElem_of_mem hc
  obtain ⟨j, d, hj, hd, hname⟩ := h i _ (List.getElem?_eq_getElem hi) _ hself
  have hjl : j < ctes.length := by omega
  rw [List.getElem?_eq_getElem hjl] at hd
  cases hd
  have hne := List.pairwise_iff_getElem.1 hn j i (by simpa using hjl) (by simpa using hi) hj
  rw [List.getElem_map, List.getElem_map] at hne
  exact hne hname

namespace Relation

theorem parentsFirst_lowerSources {sources : List RelationSource}
    (h : ∀ q, .query q ∈ sources → ∀ out, ParentsFirst out → ParentsFirst (lowerInto q out)) {out : List Cte}
    (ho : ParentsFirst out) : ParentsFirst (lowerSources sources out) := by
  induction sources generalizing out with
  | nil => simpa [lowerSources] using ho
  | cons s rest ih =>
    have hrest : ∀ {out}, ParentsFirst out → ParentsFirst (lowerSources rest out) :=
      ih fun q hq => h q (List.mem_cons_of_mem _ hq)
    cases s with
    | datasource d =>
      rw [lowerSources]
      exact hrest ho
    | query q =>
      rw [lowerSources]
      exact hrest (h q List.mem_cons_self out ho)

theorem parentsFirst_lowerInto (r : Relation) : ∀ out, ParentsFirst out → ParentsFirst (lowerInto r out) := by
  induction r using inductSources with
  | h r ih =>
    intro out ho
    rw [lowerInto_eq]
    split
    · exact ho
    · refine (parentsFirst_lowerSources ih ho).concat fun n hn => ?_
      obtain ⟨q, hq, rfl⟩ := mem_parentNames.1 hn
      exact (lowerSources_adds (fun q _ => lowerInto_adds q) out).2 q hq

/-- **lowering puts parents first** -/
theorem parentsFirst_lower (r : Relation) : ParentsFirst r.lower.ctes := by
  refine parentsFirst_lowerInto r [] fun i c hc => ?_
  exact absurd hc (by simp)

/-! ## Repeated names -/

theorem IsRepeat.identifier {r q : Relation} (h : r.IsRepeat q) (hr : r.Named) : r.identifier = q.identifier := by
  rw [hr, h.kind, h.sources, h.condition]
  simp [identifierOf, SourceKind.name, h.grain, Text.join]
  rfl

/-- a step names itself as a parent where its relation repeats a source, and only there -/
theorem WellNamed.name_mem_parents {r : Relation} (hr : r.WellNamed) :
    r.toCte.name ∈ r.toCte.parents ↔ ∃ q, r.IsRepeat q := by
  show r.identifier ∈ r.parentNames ↔ _
  rw [mem_parentNames]
  constructor
  · rintro ⟨q, hq, he⟩
    exact ⟨q, hr.isRepeat hq .self he⟩
  · rintro ⟨q, hq⟩
    exact ⟨q, by rw [hq.sources]; exact List.mem_cons_self, (hq.identifier (hr r .self)).symm⟩

theorem nodup_lowerSources {sources : List RelationSource}
    (h : ∀ q, .query q ∈ sources → ∀ out, (out.map Cte.name).Nodup →
      (∀ c ∈ lowerInto q out, c.name ∉ c.parents) → ((lowerInto q out).map Cte.name).Nodup) {out : List Cte}
    (ho : (out.map Cte.name).Nodup) (hfree : ∀ c ∈ lowerSources sources out, c.name ∉ c.parents) :
    ((lowerSources sources out).map Cte.name).Nodup := by
  induction sources generalizing out with
  | nil => simpa [lowerSources] using ho
  | cons s rest ih =>
    have hrest := @ih fun q hq => h q (List.mem_cons_of_mem _ hq)
    cases s with
    | datasource d =>
      rw [lowerSources] at hfree ⊢
      exact hrest ho hfree
    | query q =>
      rw [lowerSources] at hfree ⊢
      refine hrest (h q List.mem_cons_self out ho fun c hc => hfree c ?_) hfree
      exact (lowerSources_adds (fun q _ => lowerInto_adds q) _).1.mem hc

theorem nodup_lowerInto (r : Relation) : r.WellNamed → ∀ out, (out.map Cte.name).Nodup →
    (∀ c ∈ lowerInto r out, c.name ∉ c.parents) → ((lowerInto r out).map Cte.name).Nodup := by
  induction r using inductSources with
  | h r ih =>
    intro hr out ho hfree
    rw [lowerInto_eq] at hfree ⊢
    split at hfree
    · rename_i hw
      rw [if_pos hw]
      exact ho
    · rename_i hw
      rw [if_neg hw]
      have hsources := nodup_lowerSources (fun q hq => ih q hq (hr.source hq)) ho
        fun c hc => hfree c (List.mem_append_left _ hc)
      rw [List.map_append, List.nodup_append]
      refine ⟨hsources, by simp, ?_⟩
      intro n hn m hm e
      obtain ⟨c, hc, rfl⟩ := List.mem_map.1 hn
      rw [List.map_singleton, List.mem_singleton] at hm
      -- a step of this name that was not there before is that of a relation below, which `r` then repeats
      obtain ⟨⟨added, he, ha⟩, -⟩ :=
        lowerSources_adds (fun q (_ : .query q ∈ r.sources) => lowerInto_adds q) out
      rw [he] at hc
      rcases List.mem_append.1 hc with hc | hc
      · exact hw (any_name_iff.2 ⟨c, hc, e.trans hm⟩)
      · obtain ⟨q, ⟨s, hs, hq⟩, rfl⟩ := ha c hc
        have hrep := hr.isRepeat hs hq (e.trans hm)
        exact hfree r.toCte (List.mem_append_right _ List.mem_cons_self) (hr.name_mem_parents.2 ⟨s, hrep⟩)

/-- **names of a lowered plan are distinct unless a relation that is written repeats a source of its own** -/
theorem nodup_lower_iff {r : Relation} (hr : r.WellNamed) :
    r.lower.names.Nodup ↔ ∀ q, r.Within q → q.toCte ∈ r.lower.ctes → ∀ s, ¬ q.IsRepeat s := by
  have hwell : ∀ q, r.Within q → q.WellNamed := fun q hq s hs => hr s (hq.trans hs)
  constructor
  · intro hn q hq hc s hs
    exact (parentsFirst_lower r).name_not_mem hn hc ((hwell q hq).name_mem_parents.2 ⟨s, hs⟩)
  · intro h
    refine nodup_lowerInto r hr [] (by simp) fun c hc => ?_
    obtain ⟨q, hq, rfl⟩ := mem_lower hc
    rw [(hwell q hq).name_mem_parents]
    rintro ⟨s, hs⟩
    exact h q hq hc s hs

end Relation

end SemanticPlanner
