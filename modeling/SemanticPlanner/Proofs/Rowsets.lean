/-
What a rowset exposes.

  exposedAt              the address at which a rowset exposes an output: only the last part of its name counts
  Exposes                at that address stands a concept of the rowset with this output as its content
  Supplanted             a later output has the same last name
  find?_addAll_last      of the concepts put at one address the last is found there
  exposes_last           so the last output of a name is exposed
  declareRowset_exposes  an output is exposed exactly if it is not supplanted, and nothing changes at other addresses
  twoIds_conflated       two keys of one last name are exposed as one concept

All outputs are looked up before the first concept is put. So a rowset that takes the address of one of its own outputs
still exposes it, and outputs can only get in each other's way.
-/
import Mathlib.Data.List.Nodup
import SemanticPlanner.Proofs.Declaring
import SemanticPlanner.Search.Priority

namespace SemanticPlanner.Environment

variable {env env' : Environment} {name o : String} {select : InnerSelect} {created before after : List String}

/-! ## The last of several -/

/-- of the items with a property one is the last -/
theorem exists_last {α : Type} {P : α → Bool} {l : List α} {x : α} (hx : x ∈ l) (hP : P x = true) :
    ∃ before y after, l = before ++ y :: after ∧ P y = true ∧ ∀ z ∈ after, P z = false := by
  have hfound : (l.reverse.find? P).isSome = true := List.find?_isSome.2 ⟨x, List.mem_reverse.2 hx, hP⟩
  obtain ⟨y, hy⟩ := Option.isSome_iff_exists.1 hfound
  obtain ⟨hPy, after, before, hsplit, hafter⟩ := List.find?_eq_some_iff_append.1 hy
  refine ⟨before.reverse, y, after.reverse, ?_, hPy, fun z hz => ?_⟩
  · rw [← List.reverse_reverse l, hsplit]
    simp
  · simpa using hafter z (List.mem_reverse.1 hz)

/-- the last concept put at an address is found there -/
theorem find?_addAll_last {cs ds : List Concept} {c : Concept} (h : c.address ∉ Concept.addresses ds) :
    ((cs ++ c :: ds).foldl add env).find? c.address = some c := by
  rw [List.foldl_append, List.foldl_cons]
  rcases find?_addAll ((cs.foldl add env).add c) ds c.address with ⟨d, hd, hdc, -⟩ | ⟨-, hfind⟩
  · exact absurd (hdc ▸ List.mem_map_of_mem hd) h
  · rw [hfind, find?_add, if_pos rfl]

/-! ## Addresses -/

/-- the address at which a rowset exposes an output -/
def exposedAt (rowset output : String) : String := rowset ++ "." ++ Address.nameOf output

theorem exposedAt_inj {o p : String} : exposedAt name o = exposedAt name p ↔ Address.nameOf o = Address.nameOf p := by
  simp [exposedAt]

/-- a later output has the same last name -/
def Supplanted (outputs : List String) (o : String) : Prop :=
  ∃ p, [o, p].Sublist outputs ∧ Address.nameOf p = Address.nameOf o

instance (outputs : List String) (o : String) : Decidable (Supplanted outputs o) :=
  decidable_of_iff (∃ p ∈ outputs, [o, p].Sublist outputs ∧ Address.nameOf p = Address.nameOf o)
    ⟨fun ⟨p, _, h⟩ => ⟨p, h⟩, fun ⟨p, h⟩ => ⟨p, h.1.subset (by simp), h⟩⟩

theorem not_supplanted_of_inj {l : List String} (hl : l.Nodup)
    (hinj : ∀ o ∈ l, ∀ p ∈ l, Address.nameOf o = Address.nameOf p → o = p) (o : String) : ¬ Supplanted l o := by
  rintro ⟨p, hsub, hname⟩
  have hmem : ∀ x ∈ [o, p], x ∈ l := fun x hx => hsub.subset hx
  obtain rfl := hinj o (hmem o (by simp)) p (hmem p (by simp)) hname.symm
  exact List.nodup_iff_sublist.1 hl o hsub

/-! ## The concepts of a rowset -/

/-- where the rowset exposes an output, a concept of the rowset stands with the output as its content -/
def Exposes (env : Environment) (name : String) (select : InnerSelect) (o : String) : Prop :=
  env.lineage? (exposedAt name o) = some (.rowset ⟨name, o, select⟩)

/-- what is declared by a rowset: the concepts put, for the outputs in order -/
theorem declareRowset_eq_ok (hk : env.Keyed) (h : env.declareRowset name select = .ok (env', created)) :
    ∃ contents exposed, env.conceptsFor select.output = .ok contents ∧
      Concept.addresses contents = distinct select.output ∧
      env' = (contents.map (rowsetConcept name select exposed)).foldl add env ∧
      created = (distinct select.output).map (exposedAt name) := by
  obtain ⟨contents, hcontents, h⟩ := Resolve.bind_eq_ok h
  cases h
  have haddresses : Concept.addresses contents = distinct select.output := hk.addresses_mapM hcontents
  refine ⟨contents, _, hcontents, haddresses, rfl, ?_⟩
  rw [← haddresses, Concept.addresses, Concept.addresses, List.map_map, List.map_map]
  exact List.map_congr_left fun c _ => rowsetConcept_address ..

section
variable (hk : env.Keyed) (h : env.declareRowset name select = .ok (env', created))
include hk h

/-- **the last output of a name is exposed** -/
theorem exposes_last (hsplit : distinct select.output = before ++ o :: after)
    (hlast : ∀ p ∈ after, Address.nameOf p ≠ Address.nameOf o) : Exposes env' name select o := by
  obtain ⟨contents, exposed, -, haddresses, rfl, -⟩ := declareRowset_eq_ok hk h
  rw [hsplit] at haddresses
  obtain ⟨cs, ds', rfl, -, hrest⟩ := List.map_eq_append_iff.1 haddresses
  obtain ⟨c, ds, rfl, rfl, rfl⟩ := List.map_eq_cons_iff.1 hrest
  have hnot : (rowsetConcept name select exposed c).address ∉
      Concept.addresses (ds.map (rowsetConcept name select exposed)) := by
    intro hmem
    obtain ⟨_, hput, heq⟩ := List.mem_map.1 hmem
    obtain ⟨d, hd, rfl⟩ := List.mem_map.1 hput
    rw [rowsetConcept_address, rowsetConcept_address] at heq
    exact hlast d.address (List.mem_map_of_mem hd) (exposedAt_inj.1 heq)
  rw [Exposes, lineage?, List.map_append, List.map_cons, exposedAt, ← rowsetConcept_address name select exposed,
    find?_addAll_last hnot]
  rfl

/-- an output of each name is exposed -/
theorem exists_exposes (ho : o ∈ select.output) :
    ∃ p ∈ select.output, Address.nameOf p = Address.nameOf o ∧ Exposes env' name select p := by
  obtain ⟨before, p, after, hsplit, hp, hafter⟩ :=
    exists_last (P := fun p => decide (Address.nameOf p = Address.nameOf o)) (mem_distinct.2 ho) (decide_eq_true rfl)
  have hname := of_decide_eq_true hp
  refine ⟨p, mem_distinct.1 (hsplit ▸ by simp), hname, exposes_last hk h hsplit fun q hq heq => ?_⟩
  exact of_decide_eq_false (hafter q hq) (heq.trans hname)

/-- **an output is exposed exactly if no later one has its name** -/
theorem exposes_iff (ho : o ∈ select.output) :
    Exposes env' name select o ↔ ¬ Supplanted (distinct select.output) o := by
  constructor
  · rintro hexposes ⟨p, hsub, hname⟩
    obtain ⟨earlier, later, hlist, hoe, hpl⟩ := List.cons_sublist_iff.1 hsub
    -- the last output of the name comes after this one, and stands at the same address
    obtain ⟨before, q, after, rfl, hq, hafter⟩ := exists_last
      (P := fun q => decide (Address.nameOf q = Address.nameOf o)) (List.singleton_sublist.1 hpl) (decide_eq_true hname)
    have hqo := of_decide_eq_true hq
    have hlast : Exposes env' name select q :=
      exposes_last hk h (hlist.trans (List.append_assoc ..).symm) fun r hr heq =>
        of_decide_eq_false (hafter r hr) (heq.trans hqo)
    rw [Exposes, exposedAt_inj.2 hqo, hexposes] at hlast
    obtain rfl : o = q := by cases hlast; rfl
    have hnodup := nodup_distinct select.output
    rw [hlist] at hnodup
    exact (List.nodup_append.1 hnodup).2.2 o hoe o (by simp) rfl
  · intro hnot
    obtain ⟨before, after, hsplit⟩ := List.append_of_mem (mem_distinct.2 ho)
    refine exposes_last hk h hsplit fun p hp hname => hnot ⟨p, ?_, hname⟩
    rw [hsplit]
    exact ((List.singleton_sublist.2 hp).cons_cons o).trans (List.sublist_append_right _ _)

/-- at other addresses nothing changes -/
theorem declareRowset_find? {a : String} (ha : a ∉ created) : env'.find? a = env.find? a := by
  obtain ⟨contents, exposed, -, haddresses, rfl, rfl⟩ := declareRowset_eq_ok hk h
  rcases find?_addAll env (contents.map (rowsetConcept name select exposed)) a with ⟨d, hd, hda, -⟩ | ⟨-, hfind⟩
  · obtain ⟨c, hc, rfl⟩ := List.mem_map.1 hd
    rw [rowsetConcept_address] at hda
    exact absurd (List.mem_map.2 ⟨c.address, haddresses ▸ List.mem_map_of_mem hc, hda⟩) ha
  · exact hfind

/-- the outputs that are rebuilt from a concept of the rowset are the addresses that were handed out -/
theorem mem_rowsetSiblings {a x : String} (ha : a ∈ created) : x ∈ env'.rowsetSiblings a ↔ x ∈ created := by
  have hk' := hk.declareRowset h
  obtain ⟨contents, exposed, hcontents, -, henv, rfl⟩ := declareRowset_eq_ok hk h
  obtain ⟨o, ho, rfl⟩ := List.mem_map.1 ha
  obtain ⟨p, -, hname, hp⟩ := exists_exposes hk h (mem_distinct.1 ho)
  rw [Exposes, exposedAt_inj.2 hname] at hp
  rw [rowsetSiblings, hp]
  simp only [List.mem_map, List.mem_filterMap]
  constructor
  · rintro ⟨c, ⟨q, hq, hc⟩, rfl⟩
    exact ⟨q, mem_distinct.2 hq, by rw [← hk' q c hc]; rfl⟩
  · rintro ⟨q, hq, rfl⟩
    have hdeclared : env'.isDeclared q = true :=
      henv ▸ isDeclared_addAll.2 (Or.inr (isDeclared_of_conceptsFor hcontents (mem_distinct.1 hq)))
    obtain ⟨c, hc⟩ := isDeclared_iff.1 hdeclared
    exact ⟨c, ⟨q, mem_distinct.1 hq, hc⟩, by rw [← hk' q c hc]; rfl⟩

end

/-- **What a rowset exposes.** It answers with the address of each output, in order and each output once. An output
is exposed there exactly if no later one has its last name, and in its place the last of that name. At other addresses
nothing changes. So all outputs are exposed, at addresses of their own, exactly if no two share a last name; the search
rebuilds the same addresses from any concept of the rowset. -/
theorem declareRowset_exposes (hk : env.Keyed) (h : env.declareRowset name select = .ok (env', created)) :
    created = (distinct select.output).map (exposedAt name) ∧
      (∀ o ∈ select.output, (Exposes env' name select o ↔ ¬ Supplanted (distinct select.output) o) ∧
        ∃ p ∈ select.output, exposedAt name p = exposedAt name o ∧ Exposes env' name select p) ∧
      (∀ a, a ∉ created → env'.find? a = env.find? a) ∧
      (created.Nodup ∧ (∀ o ∈ select.output, Exposes env' name select o) ↔
        ∀ o ∈ select.output, ∀ p ∈ select.output, Address.nameOf o = Address.nameOf p → o = p) ∧
      ∀ a ∈ created, ∀ x, x ∈ env'.rowsetSiblings a ↔ x ∈ created := by
  obtain ⟨-, -, -, -, -, hcreated⟩ := declareRowset_eq_ok hk h
  have hnodup : created.Nodup ↔
      ∀ o ∈ select.output, ∀ p ∈ select.output, Address.nameOf o = Address.nameOf p → o = p := by
    rw [hcreated, List.nodup_map_iff_inj_on (nodup_distinct _)]
    simp only [mem_distinct, exposedAt_inj]
  refine ⟨hcreated, fun o ho => ⟨exposes_iff hk h ho, ?_⟩, fun a => declareRowset_find? hk h, ?_,
    fun a ha x => mem_rowsetSiblings hk h ha⟩
  · obtain ⟨p, hp, hname, hexposes⟩ := exists_exposes hk h ho
    exact ⟨p, hp, exposedAt_inj.2 hname, hexposes⟩
  · refine ⟨fun hall => hnodup.1 hall.1, fun hinj => ⟨hnodup.2 hinj, fun o ho => (exposes_iff hk h ho).2 ?_⟩⟩
    exact not_supplanted_of_inj (nodup_distinct _) (by simpa only [mem_distinct] using hinj) o

/-- two keys of one last name, and a property of the first -/
def twoIds : Environment :=
  ((empty.add (.key "a.id" .integer)).add (.key "b.id" .integer)).add (.property "a.value" .integer ["a.id"])

def bothIds : InnerSelect := ⟨["a.id", "a.value", "b.id"], [], none, none⟩

theorem keyed_twoIds : twoIds.Keyed := ((keyed_empty.add _).add _).add _

/-- a rowset of both keys exposes the second and the property -/
theorem declareRowset_exposes_twoIds : ∃ env', twoIds.Keyed ∧
    twoIds.declareRowset "both" bothIds = .ok (env', ["both.id", "both.value", "both.id"]) ∧
    Exposes env' "both" bothIds "b.id" ∧ Exposes env' "both" bothIds "a.value" ∧ ¬ Exposes env' "both" bothIds "a.id" ∧
    env'.find? "a.id" = twoIds.find? "a.id" := by
  obtain ⟨env', hdeclare⟩ : ∃ env',
      twoIds.declareRowset "both" bothIds = .ok (env', ["both.id", "both.value", "both.id"]) := ⟨_, rfl⟩
  obtain ⟨-, hexposes, hfind, -, -⟩ := declareRowset_exposes keyed_twoIds hdeclare
  exact ⟨env', keyed_twoIds, hdeclare, (hexposes "b.id" (by decide)).1.2 (by decide),
    (hexposes "a.value" (by decide)).1.2 (by decide), fun h => (hexposes "a.id" (by decide)).1.1 h (by decide),
    hfind "a.id" (by decide)⟩

/-- the two keys are exposed as one concept: it has the second as its content, and the property of the first hangs on
it -/
theorem twoIds_conflated : ∃ env', twoIds.Keyed ∧
    twoIds.declareRowset "both" bothIds = .ok (env', ["both.id", "both.value", "both.id"]) ∧
    ¬ ["both.id", "both.value", "both.id"].Nodup ∧ ¬ Exposes env' "both" bothIds "a.id" ∧
    ∃ c, env'.find? "both.value" = some c ∧ c.keys.toList = ["both.id"] := by
  refine ⟨_, keyed_twoIds, rfl, by decide, fun h => ?_, _, rfl, rfl⟩
  have hcontent : some (Lineage.rowset ⟨"both", "b.id", bothIds⟩) = some (Lineage.rowset ⟨"both", "a.id", bothIds⟩) := h
  simp at hcontent

end SemanticPlanner.Environment
