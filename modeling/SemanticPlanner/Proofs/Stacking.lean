/-
What a stack loses when a node is put into it.

  Agree            two counts that agree on some addresses, the second having found at least as much of them
  addNode_agree    a node counted on both sides keeps the agreement on addresses that pseudonyms do not lead out of
  addNode_apart    a node with no column among those addresses leaves a count of them as it was
  Eclipsed         all that has to come together for a concept to be lost
  check_insert     a node put anywhere into a stack loses eclipsed concepts at most
  check_append     a node put at the end loses nothing
  pair_eclipsed    a concept that is lost

The walk over pseudonyms ends at the first that was seen already, the rest of the list included. So a node that is
counted earlier can cut a walk short that led to a concept, if nothing else on the stack has that concept.
-/
import Mathlib.Logic.Relation
import SemanticPlanner.Proofs.Coverage
import SemanticPlanner.Proofs.Settled

namespace SemanticPlanner

/-- concepts that pseudonyms join, in either direction and over any number of steps -/
def Environment.Akin (env : Environment) : String → String → Prop :=
  Relation.EqvGen fun x y => ∃ k c, env.find? k = some c ∧ c.address = x ∧ (y = k ∨ y ∈ c.pseudonyms)

/-- a set of addresses that pseudonyms lead neither out of nor into -/
def Environment.Enclosed (env : Environment) (K : String → Prop) : Prop :=
  ∀ k c, env.find? k = some c → (K k ↔ K c.address) ∧ ∀ p ∈ c.pseudonyms, K p ↔ K c.address

theorem Environment.enclosed_akin (env : Environment) (x : String) : env.Enclosed fun y => env.Akin y x := by
  have hiff : ∀ {y z}, env.Akin y z → (env.Akin z x ↔ env.Akin y x) := fun h =>
    ⟨fun h' => h.trans _ _ _ h', fun h' => (h.symm).trans _ _ _ h'⟩
  exact fun k c hc => ⟨hiff (.rel _ _ ⟨k, c, hc, rfl, Or.inl rfl⟩), fun p hp => hiff (.rel _ _ ⟨k, c, hc, rfl, Or.inr hp⟩)⟩

namespace Coverage

variable {env : Environment} {a : Arena} {id n : PlanId} {node : PlanId} {partials : List String} {accept : Bool}
variable {t t' s : Tally} {x : String} {K : String → Prop}

/-! ## One count -/

/-- what holds between a tally and one counted further, if it holds of each step -/
theorem foldl_rel {α : Type} {R : Tally → Tally → Prop} (hrefl : ∀ t, R t t)
    (htrans : ∀ {t t' s}, R t t' → R t' s → R t s) {step : Tally → α → Tally} {l : List α}
    (h : ∀ y ∈ l, ∀ t, R t (step t y)) : R t (l.foldl step t) := by
  induction l generalizing t with
  | nil => exact hrefl t
  | cons y l ih => exact htrans (h y List.mem_cons_self t) (ih fun z hz => h z (List.mem_cons_of_mem _ hz))

theorem follow_rel {R : Tally → Tally → Prop} (hrefl : ∀ t, R t t) (htrans : ∀ {t t' s}, R t t' → R t' s → R t s)
    {visit : Tally → Concept → Tally} {ps : List String}
    (h : ∀ p ∈ ps, ∀ d, env.find? p = some d → ∀ t, R t (visit t d)) : R t (follow env visit ps t) := by
  induction ps generalizing t with
  | nil => exact hrefl t
  | cons p ps ih =>
    simp only [follow]
    split
    · exact hrefl t
    · split
      · exact hrefl t
      · rename_i d hd
        exact htrans (h p List.mem_cons_self d hd t) (ih fun q hq => h q (List.mem_cons_of_mem _ hq))

/-- a walk over pseudonyms has what each count on it has -/
theorem visit_rel {R : Tally → Tally → Prop} (hrefl : ∀ t, R t t) (htrans : ∀ {t t' s}, R t t' → R t' s → R t s)
    {P : Concept → Prop} (hcount : ∀ c, P c → ∀ t, R t (count node partials accept t c.address).1)
    (hnames : ∀ c, P c → ∀ p ∈ c.pseudonyms, ∀ d, env.find? p = some d → P d) {fuel : Nat} {c : Concept} (hc : P c) :
    R t (visit env node partials accept fuel t c) := by
  induction fuel generalizing t c with
  | zero => exact hrefl t
  | succ fuel ih =>
    simp only [visit]
    split
    · exact htrans (hcount c hc t) (follow_rel hrefl htrans fun p hp d hd t => ih (hnames c hc p hp d hd))
    · exact hcount c hc t

/-- what was found stays found, and what is complete stays found -/
structure Grows (t t' : Tally) : Prop where
  found : ∀ x ∈ t.found, x ∈ t'.found
  complete : (∀ x ∈ t.complete, x ∈ t.found) → ∀ x ∈ t'.complete, x ∈ t'.found

namespace Grows

theorem refl (t : Tally) : Grows t t := ⟨fun _ h => h, id⟩

theorem trans (h : Grows t t') (h' : Grows t' s) : Grows t s :=
  ⟨fun x hx => h'.found x (h.found x hx), fun hc => h'.complete (h.complete hc)⟩

end Grows

theorem count_grows : Grows t (count node partials accept t x).1 := by
  simp only [count]
  split
  · split
    · exact ⟨fun _ h => h, id⟩
    · split
      · exact ⟨fun _ h => SortedSet.mem_insert.2 (Or.inr h), fun h y hy => SortedSet.mem_insert.2 (Or.inr (h y hy))⟩
      · exact ⟨fun _ h => h, id⟩
  · refine ⟨fun _ h => SortedSet.mem_insert.2 (Or.inr h), fun h y hy => SortedSet.mem_insert.2 ?_⟩
    exact (SortedSet.mem_insert.1 hy).imp_right (h y)

theorem visit_grows {fuel : Nat} {c : Concept} : Grows t (visit env node partials accept fuel t c) :=
  visit_rel (P := fun _ => True) .refl .trans (fun _ _ _ => count_grows) (fun _ _ _ _ _ _ => trivial) trivial

theorem addVirtual_grows : Grows t (addVirtual t x) := by
  rw [addVirtual]
  split
  · exact .refl t
  · exact ⟨fun _ h => SortedSet.mem_insert.2 (Or.inr h), fun h y hy => SortedSet.mem_insert.2 (Or.inr (h y hy))⟩

theorem addNode_grows {core : NodeCore} {cs : List Concept} : Grows t (addNode env accept node core cs t) :=
  (foldl_rel (R := Grows) .refl .trans fun _ _ _ => visit_grows).trans
    (foldl_rel (R := Grows) .refl .trans fun _ _ _ => addVirtual_grows)

/-- a column counts its own concept, unless it is partial and partial ones are not accepted -/
theorem visit_finds (hs : ∀ y ∈ t.complete, y ∈ t.found) {fuel : Nat} {c : Concept}
    (hx : c.address ∈ partials → accept = true) : c.address ∈ (visit env node partials accept (fuel + 1) t c).found := by
  have hcount : c.address ∈ (count node partials accept t c.address).1.found := by
    simp only [count]
    split
    · rename_i hp
      split
      · rename_i hc
        exact hs _ (SortedSet.contains_iff.1 hc)
      · rw [if_pos (hx (by simpa using hp))]
        exact SortedSet.mem_insert.2 (Or.inl rfl)
    · exact SortedSet.mem_insert.2 (Or.inl rfl)
  simp only [visit]
  split
  · exact (follow_rel (R := Grows) .refl .trans fun _ _ _ _ _ => visit_grows).found _ hcount
  · exact hcount

/-! ## Two counts -/

/-- On the addresses of a set two tallies have the same seen and the same complete, and the second has found what the
first has. -/
structure Agree (K : String → Prop) (t t' : Tally) : Prop where
  seen : ∀ x, K x → (x ∈ t.seen ↔ x ∈ t'.seen)
  complete : ∀ x, K x → (x ∈ t.complete ↔ x ∈ t'.complete)
  found : ∀ x, K x → x ∈ t.found → x ∈ t'.found

namespace Agree

theorem refl (t : Tally) : Agree K t t := ⟨fun _ _ => Iff.rfl, fun _ _ => Iff.rfl, fun _ _ h => h⟩

theorem trans (h : Agree K t t') (h' : Agree K t' s) : Agree K t s :=
  ⟨fun x hx => (h.seen x hx).trans (h'.seen x hx), fun x hx => (h.complete x hx).trans (h'.complete x hx),
    fun x hx hf => h'.found x hx (h.found x hx hf)⟩

theorem contains_seen (h : Agree K t t') (hx : K x) : t.seen.contains x = t'.seen.contains x := by
  rw [Bool.eq_iff_iff, SortedSet.contains_iff, SortedSet.contains_iff, h.seen x hx]

theorem contains_complete (h : Agree K t t') (hx : K x) : t.complete.contains x = t'.complete.contains x := by
  rw [Bool.eq_iff_iff, SortedSet.contains_iff, SortedSet.contains_iff, h.complete x hx]

end Agree

/-- two tallies that agree on a set either way -/
def Level (K : String → Prop) (t t' : Tally) : Prop := Agree K t t' ∧ Agree K t' t

theorem Level.refl (t : Tally) : Level K t t := ⟨.refl t, .refl t⟩

theorem Level.trans (h : Level K t t') (h' : Level K t' s) : Level K t s := ⟨h.1.trans h'.1, h'.2.trans h.2⟩

/-- a count of an address that is not in the set -/
theorem count_level (hx : ¬ K x) : Level K t (count node partials accept t x).1 := by
  have hinsert : ∀ (u : NameSet) y, K y → (y ∈ u.insert x ↔ y ∈ u) := fun u y hy =>
    SortedSet.mem_insert.trans (or_iff_right fun e => hx (e ▸ hy))
  simp only [count]
  split
  · split
    · exact ⟨⟨fun y hy => (hinsert _ y hy).symm, fun _ _ => Iff.rfl, fun _ _ h => h⟩,
        ⟨hinsert _, fun _ _ => Iff.rfl, fun _ _ h => h⟩⟩
    · split
      · exact ⟨⟨fun y hy => (hinsert _ y hy).symm, fun _ _ => Iff.rfl, fun y hy => (hinsert _ y hy).2⟩,
          ⟨hinsert _, fun _ _ => Iff.rfl, fun y hy => (hinsert _ y hy).1⟩⟩
      · exact ⟨⟨fun y hy => (hinsert _ y hy).symm, fun _ _ => Iff.rfl, fun _ _ h => h⟩,
          ⟨hinsert _, fun _ _ => Iff.rfl, fun _ _ h => h⟩⟩
  · exact ⟨⟨fun y hy => (hinsert _ y hy).symm, fun y hy => (hinsert _ y hy).symm, fun y hy => (hinsert _ y hy).2⟩,
      ⟨hinsert _, hinsert _, fun y hy => (hinsert _ y hy).1⟩⟩

/-- a concept that is not in the set leads nowhere into it -/
theorem visit_level (hK : env.Enclosed K) {fuel : Nat} {c : Concept} (hname : ∀ p ∈ c.pseudonyms, ¬ K p)
    (hc : ¬ K c.address) : Level K t (visit env node partials accept fuel t c) := by
  refine visit_rel (P := fun c => ¬ K c.address ∧ ∀ p ∈ c.pseudonyms, ¬ K p) Level.refl Level.trans
    (fun c hc t => count_level hc.1) (fun c hc p hp d hd => ?_) ⟨hc, hname⟩
  have hd' : ¬ K d.address := mt (hK p d hd).1.2 (hc.2 p hp)
  exact ⟨hd', fun q hq => mt ((hK p d hd).2 q hq).1 hd'⟩

/-- one address counted on both sides -/
theorem count_agree (node : PlanId) (partials : List String) (accept : Bool) (h : Agree K t t') (hx : K x) :
    (count node partials accept t x).2 = (count node partials accept t' x).2 ∧
      Agree K (count node partials accept t x).1 (count node partials accept t' x).1 := by
  have hinsert : ∀ {u u' : NameSet} {y}, (y ∈ u ↔ y ∈ u') → (y ∈ u.insert x ↔ y ∈ u'.insert x) := fun hu => by
    rw [SortedSet.mem_insert, SortedSet.mem_insert, hu]
  have hfound : ∀ y, K y → y ∈ t.found.insert x → y ∈ t'.found.insert x := fun y hy hm =>
    SortedSet.mem_insert.2 ((SortedSet.mem_insert.1 hm).imp_right (h.found y hy))
  simp only [count, h.contains_complete hx]
  split
  · split
    · exact ⟨rfl, fun y hy => hinsert (h.seen y hy), h.complete, h.found⟩
    · refine ⟨rfl, fun y hy => hinsert (h.seen y hy), h.complete, ?_⟩
      split
      · exact hfound
      · exact h.found
  · exact ⟨rfl, fun y hy => hinsert (h.seen y hy), fun y hy => hinsert (h.complete y hy), hfound⟩

theorem follow_agree {visit : Tally → Concept → Tally} {ps : List String} (hps : ∀ p ∈ ps, K p)
    (h : ∀ p ∈ ps, ∀ d, env.find? p = some d → ∀ t t', Agree K t t' → Agree K (visit t d) (visit t' d))
    (ht : Agree K t t') : Agree K (follow env visit ps t) (follow env visit ps t') := by
  induction ps generalizing t t' with
  | nil => exact ht
  | cons p ps ih =>
    have hp := List.mem_cons_self (a := p) (l := ps)
    simp only [follow, ht.contains_seen (hps p hp)]
    split
    · exact ht
    · split
      · exact ht
      · rename_i d hd
        exact ih (fun q hq => hps q (List.mem_cons_of_mem _ hq)) (fun q hq => h q (List.mem_cons_of_mem _ hq))
          (h p hp d hd t t' ht)

/-- a concept of the set counted on both sides, with what its pseudonyms lead to -/
theorem visit_agree (hK : env.Enclosed K) {fuel : Nat} {c : Concept} (hc : K c.address) (hname : ∀ p ∈ c.pseudonyms, K p)
    (h : Agree K t t') :
    Agree K (visit env node partials accept fuel t c) (visit env node partials accept fuel t' c) := by
  induction fuel generalizing t t' c with
  | zero => exact h
  | succ fuel ih =>
    obtain ⟨hfurther, hcount⟩ := count_agree node partials accept h hc
    simp only [visit, ← hfurther]
    split
    · refine follow_agree hname (fun p hp d hd t t' ht => ?_) hcount
      have hd' : K d.address := (hK p d hd).1.1 (hname p hp)
      exact ih hd' (fun q hq => ((hK p d hd).2 q hq).2 hd') ht
    · exact hcount

theorem addVirtual_agree (h : Agree K t t') : Agree K (addVirtual t x) (addVirtual t' x) := by
  refine ⟨fun y hy => ?_, fun y hy => ?_, fun y hy hm => ?_⟩
  · simpa only [addVirtual, apply_ite Tally.seen, ite_self] using h.seen y hy
  · simpa only [addVirtual, apply_ite Tally.complete, ite_self] using h.complete y hy
  · by_cases hx : y = x
    · subst hx
      rw [addVirtual, h.contains_complete hy] at hm
      rw [addVirtual]
      split at hm
      · rename_i hc
        rw [if_pos hc]
        exact h.found y hy hm
      · rename_i hc
        rw [if_neg hc]
        exact SortedSet.mem_insert.2 (Or.inl rfl)
    · refine addVirtual_grows.found y (h.found y hy ?_)
      rw [addVirtual] at hm
      split at hm
      · exact hm
      · exact (SortedSet.mem_insert.1 hm).resolve_left hx

/-! ## One node -/

variable {core : NodeCore} {cs : List Concept}

theorem foldl_agree {α : Type} {step : Tally → α → Tally} {l : List α}
    (hstep : ∀ y ∈ l, ∀ t t', Agree K t t' → Agree K (step t y) (step t' y)) (h : Agree K t t') :
    Agree K (l.foldl step t) (l.foldl step t') := by
  induction l generalizing t t' with
  | nil => exact h
  | cons y l ih =>
    exact ih (fun z hz => hstep z (List.mem_cons_of_mem _ hz)) (hstep y List.mem_cons_self t t' h)

/-- a node counted on both sides -/
theorem addNode_agree (hK : env.Enclosed K) (hcs : ∀ c ∈ cs, ∃ k, env.find? k = some c) (h : Agree K t t') :
    Agree K (addNode env accept node core cs t) (addNode env accept node core cs t') := by
  refine foldl_agree (fun y _ _ _ => addVirtual_agree) (foldl_agree (fun c hc t t' ht => ?_) h)
  obtain ⟨k, hk⟩ := hcs c hc
  have hname := (hK k c hk).2
  by_cases hin : K c.address
  · exact visit_agree hK hin (fun p hp => (hname p hp).2 hin) ht
  · have hlevel : ∀ t, Level K t (visit env node core.partials accept (env.concepts.size + 2) t c) := fun t =>
      visit_level hK (fun p hp => mt (hname p hp).1 hin) hin
    exact (hlevel t).2.trans (ht.trans (hlevel t').1)

/-- a node with no column in the set -/
theorem addNode_apart (hK : env.Enclosed K) (hcs : ∀ c ∈ cs, ∃ k, env.find? k = some c)
    (hout : ∀ c ∈ cs, ¬ K c.address) : Agree K t (addNode env accept node core cs t) := by
  have hvisits : Level K t (cs.foldl (visit env node core.partials accept (env.concepts.size + 2)) t) := by
    refine foldl_rel Level.refl Level.trans fun c hc t => ?_
    obtain ⟨k, hk⟩ := hcs c hc
    exact visit_level hK (fun p hp => mt ((hK k c hk).2 p hp).1 (hout c hc)) (hout c hc)
  refine hvisits.1.trans (foldl_rel (R := Agree K) .refl .trans fun y _ t => ⟨fun z _ => ?_, fun z _ => ?_, fun z _ => ?_⟩)
  · simp only [addVirtual, apply_ite Tally.seen, ite_self]
  · simp only [addVirtual, apply_ite Tally.complete, ite_self]
  · exact addVirtual_grows.found z

/-- what a walk finds anew, its concept leads to -/
theorem visit_source {fuel : Nat} {c : Concept} :
    ∀ x ∈ (visit env node partials accept fuel t c).found, x ∈ t.found ∨ env.Leads c x ∧ (x ∈ partials → accept = true) := by
  refine visit_rel (R := fun t t' => ∀ x ∈ t'.found, x ∈ t.found ∨ env.Leads c x ∧ (x ∈ partials → accept = true))
    (P := fun d => ∀ y, env.Leads d y → env.Leads c y) (fun t x => Or.inl) (fun h h' x hx => ?_) (fun d hd t x hx => ?_)
    (fun d hd p hp e he y hy => hd y (.pseudonym hp he hy)) (fun y => id)
  · exact (h' x hx).elim (h x) Or.inr
  · simp only [count] at hx
    split at hx
    · split at hx
      · exact Or.inl hx
      · split at hx
        · rename_i haccept
          exact (SortedSet.mem_insert.1 hx).symm.imp_right fun (e : x = d.address) => ⟨hd x (e ▸ .self d), fun _ => haccept⟩
        · exact Or.inl hx
    · rename_i hp
      refine (SortedSet.mem_insert.1 hx).symm.imp_right fun (e : x = d.address) => ⟨hd x (e ▸ .self d), fun hm => absurd ?_ hp⟩
      simpa [e] using hm

/-- what a node finds anew, one of its columns leads to, or it has it through a pseudonym -/
theorem addNode_source (hx : x ∈ (addNode env accept node core cs t).found) : x ∈ t.found ∨
    (∃ c ∈ cs, env.Leads c x ∧ (x ∈ core.partials → accept = true)) ∨ x ∈ core.virtual := by
  have hvirtual : ∀ y ∈ (addNode env accept node core cs t).found,
      y ∈ (cs.foldl (visit env node core.partials accept (env.concepts.size + 2)) t).found ∨ y ∈ core.virtual := by
    refine foldl_rel (R := fun t t' => ∀ y ∈ t'.found, y ∈ t.found ∨ y ∈ core.virtual) (fun t y => Or.inl)
      (fun h h' y hy => (h' y hy).elim (h y) Or.inr) fun z hz t y hy => ?_
    rw [addVirtual] at hy
    split at hy
    · exact Or.inl hy
    · exact (SortedSet.mem_insert.1 hy).symm.imp_right fun (e : y = z) => e ▸ hz
  have hcolumns : ∀ y ∈ (cs.foldl (visit env node core.partials accept (env.concepts.size + 2)) t).found,
      y ∈ t.found ∨ ∃ c ∈ cs, env.Leads c y ∧ (y ∈ core.partials → accept = true) :=
    foldl_rel (R := fun t t' => ∀ y ∈ t'.found, y ∈ t.found ∨
        ∃ c ∈ cs, env.Leads c y ∧ (y ∈ core.partials → accept = true)) (fun t y => Or.inl)
      (fun h h' y hy => (h' y hy).elim (h y) Or.inr)
      fun c hc t y hy => (visit_source y hy).imp_right fun h => ⟨c, hc, h⟩
  rcases hvirtual x hx with hx | hx
  · exact (hcolumns x hx).imp_right Or.inl
  · exact Or.inr (Or.inr hx)

/-- the node has the concept itself: as a column that is accepted, or through a pseudonym -/
def Has (accept : Bool) (core : NodeCore) (cs : List Concept) (x : String) : Prop :=
  (∃ c ∈ cs, c.address = x ∧ (x ∈ core.partials → accept = true)) ∨ x ∈ core.virtual

/-- a node finds what it has itself -/
theorem addNode_finds (hs : ∀ y ∈ t.complete, y ∈ t.found) (hx : Has accept core cs x) :
    x ∈ (addNode env accept node core cs t).found := by
  have hvirtual : ∀ {l : List String} {t}, Grows t (l.foldl addVirtual t) :=
    foldl_rel (R := Grows) .refl .trans fun _ _ _ => addVirtual_grows
  have hvisits : ∀ {l : List Concept} {t},
      Grows t (l.foldl (visit env node core.partials accept (env.concepts.size + 2)) t) :=
    foldl_rel (R := Grows) .refl .trans fun _ _ _ => visit_grows
  rcases hx with ⟨c, hc, rfl, hp⟩ | hx
  · obtain ⟨before, after, rfl⟩ := List.append_of_mem hc
    refine hvirtual.found _ ?_
    rw [List.foldl_append, List.foldl_cons]
    exact hvisits.found _ (visit_finds (hvisits.complete hs) hp)
  · obtain ⟨before, after, h⟩ := List.append_of_mem hx
    rw [addNode, h, List.foldl_append, List.foldl_cons]
    refine hvirtual.found _ ?_
    have hs' := (hvirtual (l := before)).complete ((hvisits (l := cs)).complete hs)
    rw [addVirtual]
    split
    · rename_i hc
      exact hs' x (SortedSet.contains_iff.1 hc)
    · exact SortedSet.mem_insert.2 (Or.inl rfl)

/-! ## Stacks -/

/-- the concepts of the columns that a node shows -/
def columns (a : Arena) (id : PlanId) : Except PlanningError (List Concept) := do
  let r ← (a.resolve id).1
  r.visible.mapM a.environment.concept

/-- a tally with a node counted, whatever was resolved before -/
def tallied (a : Arena) (accept : Bool) (t : Tally) (id : PlanId) : Except PlanningError Tally := do
  let cs ← columns a id
  pure (addNode a.environment accept id (a.core id) cs t)

theorem tallied_eq_ok_iff : tallied a accept t id = .ok s ↔
    ∃ cs, columns a id = .ok cs ∧ addNode a.environment accept id (a.core id) cs t = s := by
  rw [tallied]
  cases columns a id with
  | error e => exact ⟨nofun, fun ⟨_, h, _⟩ => nomatch h⟩
  | ok cs => exact ⟨fun h => ⟨cs, rfl, Except.ok.inj h⟩, fun ⟨_, h, hs⟩ => by cases h; exact congrArg Except.ok hs⟩

theorem find?_of_mem_columns (h : columns a id = .ok cs) : ∀ c ∈ cs, ∃ k, a.environment.find? k = some c := by
  intro c hc
  obtain ⟨r, -, h⟩ := Resolve.bind_eq_ok h
  obtain ⟨k, -, hk⟩ := mem_mapM_ok h hc
  exact ⟨k, Environment.concept_eq_ok hk⟩

theorem tallyNode_settles (t : Tally) (id : PlanId) :
    Arena.SettlesTo a.Keeps (tallyNode accept t id) (tallied a accept t id) (tallied a accept t id) := by
  have hassoc : tallied a accept t id = (a.resolve id).1 >>= fun r => r.visible.mapM a.environment.concept >>= fun cs =>
      pure (addNode a.environment accept id (a.core id) cs t) := by
    rw [tallied, columns, bind_assoc]
  rw [hassoc]
  refine .get fun b hb => ?_
  rw [hb.nodes.size]
  refine (Arena.resolve_settles id).bind fun r _ => .get fun c hc => ?_
  rw [hc.nodes.environment, hc.nodes.core]
  exact (Arena.SettlesTo.mapM fun y _ => .lift _).bind fun cs _ => .pure

/-- the check of a stack, as a count that resolves each node from the given arena -/
theorem check_eq_ok_iff {stack : List PlanId} {mandatory completion : List Concept} {condition : Option Condition}
    {cov : Coverage} : ((check stack mandatory completion condition accept).run a).1 = .ok cov ↔
      ∃ t, stack.foldlM (tallied a accept) {} = .ok t ∧
        conclude a.environment t (stack.map a.core) mandatory completion condition = cov := by
  have hsettles : Arena.SettlesTo a.Keeps (check stack mandatory completion condition accept)
      (stack.foldlM (tallied a accept) {} >>= fun t =>
        pure (conclude a.environment t (stack.map a.core) mandatory completion condition))
      (stack.foldlM (tallied a accept) {} >>= fun t =>
        pure (conclude a.environment t (stack.map a.core) mandatory completion condition)) := by
    refine (Arena.SettlesTo.foldlM fun t id _ => tallyNode_settles t id).bind fun t _ => .get fun b hb => ?_
    rw [hb.nodes.environment, show b.core = a.core from funext hb.nodes.core]
    exact .pure
  obtain ⟨-, hfound, henough⟩ := hsettles a (.refl a)
  constructor
  · intro h
    obtain ⟨t, ht, h⟩ := Resolve.bind_eq_ok (henough cov h)
    exact ⟨t, ht, Except.ok.inj h⟩
  · rintro ⟨t, ht, rfl⟩
    exact hfound _ (by rw [ht]; rfl)

variable {stack : List PlanId}

theorem foldlM_grows (h : stack.foldlM (tallied a accept) t = .ok s) : Grows t s := by
  induction stack generalizing t with
  | nil =>
    cases h
    exact .refl _
  | cons id stack ih =>
    obtain ⟨t', ht', h⟩ := Resolve.bind_eq_ok h
    obtain ⟨cs, -, rfl⟩ := tallied_eq_ok_iff.1 ht'
    exact addNode_grows.trans (ih h)

/-- a stack that can be counted can be counted from every tally, and the two counts stay in agreement -/
theorem foldlM_agree (hK : a.environment.Enclosed K) (h : stack.foldlM (tallied a accept) t = .ok s)
    (ht : Agree K t t') : ∃ s', stack.foldlM (tallied a accept) t' = .ok s' ∧ Agree K s s' := by
  induction stack generalizing t t' with
  | nil =>
    cases h
    exact ⟨t', rfl, ht⟩
  | cons id stack ih =>
    obtain ⟨u, hu, h⟩ := Resolve.bind_eq_ok h
    obtain ⟨cs, hcs, rfl⟩ := tallied_eq_ok_iff.1 hu
    obtain ⟨s', hs', hagree⟩ := ih h (addNode_agree hK (find?_of_mem_columns hcs) ht)
    refine ⟨s', ?_, hagree⟩
    rw [List.foldlM_cons, tallied_eq_ok_iff.2 ⟨cs, hcs, rfl⟩]
    exact hs'

/-- what a stack finds anew, a node of it finds -/
theorem foldlM_source (h : stack.foldlM (tallied a accept) t = .ok s) (hx : x ∈ s.found) : x ∈ t.found ∨
    ∃ id ∈ stack, ∃ cs, columns a id = .ok cs ∧
      ((∃ c ∈ cs, a.environment.Leads c x ∧ (x ∈ (a.core id).partials → accept = true)) ∨ x ∈ (a.core id).virtual) := by
  induction stack generalizing t with
  | nil =>
    cases h
    exact Or.inl hx
  | cons id stack ih =>
    obtain ⟨u, hu, h⟩ := Resolve.bind_eq_ok h
    obtain ⟨cs, hcs, rfl⟩ := tallied_eq_ok_iff.1 hu
    rcases ih h with hx | ⟨m, hm, hx⟩
    · exact (addNode_source hx).imp_right fun hx => ⟨id, List.mem_cons_self, cs, hcs, hx⟩
    · exact Or.inr ⟨m, List.mem_cons_of_mem _ hm, hx⟩

/-- what a node of a stack has itself is found -/
theorem foldlM_finds (h : stack.foldlM (tallied a accept) t = .ok s) (hs : ∀ y ∈ t.complete, y ∈ t.found)
    (hid : id ∈ stack) (hcs : columns a id = .ok cs) (hx : Has accept (a.core id) cs x) : x ∈ s.found := by
  obtain ⟨before, after, rfl⟩ := List.append_of_mem hid
  rw [List.foldlM_append] at h
  obtain ⟨t', ht', h⟩ := Resolve.bind_eq_ok h
  obtain ⟨u, hu, h⟩ := Resolve.bind_eq_ok h
  obtain ⟨cs', hcs', rfl⟩ := tallied_eq_ok_iff.1 hu
  cases hcs.symm.trans hcs'
  exact (foldlM_grows h).found x (addNode_finds ((foldlM_grows ht').complete hs) hx)

/-! ## Adding a node -/

/-- All that has to come together for a concept to be lost when `n` is put between `pre` and `post`. -/
structure Eclipsed (a : Arena) (accept : Bool) (pre : List PlanId) (n : PlanId) (post : List PlanId) (x : String) :
    Prop where
  /-- pseudonyms join a column of the new node with it -/
  named : ∃ cs, columns a n = .ok cs ∧ ∃ c ∈ cs, a.environment.Akin c.address x
  /-- a node after the new one has another column that leads to it -/
  later : ∃ id ∈ post, ∃ cs, columns a id = .ok cs ∧ ∃ c ∈ cs, c.address ≠ x ∧ a.environment.Leads c x
  /-- no node has it itself -/
  absent : ∀ id ∈ pre ++ n :: post, ∀ cs, columns a id = .ok cs → ¬ Has accept (a.core id) cs x

variable {pre post : List PlanId} {mandatory completion : List Concept} {condition : Option Condition} {cov : Coverage}

/-- a tally of a stack with one more node has all that it had, eclipsed concepts apart -/
theorem foldlM_insert (h : (pre ++ post).foldlM (tallied a accept) {} = .ok t) (hn : columns a n = .ok cs) :
    ∃ t', (pre ++ n :: post).foldlM (tallied a accept) {} = .ok t' ∧
      ∀ x ∈ t.found, x ∈ t'.found ∨ Eclipsed a accept pre n post x := by
  have hempty : ∀ y ∈ ({} : Tally).complete, y ∈ ({} : Tally).found := fun y hy => hy
  rw [List.foldlM_append] at h
  obtain ⟨u, hu, h⟩ := Resolve.bind_eq_ok h
  have hcounted : ∀ v, post.foldlM (tallied a accept) (addNode a.environment accept n (a.core n) cs u) = .ok v →
      (pre ++ n :: post).foldlM (tallied a accept) {} = .ok v := by
    intro v hv
    rw [List.foldlM_append, hu]
    show (n :: post).foldlM (tallied a accept) u = .ok v
    rw [List.foldlM_cons, tallied_eq_ok_iff.2 ⟨cs, hn, rfl⟩]
    exact hv
  -- any two tallies agree on no addresses at all
  have hnothing : Agree (fun _ => False) u (addNode a.environment accept n (a.core n) cs u) := ⟨nofun, nofun, nofun⟩
  obtain ⟨t', ht', -⟩ := foldlM_agree (fun k c _ => ⟨Iff.rfl, fun _ _ => Iff.rfl⟩) h hnothing
  refine ⟨t', hcounted t' ht', fun x hx => or_iff_not_imp_left.2 fun hlost => ?_⟩
  have habsent : ∀ id ∈ pre ++ n :: post, ∀ cs, columns a id = .ok cs → ¬ Has accept (a.core id) cs x :=
    fun id hid cs hcs hhas => hlost (foldlM_finds (hcounted t' ht') hempty hid hcs hhas)
  have hlater : x ∉ u.found := fun hxu => hlost ((foldlM_grows ht').found x (addNode_grows.found x hxu))
  refine ⟨⟨cs, hn, ?_⟩, ?_, habsent⟩
  · by_contra hnone
    have hK := a.environment.enclosed_akin x
    have hapart : Agree (fun y => a.environment.Akin y x) u (addNode a.environment accept n (a.core n) cs u) :=
      addNode_apart hK (find?_of_mem_columns hn) fun c hc hakin => hnone ⟨c, hc, hakin⟩
    obtain ⟨s, hs, hagree⟩ := foldlM_agree hK h hapart
    cases ht'.symm.trans hs
    exact hlost (hagree.found x (.refl x) hx)
  · obtain ⟨id, hid, ds, hds, hfinds⟩ := (foldlM_source h hx).resolve_left hlater
    have hmem : id ∈ pre ++ n :: post := List.mem_append_right _ (List.mem_cons_of_mem _ hid)
    obtain ⟨c, hc, hleads, hp⟩ := hfinds.resolve_right fun hv => habsent id hmem ds hds (Or.inr hv)
    exact ⟨id, hid, ds, hds, c, hc, fun he => habsent id hmem ds hds (Or.inl ⟨c, hc, he, hp⟩), hleads⟩

theorem mem_missing {cores : List NodeCore} : x ∈ (conclude env t cores mandatory completion condition).missing ↔
    x ∈ Concept.addresses mandatory ∧ x ∉ t.found := by
  simp only [conclude, SortedSet.mem_ofList, List.mem_filter, SortedSet.not_contains_iff]

theorem result_incomplete {cores : List NodeCore} :
    (conclude env t cores mandatory completion condition).result = .incomplete ↔
      ∃ x, x ∈ (conclude env t cores mandatory completion condition).missing := by
  have hempty : ∀ u : NameSet, (!u.isEmpty) = true ↔ ∃ x, x ∈ u := fun u => by
    rw [Bool.not_eq_true', ← Bool.not_eq_true, SortedSet.isEmpty_iff, not_forall_not]
  simp only [conclude, ← hempty]
  split
  · rename_i h
    exact iff_of_true rfl h
  · rename_i h
    refine iff_of_false (fun he => ?_) h
    split at he
    all_goals
      split at he
      · cases he
      · split at he <;> cases he

/-- what is missing of a tally that has all that another one has, some concepts apart -/
theorem conclude_keeps {E : String → Prop} {cores cores' : List NodeCore} (h : ∀ x ∈ t.found, x ∈ t'.found ∨ E x) :
    (∀ x ∈ (conclude env t' cores' mandatory completion condition).missing,
      x ∈ (conclude env t cores mandatory completion condition).missing ∨ E x) ∧
    ((conclude env t' cores' mandatory completion condition).result = .incomplete →
      (conclude env t cores mandatory completion condition).result = .incomplete ∨ ∃ m ∈ mandatory, E m.address) := by
  have hmissing : ∀ x ∈ (conclude env t' cores' mandatory completion condition).missing,
      x ∈ (conclude env t cores mandatory completion condition).missing ∨ E x := by
    intro x hx
    obtain ⟨hx, hlost⟩ := mem_missing.1 hx
    by_cases hxt : x ∈ t.found
    · exact Or.inr ((h x hxt).resolve_left hlost)
    · exact Or.inl (mem_missing.2 ⟨hx, hxt⟩)
  refine ⟨hmissing, fun hresult => ?_⟩
  obtain ⟨x, hx⟩ := result_incomplete.1 hresult
  rcases hmissing x hx with hm | he
  · exact Or.inl (result_incomplete.2 ⟨x, hm⟩)
  · obtain ⟨m, hm, rfl⟩ := List.mem_map.1 (mem_missing.1 hx).1
    exact Or.inr ⟨m, hm, he⟩

/-- the first column of a node that is not declared -/
theorem columns_error {r : Relation} (hr : (a.resolve n).1 = .ok r) (h : ∀ cs, columns a n ≠ .ok cs) :
    ∃ x ∈ r.visible, a.environment.isDeclared x = false ∧
      r.visible.mapM a.environment.concept = .error (.undefinedConcept x) := by
  have hne : ∀ cs, r.visible.mapM a.environment.concept ≠ .ok cs := fun cs hcs => h cs (by rw [columns, hr]; exact hcs)
  clear hr h
  generalize r.visible = xs at hne
  induction xs with
  | nil => exact absurd rfl (hne [])
  | cons y ys ih =>
    cases hy : a.environment.find? y with
    | none =>
      refine ⟨y, List.mem_cons_self, ?_, ?_⟩
      · rw [Environment.isDeclared, SortedMap.contains, show a.environment.concepts.get? y = none from hy]
        rfl
      · rw [List.mapM_cons, Environment.concept, hy]
        rfl
    | some c =>
      have hc : a.environment.concept y = .ok c := by rw [Environment.concept, hy]
      obtain ⟨x, hx, hxd, herr⟩ := ih fun cs hcs => hne (c :: cs) (by rw [List.mapM_cons, hc, hcs]; rfl)
      exact ⟨x, List.mem_cons_of_mem _ hx, hxd, by rw [List.mapM_cons, hc, herr]; rfl⟩

theorem run_bind_error {α β : Type} {step : Arena.Resolving α} {next : α → Arena.Resolving β} {b : Arena}
    {e : PlanningError} (h : (step.run b).1 = .error e) : ((step >>= next).run b).1 = .error e := by
  rw [Arena.run_bind]
  rcases hs : step.run b with ⟨_ | _, b'⟩
  · rw [hs] at h
    cases h
    rfl
  · rw [hs] at h
    cases h

theorem tallyNode_error {b : Arena} {r : Relation} {e : PlanningError} (hb : a.Keeps b) (hr : (a.resolve n).1 = .ok r)
    (he : r.visible.mapM a.environment.concept = .error e) : ((tallyNode accept t n).run b).1 = .error e := by
  obtain ⟨hc, hresolve, -⟩ := Arena.resolve_settles n b hb
  have hok := hresolve r hr
  rw [← hb.nodes.size] at hc hok
  show ((Arena.resolveWithin (b.size + 1) n >>= fun r => _).run b).1 = _
  rw [Arena.run_bind]
  rcases hs : (Arena.resolveWithin (b.size + 1) n).run b with ⟨v, c⟩
  rw [hs] at hc hok
  cases hok
  have hlift : Arena.Gives (· = c) (r.visible.mapM fun x => (c.environment.concept x : Except PlanningError Concept))
      (r.visible.mapM c.environment.concept) := .mapM fun x _ => .lift _
  show ((r.visible.mapM (fun x => (c.environment.concept x : Except PlanningError Concept)) >>= fun cs => _ :
    Arena.Resolving Tally).run c).1 = _
  exact run_bind_error ((hlift c rfl).2.trans (hc.nodes.environment ▸ he))

/-- a check ends at a node with a column that is not declared -/
theorem check_error {r : Relation} {e : PlanningError} (h : pre.foldlM (tallied a accept) {} = .ok t)
    (hr : (a.resolve n).1 = .ok r) (he : r.visible.mapM a.environment.concept = .error e) :
    ((check (pre ++ n :: post) mandatory completion condition accept).run a).1 = .error e := by
  refine run_bind_error ?_
  rw [List.foldlM_append, Arena.run_bind]
  have hsettles : Arena.SettlesTo a.Keeps (pre.foldlM (tallyNode accept) {}) (pre.foldlM (tallied a accept) {})
      (pre.foldlM (tallied a accept) {}) := .foldlM fun t id _ => tallyNode_settles t id
  obtain ⟨hb, hpre, -⟩ := hsettles a (.refl a)
  have hok := hpre t h
  rcases hs : (pre.foldlM (tallyNode accept) {}).run a with ⟨v, b⟩
  rw [hs] at hb hok
  cases hok
  show (((n :: post).foldlM (tallyNode accept) t).run b).1 = _
  rw [List.foldlM_cons]
  exact run_bind_error (tallyNode_error hb hr he)

/-- **A node put anywhere into a stack.** Where the stack can be checked and the node resolved, the check with the node
fails only at a column of the node that is not declared. Else what was found stays found, and what was there is not
missing, eclipsed concepts apart. -/
theorem check_insert {r : Relation}
    (h : ((check (pre ++ post) mandatory completion condition accept).run a).1 = .ok cov)
    (hn : (a.resolve n).1 = .ok r) :
    (∃ x ∈ r.visible, a.environment.isDeclared x = false ∧
      ((check (pre ++ n :: post) mandatory completion condition accept).run a).1 = .error (.undefinedConcept x)) ∨
    ∃ cov', ((check (pre ++ n :: post) mandatory completion condition accept).run a).1 = .ok cov' ∧
      (∀ x ∈ cov.found, x ∈ cov'.found ∨ Eclipsed a accept pre n post x) ∧
      (∀ x ∈ cov'.missing, x ∈ cov.missing ∨ Eclipsed a accept pre n post x) ∧
      (cov'.result = .incomplete → cov.result = .incomplete ∨
        ∃ m ∈ mandatory, Eclipsed a accept pre n post m.address) := by
  obtain ⟨t, ht, rfl⟩ := check_eq_ok_iff.1 h
  by_cases hcs : ∃ cs, columns a n = .ok cs
  · right
    obtain ⟨cs, hcs⟩ := hcs
    obtain ⟨t', ht', hfound⟩ := foldlM_insert ht hcs
    exact ⟨_, check_eq_ok_iff.2 ⟨t', ht', rfl⟩, hfound, conclude_keeps hfound⟩
  · left
    obtain ⟨x, hx, hxd, herror⟩ := columns_error hn fun cs h => hcs ⟨cs, h⟩
    rw [List.foldlM_append] at ht
    obtain ⟨u, hu, -⟩ := Resolve.bind_eq_ok ht
    exact ⟨x, hx, hxd, check_error hu hn herror⟩

/-- **A node put at the end of a stack** loses nothing, if its columns are declared. -/
theorem check_append {r : Relation} (h : ((check stack mandatory completion condition accept).run a).1 = .ok cov)
    (hn : (a.resolve n).1 = .ok r) (hr : ∀ x ∈ r.visible, a.environment.isDeclared x = true) :
    ∃ cov', ((check (stack ++ [n]) mandatory completion condition accept).run a).1 = .ok cov' ∧
      (∀ x ∈ cov.found, x ∈ cov'.found) ∧ (cov'.result = .incomplete → cov.result = .incomplete) := by
  obtain ⟨t, ht, rfl⟩ := check_eq_ok_iff.1 h
  obtain ⟨cs, hcs⟩ : ∃ cs, columns a n = .ok cs := by
    by_contra hnone
    obtain ⟨x, hx, hxd, -⟩ := columns_error hn fun cs h => hnone ⟨cs, h⟩
    rw [hr x hx] at hxd
    cases hxd
  have ht : (stack ++ []).foldlM (tallied a accept) {} = .ok t := by rwa [List.append_nil]
  obtain ⟨t', ht', hfound⟩ := foldlM_insert ht hcs
  have hkept : ∀ x ∈ t.found, x ∈ t'.found ∨ False := fun x hx =>
    (hfound x hx).imp_right fun he => he.later.elim fun _ h => nomatch h.1
  refine ⟨_, check_eq_ok_iff.2 ⟨t', ht', rfl⟩, fun x hx => (hkept x hx).resolve_right id, fun hresult => ?_⟩
  exact ((conclude_keeps hkept).2 hresult).resolve_right fun ⟨_, _, h⟩ => h

/-- a key with two other names -/
def namesakes : Environment :=
  let key (name : String) (names : List String) : String × Concept :=
    ("local." ++ name, { Concept.key name .integer with pseudonyms := SortedSet.ofList names })
  ⟨.ofList [key "a" ["local.b", "local.c"], key "b" ["local.a"], key "c" ["local.a"]], ∅⟩

/-- constants of one of the other names and of the key -/
def pair : Arena :=
  (((Arena.empty namesakes).insert ⟨.constant, NodeCore.of [] ["local.b"]⟩).2.insert
    ⟨.constant, NodeCore.of [] ["local.a"]⟩).2

/-- a stack of them checked for the third name -/
def checked (stack : List PlanId) : Except PlanningError Coverage :=
  ((check stack [Concept.key "c" .integer] [] none false).run pair).1

/-- the key's other name, put before it, eclipses the third -/
theorem check_insert_pair : (∃ cov, checked [⟨1⟩] = .ok cov ∧ "local.c" ∈ cov.found) ∧
    (∃ r, (pair.resolve ⟨0⟩).1 = .ok r) ∧ Eclipsed pair false [] ⟨0⟩ [⟨1⟩] "local.c" := by
  have halone : ∃ cov, checked [⟨1⟩] = .ok cov ∧ "local.c" ∈ cov.found := ⟨_, rfl, by decide⟩
  have hresolve : ∃ r, (pair.resolve ⟨0⟩).1 = .ok r := ⟨_, rfl⟩
  refine ⟨halone, hresolve, ?_⟩
  obtain ⟨cov, halone, hfound⟩ := halone
  obtain ⟨r, hr⟩ := hresolve
  have halone : ((check ([] ++ [⟨1⟩]) [Concept.key "c" .integer] [] none false).run pair).1 = .ok cov := halone
  have hboth : ∃ cov', checked [⟨0⟩, ⟨1⟩] = .ok cov' ∧ "local.c" ∉ cov'.found := ⟨_, rfl, by decide⟩
  obtain ⟨cov', hboth, hlost⟩ := hboth
  rcases check_insert halone hr with ⟨x, -, -, herror⟩ | ⟨cov'', hsame, hkept, -⟩
  · cases hboth.symm.trans herror
  · cases hboth.symm.trans hsame
    exact (hkept _ hfound).resolve_left hlost

/-- **The key alone covers its third name, which is missing once the second name comes before it.** -/
theorem third_name_lost :
    (checked [⟨1⟩]).map (fun cov => (cov.result, cov.found.toList, cov.missing.toList)) =
      .ok (.complete, ["local.a", "local.b", "local.c"], []) ∧
    (pair.resolve ⟨0⟩).1.toOption.isSome = true ∧
    (checked [⟨0⟩, ⟨1⟩]).map (fun cov => (cov.result, cov.found.toList, cov.missing.toList)) =
      .ok (.incomplete, ["local.a", "local.b"], ["local.c"]) :=
  ⟨rfl, rfl, rfl⟩

end Coverage

end SemanticPlanner
