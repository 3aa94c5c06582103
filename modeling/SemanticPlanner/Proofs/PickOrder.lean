/-
The order in which concepts are picked.

  Collected            what a walk below a concept has found: what the inputs of all it entered bring
  mem_inputsOf_iff     what a concept is computed from: what its arguments lead to, and with one output of a rowset all
  FirstUnread          the first by tier and address of the concepts that no other one that is left is computed from
  firstUnread_of_next  a pick is that one, where there is one
  exists_unread        without a cycle there is one as long as anything is left
  next_of_split        every pick of a sequence is the next one after those before it
  sequence_orders      a whole sequence: every concept once, in an order of its own, consumers first

A walk enters a concept once, so it goes no deeper than there are concepts. A pick takes its address out of what is left,
so a sequence ends before its bound.
-/
import SemanticPlanner.Proofs.Coverage
import SemanticPlanner.Proofs.Reach
import SemanticPlanner.Search.Priority

namespace SemanticPlanner

variable {env : Environment} {c d : Concept} {cs ds : List Concept} {attempted found : NameSet} {a b : String}

namespace Environment

/-! ## What a concept is computed from -/

/-- the declared arguments of the concept at an address -/
def directInputs (env : Environment) (a : String) : List String :=
  match env.find? a with
  | some c => c.arguments.filter env.isDeclared
  | none => []

theorem directInputs_eq (hc : env.find? c.address = some c) :
    env.directInputs c.address = c.arguments.filter env.isDeclared := by
  rw [directInputs, hc]

/-- an input brings its own address, and one output of a rowset every output of it -/
def Brings (env : Environment) (a b : String) : Prop := b = a ∨ b ∈ env.rowsetSiblings a

/-- a walk from one state to another has found what the inputs of every concept it entered bring -/
structure Collected (env : Environment) (s t : Inputs) : Prop
    extends Reach.Explored env.directInputs (fun _ => False) s.entered t.entered where
  keepsFound : ∀ b ∈ s.found, b ∈ t.found
  brought : ∀ x ∈ t.entered, x ∉ s.entered → ∀ y ∈ env.directInputs x, ∀ b, env.Brings y b → b ∈ t.found

namespace Collected

variable {s t u : Inputs}

theorem refl (env : Environment) (s : Inputs) : env.Collected s s :=
  ⟨.refl s.entered, fun _ hb => hb, fun _ hx hnot => absurd hx hnot⟩

theorem trans (h : env.Collected s t) (h' : env.Collected t u) : env.Collected s u := by
  refine ⟨h.toExplored.trans h'.toExplored, fun b hb => h'.keepsFound b (h.keepsFound b hb), ?_⟩
  intro x hx hnew y hy b hb
  by_cases ht : x ∈ t.entered
  · exact h'.keepsFound b (h.brought x ht hnew y hy b hb)
  · exact h'.brought x hx ht y hy b hb

/-- the concept that is entered has its inputs collected when the walk below it ends -/
theorem of_insert (h : env.Collected { s with entered := s.entered.insert a } t)
    (ha : ∀ y ∈ env.directInputs a, y ∈ t.entered ∧ ∀ b, env.Brings y b → b ∈ t.found) : env.Collected s t := by
  refine ⟨h.toExplored.of_insert fun y hy => Or.inl (ha y hy).1, h.keepsFound, ?_⟩
  intro x hx hnew y hy b hb
  by_cases he : x = a
  · exact (ha y (he ▸ hy)).2 b hb
  · exact h.brought x hx (fun hin => (SortedSet.mem_insert.1 hin).elim he hnew) y hy b hb

end Collected

/-- a walk that goes as deep as there are concepts to enter collects, and enters its concept -/
def Collects (env : Environment) (k : Nat) (follow : Inputs → Concept → Inputs) : Prop :=
  ∀ s c, env.find? c.address = some c → Reach.unseen env.concepts.keys s.entered < k →
    env.Collected s (follow s c) ∧ c.address ∈ (follow s c).entered

variable {follow : Inputs → Concept → Inputs} {s : Inputs} {k : Nat}

/-- one input: it is entered, and everything that it brings is found -/
theorem Collects.followInput (hk : env.Keyed) (h : env.Collects k follow)
    (hs : Reach.unseen env.concepts.keys s.entered < k) :
    env.Collected s (env.followInput follow s a) ∧ (env.isDeclared a = true →
      a ∈ (env.followInput follow s a).entered ∧ ∀ b, env.Brings a b → b ∈ (env.followInput follow s a).found) := by
  rw [Environment.followInput]
  split
  · rename_i hnone
    refine ⟨.refl env s, fun hdeclared => ?_⟩
    obtain ⟨c, hc⟩ := isDeclared_iff.1 hdeclared
    cases hnone.symm.trans hc
  · rename_i c hc
    obtain rfl := hk a c hc
    obtain ⟨hcollected, hentered⟩ := h { s with
      found := (s.found.insertAll (env.rowsetSiblings c.address)).insert c.address } c hc hs
    refine ⟨⟨hcollected.toExplored, fun b hb => hcollected.keepsFound b ?_, hcollected.brought⟩,
      fun _ => ⟨hentered, fun b hb => hcollected.keepsFound b ?_⟩⟩
    · exact SortedSet.mem_insert.2 (Or.inr (SortedSet.mem_insertAll.2 (Or.inl hb)))
    · exact SortedSet.mem_insert.2 (hb.imp_right fun hb => SortedSet.mem_insertAll.2 (Or.inr hb))

/-- several inputs in turn -/
theorem Collects.foldl (hk : env.Keyed) (h : env.Collects k follow) (l : List String)
    (hs : Reach.unseen env.concepts.keys s.entered < k) :
    env.Collected s (l.foldl (env.followInput follow) s) ∧ ∀ a ∈ l, env.isDeclared a = true →
      a ∈ (l.foldl (env.followInput follow) s).entered ∧
        ∀ b, env.Brings a b → b ∈ (l.foldl (env.followInput follow) s).found := by
  induction l generalizing s with
  | nil => exact ⟨.refl env s, fun _ ha => absurd ha List.not_mem_nil⟩
  | cons a l ih =>
    obtain ⟨hfirst, hbrought⟩ := h.followInput (a := a) hk hs
    obtain ⟨hrest, hbrought'⟩ := ih (Nat.lt_of_le_of_lt (Reach.unseen_le hfirst.keeps) hs)
    refine ⟨hfirst.trans hrest, fun x hx hdeclared => ?_⟩
    rcases List.mem_cons.1 hx with rfl | hx
    · obtain ⟨hentered, hfound⟩ := hbrought hdeclared
      exact ⟨hrest.keeps x hentered, fun b hb => hrest.keepsFound b (hfound b hb)⟩
    · exact hbrought' x hx hdeclared

/-- **a walk collects what its concepts are computed from**: each concept that it goes through is one that it had not
entered, so that it is never out of depth -/
theorem collects_collectInputs (hk : env.Keyed) (fuel : Nat) : env.Collects fuel (env.collectInputs fuel) := by
  induction fuel with
  | zero => exact fun s c _ hs => absurd hs (Nat.not_lt_zero _)
  | succ fuel ih =>
    intro s c hc hs
    rw [collectInputs]
    split
    · rename_i hentered
      exact ⟨.refl env s, SortedSet.contains_iff.1 hentered⟩
    · rename_i hnew
      rw [SortedSet.contains_iff] at hnew
      have hfewer := Reach.unseen_insert_lt (SortedMap.mem_keys.2 ⟨c, hc⟩) hnew
      obtain ⟨hrest, hbrought⟩ := ih.foldl (s := { s with entered := s.entered.insert c.address }) hk c.arguments
        (Nat.lt_of_lt_of_le hfewer (Nat.le_of_lt_succ hs))
      refine ⟨hrest.of_insert fun y hy => ?_, hrest.keeps c.address (SortedSet.mem_insert.2 (Or.inl rfl))⟩
      rw [directInputs_eq hc, List.mem_filter] at hy
      exact hbrought y hy.1 hy.2

/-- what the arguments of a concept lead to, and with one output of a rowset every output of it -/
def ComputedFrom (env : Environment) (c : Concept) (b : String) : Prop :=
  ∃ a, Reach.Reached env.directInputs (.ofList (env.directInputs c.address)) a ∧ env.Brings a b

/-- a walk below a concept finds nothing but what the concept is computed from -/
def FindsInputs (env : Environment) (follow : Inputs → Concept → Inputs) : Prop :=
  ∀ s c, env.find? c.address = some c → ∀ b ∈ (follow s c).found, b ∈ s.found ∨ env.ComputedFrom c b

theorem FindsInputs.followInput (hk : env.Keyed) (h : env.FindsInputs follow) (hc : env.find? c.address = some c)
    (ha : a ∈ c.arguments) (hb : b ∈ (env.followInput follow s a).found) : b ∈ s.found ∨ env.ComputedFrom c b := by
  rw [Environment.followInput] at hb
  split at hb
  · exact Or.inl hb
  · rename_i d hd
    obtain rfl := hk a d hd
    have hinput : d.address ∈ env.directInputs c.address := by
      rw [directInputs_eq hc, List.mem_filter]
      exact ⟨ha, isDeclared_iff.2 ⟨d, hd⟩⟩
    have hreached : Reach.Reached env.directInputs (.ofList (env.directInputs c.address)) d.address :=
      .start (SortedSet.mem_ofList.2 hinput)
    rcases h _ d hd b hb with hb | ⟨x, hx, hbrings⟩
    · simp only [SortedSet.mem_insert, SortedSet.mem_insertAll] at hb
      rcases hb with hb | hb | hb
      · exact Or.inr ⟨d.address, hreached, Or.inl hb⟩
      · exact Or.inl hb
      · exact Or.inr ⟨d.address, hreached, Or.inr hb⟩
    · exact Or.inr ⟨x, hreached.of_next hx, hbrings⟩

theorem FindsInputs.foldl (hk : env.Keyed) (h : env.FindsInputs follow) (hc : env.find? c.address = some c)
    {l : List String} (hl : ∀ a ∈ l, a ∈ c.arguments) (hb : b ∈ (l.foldl (env.followInput follow) s).found) :
    b ∈ s.found ∨ env.ComputedFrom c b := by
  induction l generalizing s with
  | nil => exact Or.inl hb
  | cons a l ih =>
    rcases ih (fun x hx => hl x (List.mem_cons_of_mem a hx)) hb with hb | hb
    · exact h.followInput hk hc (hl a List.mem_cons_self) hb
    · exact Or.inr hb

theorem findsInputs_collectInputs (hk : env.Keyed) (fuel : Nat) : env.FindsInputs (env.collectInputs fuel) := by
  induction fuel with
  | zero => exact fun s c _ b hb => Or.inl hb
  | succ fuel ih =>
    intro s c hc b hb
    rw [collectInputs] at hb
    split at hb
    · exact Or.inl hb
    · exact ih.foldl (s := { s with entered := s.entered.insert c.address }) hk hc (fun _ ha => ha) hb

/-- **the walk below a concept finds exactly what the concept is computed from** -/
theorem mem_inputsOf_iff (hk : env.Keyed) (hc : env.find? c.address = some c) :
    b ∈ env.inputsOf c ↔ env.ComputedFrom c b := by
  obtain ⟨hcollected, hentered⟩ := collects_collectInputs hk (env.concepts.size + 1) {} c hc
    (Reach.unseen_keys_lt env.concepts ∅)
  have hnew : ∀ x : String, x ∉ (∅ : NameSet) := SortedSet.not_mem_empty
  constructor
  · intro hb
    exact (findsInputs_collectInputs hk _ {} c hc b hb).resolve_left (hnew b)
  · rintro ⟨a, ha, hb⟩
    cases ha with
    | start ha => exact hcollected.brought c.address hentered (hnew _) a (SortedSet.mem_ofList.1 ha) b hb
    | @step x _ hx ha =>
      have hstart : ∀ y ∈ SortedSet.ofList (env.directInputs c.address), y ∈ _ ∨ False := fun y hy =>
        hcollected.closed c.address hentered (hnew _) y (SortedSet.mem_ofList.1 hy)
      have hx := (hcollected.toExplored.mem_of_reached (fun _ h => h.elim) hstart hx).resolve_right id
      exact hcollected.brought x hx (hnew x) a ha b hb

end Environment

namespace Priority

/-! ## What is left -/

/-- a listed concept that is neither attempted nor found -/
def Left (cs : List Concept) (attempted found : NameSet) (c : Concept) : Prop :=
  c ∈ cs ∧ c.address ∉ attempted ∧ c.address ∉ found

/-- nothing that is left is computed from the concept -/
def Unread (env : Environment) (cs : List Concept) (attempted found : NameSet) (c : Concept) : Prop :=
  ∀ d, Left cs attempted found d → c.address ∉ env.inputsOf d

/-- the first concept is of an earlier tier, or of the same one with a smaller address or the same -/
def Sooner (c d : Concept) : Prop :=
  (Tier.of c).rank < (Tier.of d).rank ∨ (Tier.of c).rank = (Tier.of d).rank ∧ c.address ≤ d.address

/-- of the concepts that are left and that nothing left is computed from, the first by tier and address -/
structure FirstUnread (env : Environment) (cs : List Concept) (attempted found : NameSet) (c : Concept) : Prop where
  left : Left cs attempted found c
  unread : Unread env cs attempted found c
  first : ∀ d, Left cs attempted found d → Unread env cs attempted found d → Sooner c d

theorem mem_remaining : c ∈ remaining cs attempted found ↔ Left cs attempted found c := by
  rw [remaining, mem_sortOn, List.mem_filter, Bool.and_eq_true, SortedSet.not_contains_iff, SortedSet.not_contains_iff]
  rfl

theorem sooner_iff :
    sortsLE ((Tier.of c).rank, c.address) ((Tier.of d).rank, d.address) = true ↔ Sooner c d := by
  simp only [sortsLE, Sorts.before, Bool.not_or, Bool.and_eq_true, Bool.not_eq_true', decide_eq_false_iff_not,
    Bool.and_eq_false_iff, String.not_lt, Nat.not_lt, Sooner]
  by_cases haddress : c.address ≤ d.address
  · simp only [haddress, or_true, and_true]
    omega
  · simp only [haddress, or_false, and_false]
    omega

/-- what is left comes by tier and address -/
theorem remaining_sooner (cs : List Concept) (attempted found : NameSet) :
    (remaining cs attempted found).Pairwise Sooner :=
  (pairwise_sortOn (fun c : Concept => ((Tier.of c).rank, c.address)) _).imp fun h => sooner_iff.1 h

/-- a pick leaves less -/
theorem length_remaining_insert (h : Left cs attempted found c) :
    (remaining cs (attempted.insert c.address) found).length < (remaining cs attempted found).length := by
  rw [remaining, remaining, sortOn, sortOn, (sortBy_perm _ _).length_eq, (sortBy_perm _ _).length_eq]
  obtain ⟨hc, hattempted, hfound⟩ := h
  refine length_filter_lt (fun d _ hd => ?_) hc ?_ ?_
  · rw [Bool.and_eq_true, SortedSet.not_contains_iff, SortedSet.mem_insert, not_or] at hd
    rw [Bool.and_eq_true, SortedSet.not_contains_iff]
    exact ⟨hd.1.2, hd.2⟩
  · rw [Bool.and_eq_true, SortedSet.not_contains_iff, SortedSet.not_contains_iff]
    exact ⟨hattempted, hfound⟩
  · rw [SortedSet.contains_iff.2 (SortedSet.mem_insert.2 (Or.inl rfl))]
    rfl

/-- the order of a list does not matter to what is left of it -/
theorem remaining_perm (hcs : ∀ c ∈ cs, env.find? c.address = some c) (h : ds.Perm cs) :
    remaining ds attempted found = remaining cs attempted found := by
  have hperm : (remaining ds attempted found).Perm (remaining cs attempted found) :=
    (sortBy_perm _ _).trans ((h.filter _).trans (sortBy_perm _ _).symm)
  refine hperm.eq_of_pairwise (fun c d hc hd hcd hdc => ?_) (pairwise_sortOn _ _) (pairwise_sortOn _ _)
  -- concepts of one place are of one address, and so the same concept of the environment
  have haddress : c.address = d.address := congrArg Prod.snd (sortsLE_antisymm hcd hdc)
  have hfind := hcs c (h.mem_iff.1 (mem_remaining.1 hc).1)
  rw [haddress, hcs d (mem_remaining.1 hd).1] at hfind
  exact (Option.some.inj hfind).symm

/-! ## One pick -/

theorem unread_iff :
    (!((remaining cs attempted found).foldl (fun (s : NameSet) c => s.union (env.inputsOf c)) ∅).contains c.address) =
      true ↔ Unread env cs attempted found c := by
  rw [SortedSet.not_contains_iff, foldl_iff (fun s : NameSet => c.address ∈ s) fun s d => SortedSet.mem_union]
  constructor
  · intro h d hd hin
    exact h (Or.inr ⟨d, mem_remaining.2 hd, hin⟩)
  · rintro h (hempty | ⟨d, hd, hin⟩)
    · exact SortedSet.not_mem_empty _ hempty
    · exact h d (mem_remaining.1 hd) hin

theorem left_of_next (h : next env cs attempted found = some c) : Left cs attempted found c := by
  rw [← mem_remaining]
  rcases Option.or_eq_some_iff.1 h with h | ⟨-, h⟩
  · exact List.mem_of_find?_eq_some h
  · exact List.mem_of_head? h

/-- there is no next pick exactly if nothing is left -/
theorem next_eq_none_iff : next env cs attempted found = none ↔ ∀ c, ¬ Left cs attempted found c := by
  simp only [next, Option.or_eq_none_iff, List.head?_eq_none_iff, List.eq_nil_iff_forall_not_mem, mem_remaining]
  refine ⟨And.right, fun h => ⟨?_, h⟩⟩
  exact List.find?_eq_none.2 fun c hc => absurd (mem_remaining.1 hc) (h c)

/-- **a pick is the first that nothing left is computed from**, where there is one -/
theorem firstUnread_of_next (h : next env cs attempted found = some c)
    (hexists : ∃ d, Left cs attempted found d ∧ Unread env cs attempted found d) :
    FirstUnread env cs attempted found c := by
  obtain ⟨d, hd, hunread⟩ := hexists
  rcases Option.or_eq_some_iff.1 h with hfind | ⟨hnone, -⟩
  · obtain ⟨hc, before, after, hlist, hbefore⟩ := List.find?_eq_some_iff_append.1 hfind
    refine ⟨left_of_next h, unread_iff.1 hc, fun e he hunread => ?_⟩
    have hmem := mem_remaining.2 he
    rw [hlist, List.mem_append, List.mem_cons] at hmem
    rcases hmem with hmem | rfl | hmem
    · have hread := hbefore e hmem
      rw [unread_iff.2 hunread] at hread
      cases hread
    · exact Or.inr ⟨rfl, String.le_refl _⟩
    · have hsorted := remaining_sooner cs attempted found
      rw [hlist, List.pairwise_append, List.pairwise_cons] at hsorted
      exact hsorted.2.1.1 e hmem
  · exact absurd (unread_iff.2 hunread) (List.find?_eq_none.1 hnone d (mem_remaining.2 hd))

/-- of two listed addresses, the concept at the first is computed from the second -/
def Consumes (env : Environment) (cs : List Concept) (a b : String) : Prop :=
  ∃ c ∈ cs, ∃ d ∈ cs, c.address = a ∧ d.address = b ∧ b ∈ env.inputsOf c

/-- without a cycle among the listed concepts, nothing that is left is computed from some concept that is left -/
theorem exists_unread (hacyclic : ∀ b, ¬ Relation.TransGen (Consumes env cs) b b) (h : Left cs attempted found c) :
    ∃ d, Left cs attempted found d ∧ Unread env cs attempted found d := by
  by_contra hnone
  push Not at hnone
  have hlisted : ∀ b, (∃ d, Left cs attempted found d ∧ d.address = b) → b ∈ SortedSet.ofList (Concept.addresses cs) := by
    rintro _ ⟨d, hd, rfl⟩
    exact SortedSet.mem_ofList.2 (List.mem_map_of_mem hd.1)
  -- from every concept that is left there is a way up to another one that is computed from it
  obtain ⟨b, -, hcycle⟩ := exists_transGen_self (R := Function.swap (Consumes env cs)) hlisted ⟨c, h, rfl⟩ (by
    rintro _ ⟨d, hd, rfl⟩
    have hread := hnone d hd
    unfold Unread at hread
    push Not at hread
    obtain ⟨e, he, hin⟩ := hread
    exact ⟨e.address, ⟨e, he, rfl⟩, e, he.1, d, hd.1, rfl, rfl, hin⟩)
  exact hacyclic b (Relation.transGen_swap.1 hcycle)

/-! ## All picks in turn -/

variable {fuel : Nat} {earlier later : List String}

/-- only what is left is picked -/
theorem left_of_mem_picks (h : a ∈ picks env cs found fuel attempted) :
    ∃ c, Left cs attempted found c ∧ c.address = a := by
  induction fuel generalizing attempted with
  | zero => cases h
  | succ fuel ih =>
    rw [picks] at h
    split at h
    · cases h
    · rename_i c hc
      rcases List.mem_cons.1 h with rfl | h
      · exact ⟨c, left_of_next hc, rfl⟩
      · obtain ⟨d, ⟨hd, hattempted, hfound⟩, rfl⟩ := ih h
        exact ⟨d, ⟨hd, fun hin => hattempted (SortedSet.mem_insert.2 (Or.inr hin)), hfound⟩, rfl⟩

/-- nothing is picked twice -/
theorem nodup_picks : (picks env cs found fuel attempted).Nodup := by
  induction fuel generalizing attempted with
  | zero => exact List.nodup_nil
  | succ fuel ih =>
    rw [picks]
    split
    · exact List.nodup_nil
    · rename_i c hc
      refine List.nodup_cons.2 ⟨fun hagain => ?_, ih⟩
      obtain ⟨d, ⟨-, hattempted, -⟩, hd⟩ := left_of_mem_picks hagain
      exact hattempted (SortedSet.mem_insert.2 (Or.inl hd))

/-- with a pick for each concept that is left, all are picked -/
theorem mem_picks (hfuel : (remaining cs attempted found).length ≤ fuel) (h : Left cs attempted found c) :
    c.address ∈ picks env cs found fuel attempted := by
  induction fuel generalizing attempted with
  | zero =>
    have hnil := List.length_eq_zero_iff.1 (Nat.le_zero.1 hfuel)
    exact absurd (mem_remaining.2 h) (by rw [hnil]; exact List.not_mem_nil)
  | succ fuel ih =>
    rw [picks]
    split
    · rename_i hnone
      exact absurd h (next_eq_none_iff.1 hnone c)
    · rename_i d hd
      by_cases hsame : c.address = d.address
      · rw [hsame]
        exact List.mem_cons_self
      · have hless := length_remaining_insert (left_of_next hd)
        refine List.mem_cons_of_mem _ (ih (by omega) ⟨h.1, fun hin => ?_, h.2.2⟩)
        rcases SortedSet.mem_insert.1 hin with he | hin
        · exact hsame he
        · exact h.2.1 hin

/-- each pick is the next one once those before it are attempted -/
theorem next_of_split (h : picks env cs found fuel attempted = earlier ++ a :: later) :
    ∃ c, c.address = a ∧ next env cs (attempted.insertAll earlier) found = some c := by
  induction fuel generalizing attempted earlier with
  | zero => exact absurd h.symm (List.append_ne_nil_of_right_ne_nil _ (List.cons_ne_nil _ _))
  | succ fuel ih =>
    rw [picks] at h
    split at h
    · exact absurd h.symm (List.append_ne_nil_of_right_ne_nil _ (List.cons_ne_nil _ _))
    · rename_i c hc
      cases earlier with
      | nil => exact ⟨c, (List.cons.inj h).1, hc⟩
      | cons b earlier =>
        obtain ⟨rfl, hrest⟩ := List.cons.inj h
        obtain ⟨d, hd, hnext⟩ := ih hrest
        exact ⟨d, hd, hnext⟩

/-- the order of the list does not matter to the picks -/
theorem picks_perm (hcs : ∀ c ∈ cs, env.find? c.address = some c) (h : ds.Perm cs) :
    picks env ds found fuel attempted = picks env cs found fuel attempted := by
  induction fuel generalizing attempted with
  | zero => rfl
  | succ fuel ih =>
    have hnext : next env ds attempted found = next env cs attempted found := by
      simp only [next, remaining_perm hcs h]
    simp only [picks, hnext, ih]

theorem length_remaining_le : (remaining cs attempted found).length ≤ cs.length := by
  rw [remaining, sortOn, (sortBy_perm _ _).length_eq]
  exact List.length_filter_le _ _

/-- **The order in which concepts are picked.** The sequence of the picks from concepts of one environment holds each
address that is left once, after which nothing is left to pick, and does not depend on the order of the list. Without a
cycle among the listed concepts, nothing that is left at a pick is computed from it, and it is the first such concept by
tier and address. -/
theorem sequence_orders (hcs : ∀ c ∈ cs, env.find? c.address = some c) :
    (sequence env cs attempted found).Nodup ∧
    (∀ a, a ∈ sequence env cs attempted found ↔ ∃ c, Left cs attempted found c ∧ c.address = a) ∧
    next env cs (attempted.insertAll (sequence env cs attempted found)) found = none ∧
    (∀ ds : List Concept, ds.Perm cs → sequence env ds attempted found = sequence env cs attempted found) ∧
    ∀ earlier a later, sequence env cs attempted found = earlier ++ a :: later →
      ∃ c, c.address = a ∧ next env cs (attempted.insertAll earlier) found = some c ∧
        ((∀ b, ¬ Relation.TransGen (Consumes env cs) b b) →
          FirstUnread env cs (attempted.insertAll earlier) found c) := by
  have hfuel : (remaining cs attempted found).length ≤ cs.length + 1 := Nat.le_succ_of_le length_remaining_le
  refine ⟨nodup_picks, fun a => ⟨left_of_mem_picks, ?_⟩, ?_, fun ds h => ?_, fun earlier a later h => ?_⟩
  · rintro ⟨c, hc, rfl⟩
    exact mem_picks hfuel hc
  · rw [next_eq_none_iff]
    rintro c ⟨hc, hattempted, hfound⟩
    rw [SortedSet.mem_insertAll, not_or] at hattempted
    exact hattempted.2 (mem_picks hfuel ⟨hc, hattempted.1, hfound⟩)
  · rw [sequence, sequence, h.length_eq, picks_perm hcs h]
  · obtain ⟨c, rfl, hnext⟩ := next_of_split h
    exact ⟨c, rfl, hnext, fun hacyclic => firstUnread_of_next hnext (exists_unread hacyclic (left_of_next hnext))⟩

/-! ## Multiples of an amount -/

/-- a multiple of the concept at an address -/
def twice (name content : String) : Concept :=
  .derived name .float .property (.function ⟨.multiply, [.concept content, .literal (.integer 2)]⟩)
    (Grain.ofList ["local.order"]) .multiRow

/-- the amount of an order, twice and four times the amount, and the sum of all amounts -/
def amounts : List Concept :=
  [.property "amount" .float ["order"], twice "double" "local.amount", twice "quadruple" "local.double",
    .derived "total" .float .metric (.aggregate ⟨.sum, [.concept "local.amount"], []⟩) Grain.single .singleRow]

/-- the environment of the amounts -/
def amountsOnly : Environment := amounts.foldl Environment.add .empty

theorem find?_amountsOnly : ∀ c ∈ amounts, amountsOnly.find? c.address = some c := by
  intro c hc
  simp only [amounts, List.mem_cons, List.not_mem_nil, or_false] at hc
  rcases hc with rfl | rfl | rfl | rfl
  · rfl
  · rfl
  · rfl
  · rfl

/-- how many steps lie between an amount and what is computed from it -/
def steps (address : String) : Nat :=
  if address = "local.amount" then 0 else if address = "local.quadruple" then 2 else 1

theorem acyclic_amountsOnly : ∀ b, ¬ Relation.TransGen (Consumes amountsOnly amounts) b b := by
  have hsteps : ∀ c ∈ amounts, ∀ d ∈ amounts, d.address ∈ amountsOnly.inputsOf c → steps d.address < steps c.address := by
    decide +kernel
  refine not_transGen_self steps ?_
  rintro _ _ ⟨c, hc, d, hd, rfl, rfl, hin⟩
  exact hsteps c hc d hd hin

/-- the total is of the first tier; of the two multiples, the one that is computed from the other comes before it -/
theorem sequence_orders_amounts : (∀ c ∈ amounts, amountsOnly.find? c.address = some c) ∧
    (∀ b, ¬ Relation.TransGen (Consumes amountsOnly amounts) b b) ∧
    sequence amountsOnly amounts ∅ ∅ = ["local.total", "local.quadruple", "local.double", "local.amount"] ∧
    sequence amountsOnly amounts.reverse ∅ ∅ = sequence amountsOnly amounts ∅ ∅ ∧
    FirstUnread amountsOnly amounts (SortedSet.ofList ["local.total"]) ∅ (twice "quadruple" "local.double") := by
  have hsequence : sequence amountsOnly amounts ∅ ∅ =
      ["local.total", "local.quadruple", "local.double", "local.amount"] := by decide +kernel
  obtain ⟨-, -, -, hperm, hpicks⟩ := @sequence_orders amountsOnly amounts ∅ ∅ find?_amountsOnly
  refine ⟨find?_amountsOnly, acyclic_amountsOnly, hsequence, hperm _ (List.reverse_perm _), ?_⟩
  obtain ⟨c, hc, -, hfirst⟩ := hpicks ["local.total"] "local.quadruple" _ hsequence
  have hleft := (hfirst acyclic_amountsOnly).left
  have hsame : c = twice "quadruple" "local.double" := by
    have hfind := find?_amountsOnly c hleft.1
    rw [hc] at hfind
    exact (Option.some.inj hfind).symm
  exact hsame ▸ hfirst acyclic_amountsOnly

end Priority

end SemanticPlanner
