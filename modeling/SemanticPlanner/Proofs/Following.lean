/-
Following concepts through their lineage and their pseudonyms.

  Closed                every concept and datasource is kept under its own name, and all that they name is declared
  DependsOn             a concept is computed from another one in one or more steps
  Follows               what following a concept does to the graph, without a bound on its levels
  Follows.visits        what was to be followed is seen in the end
  follows_of_follow     with a level for each concept not yet seen, following does what `Follows` says
  built_of_ofEnvironment    a graph is built by following every concept and then attaching every datasource
  ofEnvironment_error   where all that is named is declared, only a concept that depends on itself is refused

Each level of `follow` sees a concept that was not seen before, so its bound is never met. What holds of a whole walk is
shown by induction on `Follows`, with one case for each thing that can happen on the way.
-/
import SemanticPlanner.Proofs.Determined
import SemanticPlanner.Proofs.Matching
import SemanticPlanner.Reference.Build

namespace SemanticPlanner

variable {env : Environment} {a x : String} {c d : Concept} {l : List String}

/-! ## Steps that can fail -/

theorem ok_of_toOption {ε α : Type} {x : Except ε α} {v : α} (h : x.toOption = some v) : x = .ok v := by
  cases x with
  | ok w => exact congrArg Except.ok (Option.some.inj h)
  | error => cases h

theorem bind_eq_error {ε α β : Type} {x : Except ε α} {f : α → Except ε β} {e : ε} (h : (x >>= f) = .error e) :
    x = .error e ∨ ∃ v, x = .ok v ∧ f v = .error e := by
  cases x with
  | error e' =>
    cases h
    exact Or.inl rfl
  | ok v => exact Or.inr ⟨v, rfl, h⟩

/-- a fold that fails does so at one of its items -/
theorem foldlM_eq_error {ε α β : Type} {step : β → α → Except ε β} {l : List α} {b : β} {e : ε}
    (h : l.foldlM step b = .error e) : ∃ x ∈ l, ∃ b', step b' x = .error e := by
  induction l generalizing b with
  | nil => cases h
  | cons x l ih =>
    rw [List.foldlM_cons] at h
    rcases bind_eq_error h with hx | ⟨b', -, h⟩
    · exact ⟨x, List.mem_cons_self, b, hx⟩
    · obtain ⟨y, hy, b'', hstep⟩ := ih h
      exact ⟨y, List.mem_cons_of_mem _ hy, b'', hstep⟩

theorem mapM_eq_error {ε α β : Type} {f : α → Except ε β} {l : List α} {e : ε} (h : l.mapM f = .error e) :
    ∃ x ∈ l, f x = .error e := by
  induction l with
  | nil => cases h
  | cons x l ih =>
    rw [List.mapM_cons] at h
    rcases bind_eq_error h with hx | ⟨b, -, h⟩
    · exact ⟨x, List.mem_cons_self, hx⟩
    · rcases bind_eq_error h with hl | ⟨bs, -, h⟩
      · obtain ⟨y, hy, hyf⟩ := ih hl
        exact ⟨y, List.mem_cons_of_mem _ hy, hyf⟩
      · cases h

/-- what a fold adds to a state is what its items add one by one -/
theorem foldlM_adds {ε α β : Type} {step : β → α → Except ε β} {P : β → Prop} {Q : α → Prop} {l : List α} {s s' : β}
    (h : l.foldlM step s = .ok s') (hstep : ∀ s, ∀ x ∈ l, ∀ s', step s x = .ok s' → (P s' ↔ P s ∨ Q x)) :
    P s' ↔ P s ∨ ∃ x ∈ l, Q x := by
  induction l generalizing s with
  | nil =>
    cases h
    simp
  | cons x l ih =>
    rw [List.foldlM_cons] at h
    obtain ⟨s₁, hs₁, h⟩ := Resolve.bind_eq_ok h
    rw [ih h fun s y hy => hstep s y (List.mem_cons_of_mem _ hy), hstep s x List.mem_cons_self s₁ hs₁, or_assoc,
      List.exists_mem_cons_iff]

theorem SortedMap.mem_values {κ ν : Type} [Sorts κ] {m : SortedMap κ ν} {v : ν} :
    v ∈ m.values ↔ ∃ k, m.get? k = some v := by
  simp only [values, List.mem_map, get?_eq_some_iff]
  constructor
  · rintro ⟨⟨k, w⟩, hmem, rfl⟩
    exact ⟨k, hmem⟩
  · rintro ⟨k, hmem⟩
    exact ⟨(k, v), hmem, rfl⟩

namespace Environment

/-! ## What an environment names -/

/-- the lineage of one concept has another one as an argument -/
def Reads (env : Environment) (a x : String) : Prop := ∃ c, env.find? a = some c ∧ x ∈ c.arguments

/-- a concept is computed from another one in one or more steps -/
def DependsOn (env : Environment) : String → String → Prop := Relation.TransGen env.Reads

/-- An environment in which everything is kept under its own name, and every lineage argument, pseudonym and column is a
declared concept. What declarations build is such. -/
structure Closed (env : Environment) : Prop where
  keyed : env.Keyed
  filed : ∀ i s, env.datasources.get? i = some s → s.identifier = i
  arguments : ∀ a c, env.find? a = some c → ∀ x ∈ c.arguments, env.isDeclared x = true
  pseudonyms : ∀ a c, env.find? a = some c → ∀ x ∈ c.pseudonyms, env.isDeclared x = true
  columns : ∀ i s, env.datasources.get? i = some s → ∀ x ∈ s.outputs, env.isDeclared x = true

/-- closedness is read off the entries -/
theorem closed_iff : env.Closed ↔
    (∀ e ∈ env.concepts.toList, e.2.address = e.1 ∧ (∀ x ∈ e.2.arguments, env.isDeclared x = true) ∧
      ∀ x ∈ e.2.pseudonyms.toList, env.isDeclared x = true) ∧
    ∀ e ∈ env.datasources.toList, e.2.identifier = e.1 ∧ ∀ x ∈ e.2.outputs, env.isDeclared x = true := by
  constructor
  · intro h
    refine ⟨fun e he => ?_, fun e he => ?_⟩
    · have hfind : env.find? e.1 = some e.2 := SortedMap.get?_eq_some_iff.2 he
      exact ⟨h.keyed _ _ hfind, h.arguments _ _ hfind, h.pseudonyms _ _ hfind⟩
    · have hget : env.datasources.get? e.1 = some e.2 := SortedMap.get?_eq_some_iff.2 he
      exact ⟨h.filed _ _ hget, h.columns _ _ hget⟩
  · rintro ⟨hconcepts, hsources⟩
    exact ⟨fun a c hc => (hconcepts (a, c) (SortedMap.get?_eq_some_iff.1 hc)).1,
      fun i s hs => (hsources (i, s) (SortedMap.get?_eq_some_iff.1 hs)).1,
      fun a c hc => (hconcepts (a, c) (SortedMap.get?_eq_some_iff.1 hc)).2.1,
      fun a c hc => (hconcepts (a, c) (SortedMap.get?_eq_some_iff.1 hc)).2.2,
      fun i s hs => (hsources (i, s) (SortedMap.get?_eq_some_iff.1 hs)).2⟩

instance (env : Environment) : Decidable env.Closed := decidable_of_iff _ closed_iff.symm

theorem concept_of_find? (h : env.find? a = some c) : env.concept a = .ok c := by
  rw [concept, h]

theorem mem_pseudonyms (hc : env.find? a = some c) : x ∈ env.pseudonyms a ↔ x ∈ c.pseudonyms := by
  rw [pseudonyms, hc]
  exact Iff.rfl

/-- a concept is found where it is kept -/
theorem Keyed.find?_address (hk : env.Keyed) (h : env.find? a = some c) : env.find? c.address = some c := by
  rw [hk a c h]
  exact h

theorem Keyed.find?_of_mem (hk : env.Keyed) (h : c ∈ env.concepts.values) : env.find? c.address = some c := by
  obtain ⟨a, ha⟩ := SortedMap.mem_values.1 h
  exact hk.find?_address ha

/-- concepts at one node of the graph are one concept -/
theorem Keyed.eq_of_node (hk : env.Keyed) {a b : String} (hc : env.find? a = some c) (hd : env.find? b = some d)
    (h : GraphNode.ofConcept c = GraphNode.ofConcept d) : c = d := by
  have haddress : c.address = d.address := (GraphNode.concept.inj h).1
  exact Option.some.inj ((hk.find?_address hc).symm.trans (haddress ▸ hk.find?_address hd))

end Environment

namespace ReferenceGraph

/-! ## What following does -/

namespace Draft

/-- the node of a concept was followed already -/
def Sees (b : Draft) (c : Concept) : Prop := GraphNode.ofConcept c ∈ b.seen

/-- a concept put into the graph, and counted as followed -/
def enter (b : Draft) (c : Concept) : Draft := ⟨b.graph.addConcept c, b.seen.insert (.ofConcept c)⟩

/-- a concept linked to one of its arguments -/
def link (b : Draft) (c d : Concept) : Draft := { b with graph := b.graph.addEdge (.ofConcept c) (.ofConcept d) }

/-- two concepts linked as pseudonyms -/
def join (b : Draft) (c d : Concept) : Draft := { b with graph := b.graph.addPseudonym (.ofConcept c) (.ofConcept d) }

/-- two concepts are linked both ways -/
def Linked (b : Draft) (c d : Concept) : Prop :=
  b.graph.hasEdge (.ofConcept c) (.ofConcept d) = true ∧ b.graph.hasEdge (.ofConcept d) (.ofConcept c) = true

end Draft

/-- what is left to follow -/
inductive Task where
  /-- a concept, met in the lineage of those `below` it -/
  | concept (below : List String) (c : Concept)
  /-- some arguments of a concept -/
  | arguments (below : List String) (c : Concept) (left : List String)
  /-- some pseudonyms of a concept -/
  | pseudonyms (c : Concept) (left : List String)
  /-- some concepts, one after the other -/
  | concepts (left : List Concept)

/-- what following does to the graph -/
inductive Follows (env : Environment) : Task → Draft → Draft → Prop
  | seen {below : List String} {c : Concept} {b : Draft} : c.address ∉ below → b.Sees c →
      Follows env (.concept below c) b b
  | entered {below : List String} {c : Concept} {b b₁ b₂ : Draft} : c.address ∉ below → ¬ b.Sees c →
      Follows env (.arguments below c c.arguments) (b.enter c) b₁ →
      Follows env (.pseudonyms c c.pseudonyms.toList) b₁ b₂ → Follows env (.concept below c) b b₂
  | noArgument {below : List String} {c : Concept} {b : Draft} : Follows env (.arguments below c []) b b
  | argument {below : List String} {c d : Concept} {a : String} {l : List String} {b b₁ b₂ : Draft} :
      a ≠ c.address → env.find? a = some d → Follows env (.concept (c.address :: below) d) b b₁ →
      Follows env (.arguments below c l) (b₁.link c d) b₂ → Follows env (.arguments below c (a :: l)) b b₂
  | noPseudonym {c : Concept} {b : Draft} : Follows env (.pseudonyms c []) b b
  | passed {c d : Concept} {a : String} {l : List String} {b b₁ : Draft} : env.find? a = some d →
      d.address = c.address ∨ b.Linked c d → Follows env (.pseudonyms c l) b b₁ →
      Follows env (.pseudonyms c (a :: l)) b b₁
  | pseudonym {c d : Concept} {a : String} {l : List String} {b b₁ b₂ : Draft} : env.find? a = some d →
      d.address ≠ c.address → Follows env (.concept [] d) (b.join c d) b₁ →
      Follows env (.pseudonyms c l) b₁ b₂ → Follows env (.pseudonyms c (a :: l)) b b₂
  | noConcept {b : Draft} : Follows env (.concepts []) b b
  | next {c : Concept} {cs : List Concept} {b b₁ b₂ : Draft} : Follows env (.concept [] c) b b₁ →
      Follows env (.concepts cs) b₁ b₂ → Follows env (.concepts (c :: cs)) b b₂

variable {t : Task} {b b' : Draft} {below : List String} {fuel : Nat}

/-- what is seen once a concept was entered is that concept, or was seen before -/
theorem Draft.eq_or_sees_of_enter (hk : env.Keyed) (hc : env.find? c.address = some c) (hd : env.find? a = some d)
    (h : (b.enter c).Sees d) : d = c ∨ b.Sees d :=
  (SortedSet.mem_insert.1 h).imp_left (hk.eq_of_node hd hc)

/-- what was seen stays seen -/
theorem Follows.keeps (h : Follows env t b b') : ∀ n ∈ b.seen, n ∈ b'.seen := by
  induction h with
  | seen | noArgument | noPseudonym | noConcept => exact fun _ hn => hn
  | entered _ _ _ _ ih₁ ih₂ => exact fun n hn => ih₂ n (ih₁ n (SortedSet.mem_insert.2 (Or.inr hn)))
  | argument _ _ _ _ ih₁ ih₂ => exact fun n hn => ih₂ n (ih₁ n hn)
  | passed _ _ _ ih => exact ih
  | pseudonym _ _ _ _ ih₁ ih₂ => exact fun n hn => ih₂ n (ih₁ n hn)
  | next _ _ ih₁ ih₂ => exact fun n hn => ih₂ n (ih₁ n hn)

/-- the concepts that a task is about are seen; pseudonyms linked before are left to where they were linked -/
def Task.Visited (env : Environment) : Task → Draft → Prop
  | .concept _ c, b => b.Sees c
  | .arguments _ _ l, b => ∀ a ∈ l, ∀ d, env.find? a = some d → b.Sees d
  | .pseudonyms _ _, _ => True
  | .concepts cs, b => ∀ c ∈ cs, b.Sees c

/-- **what was to be followed is seen in the end** -/
theorem Follows.visits (h : Follows env t b b') : t.Visited env b' := by
  induction h with
  | seen _ hseen => exact hseen
  | entered _ _ hargs hpseud =>
    exact hpseud.keeps _ (hargs.keeps _ (SortedSet.mem_insert.2 (Or.inl rfl)))
  | noArgument | noConcept => exact fun _ h => absurd h List.not_mem_nil
  | noPseudonym | passed | pseudonym => trivial
  | @argument _ c d a l b b₁ b₂ _ hd _ hrest ih₁ ih₂ =>
    intro x hx e he
    rcases List.mem_cons.1 hx with rfl | hx
    · obtain rfl := Option.some.inj (hd.symm.trans he)
      exact hrest.keeps _ ih₁
    · exact ih₂ x hx e he
  | next _ hrest ih₁ ih₂ => exact List.forall_mem_cons.2 ⟨hrest.keeps _ ih₁, ih₂⟩

/-! ## The bound on the levels -/

/-- how many concepts were not followed yet -/
def unseen (env : Environment) (b : Draft) : Nat :=
  (env.concepts.values.filter fun c => !b.seen.contains (.ofConcept c)).length

theorem unseen_le (h : ∀ n ∈ b.seen, n ∈ b'.seen) : unseen env b' ≤ unseen env b := by
  refine (List.monotone_filter_right _ fun c hc => ?_).length_le
  rw [SortedSet.not_contains_iff] at hc ⊢
  exact fun hn => hc (h _ hn)

theorem unseen_enter_lt (hc : env.find? c.address = some c) (hnew : ¬ b.Sees c) :
    unseen env (b.enter c) < unseen env b := by
  refine length_filter_lt (fun d _ hd => ?_) (SortedMap.mem_values.2 ⟨_, hc⟩) ?_ ?_
  · rw [SortedSet.not_contains_iff] at hd ⊢
    exact fun hn => hd (SortedSet.mem_insert.2 (Or.inr hn))
  · exact SortedSet.not_contains_iff.2 hnew
  · rw [Bool.not_eq_false']
    exact SortedSet.contains_iff.2 (SortedSet.mem_insert.2 (Or.inl rfl))

/-- a fold does what each of its steps does, while few enough concepts are unseen -/
theorem follows_of_foldlM {α : Type} {step : Draft → α → Except PlanningError Draft} {T : List α → Task}
    {xs : List α} {bound : Nat} (hnil : ∀ b, Follows env (T []) b b)
    (hcons : ∀ x ∈ xs, ∀ b b₁, unseen env b < bound → step b x = .ok b₁ → unseen env b₁ ≤ unseen env b ∧
      ∀ l b₂, Follows env (T l) b₁ b₂ → Follows env (T (x :: l)) b b₂)
    (hb : unseen env b < bound) (h : xs.foldlM step b = .ok b') : Follows env (T xs) b b' := by
  induction xs generalizing b with
  | nil =>
    cases h
    exact hnil _
  | cons x xs ih =>
    rw [List.foldlM_cons] at h
    obtain ⟨b₁, hstep, h⟩ := Resolve.bind_eq_ok h
    obtain ⟨hle, hrest⟩ := hcons x List.mem_cons_self b b₁ hb hstep
    exact hrest _ _ (ih (fun y hy => hcons y (List.mem_cons_of_mem _ hy)) (Nat.lt_of_le_of_lt hle hb) h)

/-- **with a level for each concept not yet seen, following does what `Follows` says** -/
theorem follows_of_follow (hk : env.Keyed) (hc : env.find? c.address = some c) (hfuel : unseen env b < fuel)
    (h : follow env fuel below b c = .ok b') : Follows env (.concept below c) b b' := by
  induction fuel generalizing below b b' c with
  | zero => omega
  | succ fuel ih =>
    rw [follow] at h
    split at h
    · cases h
    rename_i hbelow
    have hbelow : c.address ∉ below := fun hmem => hbelow (List.contains_iff_mem.2 hmem)
    dsimp only at h
    split at h
    · rename_i hseen
      cases h
      exact .seen hbelow (SortedSet.contains_iff.1 hseen)
    rename_i hnew
    have hnew : ¬ b.Sees c := fun hmem => hnew (SortedSet.contains_iff.2 hmem)
    obtain ⟨b₁, hargs, hpseud⟩ := Resolve.bind_eq_ok h
    have hbound : unseen env (b.enter c) < fuel :=
      Nat.lt_of_lt_of_le (unseen_enter_lt hc hnew) (Nat.le_of_lt_succ hfuel)
    have hargs : Follows env (.arguments below c c.arguments) (b.enter c) b₁ := by
      refine follows_of_foldlM (T := .arguments below c) (fun _ => .noArgument) (fun a _ b₁ b₂ hb₁ hstep => ?_)
        hbound hargs
      split at hstep
      · cases hstep
      rename_i hne
      obtain ⟨d, hd, hstep⟩ := Resolve.bind_eq_ok hstep
      obtain ⟨b₃, hfollow, hstep⟩ := Resolve.bind_eq_ok hstep
      cases hstep
      have hd := Environment.concept_eq_ok hd
      have hfollows := ih (hk.find?_address hd) hb₁ hfollow
      exact ⟨unseen_le hfollows.keeps, fun l b₂ => .argument hne hd hfollows⟩
    refine .entered hbelow hnew hargs ?_
    refine follows_of_foldlM (T := .pseudonyms c) (fun _ => .noPseudonym) (fun a _ b₁ b₂ hb₁ hstep => ?_)
      (Nat.lt_of_le_of_lt (unseen_le hargs.keeps) hbound) hpseud
    split at hstep
    · cases hstep
    rename_i d hd
    split at hstep
    · rename_i hsame
      cases hstep
      exact ⟨Nat.le_refl _, fun l b₂ => .passed hd (Or.inl hsame)⟩
    rename_i hne
    split at hstep
    · rename_i hlinked
      cases hstep
      exact ⟨Nat.le_refl _, fun l b₂ => .passed hd (Or.inr (Bool.and_eq_true_iff.1 hlinked))⟩
    · have hfollows := ih (hk.find?_address hd) (b := b₁.join c d) hb₁ hstep
      exact ⟨unseen_le (b := b₁.join c d) hfollows.keeps, fun l b₂ => .pseudonym hd hne hfollows⟩

/-- a graph before anything is followed -/
def Draft.blank : Draft := ⟨empty, ∅⟩

/-- **a graph is built by following every concept and then attaching every datasource** -/
theorem built_of_ofEnvironment (hk : env.Keyed) {g : ReferenceGraph} (h : ofEnvironment env = .ok g) :
    ∃ b, Follows env (.concepts env.concepts.values) .blank b ∧
      env.datasources.values.foldlM (attach env) b.graph = .ok g := by
  obtain ⟨b, hb, h⟩ := Resolve.bind_eq_ok h
  refine ⟨b, ?_, h⟩
  have hsize : unseen env .blank < env.concepts.size + 2 := by
    have hle : unseen env .blank ≤ env.concepts.values.length := List.length_filter_le _ _
    rw [SortedMap.values, List.length_map] at hle
    exact Nat.lt_of_le_of_lt hle (by show _ < env.concepts.toList.length + 2; omega)
  refine follows_of_foldlM (T := .concepts) (fun _ => .noConcept) (fun c hc b b₁ hb hstep => ?_) hsize hb
  have hfollows := follows_of_follow hk (hk.find?_of_mem hc) hb hstep
  exact ⟨unseen_le hfollows.keeps, fun l b₂ => .next hfollows⟩

/-! ## What is refused -/

/-- a walk that fails has met a concept that depends on itself -/
theorem follow_error (henv : env.Closed) (hc : env.find? c.address = some c)
    (hbelow : ∀ y ∈ below, env.DependsOn y c.address) {e : PlanningError} (h : follow env fuel below b c = .error e) :
    ∃ a, e = .selfReference a ∧ env.DependsOn a a := by
  induction fuel generalizing below b c with
  | zero => cases h
  | succ fuel ih =>
    rw [follow] at h
    split at h
    · rename_i hmem
      cases h
      exact ⟨c.address, rfl, hbelow _ (List.contains_iff_mem.1 hmem)⟩
    dsimp only at h
    split at h
    · cases h
    rcases bind_eq_error h with h | ⟨b₁, -, h⟩
    · obtain ⟨a, ha, b₁, hstep⟩ := foldlM_eq_error h
      have hreads : env.Reads c.address a := ⟨c, hc, ha⟩
      split at hstep
      · rename_i hself
        cases hstep
        exact ⟨a, rfl, .single (hself ▸ hreads)⟩
      obtain ⟨d, hd⟩ := Environment.isDeclared_iff.1 (henv.arguments _ c hc a ha)
      have haddress : d.address = a := henv.keyed a d hd
      rw [Environment.concept_of_find? hd] at hstep
      replace hstep : (follow env fuel (c.address :: below) b₁ d >>= fun b => pure (b.link c d)) = .error e := hstep
      rcases bind_eq_error hstep with hstep | ⟨b₂, -, hstep⟩
      · refine ih (henv.keyed.find?_address hd) (List.forall_mem_cons.2 ⟨?_, fun y hy => ?_⟩) hstep
        · exact .single (haddress ▸ hreads)
        · exact (hbelow y hy).tail (haddress ▸ hreads)
      · cases hstep
    · obtain ⟨a, ha, b₂, hstep⟩ := foldlM_eq_error h
      obtain ⟨d, hd⟩ := Environment.isDeclared_iff.1 (henv.pseudonyms _ c hc a ha)
      rw [hd] at hstep
      dsimp only at hstep
      split at hstep
      · cases hstep
      split at hstep
      · cases hstep
      · exact ih (henv.keyed.find?_address hd) (fun y hy => absurd hy List.not_mem_nil) hstep

/-- **where all that is named is declared, only a concept that depends on itself is refused** -/
theorem ofEnvironment_error (henv : env.Closed) {e : PlanningError} (h : ofEnvironment env = .error e) :
    ∃ a, e = .selfReference a ∧ env.DependsOn a a := by
  rcases bind_eq_error h with h | ⟨b, -, h⟩
  · obtain ⟨c, hc, b, hstep⟩ := foldlM_eq_error h
    exact follow_error henv (henv.keyed.find?_of_mem hc) (fun y hy => absurd hy List.not_mem_nil) hstep
  · obtain ⟨s, hs, g, hattach⟩ := foldlM_eq_error h
    obtain ⟨i, hi⟩ := SortedMap.mem_values.1 hs
    obtain ⟨a, ha, g', hstep⟩ := foldlM_eq_error hattach
    obtain ⟨d, hd⟩ := Environment.isDeclared_iff.1 (henv.columns i s hi a ha)
    rw [Environment.concept_of_find? hd] at hstep
    cases hstep

end ReferenceGraph

end SemanticPlanner
