/-
Lineage that leads back to itself.

  Detour                 a way from a concept back to itself on which a pseudonym is followed
  Settled                a concept on no cycle of lineage, or on one from which a detour starts
  Trail                  the concepts that are followed at a moment, from the last to the first
  Trail.detour           a concept met again through lineage, but not among those below, is the start of a detour
  Follows.settles        every concept that is followed to its end is settled
  ofEnvironment_refuses  a graph is refused only for a cycle of lineage, and for each one without a detour
  costs_built            a cycle with a detour that is not refused

The concepts below are forgotten where a pseudonym is followed. A cycle that is closed behind such a step finds its
first concept seen and not below, and so passes for one that was followed before.
-/
import SemanticPlanner.Proofs.Following
import Mathlib.Data.List.Chain

namespace SemanticPlanner

variable {env : Environment} {a x : String} {c d : Concept} {below trail way l : List String}

namespace Environment

/-! ## Detours -/

/-- a concept has another one as an argument or as a pseudonym -/
def Refers (env : Environment) (a x : String) : Prop := env.Reads a x ∨ x ∈ env.pseudonyms a

/-- A way from a concept back to itself, the concepts met on it in their order. It meets none of them twice, starts and
ends with a step to an argument, and takes a step to a pseudonym that is no argument. -/
structure Detour (env : Environment) (a : String) (way : List String) : Prop where
  distinct : (a :: way).Nodup
  refers : (a :: way).IsChain env.Refers
  starts : ∃ y, way.head? = some y ∧ env.Reads a y
  returns : ∃ z, way.getLast? = some z ∧ env.Reads z a
  strays : ¬ (a :: way).IsChain env.Reads

/-- if a concept depends on itself, a detour starts from some concept of its cycle -/
def Settled (env : Environment) (a : String) : Prop :=
  env.DependsOn a a → ∃ v way, env.DependsOn a v ∧ env.DependsOn v a ∧ env.Detour v way

/-- a concept is settled when its arguments are, as a cycle goes through one of them -/
theorem Settled.of_arguments (h : ∀ x, env.Reads a x → env.Settled x) : env.Settled a := by
  intro hcycle
  obtain ⟨x, hreads, hback⟩ := Relation.TransGen.head'_iff.1 hcycle
  obtain ⟨v, way, hxv, hvx, hdetour⟩ := h x hreads (Relation.TransGen.tail' hback hreads)
  exact ⟨v, way, hxv.head hreads, hvx.trans_left hback, hdetour⟩

/-- a detour ends with what pseudonyms lead to -/
theorem Detour.leads_back {P : String → Prop} (h : env.Detour a way) (hpseud : ∀ y, ∀ x ∈ env.pseudonyms y, P x)
    (hstep : ∀ y x, P y → env.Refers y x → P x) : ∃ z, P z ∧ env.Reads z a := by
  by_contra hnone
  push Not at hnone
  obtain ⟨z, hz, hreads⟩ := h.returns
  have hlast : ∀ y, (a :: way).getLast? = some y → ¬ P y := by
    intro y hy hP
    rw [List.getLast?_cons, hz] at hy
    cases hy
    exact hnone z hP hreads
  refine h.strays ?_
  have hchain := h.refers
  generalize a :: way = l at hchain hlast
  suffices l.IsChain env.Reads ∧ ∀ y, l.head? = some y → ¬ P y from this.1
  -- from the end: what is followed by something outside `P` is outside of it, and so reads it
  induction l with
  | nil => exact ⟨.nil, fun y hy => by cases hy⟩
  | cons y l ih =>
    cases l with
    | nil => exact ⟨.singleton y, fun x hx => hlast x hx⟩
    | cons x l =>
      obtain ⟨hyx, hchain⟩ := List.isChain_cons_cons.1 hchain
      obtain ⟨hreads, hfirst⟩ := ih hchain fun x hx => hlast x (by rw [List.getLast?_cons_cons, hx])
      have hx : ¬ P x := hfirst x rfl
      refine ⟨.cons_cons (hyx.resolve_right fun h => hx (hpseud y x h)) hreads, ?_⟩
      rintro w hw hP
      cases hw
      exact hx (hstep y x hP hyx)

end Environment

namespace ReferenceGraph

/-! ## The concepts that are being followed -/

/-- a step of a trail, the later concept first: to an argument, or from a settled concept to a pseudonym -/
def Continues (env : Environment) (x a : String) : Prop := env.Reads a x ∨ env.Settled a ∧ x ∈ env.pseudonyms a

theorem Continues.refers (h : Continues env x a) : env.Refers a x := h.imp_right And.right

/-- the concepts that led to `a`, the last first: those below it, and those hidden by a step to a pseudonym -/
structure Trail (env : Environment) (below trail : List String) (a : String) : Prop where
  distinct : (a :: trail).Nodup
  steps : (a :: trail).IsChain (Continues env)
  hidden : ∃ hidden, trail = below ++ hidden ∧
    ∀ q, (a :: below).getLast? = some q → ∀ p, hidden.head? = some p → ¬ env.Reads p q

namespace Trail

theorem start (env : Environment) (a : String) : Trail env [] [] a :=
  ⟨List.nodup_singleton a, List.isChain_singleton a, [], rfl, fun _ _ _ h => by cases h⟩

theorem argument (h : Trail env below trail a) (hx : env.Reads a x) (hnew : x ∉ a :: trail) :
    Trail env (a :: below) (a :: trail) x := by
  obtain ⟨hidden, rfl, hstray⟩ := h.hidden
  refine ⟨List.nodup_cons.2 ⟨hnew, h.distinct⟩, .cons_cons (Or.inl hx) h.steps, hidden, rfl, fun q hq => hstray q ?_⟩
  rw [← hq, List.getLast?_cons_cons]

theorem pseudonym (h : Trail env below trail a) (ha : env.Settled a) (hx : x ∈ env.pseudonyms a)
    (hnot : ¬ env.Reads a x) (hnew : x ∉ a :: trail) : Trail env [] (a :: trail) x := by
  refine ⟨List.nodup_cons.2 ⟨hnew, h.distinct⟩, .cons_cons (Or.inr ⟨ha, hx⟩) h.steps, a :: trail, rfl, ?_⟩
  rintro q hq p hp
  cases hq
  cases hp
  exact hnot

/-- **a concept met again through lineage, but not among those below, is the start of a detour** -/
theorem detour {z : String} (h : Trail env below trail z) (ha : a ∈ trail) (hbelow : a ∉ below) (hz : env.Reads z a)
    (hopen : ¬ env.Settled a) : ∃ way, env.Detour a way := by
  obtain ⟨l, r, rfl⟩ := List.append_of_mem ha
  obtain ⟨hidden, hsplit, hstray⟩ := h.hidden
  -- the way goes along the trail in the other direction
  have hway : a :: (z :: l).reverse = ((z :: l) ++ [a]).reverse := by rw [List.reverse_append]; rfl
  have htrail : z :: (l ++ a :: r) = (z :: l ++ [a]) ++ r := by simp
  obtain ⟨-, -, hturn⟩ := List.isChain_append.1 (show ((z :: l) ++ a :: r).IsChain (Continues env) from h.steps)
  have hlast : ∀ l : List String, (z :: l).getLast? = some ((z :: l).getLast (List.cons_ne_nil z l)) := fun l =>
    List.getLast?_eq_some_getLast _
  refine ⟨(z :: l).reverse, ⟨?_, ?_, ?_, ?_, ?_⟩⟩
  · rw [hway, List.nodup_reverse]
    exact (List.nodup_append.1 (htrail ▸ h.distinct)).1
  · rw [hway, List.isChain_reverse]
    exact (List.IsChain.left_of_append (htrail ▸ h.steps)).imp fun _ _ hstep => hstep.refers
  · rw [List.head?_reverse]
    exact ⟨_, hlast l, (hturn _ (hlast l) a rfl).resolve_right fun hsettled => hopen hsettled.1⟩
  · exact ⟨z, by rw [List.getLast?_reverse]; rfl, hz⟩
  · -- the step that hid `a` was taken between it and `z`
    rw [hway, List.isChain_reverse]
    intro hreads
    obtain ⟨m, rfl, rfl⟩ : ∃ m, l = below ++ m ∧ hidden = m ++ a :: r := by
      rcases List.append_eq_append_iff.1 hsplit with ⟨m, rfl, hm⟩ | hm
      · cases m with
        | nil => exact ⟨[], by simp, hm.symm⟩
        | cons y m =>
          cases hm
          exact absurd (List.mem_append_right l List.mem_cons_self) hbelow
      · exact hm
    rw [show z :: (below ++ m) ++ [a] = (z :: below) ++ (m ++ [a]) by simp] at hreads
    obtain ⟨p, hp⟩ : ∃ p, (m ++ [a]).head? = some p := by cases m <;> exact ⟨_, rfl⟩
    refine hstray _ (hlast below) p ?_ ((List.isChain_append.1 hreads).2.2 _ (hlast below) p hp)
    cases m <;> exact hp

end Trail

/-! ## Following settles -/

/-- the concepts seen are settled, except for those that are being followed -/
structure Open (env : Environment) (trail : List String) (b : Draft) : Prop where
  settled : ∀ a c, env.find? a = some c → b.Sees c → env.Settled a ∨ a ∈ trail
  sees : ∀ a ∈ trail, ∃ c, env.find? a = some c ∧ b.Sees c

/-- what is seen between two states is settled -/
def Settles (env : Environment) (b b' : Draft) : Prop :=
  ∀ a c, env.find? a = some c → b'.Sees c → b.Sees c ∨ env.Settled a

variable {t : Task} {b b' b₁ b₂ : Draft}

theorem Settles.trans (h : Settles env b b₁) (h' : Settles env b₁ b₂) : Settles env b b₂ := fun a c hc hsees =>
  (h' a c hc hsees).elim (h a c hc) Or.inr

/-- a concept is seen as soon as it is entered, so it has to be settled itself -/
theorem Settles.of_entered (hk : env.Keyed) (hc : env.find? c.address = some c) (h : Settles env (b.enter c) b')
    (hsettled : env.Settled c.address) : Settles env b b' := by
  intro a d hd hsees
  rcases h a d hd hsees with hsees | hdone
  · rcases Draft.eq_or_sees_of_enter hk hc hd hsees with rfl | hsees
    · exact Or.inr (hk a d hd ▸ hsettled)
    · exact Or.inl hsees
  · exact Or.inr hdone

namespace Open

theorem step (h : Open env trail b) (hnew : Settles env b b') (hkeeps : ∀ n ∈ b.seen, n ∈ b'.seen) :
    Open env trail b' := by
  refine ⟨fun a c hc hsees => ?_, fun a ha => ?_⟩
  · exact (hnew a c hc hsees).elim (h.settled a c hc) Or.inl
  · obtain ⟨c, hc, hsees⟩ := h.sees a ha
    exact ⟨c, hc, hkeeps _ hsees⟩

theorem enter (hk : env.Keyed) (h : Open env trail b) (hc : env.find? c.address = some c) :
    Open env (c.address :: trail) (b.enter c) := by
  refine ⟨fun a d hd hsees => ?_, List.forall_mem_cons.2 ⟨⟨c, hc, SortedSet.mem_insert.2 (Or.inl rfl)⟩, fun a ha => ?_⟩⟩
  · rcases Draft.eq_or_sees_of_enter hk hc hd hsees with rfl | hsees
    · exact Or.inr (hk a d hd ▸ List.mem_cons_self)
    · exact (h.settled a d hd hsees).imp_right (List.mem_cons_of_mem _)
  · obtain ⟨d, hd, hsees⟩ := h.sees a ha
    exact ⟨d, hd, SortedSet.mem_insert.2 (Or.inr hsees)⟩

theorem link (h : Open env trail b) : Open env trail (b.link c d) := ⟨h.settled, h.sees⟩

theorem join (h : Open env trail b) : Open env trail (b.join c d) := ⟨h.settled, h.sees⟩

/-- a concept that is not seen is not being followed -/
theorem not_mem (h : Open env trail b) (hd : env.find? a = some d) (hnew : ¬ b.Sees d) : a ∉ trail := by
  intro ha
  obtain ⟨e, he, hsees⟩ := h.sees a ha
  obtain rfl := Option.some.inj (hd.symm.trans he)
  exact hnew hsees

/-- an argument that was seen before is settled, or it is met again on the trail -/
theorem settled_of_argument (h : Open env (c.address :: trail) b) (htrail : Trail env below trail c.address)
    (hreads : env.Reads c.address a) (hne : a ≠ c.address) (hbelow : a ∉ below) (hd : env.find? a = some d)
    (hsees : b.Sees d) : env.Settled a := by
  by_contra hunsettled
  have hmem : a ∈ c.address :: trail := (h.settled a d hd hsees).resolve_left hunsettled
  obtain ⟨way, hdetour⟩ := htrail.detour ((List.mem_cons.1 hmem).resolve_left hne) hbelow hreads hunsettled
  exact hunsettled fun hcycle => ⟨a, way, hcycle, hcycle, hdetour⟩

end Open

/-- what a task is started with -/
def Task.Ready (env : Environment) (trail : List String) (b : Draft) : Task → Prop
  | .concept below c => env.find? c.address = some c ∧ Open env trail b ∧
      (¬ b.Sees c → Trail env below trail c.address)
  | .arguments below c l => env.find? c.address = some c ∧ Open env (c.address :: trail) b ∧
      Trail env below trail c.address ∧ ∀ x ∈ l, x ∈ c.arguments
  | .pseudonyms c l => env.find? c.address = some c ∧ Open env (c.address :: trail) b ∧
      (∃ below, Trail env below trail c.address) ∧ env.Settled c.address ∧
      (∀ x ∈ c.arguments, ∀ d, env.find? x = some d → b.Sees d) ∧ ∀ x ∈ l, x ∈ c.pseudonyms
  | .concepts cs => Open env trail b ∧ trail = [] ∧ ∀ c ∈ cs, env.find? c.address = some c

/-- what a task ends with: all that was seen on the way is settled, and so is each argument -/
def Task.Settled (env : Environment) (b b' : Draft) : Task → Prop
  | .arguments _ _ l => Settles env b b' ∧ ∀ x ∈ l, env.Settled x
  | _ => Settles env b b'

theorem Follows.not_mem_below {c : Concept} (h : Follows env (.concept below c) b b') : c.address ∉ below := by
  cases h with
  | seen hbelow _ => exact hbelow
  | entered hbelow _ _ _ => exact hbelow

/-- **every concept that is followed to its end is settled** -/
theorem Follows.settles (hk : env.Keyed) (h : Follows env t b b') {trail : List String} (ht : t.Ready env trail b) :
    t.Settled env b b' := by
  induction h generalizing trail with
  | seen | noPseudonym | noConcept => exact fun _ _ _ hsees => Or.inl hsees
  | noArgument => exact ⟨fun _ _ _ hsees => Or.inl hsees, fun _ h => absurd h List.not_mem_nil⟩
  | @entered below c b b₁ b₂ hbelow hnew hargs hpseud ih₁ ih₂ =>
    obtain ⟨hc, hopen, htrail⟩ := ht
    have hentered := hopen.enter hk hc
    obtain ⟨hsettles, harguments⟩ := ih₁ ⟨hc, hentered, htrail hnew, fun _ h => h⟩
    have hsettled : env.Settled c.address := .of_arguments fun x hreads => by
      obtain ⟨e, he, hx⟩ := hreads
      obtain rfl := Option.some.inj (hc.symm.trans he)
      exact harguments x hx
    have hrest := ih₂ ⟨hc, hentered.step hsettles hargs.keeps, ⟨below, htrail hnew⟩, hsettled, hargs.visits,
      fun _ h => h⟩
    exact (hsettles.trans hrest).of_entered hk hc hsettled
  | @argument below c d a l b b₁ b₂ hne hd hfollow hrest ih₁ ih₂ =>
    obtain ⟨hc, hopen, htrail, hl⟩ := ht
    obtain ⟨ha, hl⟩ := List.forall_mem_cons.1 hl
    have hda := hk.find?_address hd
    have haddress : d.address = a := hk a d hd
    have hreads : env.Reads c.address a := ⟨c, hc, ha⟩
    have hfirst : Settles env b b₁ := ih₁ ⟨hda, hopen, fun hnew =>
      haddress ▸ htrail.argument hreads (haddress ▸ hopen.not_mem hda hnew)⟩
    have hbelow : a ∉ c.address :: below := haddress ▸ hfollow.not_mem_below
    have hsettled : env.Settled a := (hfirst a d hd hfollow.visits).elim
      (hopen.settled_of_argument htrail hreads hne (List.not_mem_of_not_mem_cons hbelow) hd) id
    obtain ⟨hsecond, hothers⟩ := ih₂ ⟨hc, (hopen.step hfirst hfollow.keeps).link, htrail, hl⟩
    exact ⟨hfirst.trans hsecond, List.forall_mem_cons.2 ⟨hsettled, hothers⟩⟩
  | passed _ _ _ ih =>
    obtain ⟨hc, hopen, htrail, hsettled, hseen, hl⟩ := ht
    exact ih ⟨hc, hopen, htrail, hsettled, hseen, (List.forall_mem_cons.1 hl).2⟩
  | @pseudonym c d a l b b₁ b₂ hd hne hfollow hrest ih₁ ih₂ =>
    obtain ⟨hc, hopen, ⟨below, htrail⟩, hsettled, hseen, hl⟩ := ht
    obtain ⟨ha, hl⟩ := List.forall_mem_cons.1 hl
    have hda := hk.find?_address hd
    have haddress : d.address = a := hk a d hd
    have hfirst : Settles env b b₁ := ih₁ ⟨hda, hopen.join, fun hnew => by
      refine htrail.pseudonym hsettled (haddress ▸ (Environment.mem_pseudonyms hc).2 ha) (fun hreads => ?_)
        (hopen.not_mem hda hnew)
      obtain ⟨e, he, hx⟩ := hreads
      obtain rfl := Option.some.inj (hc.symm.trans he)
      exact hnew (hseen _ hx d hda)⟩
    exact hfirst.trans (ih₂ ⟨hc, hopen.step hfirst hfollow.keeps, ⟨below, htrail⟩, hsettled,
      fun x hx e he => hfollow.keeps _ (hseen x hx e he), hl⟩)
  | @next c cs b b₁ b₂ hfollow hrest ih₁ ih₂ =>
    obtain ⟨hopen, rfl, hcs⟩ := ht
    obtain ⟨hc, hcs⟩ := List.forall_mem_cons.1 hcs
    have hfirst : Settles env b b₁ := ih₁ ⟨hc, hopen, fun _ => .start env c.address⟩
    exact hfirst.trans (ih₂ ⟨hopen.step hfirst hfollow.keeps, rfl, hcs⟩)

/-- **A graph is refused only for a cycle of lineage, and for each one without a detour.** If nothing is refused, the
graph is built. -/
theorem ofEnvironment_refuses (henv : env.Closed) :
    ((∃ g, ofEnvironment env = .ok g) ∨ ∃ a, ofEnvironment env = .error (.selfReference a) ∧ env.DependsOn a a) ∧
    ((∃ a, env.DependsOn a a ∧ ∀ v way, env.DependsOn a v → env.DependsOn v a → ¬ env.Detour v way) →
      ∃ a, ofEnvironment env = .error (.selfReference a)) := by
  cases h : ofEnvironment env with
  | error e =>
    obtain ⟨a, rfl, hcycle⟩ := ofEnvironment_error henv h
    exact ⟨Or.inr ⟨a, rfl, hcycle⟩, fun _ => ⟨a, rfl⟩⟩
  | ok g =>
    refine ⟨Or.inl ⟨g, rfl⟩, fun ⟨a, hcycle, hnone⟩ => ?_⟩
    obtain ⟨b, hfollows, -⟩ := built_of_ofEnvironment henv.keyed h
    have hblank : Open env [] .blank :=
      ⟨fun _ _ _ hsees => absurd hsees (SortedSet.not_mem_empty _), fun _ h => absurd h List.not_mem_nil⟩
    have hsettles : Settles env .blank b :=
      hfollows.settles henv.keyed ⟨hblank, rfl, fun c hc => henv.keyed.find?_of_mem hc⟩
    obtain ⟨x, ⟨c, hc, -⟩, -⟩ := Relation.TransGen.head'_iff.1 hcycle
    obtain ⟨v, way, hav, hva, hdetour⟩ := ((hsettles a c hc (hfollows.visits c (SortedMap.mem_values.2 ⟨a, hc⟩))
      ).resolve_left (SortedSet.not_mem_empty _)) hcycle
    exact absurd hdetour (hnone v way hav hva)

/-- a sum of other concepts -/
def sumOf (name : String) (args : List String) : Concept :=
  .derived name .integer .property (.function ⟨.add, args.map .concept⟩) Grain.single .multiRow

/-- net and gross amounts, each computed from the other one and a tax, which is also called a levy -/
def amounts : Environment :=
  (((((Environment.empty.add (.key "tax" .integer)).add (.key "levy" .integer)).addPseudonym "local.tax" "local.levy"
    ).addPseudonym "local.levy" "local.tax").add (sumOf "net" ["local.gross", "local.tax"])).add
    (sumOf "gross" ["local.net", "local.tax"])

/-- the pseudonyms next to a cycle do not lead back to it, so it is refused -/
theorem ofEnvironment_refuses_amounts : amounts.Closed ∧ amounts.DependsOn "local.net" "local.net" ∧
    ∃ a, ofEnvironment amounts = .error (.selfReference a) := by
  have hclosed : amounts.Closed := by decide
  have hnet : amounts.Reads "local.net" "local.gross" := ⟨sumOf "net" ["local.gross", "local.tax"], rfl, by decide⟩
  have hgross : amounts.Reads "local.gross" "local.net" := ⟨sumOf "gross" ["local.net", "local.tax"], rfl, by decide⟩
  have hcycle : amounts.DependsOn "local.net" "local.net" := .tail (.single hnet) hgross
  let P : String → Prop := fun x => x ∈ ["local.tax", "local.levy"]
  have hpseud : ∀ y, ∀ x ∈ amounts.pseudonyms y, P x := by
    intro y x hx
    have hentries : ∀ e ∈ amounts.concepts.toList, ∀ x ∈ e.2.pseudonyms.toList, x ∈ ["local.tax", "local.levy"] := by
      decide
    cases hc : amounts.find? y with
    | none => simp [Environment.pseudonyms, hc] at hx
    | some c => exact hentries (y, c) (SortedMap.get?_eq_some_iff.1 hc) x ((Environment.mem_pseudonyms hc).1 hx)
  have hreads : ∀ y x, P y → ¬ amounts.Reads y x := by
    rintro y x hy ⟨c, hc, hx⟩
    have hentries : ∀ e ∈ amounts.concepts.toList, e.1 ∈ ["local.tax", "local.levy"] → e.2.arguments = [] := by decide
    rw [hentries (y, c) (SortedMap.get?_eq_some_iff.1 hc) hy] at hx
    cases hx
  refine ⟨hclosed, hcycle, (ofEnvironment_refuses hclosed).2 ⟨_, hcycle, fun v way _ _ hdetour => ?_⟩⟩
  obtain ⟨z, hz, hback⟩ := hdetour.leads_back hpseud fun y x hy hrefers =>
    hrefers.elim (fun h => absurd h (hreads y x hy)) (hpseud y x)
  exact hreads z v hz hback

/-- a cost computed from a price and a margin, and the margin from the cost; the margin is also called a price -/
def costs : Environment :=
  ((((Environment.empty.add (.key "price" .integer)).add (sumOf "margin" ["local.cost"])).addPseudonym "local.margin"
    "local.price").addPseudonym "local.price" "local.margin").add (sumOf "cost" ["local.price", "local.margin"])

/-- the margin is first met as a pseudonym of the price, where nothing tells that the cost is being followed -/
theorem costs_built : costs.Closed ∧ costs.DependsOn "local.cost" "local.cost" ∧ ∃ g, ofEnvironment costs = .ok g := by
  have hcost : costs.Reads "local.cost" "local.margin" :=
    ⟨sumOf "cost" ["local.price", "local.margin"], rfl, by decide⟩
  have hmargin : costs.Reads "local.margin" "local.cost" :=
    ⟨{ sumOf "margin" ["local.cost"] with pseudonyms := SortedSet.ofList ["local.price"] }, rfl, by decide⟩
  exact ⟨by decide, .tail (.single hcost) hmargin, _, rfl⟩

end ReferenceGraph

end SemanticPlanner
