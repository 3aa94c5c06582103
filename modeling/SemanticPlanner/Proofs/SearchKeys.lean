/-
Searches with one key are one search, and so a pass never hands out what was found for another one.

  SearchQuery        what is searched for: concepts, the acceptance of partial sources, a condition
  key_eq_iff         two keys are equal exactly if the searches are the same
  last_stored        what is found under a key was stored under it last
  handOut_asked      what is handed out for a search was stored last for the same one
  searches_told      the texts, the keys and the handouts together

The condition goes into the key as a text, which tells it where no float is written and every concept is addressed by
identifiers with dots between them. A key lists its concepts in order, without repetitions.
-/
import SemanticPlanner.Proofs.ConditionText
import SemanticPlanner.Proofs.Handouts

namespace SemanticPlanner

/-! ## Keys -/

/-- what is searched for -/
structure SearchQuery where
  concepts : List String
  acceptPartial : Bool
  condition : Option Condition

namespace SearchQuery

def key (q : SearchQuery) : SearchKey := .of q.concepts q.acceptPartial q.condition

/-- the condition is written without floats, and its concepts are addressed by identifiers with dots between them -/
def WellNamed (q : SearchQuery) : Prop := ∀ c ∈ q.condition, c.WellNamed

/-- the same concepts, in any order and number, the same acceptance, and the same condition -/
structure Same (q r : SearchQuery) : Prop where
  concepts : ∀ a, a ∈ q.concepts ↔ a ∈ r.concepts
  acceptPartial : q.acceptPartial = r.acceptPartial
  condition : q.condition = r.condition

variable {q r : SearchQuery}

theorem condition_inj {c d : Option Condition} (hc : ∀ x ∈ c, x.WellNamed) (hd : ∀ x ∈ d, x.WellNamed)
    (h : c.map Condition.display = d.map Condition.display) : c = d := by
  cases c with
  | none => exact (Option.map_eq_none_iff.1 h.symm).symm
  | some x =>
    cases d with
    | none => cases h
    | some y => rw [Condition.display_inj (hc x rfl) (hd y rfl) (Option.some.inj h)]

/-- **two keys are equal exactly if the searches are the same** -/
theorem key_eq_iff (hq : q.WellNamed) (hr : r.WellNamed) : q.key = r.key ↔ q.Same r := by
  constructor
  · intro h
    obtain ⟨hconcepts, hpartial, hcondition⟩ := SearchKey.mk.inj h
    refine ⟨fun a => ?_, hpartial, condition_inj hq hr hcondition⟩
    rw [← SortedSet.mem_ofList, hconcepts, SortedSet.mem_ofList]
  · intro h
    have hconcepts : SortedSet.ofList q.concepts = SortedSet.ofList r.concepts := by
      apply SortedSet.ext
      intro a
      rw [SortedSet.mem_ofList, SortedSet.mem_ofList, h.concepts]
    rw [key, key, SearchKey.of, SearchKey.of, hconcepts, h.acceptPartial, h.condition]

end SearchQuery

/-- what a request asks for; how deep it is nested does not matter to its key -/
def Request.query (r : Request) : SearchQuery := ⟨Concept.addresses r.concepts, r.acceptPartial, r.condition⟩

theorem Request.key_eq_iff {r r' : Request} (hr : r.query.WellNamed) (hr' : r'.query.WellNamed) :
    r.key = r'.key ↔ r.query.Same r'.query := SearchQuery.key_eq_iff hr hr'

/-! ## Tables -/

namespace Planner

variable {W : OutcomeTable → SearchKey → Prop} {p q s : Planner} {t : OutcomeTable} {key : SearchKey}
  {node kept found : Option PlanId}

/-- the arena is built, and no outcome is remembered -/
structure Fresh (p : Planner) : Prop where
  built : p.arena.Built
  outcomes : ∀ t : OutcomeTable, t.outcomes p = []

theorem Fresh.sealed (hp : p.Fresh) : p.Sealed := by
  refine ⟨hp.built, fun e he => ?_⟩
  obtain ⟨t, he⟩ := OutcomeTable.mem_remembered.1 he
  rw [hp.outcomes t] at he
  exact absurd he List.not_mem_nil

/-- nothing is stored under a key of a table -/
abbrev Spared (W : OutcomeTable → SearchKey → Prop) (t : OutcomeTable) (key : SearchKey) :
    OutcomeTable → SearchKey → Prop := fun t' key' => W t' key' ∧ ¬ (t' = t ∧ key' = key)

/-- a step stores under the key, or does not -/
theorem Step.spared_or_stores (h : Step W p q) (t : OutcomeTable) (key : SearchKey) :
    Step (Spared W t key) p q ∨ W t key ∧ ∃ node : Option PlanId, (∀ id ∈ node, p.arena.contains id = true) ∧
      q = t.stored key node p := by
  cases h with
  | edit h => exact Or.inl (.edit h)
  | @store t' key' node hw hid =>
    by_cases hkey : t' = t ∧ key' = key
    · obtain ⟨rfl, rfl⟩ := hkey
      exact Or.inr ⟨hw, node, hid, rfl⟩
    · exact Or.inl (.store ⟨hw, hkey⟩ hid)
  | handOut => exact Or.inl .handOut
  | start k => exact Or.inl (.start k)
  | finish k => exact Or.inl (.finish k)

/-- a node that was stored under a key, and what has happened since then -/
structure StoredLast (W : OutcomeTable → SearchKey → Prop) (t : OutcomeTable) (key : SearchKey) (p : Planner)
    (node : Option PlanId) (s : Planner) : Prop where
  allowed : W t key
  contains : ∀ id ∈ node, p.arena.contains id = true
  since : Steps (Spared W t key) (t.stored key node p) s

/-- **what is found under a key was stored under it last** -/
theorem last_stored (hp : p.Fresh) (h : Steps W p s)
    (hkept : List.lookup key (t.outcomes s) = some kept) :
    ∃ q node, Steps W p q ∧ StoredLast W t key q node s ∧ kept = (Outcomes.copyOf node q.arena).1 := by
  induction h with
  | refl =>
    rw [hp.outcomes t] at hkept
    cases hkept
  | @tail r s hr h ih =>
    rcases h.spared_or_stores t key with hspared | ⟨hw, node, hid, rfl⟩
    · rw [hspared.lookup fun hstores => hstores.2 ⟨rfl, rfl⟩] at hkept
      obtain ⟨q, node, hq, hlast, hname⟩ := ih hkept
      exact ⟨q, node, hq, ⟨hlast.allowed, hlast.contains, hlast.since.tail hspared⟩, hname⟩
    · rw [OutcomeTable.lookup_stored, if_pos ⟨rfl, rfl⟩] at hkept
      exact ⟨r, node, hr, ⟨hw, hid, .refl⟩, (Option.some.inj hkept).symm⟩

/-- outcomes are stored for searches that are well named -/
abbrev ForWellNamed (_ : OutcomeTable) (key : SearchKey) : Prop := ∃ r : SearchQuery, r.WellNamed ∧ r.key = key

/-- what is handed out for a search in the state `s`, after which the state is `s'`: at `p` a node was stored under its
key, and nothing since then. Whatever search it was stored for is the same one. What is handed out is a copy of the copy
that was kept, and where explicit joins name parents it resolves as the node did -/
structure Answers (q : SearchQuery) (t : OutcomeTable) (p : Planner) (node : Option PlanId) (s s' : Planner)
    (found : Option PlanId) : Prop where
  last : StoredLast ForWellNamed t q.key p node s
  same : ∀ r : SearchQuery, r.WellNamed → r.key = q.key → r.Same q
  copied : found = (Outcomes.copyOf (Outcomes.copyOf node p.arena).1 s.arena).1
  handedOut : (∀ id ∈ node, p.arena.JoinsBelow id) → Option.Rel (HandedOut p.arena s s') node found

theorem Steps.mono {V : OutcomeTable → SearchKey → Prop} (hV : ∀ t key, W t key → V t key) (h : Steps W p q) :
    Steps V p q := by
  have hstep : ∀ p q, Step W p q → Step V p q := by
    intro p q h
    cases h with
    | edit h => exact .edit h
    | store hw hid => exact .store (hV _ _ hw) hid
    | handOut => exact .handOut
    | start k => exact .start k
    | finish k => exact .finish k
  exact Relation.ReflTransGen.mono hstep p q h

/-- **what is handed out for a search was stored last for the same one** -/
theorem handOut_asked {q : SearchQuery} (hp : p.Fresh) (hs : Steps ForWellNamed p s) (hq : q.WellNamed)
    (t : OutcomeTable) :
    (t.handOut q.key).run s = (.ok none, s) ∨
    ∃ r node found s', Steps ForWellNamed p r ∧ (t.handOut q.key).run s = (.ok (some found), s') ∧
      Answers q t r node s s' found := by
  cases hlookup : List.lookup q.key (t.outcomes s) with
  | none =>
    left
    rw [OutcomeTable.run_handOut]
    simp only [Outcomes.lookUp, hlookup]
    rfl
  | some kept =>
    right
    obtain ⟨r, node, hr, hlast, rfl⟩ := last_stored hp hs hlookup
    have hsame : ∀ r : SearchQuery, r.WellNamed → r.key = q.key → r.Same q := by
      intro r hr hkey
      exact (SearchQuery.key_eq_iff hr hq).1 hkey
    have hrun : (t.handOut q.key).run s = (.ok (some (Outcomes.copyOf (Outcomes.copyOf node r.arena).1 s.arena).1),
        s.withArena (Outcomes.copyOf (Outcomes.copyOf node r.arena).1 s.arena).2) := by
      rw [OutcomeTable.run_handOut]
      simp only [Outcomes.lookUp, hlookup]
    refine ⟨r, node, _, _, hr, hrun, hlast, hsame, rfl, fun hj => ?_⟩
    have hsince := Steps.mono (fun _ _ h => h.2) hlast.since
    obtain ⟨found, s', hrun', hout⟩ :=
      handOut_stored (Steps.sealed hp.sealed hr) (fun id hid => ⟨hlast.contains id hid, hj id hid⟩) hsince
    rw [hrun] at hrun'
    obtain ⟨hfound, rfl⟩ := Prod.mk.inj hrun'
    injection hfound with hfound
    rw [Option.some.inj hfound]
    exact hout

end Planner

open Planner

/--
**Searches are told by their keys.** Conditions without floats, whose concepts are addressed by identifiers with dots
between them, are the same if their texts are. So the keys of searches with such conditions are equal exactly if the
sets of concepts, the acceptances of partial sources and the conditions are. And a pass that stores outcomes for such
searches only, whatever else is done to it, finds for a search either nothing or what was stored last for the same one.
-/
theorem searches_told :
    (∀ c d : Condition, c.WellNamed → d.WellNamed → c.display = d.display → c = d) ∧
    (∀ q r : SearchQuery, q.WellNamed → r.WellNamed → (q.key = r.key ↔ q.Same r)) ∧
    ∀ p : Planner, p.Fresh → ∀ s, Steps ForWellNamed p s → ∀ q : SearchQuery, q.WellNamed → ∀ t : OutcomeTable,
      (t.handOut q.key).run s = (.ok none, s) ∨
      ∃ r node found s', Steps ForWellNamed p r ∧ (t.handOut q.key).run s = (.ok (some found), s') ∧
        Answers q t r node s s' found := by
  refine ⟨?_, ?_, ?_⟩
  · intro c d hc hd h
    exact Condition.display_inj hc hd h
  · intro q r hq hr
    exact SearchQuery.key_eq_iff hq hr
  · intro p hp s hs q hq t
    exact handOut_asked hp hs hq t

/-- a text that reads like the rest of a condition -/
def quotedTest : Condition :=
  .comparison (.concept "local.a") .is (.literal (.text "not null' and (local.a is 'b"))

/-- the condition that it reads like -/
def unquotedTest : Condition :=
  .and (.comparison (.concept "local.a") .is (.literal (.text "not null")))
    (.comparison (.concept "local.a") .is (.literal (.text "b")))

theorem wellNamed_quotedTest : quotedTest.WellNamed := by
  refine ⟨⟨trivial, nofun⟩, fun a ha => ?_⟩
  obtain rfl := List.mem_singleton.1 ha
  simp [Address.IsDotted, Address.segments, Text.splitAt, Text.splitChar, Address.IsIdentifier, Address.isWordChar]

theorem wellNamed_unquotedTest : unquotedTest.WellNamed := by
  refine ⟨⟨⟨trivial, nofun⟩, ⟨trivial, nofun⟩⟩, fun a ha => ?_⟩
  obtain rfl := List.mem_singleton.1 ha
  simp [Address.IsDotted, Address.segments, Text.splitAt, Text.splitChar, Address.IsIdentifier, Address.isWordChar]

/-- two concepts on a condition -/
def searchOn (c : Condition) (concepts : List String) : SearchQuery := ⟨concepts, false, some c⟩

theorem wellNamed_searchOn {c : Condition} (hc : c.WellNamed) (concepts : List String) :
    (searchOn c concepts).WellNamed := by
  rintro d ⟨⟩
  exact hc

/-- the pass that has made a constant, and has stored it for the first search -/
def storedQuoted : Planner :=
  OutcomeTable.searches.stored (searchOn quotedTest ["local.a", "local.b"]).key (some ⟨0⟩) madeConstant

/-- the concepts may be asked for in any order and number, but not on the other condition, whose text is another one -/
theorem searches_told_quoted :
    quotedTest.display ≠ unquotedTest.display ∧
    (searchOn quotedTest ["local.a", "local.b"]).key = (searchOn quotedTest ["local.b", "local.a", "local.b"]).key ∧
    (searchOn quotedTest ["local.a", "local.b"]).key ≠ (searchOn unquotedTest ["local.a", "local.b"]).key ∧
    ∃ r node found s', Steps ForWellNamed madeConstant r ∧
      (OutcomeTable.searches.handOut (searchOn quotedTest ["local.b", "local.a", "local.b"]).key).run storedQuoted =
        (.ok (some found), s') ∧
      Answers (searchOn quotedTest ["local.b", "local.a", "local.b"]) .searches r node storedQuoted s' found := by
  obtain ⟨htexts, hkeys, hpass⟩ := searches_told
  have hquoted := wellNamed_searchOn wellNamed_quotedTest
  have hsame : (searchOn quotedTest ["local.a", "local.b"]).key =
      (searchOn quotedTest ["local.b", "local.a", "local.b"]).key := by
    refine (hkeys _ _ (hquoted _) (hquoted _)).2 ⟨fun a => ?_, rfl, rfl⟩
    simp only [searchOn, List.mem_cons, List.not_mem_nil, or_false]
    tauto
  have hfresh : madeConstant.Fresh := ⟨running_madeConstant.sealed.built, fun t => by cases t <;> rfl⟩
  have hsteps : Steps ForWellNamed madeConstant storedQuoted := by
    refine .single (.store ⟨_, hquoted _, rfl⟩ ?_)
    rintro id ⟨⟩
    decide
  refine ⟨fun h => ?_, hsame, fun h => ?_, ?_⟩
  · have hconditions := htexts _ _ wellNamed_quotedTest wellNamed_unquotedTest h
    cases hconditions
  · have hsearches := (hkeys _ _ (hquoted _) (wellNamed_searchOn wellNamed_unquotedTest _)).1 h
    cases hsearches.condition
  · refine (hpass madeConstant hfresh storedQuoted hsteps _ (hquoted _) .searches).resolve_left fun hnone => ?_
    rw [OutcomeTable.run_handOut, ← hsame] at hnone
    have hfound := (Prod.mk.inj hnone).1
    simp [Outcomes.lookUp, storedQuoted, OutcomeTable.lookup_stored] at hfound

end SemanticPlanner
