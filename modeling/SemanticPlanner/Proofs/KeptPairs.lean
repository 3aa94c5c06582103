/-
The pairs that a join keeps.

  Rides             a property of a pair whose own keys all join on its side
  mem_reducePairs   a pair is kept exactly if it rides on neither side
  dropped_of_key    a pair with a key on one side is dropped only for its other side
  reducePairs_keyed the keys for which a pair is dropped are kept, if no key is joined with a property that rides
  keys_dropped      pairs that are dropped for the sake of each other

The keys are taken from all pairs before any is dropped. A pair that brings a key on one side can itself be dropped for
the property on its other side, and then the key that others were dropped for is no longer joined.
-/
import SemanticPlanner.Proofs.JoinPairs

namespace SemanticPlanner.NodeJoins

/-! ## Sides -/

inductive Side where
  | left
  | right
deriving DecidableEq, Repr

namespace Side

/-- the concept on a side of a pair -/
def concept : Side → ConceptPair → String
  | left => ConceptPair.left
  | right => ConceptPair.right

def other : Side → Side
  | left => right
  | right => left

theorem eq_or_eq_other (side t : Side) : t = side ∨ t = side.other := by
  cases side <;> cases t <;> simp [other]

end Side

variable {env : Environment} {pairs : List ConceptPair} {p q : ConceptPair} {side : Side} {a k : String}

/-! ## Properties that ride on their keys -/

/-- a property with keys of its own, all of which have something in common -/
def KeyedBy (env : Environment) (a : String) (P : String → Prop) : Prop :=
  ∃ c, env.find? a = some c ∧ c.purpose = .property ∧ (∃ k, k ∈ c.keys) ∧ ∀ k ∈ c.keys, P k

theorem KeyedBy.mono {P Q : String → Prop} (h : KeyedBy env a P) (hPQ : ∀ k, P k → Q k) : KeyedBy env a Q := by
  obtain ⟨c, hc, hproperty, hkeys, hall⟩ := h
  exact ⟨c, hc, hproperty, hkeys, fun k hk => hPQ k (hall k hk)⟩

/-- one of the keys has what they have in common -/
theorem KeyedBy.exists_key {P : String → Prop} (h : KeyedBy env a P) : ∃ k, P k := by
  obtain ⟨c, -, -, ⟨k, hk⟩, hall⟩ := h
  exact ⟨k, hall k hk⟩

theorem KeyedBy.purpose {P : String → Prop} (h : KeyedBy env a P) : purposeOf env a = some .property := by
  obtain ⟨c, hc, hproperty, -⟩ := h
  simp [purposeOf, hc, hproperty]

/-- the concept is a key, and a pair has it on the side -/
def JoinsOn (env : Environment) (pairs : List ConceptPair) (side : Side) (k : String) : Prop :=
  purposeOf env k = some .key ∧ ∃ q ∈ pairs, side.concept q = k

/-- a pair with a property on the side whose own keys all join on this side -/
def Rides (env : Environment) (pairs : List ConceptPair) (side : Side) (p : ConceptPair) : Prop :=
  KeyedBy env (side.concept p) (JoinsOn env pairs side)

/-- a property with keys of its own, all of which are on the side of kept pairs -/
def Justified (env : Environment) (kept : List ConceptPair) (side : Side) (p : ConceptPair) : Prop :=
  KeyedBy env (side.concept p) fun k => ∃ q ∈ kept, side.concept q = k

theorem Rides.purpose (h : Rides env pairs side p) : purposeOf env (side.concept p) = some .property := KeyedBy.purpose h

/-- a key does not ride -/
theorem not_rides_of_key (h : purposeOf env (side.concept p) = some .key) : ¬ Rides env pairs side p := by
  intro hrides
  rw [hrides.purpose] at h
  cases h

theorem covered_iff {names : List String} : covered env a (keysAmong env names) = true ↔
    KeyedBy env a fun k => purposeOf env k = some .key ∧ k ∈ names := by
  cases hc : env.find? a with
  | none => simp [covered, KeyedBy, purposeOf, hc]
  | some c =>
    have hne : c.keys.isEmpty = false ↔ ∃ k, k ∈ c.keys := by
      rw [← Bool.not_eq_true, SortedSet.isEmpty_iff, not_forall_not]
    simp [covered, KeyedBy, purposeOf, hc, hne, SortedSet.isSubset_iff, mem_keysAmong, and_assoc, and_comm]

theorem covered_side_iff : covered env (side.concept p) (keysAmong env (pairs.map side.concept)) = true ↔
    Rides env pairs side p := by
  simp only [covered_iff, List.mem_map]
  rfl

/-! ## What is kept -/

/-- **a pair is kept exactly if it rides on neither side** -/
theorem mem_reducePairs : p ∈ reducePairs env pairs ↔ p ∈ pairs ∧ ∀ side, ¬ Rides env pairs side p := by
  have hleft : covered env p.left (keysAmong env (pairs.map ConceptPair.left)) = true ↔ Rides env pairs .left p :=
    @covered_side_iff env pairs p .left
  have hright : covered env p.right (keysAmong env (pairs.map ConceptPair.right)) = true ↔ Rides env pairs .right p :=
    @covered_side_iff env pairs p .right
  rw [reducePairs_eq, List.mem_filter, Bool.and_eq_true, Bool.not_eq_true', Bool.not_eq_true', ← Bool.not_eq_true,
    ← Bool.not_eq_true, hleft, hright]
  constructor
  · rintro ⟨hp, hl, hr⟩
    refine ⟨hp, fun side => ?_⟩
    cases side with
    | left => exact hl
    | right => exact hr
  · intro h
    exact ⟨h.1, h.2 .left, h.2 .right⟩

theorem not_mem_reducePairs (hp : p ∈ pairs) : p ∉ reducePairs env pairs ↔ ∃ side, Rides env pairs side p := by
  simp [mem_reducePairs, hp]

/-- a pair with a key on one side is dropped exactly if it rides on the other -/
theorem dropped_of_key (hp : p ∈ pairs) (hkey : purposeOf env (side.concept p) = some .key) :
    p ∉ reducePairs env pairs ↔ Rides env pairs side.other p := by
  rw [not_mem_reducePairs hp]
  constructor
  · rintro ⟨t, ht⟩
    rcases side.eq_or_eq_other t with rfl | rfl
    · exact absurd ht (not_rides_of_key hkey)
    · exact ht
  · intro h
    exact ⟨_, h⟩

/-- no key is joined with a property that rides -/
def KeysStay (env : Environment) (pairs : List ConceptPair) : Prop :=
  ∀ side : Side, ∀ p ∈ pairs, purposeOf env (side.concept p) = some .key → ¬ Rides env pairs side.other p

/-- the pairs of keys that join are kept -/
theorem KeysStay.kept (h : KeysStay env pairs) (hk : JoinsOn env pairs side k) :
    ∃ q ∈ reducePairs env pairs, side.concept q = k := by
  obtain ⟨hkey, q, hq, rfl⟩ := hk
  have hkept := (not_congr (dropped_of_key hq hkey)).2 (h side q hq hkey)
  exact ⟨q, not_not.1 hkept, rfl⟩

/-- **Which pairs of a join are dropped.** The kept pairs are in order, and a pair is dropped exactly if it has, on one
side, a property whose keys all join there. A pair that joins a key is dropped exactly if it rides on its other side. If
none is dropped so, then some pair is kept, and the keys for which a pair is dropped are all kept on its side. -/
theorem reducePairs_keyed (env : Environment) (pairs : List ConceptPair) :
    (reducePairs env pairs).Sublist pairs ∧
    (∀ p ∈ pairs, p ∉ reducePairs env pairs ↔ ∃ side, Rides env pairs side p) ∧
    (∀ side : Side, ∀ p ∈ pairs, purposeOf env (side.concept p) = some .key →
      (p ∉ reducePairs env pairs ↔ Rides env pairs side.other p)) ∧
    (KeysStay env pairs → (pairs ≠ [] → reducePairs env pairs ≠ []) ∧
      ∀ p ∈ pairs, p ∉ reducePairs env pairs → ∃ side, Justified env (reducePairs env pairs) side p) := by
  have hjustified : KeysStay env pairs → ∀ p ∈ pairs, p ∉ reducePairs env pairs →
      ∃ side, Justified env (reducePairs env pairs) side p := by
    intro hstay p hp hdropped
    obtain ⟨side, hrides⟩ := (not_mem_reducePairs hp).1 hdropped
    exact ⟨side, hrides.mono fun k hk => hstay.kept hk⟩
  refine ⟨?_, fun p hp => not_mem_reducePairs hp, fun side p hp hkey => dropped_of_key hp hkey, fun hstay =>
    ⟨fun hne hnone => ?_, hjustified hstay⟩⟩
  · rw [reducePairs_eq]
    exact List.filter_sublist
  · -- a pair that is dropped has a key that is kept
    obtain ⟨p, hp⟩ := List.exists_mem_of_ne_nil _ hne
    have hdropped : p ∉ reducePairs env pairs := by simp [hnone]
    obtain ⟨side, h⟩ := hjustified hstay p hp hdropped
    obtain ⟨k, q, hq, -⟩ := h.exists_key
    simp [hnone] at hq

/-- customers and their latest orders, each under the same name on both sides -/
def plainPairs : List ConceptPair :=
  [⟨"local.customer", "local.customer", "customers"⟩, ⟨"local.latest", "local.latest", "customers"⟩]

theorem keysStay_plainPairs : KeysStay buyers plainPairs := by
  have hkey : purposeOf buyers "local.customer" = some .key := by decide +kernel
  have hproperty : purposeOf buyers "local.latest" = some .property := by decide +kernel
  intro side p hp hpurpose
  simp only [plainPairs, List.mem_cons, List.not_mem_nil, or_false] at hp
  rcases hp with rfl | rfl
  · apply not_rides_of_key
    cases side <;> exact hkey
  · cases side <;> exact nomatch hpurpose.symm.trans hproperty

/-- the latest order of a customer is dropped for the customer, who is kept -/
theorem reducePairs_keyed_latest : KeysStay buyers plainPairs ∧
    ∃ p ∈ plainPairs, p ∉ reducePairs buyers plainPairs ∧
      ∃ side, Justified buyers (reducePairs buyers plainPairs) side p := by
  have hdropped : ⟨"local.latest", "local.latest", "customers"⟩ ∉ reducePairs buyers plainPairs := by decide +kernel
  have hmem : ⟨"local.latest", "local.latest", "customers"⟩ ∈ plainPairs := by decide
  obtain ⟨-, -, -, hstay⟩ := reducePairs_keyed buyers plainPairs
  exact ⟨keysStay_plainPairs, _, hmem, hdropped, (hstay keysStay_plainPairs).2 _ hmem hdropped⟩

/-! ## Keys that are dropped -/

/-- customers as buyers, and latest orders as orders -/
def mutualPairs : List ConceptPair :=
  [⟨"local.customer", "local.buyer", "customers"⟩, ⟨"local.latest", "local.order", "customers"⟩]

/-- customers as buyers, and latest orders and orders by themselves -/
def halfMutualPairs : List ConceptPair :=
  [⟨"local.customer", "local.buyer", "customers"⟩, ⟨"local.latest", "local.latest", "customers"⟩,
    ⟨"local.order", "local.order", "customers"⟩]

theorem not_justified {kept : List ConceptPair} {c : Concept} (hc : env.find? (side.concept p) = some c)
    (hk : k ∈ c.keys) (hmissing : ∀ q ∈ kept, side.concept q ≠ k) : ¬ Justified env kept side p := by
  rintro ⟨d, hd, -, -, hall⟩
  cases hc.symm.trans hd
  obtain ⟨q, hq, hside⟩ := hall k hk
  exact hmissing q hq hside

/-- **Pairs that are dropped for the sake of each other.** A customer is the buyer of an order and an order the latest
one of a customer: each pair brings the key for which the other is dropped, and none is kept. If orders join by
themselves as well, then only they are kept, and the latest order is dropped for a customer who does not join. -/
theorem keys_dropped : mutualPairs ≠ [] ∧ reducePairs buyers mutualPairs = [] ∧
    reducePairs buyers halfMutualPairs = [⟨"local.order", "local.order", "customers"⟩] ∧
    ∃ p ∈ halfMutualPairs, p ∉ reducePairs buyers halfMutualPairs ∧
      ∀ side, ¬ Justified buyers (reducePairs buyers halfMutualPairs) side p := by
  have hkept : reducePairs buyers halfMutualPairs = [⟨"local.order", "local.order", "customers"⟩] := by decide +kernel
  refine ⟨by decide, by decide +kernel, hkept, ⟨"local.latest", "local.latest", "customers"⟩, by decide, ?_, ?_⟩
  · rw [hkept]
    decide
  · intro side
    have hlatest : buyers.find? (side.concept ⟨"local.latest", "local.latest", "customers"⟩) =
        some { Concept.property "latest" .integer ["customer"] with
          pseudonyms := SortedSet.ofList ["local.order"] } := by
      cases side <;> rfl
    apply not_justified hlatest (k := "local.customer")
    · decide
    · rw [hkept]
      cases side <;> decide

end SemanticPlanner.NodeJoins
