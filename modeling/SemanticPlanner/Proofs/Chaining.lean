/-
Inferred joins chain the sources.

  exposedBy_getD   the sources of a concept
  Formed           a join's keys and kind, by the sources it reads from
  Built            the sources reached so far are the starts and the right sides, each once
  Grouped          there is one start for each group of sources that share concepts
  joinPivots_built the sources of all pivots are reached, a new start begins a new group
  Chains           each source is a start, or the right side of one join, which reads from those before it
  order_chains     the joins chain the sources, with one start for each group

A pivot that no reached source has is taken only if none of the other pivots has one. So no concept leads out of the
reached sources by then, and the source it starts with is linked to none of them.
-/
import Mathlib.Data.List.Induction
import Mathlib.Data.List.Nodup
import Mathlib.Data.List.Perm.Basic
import Mathlib.Logic.Relation
import SemanticPlanner.Proofs.Arborescence
import SemanticPlanner.Proofs.Following
import SemanticPlanner.Relation.JoinChain

namespace SemanticPlanner

namespace InOrder

variable {α β : Type} {P Q : List α → α → Prop} {l : List α}

theorem imp (hl : InOrder P l) (h : ∀ before x, P before x → Q before x) : InOrder Q l :=
  fun before x after hx => h before x (hl before x after hx)

theorem map {f : α → β} {R : List β → β → Prop} (hl : InOrder P l)
    (h : ∀ before x, P before x → R (before.map f) (f x)) : InOrder R (l.map f) := by
  intro before y after hy
  obtain ⟨b, rest, rfl, rfl, hrest⟩ := List.map_eq_append_iff.1 hy
  obtain ⟨x, a, rfl, rfl, rfl⟩ := List.map_eq_cons_iff.1 hrest
  exact h b x (hl b x a rfl)

end InOrder

namespace JoinChain

variable {sources : Exposed} {inp : Input} {c : Chain} {l : Link} {s t r p a : String} {starts : List String}

/-! ## The sources of a concept -/

/-- the source has the concept -/
def Exposes (sources : Exposed) (s a : String) : Prop := a ∈ sources.getD s ∅

theorem Exposes.mem_keys (h : Exposes sources s a) : s ∈ sources.keys := by
  rw [SortedMap.mem_keys]
  rw [Exposes, SortedMap.getD] at h
  cases hv : sources.get? s with
  | none =>
    rw [hv] at h
    exact absurd h (SortedSet.not_mem_empty a)
  | some v => exact ⟨v, rfl⟩

/-- a source listed for each of its concepts -/
theorem getD_foldl_update {concepts : List String} (hn : concepts.Nodup) (m : NameMap (List String)) (s a : String) :
    (concepts.foldl (fun m x => m.update x [] fun l => l ++ [s]) m).getD a [] =
      m.getD a [] ++ if a ∈ concepts then [s] else [] := by
  induction concepts generalizing m with
  | nil => simp
  | cons x concepts ih =>
    obtain ⟨hx, hn⟩ := List.nodup_cons.1 hn
    rw [List.foldl_cons, ih hn, SortedMap.getD_update]
    by_cases ha : a = x
    · subst ha
      simp [hx]
    · simp [ha]

/-- the sources that expose a concept, by name -/
theorem exposedBy_getD (sources : Exposed) (a : String) :
    (exposedBy sources).getD a [] = (sources.toList.filter fun e => e.2.contains a).map Prod.fst := by
  have hfold : ∀ (entries : List (String × NameSet)) (m : NameMap (List String)),
      (entries.foldl (fun m e => e.2.toList.foldl (fun m x => m.update x [] fun l => l ++ [e.1]) m) m).getD a [] =
        m.getD a [] ++ (entries.filter fun e => e.2.contains a).map Prod.fst := by
    intro entries
    induction entries with
    | nil => simp
    | cons e entries ih =>
      intro m
      rw [List.foldl_cons, ih, getD_foldl_update e.2.nodup, List.filter_cons]
      by_cases ha : a ∈ e.2
      · rw [if_pos (SortedSet.contains_iff.2 ha), if_pos (SortedSet.mem_def.1 ha)]
        simp
      · rw [if_neg fun h => ha (SortedSet.contains_iff.1 h), if_neg fun h => ha (SortedSet.mem_def.2 h)]
        simp
  exact hfold sources.toList ∅

theorem mem_exposedBy : s ∈ (exposedBy sources).getD a [] ↔ Exposes sources s a := by
  rw [exposedBy_getD, List.mem_map, Exposes, SortedMap.getD]
  constructor
  · rintro ⟨⟨s, v⟩, he, rfl⟩
    obtain ⟨he, ha⟩ := List.mem_filter.1 he
    rw [SortedMap.get?_eq_some_iff.2 he]
    exact SortedSet.contains_iff.1 ha
  · intro h
    cases hv : sources.get? s with
    | none =>
      rw [hv] at h
      exact absurd h (SortedSet.not_mem_empty a)
    | some v =>
      rw [hv] at h
      exact ⟨(s, v), List.mem_filter.2 ⟨SortedMap.get?_eq_some_iff.1 hv, SortedSet.contains_iff.2 h⟩, rfl⟩

theorem nodup_exposedBy (sources : Exposed) (a : String) : ((exposedBy sources).getD a []).Nodup := by
  rw [exposedBy_getD]
  exact sources.nodup_keys.sublist (List.filter_sublist.map Prod.fst)

/-! ## Groups of sources -/

/-- two sources have a concept in common -/
def Shares (sources : Exposed) (s t : String) : Prop := ∃ a, Exposes sources s a ∧ Exposes sources t a

/-- a source shares a concept with another one -/
def Meets (sources : Exposed) (s : String) : Prop := ∃ t, t ≠ s ∧ Shares sources s t

/-- sources that are joined by shared concepts, over any number of sources between them -/
def Linked (sources : Exposed) : String → String → Prop := Relation.ReflTransGen (Shares sources)

theorem Linked.symm (h : Linked sources s t) : Linked sources t s := by
  induction h with
  | refl => exact .refl
  | tail _ hstep ih =>
    obtain ⟨a, hs, ht⟩ := hstep
    exact .head ⟨a, ht, hs⟩ ih

/-- a concept of more than one source -/
def IsPivot (sources : Exposed) (a : String) : Prop := 1 < ((exposedBy sources).getD a []).length

theorem IsPivot.meets (hp : IsPivot sources a) (hs : Exposes sources s a) : Meets sources s := by
  have hn := nodup_exposedBy sources a
  have hmem : ∀ {t}, t ∈ (exposedBy sources).getD a [] → t ≠ s → Meets sources s :=
    fun ht hne => ⟨_, hne, a, hs, mem_exposedBy.1 ht⟩
  rw [IsPivot] at hp
  generalize (exposedBy sources).getD a [] = l at hp hn hmem
  match l, hp with
  | x :: y :: rest, _ =>
    have hxy : x ≠ y := fun h => (List.nodup_cons.1 hn).1 (h ▸ List.mem_cons_self)
    by_cases hx : x = s
    · exact hmem (List.mem_cons_of_mem _ List.mem_cons_self) fun h => hxy (hx.trans h.symm)
    · exact hmem List.mem_cons_self hx

theorem isPivot_of_ne (hs : Exposes sources s a) (ht : Exposes sources t a) (hne : t ≠ s) : IsPivot sources a := by
  have hs := mem_exposedBy.2 hs
  have ht := mem_exposedBy.2 ht
  rw [IsPivot]
  match (exposedBy sources).getD a [], hs, ht with
  | [x], hs, ht => exact absurd ((List.mem_singleton.1 ht).trans (List.mem_singleton.1 hs).symm) hne
  | x :: y :: rest, _, _ => exact Nat.succ_lt_succ (Nat.succ_pos _)

/-! ## The keys of a join -/

/-- the concepts that two sources have in common -/
def common (inp : Input) (left right : String) : NameSet :=
  (inp.sources.getD left ∅).inter (inp.sources.getD right ∅)

theorem mem_common : a ∈ common inp s t ↔ Exposes inp.sources s a ∧ Exposes inp.sources t a := SortedSet.mem_inter

/-- the kind of a join, by the sources it reads from alone -/
def ownKind (inp : Input) (l : Link) : JoinKind :=
  if l.left.isSome then .full else combine (l.keys.toList.map fun e => kindOf inp e.1 l.right e.2)

theorem combine_congr {ks ks' : List JoinKind} (h : ∀ k, k ∈ ks ↔ k ∈ ks') : combine ks = combine ks' := by
  have hcontains : ∀ k, ks.contains k = ks'.contains k := fun k => by
    rw [Bool.eq_iff_iff, List.contains_iff_mem, List.contains_iff_mem, h k]
  rw [combine, combine, hcontains, hcontains]

/-- the keys and kinds of joining `right` to the sources of a list -/
structure Keyed (inp : Input) (right : String) (lefts : List String) (k : NameMap NameSet × List JoinKind) : Prop where
  entry : ∀ s v, k.1.get? s = some v → s ∈ lefts ∧ v = common inp s right ∧ v.isEmpty = false
  found : ∀ s ∈ lefts, (common inp s right).isEmpty = false → common inp s right ∈ k.1.values
  kinds : ∀ x, x ∈ k.2 ↔ ∃ s v, k.1.get? s = some v ∧ kindOf inp s right v = x

/-- one more source read from, unless it adds no key -/
def addKey (inp : Input) (right : String) (k : NameMap NameSet × List JoinKind) (left : String) :
    NameMap NameSet × List JoinKind :=
  if (common inp left right).isEmpty || k.1.values.any fun v => decide (v = common inp left right) then k
  else (k.1.insert left (common inp left right), kindOf inp left right (common inp left right) :: k.2)

theorem keysOf_eq (inp : Input) (right : String) (lefts : List String) :
    keysOf inp right lefts = lefts.foldl (addKey inp right) (∅, []) := rfl

theorem Keyed.addKey {right left : String} {lefts : List String} {k : NameMap NameSet × List JoinKind}
    (hk : Keyed inp right lefts k) : Keyed inp right (lefts ++ [left]) (addKey inp right k left) := by
  rw [JoinChain.addKey]
  split
  · rename_i hskip
    refine ⟨fun s v h => ?_, fun s hs hne => ?_, hk.kinds⟩
    · obtain ⟨hs, hv⟩ := hk.entry s v h
      exact ⟨List.mem_append_left _ hs, hv⟩
    · rcases List.mem_append.1 hs with hs | hs
      · exact hk.found s hs hne
      · rw [List.mem_singleton.1 hs] at hne ⊢
        simpa [hne] using hskip
  · rename_i hadd
    obtain ⟨hne, hnew⟩ : (common inp left right).isEmpty = false ∧ common inp left right ∉ k.1.values := by
      simpa using hadd
    -- a source that has a key already has its common concepts as a value
    have hfresh : ∀ v, k.1.get? left ≠ some v := fun v h =>
      hnew ((hk.entry left v h).2.1 ▸ SortedMap.mem_values.2 ⟨left, h⟩)
    have hget : ∀ s v, (k.1.insert left (common inp left right)).get? s = some v ↔
        s = left ∧ v = common inp left right ∨ k.1.get? s = some v := by
      intro s v
      rw [SortedMap.get?_insert]
      split
      · rename_i hs
        subst hs
        simp [hfresh, eq_comm]
      · rename_i hs
        simp [hs]
    refine ⟨fun s v h => ?_, fun s hs hshared => ?_, fun x => ?_⟩
    · rcases (hget s v).1 h with ⟨rfl, rfl⟩ | h
      · exact ⟨List.mem_append_right _ (List.mem_singleton_self s), rfl, hne⟩
      · exact ⟨List.mem_append_left _ (hk.entry s v h).1, (hk.entry s v h).2⟩
    · rw [SortedMap.mem_values]
      rcases List.mem_append.1 hs with hs | hs
      · obtain ⟨t, ht⟩ := SortedMap.mem_values.1 (hk.found s hs hshared)
        exact ⟨t, (hget _ _).2 (Or.inr ht)⟩
      · exact ⟨left, (hget _ _).2 (Or.inl ⟨rfl, congrArg (common inp · right) (List.mem_singleton.1 hs)⟩)⟩
    · rw [List.mem_cons, hk.kinds]
      constructor
      · rintro (rfl | ⟨s, v, h, rfl⟩)
        · exact ⟨left, _, (hget _ _).2 (Or.inl ⟨rfl, rfl⟩), rfl⟩
        · exact ⟨s, v, (hget _ _).2 (Or.inr h), rfl⟩
      · rintro ⟨s, v, h, rfl⟩
        rcases (hget s v).1 h with ⟨rfl, rfl⟩ | h
        · exact Or.inl rfl
        · exact Or.inr ⟨s, v, h, rfl⟩

theorem keyed_keysOf (inp : Input) (right : String) (lefts : List String) :
    Keyed inp right lefts (keysOf inp right lefts) := by
  rw [keysOf_eq]
  induction lefts using List.reverseRecOn with
  | nil =>
    have hnone : ∀ s v, (∅ : NameMap NameSet).get? s ≠ some v := fun s v h => nomatch h
    refine ⟨fun s v h => absurd h (hnone s v), fun s h => absurd h List.not_mem_nil, fun x => ⟨fun h => ?_, ?_⟩⟩
    · exact absurd h List.not_mem_nil
    · rintro ⟨s, v, h, -⟩
      exact absurd h (hnone s v)
  | append_singleton lefts left ih =>
    rw [List.foldl_append, List.foldl_cons, List.foldl_nil]
    exact ih.addKey

/-- the sources that a join reads from -/
def Link.reads (l : Link) : List String := l.left.toList ++ l.keys.keys

/-- a join as the chain makes them: on keys that both sides have, or without keys from a named source -/
structure Formed (inp : Input) (l : Link) : Prop where
  keys : ∀ s v, l.keys.get? s = some v → v = common inp s l.right ∧ v.isEmpty = false
  keyless : l.left.isSome = true ↔ l.keys.keys = []
  kind : l.kind = ownKind inp l

theorem formed_joinTo {right : String} {lefts : List String} (hs : s ∈ lefts) (hshared : Exposes inp.sources s p)
    (hright : Exposes inp.sources right p) :
    Formed inp ⟨none, right, combine (keysOf inp right lefts).2, (keysOf inp right lefts).1⟩ := by
  have hk := keyed_keysOf inp right lefts
  generalize keysOf inp right lefts = k at hk ⊢
  have hne : (common inp s right).isEmpty = false := by
    rw [← Bool.not_eq_true, SortedSet.isEmpty_iff]
    exact fun h => h p (mem_common.2 ⟨hshared, hright⟩)
  obtain ⟨t, ht⟩ := SortedMap.mem_values.1 (hk.found s hs hne)
  refine ⟨fun t v h => (hk.entry t v h).2, ⟨fun h => (nomatch h), fun h => ?_⟩, ?_⟩
  · have hmem : t ∈ k.1.keys := SortedMap.mem_keys.2 ⟨_, ht⟩
    rw [show k.1.keys = [] from h] at hmem
    exact absurd hmem List.not_mem_nil
  · refine combine_congr fun x => (hk.kinds x).trans ?_
    rw [List.mem_map]
    constructor
    · rintro ⟨s, v, h, rfl⟩
      exact ⟨(s, v), SortedMap.get?_eq_some_iff.1 h, rfl⟩
    · rintro ⟨⟨s, v⟩, h, rfl⟩
      exact ⟨s, v, SortedMap.get?_eq_some_iff.2 h, rfl⟩

theorem formed_attach (inp : Input) (first right : String) : Formed inp ⟨some first, right, .full, ∅⟩ :=
  ⟨fun _ _ h => (nomatch h), ⟨fun _ => rfl, fun _ => rfl⟩, rfl⟩

/-! ## The chain so far -/

/-- a join that reads from something, and from nothing but starts and the right sides before it -/
def ReadsFrom (starts : List String) (before : List Link) (l : Link) : Prop :=
  l.reads ≠ [] ∧ ∀ s ∈ l.reads, s ∈ starts ∨ ∃ i ∈ before, i.right = s

/-- the sources reached so far are the starts and the right sides of the joins, each once -/
structure Built (inp : Input) (starts : List String) (c : Chain) : Prop where
  reached : c.reached.Perm (starts ++ c.links.map Link.right)
  nodup : c.reached.Nodup
  known : ∀ s ∈ c.reached, s ∈ inp.sources.keys
  reads : InOrder (ReadsFrom starts) c.links
  formed : ∀ l ∈ c.links, Formed inp l

theorem Built.empty (inp : Input) : Built inp [] ⟨[], []⟩ :=
  ⟨.refl _, List.nodup_nil, fun _ h => absurd h List.not_mem_nil, .nil, fun _ h => absurd h List.not_mem_nil⟩

theorem Built.mem_reached (hb : Built inp starts c) : s ∈ c.reached ↔ s ∈ starts ∨ ∃ l ∈ c.links, l.right = s := by
  rw [hb.reached.mem_iff, List.mem_append, List.mem_map]

/-- a source that the chain begins anew with -/
theorem Built.start (hb : Built inp starts c) (hs : s ∉ c.reached) (hknown : s ∈ inp.sources.keys) :
    Built inp (starts ++ [s]) { c with reached := c.reached ++ [s] } := by
  refine ⟨?_, List.concat_eq_append ▸ hb.nodup.concat hs,
    List.forall_mem_append.2 ⟨hb.known, List.forall_mem_singleton.2 hknown⟩, ?_, hb.formed⟩
  · rw [List.append_assoc]
    refine (hb.reached.append_right [s]).trans ?_
    rw [List.append_assoc]
    exact List.perm_append_comm.append_left starts
  · exact hb.reads.imp fun before l h => ⟨h.1, fun t ht => (h.2 t ht).imp_left (List.mem_append_left _)⟩

/-- a source joined to the reached ones -/
theorem Built.join (hb : Built inp starts c) (hl : l.right ∉ c.reached) (hknown : l.right ∈ inp.sources.keys)
    (hne : l.reads ≠ []) (hreads : ∀ s ∈ l.reads, s ∈ c.reached) (hformed : Formed inp l) :
    Built inp starts ⟨c.reached ++ [l.right], c.links ++ [l]⟩ := by
  refine ⟨?_, List.concat_eq_append ▸ hb.nodup.concat hl,
    List.forall_mem_append.2 ⟨hb.known, List.forall_mem_singleton.2 hknown⟩,
    hb.reads.concat ⟨hne, fun s hs => hb.mem_reached.1 (hreads s hs)⟩,
    List.forall_mem_append.2 ⟨hb.formed, List.forall_mem_singleton.2 hformed⟩⟩
  rw [List.map_append, ← List.append_assoc]
  exact hb.reached.append_right [l.right]

theorem Built.joinTo {right : String} {lefts : List String} (hb : Built inp starts c) (hne : lefts ≠ [])
    (hlefts : ∀ s ∈ lefts, s ∈ c.reached ∧ Exposes inp.sources s p) (hright : Exposes inp.sources right p)
    (hnew : right ∉ c.reached) : Built inp starts (joinTo inp c lefts right) := by
  obtain ⟨s, hs⟩ := List.exists_mem_of_ne_nil lefts hne
  have hformed := formed_joinTo (List.mem_reverse.2 hs) (hlefts s hs).2 hright
  have hk := keyed_keysOf inp right lefts.reverse
  refine hb.join (l := ⟨none, right, combine (keysOf inp right lefts.reverse).2, (keysOf inp right lefts.reverse).1⟩)
    hnew hright.mem_keys (fun h => nomatch hformed.keyless.2 h) (fun t ht => ?_) hformed
  obtain ⟨v, hv⟩ := SortedMap.mem_keys.1 ht
  exact (hlefts t (List.mem_reverse.1 (hk.entry t v hv).1)).1

/-! ## Pivots -/

/-- there is one start for each group of sources that is reached -/
structure Grouped (sources : Exposed) (starts reached : List String) : Prop where
  linked : ∀ s ∈ reached, ∃ r ∈ starts, Linked sources r s
  apart : starts.Pairwise fun r r' => ¬ Linked sources r r'
  meets : ∀ r ∈ starts, Meets sources r

theorem Grouped.join {reached : List String} (hg : Grouped sources starts reached) (hs : s ∈ reached)
    (h : Shares sources s t) : Grouped sources starts (reached ++ [t]) := by
  obtain ⟨r, hr, hlinked⟩ := hg.linked s hs
  exact ⟨List.forall_mem_append.2 ⟨hg.linked, List.forall_mem_singleton.2 ⟨r, hr, hlinked.tail h⟩⟩, hg.apart, hg.meets⟩

/-- no shared concept leads out of the reached sources -/
def Closed (sources : Exposed) (reached : List String) : Prop := ∀ s ∈ reached, ∀ t, Shares sources s t → t ∈ reached

theorem Closed.linked {reached : List String} (h : Closed sources reached) (hs : s ∈ reached) (hl : Linked sources s t) :
    t ∈ reached := by
  induction hl with
  | refl => exact hs
  | tail _ hstep ih => exact h _ ih _ hstep

/-- a start outside of what is reached, if nothing leads out of it, begins another group -/
theorem Grouped.start {reached : List String} (hg : Grouped sources starts reached) (hclosed : Closed sources reached)
    (hstarts : ∀ r ∈ starts, r ∈ reached) (hs : s ∉ reached) (hmeets : Meets sources s) :
    Grouped sources (starts ++ [s]) (reached ++ [s]) := by
  refine ⟨List.forall_mem_append.2 ⟨fun u hu => ?_, List.forall_mem_singleton.2 ?_⟩,
    List.pairwise_append.2 ⟨hg.apart, List.pairwise_singleton _ _, fun r hr => List.forall_mem_singleton.2 fun hl => ?_⟩,
    List.forall_mem_append.2 ⟨hg.meets, List.forall_mem_singleton.2 hmeets⟩⟩
  · obtain ⟨r, hr, hlinked⟩ := hg.linked u hu
    exact ⟨r, List.mem_append_left _ hr, hlinked⟩
  · exact ⟨s, List.mem_append_right _ (List.mem_singleton_self s), .refl⟩
  · exact hs (hclosed.linked (hstarts r hr) hl)

/-- the sources of a pivot that are still to be joined -/
structure Awaits (ps reached waiting : List String) : Prop where
  nodup : waiting.Nodup
  mem : ∀ s, s ∈ waiting ↔ s ∈ ps ∧ s ∉ reached

theorem Awaits.concat {ps reached waiting : List String} (h : Awaits ps reached (waiting ++ [s])) :
    Awaits ps (reached ++ [s]) waiting := by
  obtain ⟨hn, -, hdisjoint⟩ := List.nodup_append.1 h.nodup
  refine ⟨hn, fun t => ⟨fun ht => ?_, fun ⟨ht, hnew⟩ => ?_⟩⟩
  · obtain ⟨hps, hnew⟩ := (h.mem t).1 (List.mem_append_left _ ht)
    refine ⟨hps, fun hmem => ?_⟩
    rcases List.mem_append.1 hmem with hmem | hmem
    · exact hnew hmem
    · exact hdisjoint t ht s (List.mem_singleton_self s) (List.mem_singleton.1 hmem)
  · have hmem := (h.mem t).2 ⟨ht, fun hr => hnew (List.mem_append_left _ hr)⟩
    exact (List.mem_append.1 hmem).resolve_right fun hs => hnew (List.mem_append_right _ hs)

/-- a chain that is built, and the sources of a pivot that are still to be joined to it -/
structure Joining (inp : Input) (starts : List String) (p : String) (c : Chain) (waiting : List String) : Prop where
  built : Built inp starts c
  grouped : Grouped inp.sources starts c.reached
  awaits : Awaits ((exposedBy inp.sources).getD p []) c.reached waiting

theorem Joining.next {waiting : List String} (h : Joining inp starts p c (waiting ++ [s])) :
    Exposes inp.sources s p ∧ s ∉ c.reached := by
  obtain ⟨hs, hnew⟩ := (h.awaits.mem s).1 (List.mem_append_right _ (List.mem_singleton_self s))
  exact ⟨mem_exposedBy.1 hs, hnew⟩

/-- the next source is joined to reached sources of the pivot -/
theorem Joining.joinTo {waiting lefts : List String} (h : Joining inp starts p c (waiting ++ [s])) (hne : lefts ≠ [])
    (hlefts : ∀ t ∈ lefts, t ∈ c.reached ∧ Exposes inp.sources t p) :
    Joining inp starts p (joinTo inp c lefts s) waiting := by
  obtain ⟨hexposes, hnew⟩ := h.next
  obtain ⟨t, ht⟩ := List.exists_mem_of_ne_nil lefts hne
  obtain ⟨hreached, hshared⟩ := hlefts t ht
  exact ⟨h.built.joinTo hne hlefts hexposes hnew, h.grouped.join hreached ⟨p, hshared, hexposes⟩, h.awaits.concat⟩

/-- the next source begins another group -/
theorem Joining.start {waiting : List String} (h : Joining inp starts p c (waiting ++ [s])) (hp : IsPivot inp.sources p)
    (hclosed : Closed inp.sources c.reached) :
    Joining inp (starts ++ [s]) p { c with reached := c.reached ++ [s] } waiting := by
  obtain ⟨hexposes, hnew⟩ := h.next
  exact ⟨h.built.start hnew hexposes.mem_keys,
    h.grouped.start hclosed (fun r hr => h.built.mem_reached.2 (Or.inl hr)) hnew (hp.meets hexposes), h.awaits.concat⟩

/-- a chain to which the sources of a pivot have been added -/
structure Extended (inp : Input) (starts ps : List String) (c d : Chain) : Prop where
  built : Built inp starts d
  grouped : Grouped inp.sources starts d.reached
  kept : ∀ s ∈ c.reached, s ∈ d.reached
  all : ∀ s ∈ ps, s ∈ d.reached

theorem Joining.extended (h : Joining inp starts p c []) :
    Extended inp starts ((exposedBy inp.sources).getD p []) c c :=
  ⟨h.built, h.grouped, fun _ hs => hs, fun s hs => by_contra fun hnew =>
    absurd ((h.awaits.mem s).2 ⟨hs, hnew⟩) List.not_mem_nil⟩

theorem Extended.of_kept {ps : List String} {b : Chain} (h : Extended inp starts ps c b) {d : Chain}
    (hkept : ∀ s ∈ d.reached, s ∈ c.reached) : Extended inp starts ps d b :=
  ⟨h.built, h.grouped, fun s hs => h.kept s (hkept s hs), h.all⟩

/-- the sources of a pivot are joined if one of them is reached -/
theorem joinPivot_touched {fuel : Nat} {waiting : List String} (hj : Joining inp starts p c waiting)
    (htouched : ∃ s ∈ (exposedBy inp.sources).getD p [], s ∈ c.reached) (hfuel : waiting.length ≤ fuel) :
    Extended inp starts ((exposedBy inp.sources).getD p []) c
      (joinPivot inp p ((exposedBy inp.sources).getD p []) fuel waiting c) := by
  induction fuel generalizing waiting c with
  | zero =>
    rw [List.length_eq_zero_iff.1 (Nat.le_zero.1 hfuel)] at hj
    exact hj.extended
  | succ fuel ih =>
    rw [joinPivot]
    have hlefts : ∀ s, s ∈ sortOn (score inp p c.reached)
        (((exposedBy inp.sources).getD p []).filter c.reached.contains) ↔
          s ∈ c.reached ∧ Exposes inp.sources s p := fun s => by
      rw [mem_sortOn, List.mem_filter, List.contains_iff_mem, mem_exposedBy, and_comm]
    obtain ⟨s, hs, hreached⟩ := htouched
    generalize sortOn (score inp p c.reached) _ = lefts at hlefts ⊢
    have hmem : s ∈ lefts := (hlefts s).2 ⟨hreached, mem_exposedBy.1 hs⟩
    rcases List.eq_nil_or_concat waiting with rfl | ⟨rest, right, rfl⟩
    · cases lefts <;> exact hj.extended
    rw [List.concat_eq_append] at hj hfuel ⊢
    match lefts, hmem with
    | left :: others, _ =>
      simp only [List.getLast?_concat, List.dropLast_concat]
      have hjoined := hj.joinTo (List.cons_ne_nil left others) fun t ht => (hlefts t).1 ht
      rw [List.length_append, List.length_singleton] at hfuel
      have h := ih hjoined ⟨s, hs, List.mem_append_left _ hreached⟩ (by omega)
      exact h.of_kept fun _ => List.mem_append_left _

/-- the sources of a pivot start a new group if none of them is reached -/
theorem joinPivot_new {fuel : Nat} {waiting : List String} (hp : IsPivot inp.sources p)
    (hj : Joining inp starts p c waiting) (huntouched : ∀ s ∈ (exposedBy inp.sources).getD p [], s ∉ c.reached)
    (hclosed : Closed inp.sources c.reached) (hfuel : waiting.length ≤ fuel) :
    ∃ s, Extended inp (starts ++ [s]) ((exposedBy inp.sources).getD p []) c
      (joinPivot inp p ((exposedBy inp.sources).getD p []) fuel waiting c) := by
  have hlefts : sortOn (score inp p c.reached) (((exposedBy inp.sources).getD p []).filter c.reached.contains) = [] := by
    refine List.eq_nil_iff_forall_not_mem.2 fun s hs => ?_
    rw [mem_sortOn, List.mem_filter, List.contains_iff_mem] at hs
    exact huntouched s hs.1 hs.2
  rcases List.eq_nil_or_concat waiting with rfl | ⟨rest, first, rfl⟩
  · -- a pivot has sources, and they all wait
    obtain ⟨s, hs⟩ := List.exists_mem_of_length_pos (Nat.lt_of_succ_lt hp)
    exact absurd ((hj.awaits.mem s).2 ⟨hs, huntouched s hs⟩) List.not_mem_nil
  rw [List.concat_eq_append] at hj hfuel ⊢
  rw [List.length_append, List.length_singleton] at hfuel
  have hexposes := hj.next.1
  have hstarted := hj.start hp hclosed
  have hreached : first ∈ c.reached ++ [first] := List.mem_append_right _ (List.mem_singleton_self first)
  refine ⟨first, ?_⟩
  cases fuel with
  | zero => exact absurd hfuel (Nat.not_succ_le_zero _)
  | succ fuel =>
    rw [joinPivot, hlefts]
    simp only [List.getLast?_concat, List.dropLast_concat]
    rcases List.eq_nil_or_concat rest with rfl | ⟨others, right, rfl⟩
    · exact hstarted.extended.of_kept fun _ => List.mem_append_left _
    rw [List.concat_eq_append] at hstarted hfuel ⊢
    simp only [List.getLast?_concat, List.dropLast_concat]
    have hjoined := hstarted.joinTo (List.cons_ne_nil first []) (List.forall_mem_singleton.2 ⟨hreached, hexposes⟩)
    rw [List.length_append, List.length_singleton] at hfuel
    have hleft : others.length ≤ fuel := by omega
    have h := joinPivot_touched hjoined ⟨first, mem_exposedBy.2 hexposes, List.mem_append_left _ hreached⟩ hleft
    exact h.of_kept fun _ ht => List.mem_append_left _ (List.mem_append_left _ ht)

/-- the pivot taken next has a reached source, unless no pivot has -/
theorem nextPivot_cases {exposed : NameMap (List String)} {reached pivots : List String} (hne : pivots ≠ []) :
    ∃ p rest, nextPivot exposed reached pivots = some (p, rest) ∧ pivots.Perm (p :: rest) ∧
      ((∃ s ∈ exposed.getD p [], s ∈ reached) ∨ ∀ q ∈ pivots, ∀ s ∈ exposed.getD q [], s ∉ reached) := by
  have htouches : ∀ q, (exposed.getD q []).any reached.contains = true ↔ ∃ s ∈ exposed.getD q [], s ∈ reached := by
    simp
  rw [nextPivot]
  split
  · rename_i p hfind
    have htouched : (exposed.getD p []).any reached.contains = true := by simpa using List.find?_some hfind
    exact ⟨p, _, rfl, List.perm_cons_erase (List.mem_of_find?_eq_some hfind), Or.inl ((htouches p).1 htouched)⟩
  · rename_i hnone
    refine ⟨pivots.getLast hne, pivots.dropLast, by rw [List.getLast?_eq_some_getLast hne]; rfl, ?_,
      Or.inr fun q hq s hs hr => List.find?_eq_none.1 hnone q hq ((htouches q).2 ⟨s, hs, hr⟩)⟩
    exact (List.Perm.of_eq (List.dropLast_append_getLast hne).symm).trans List.perm_append_comm

/-- a pivot is still listed, or all its sources are reached -/
def Served (sources : Exposed) (pivots reached : List String) : Prop :=
  ∀ p, IsPivot sources p → p ∈ pivots ∨ ∀ s ∈ (exposedBy sources).getD p [], s ∈ reached

/-- no concept leads out of the reached sources if no pivot that is still listed has one of them -/
theorem Served.closed {pivots reached : List String} (h : Served sources pivots reached)
    (huntouched : ∀ p ∈ pivots, ∀ s ∈ (exposedBy sources).getD p [], s ∉ reached) : Closed sources reached := by
  rintro s hs t ⟨a, hsa, hta⟩
  by_cases hne : t = s
  · exact hne ▸ hs
  rcases h a (isPivot_of_ne hsa hta hne) with hlisted | hall
  · exact absurd hs (huntouched a hlisted s (mem_exposedBy.2 hsa))
  · exact hall t (mem_exposedBy.2 hta)

/-- after all pivots, every source of one is reached, from one start for each group -/
theorem joinPivots_built {fuel : Nat} {pivots : List String} (hb : Built inp starts c)
    (hg : Grouped inp.sources starts c.reached) (hpivots : ∀ p ∈ pivots, IsPivot inp.sources p)
    (hserved : Served inp.sources pivots c.reached) (hfuel : pivots.length ≤ fuel) :
    ∃ starts', Built inp starts' (joinPivots inp (exposedBy inp.sources) fuel pivots c) ∧
      Grouped inp.sources starts' (joinPivots inp (exposedBy inp.sources) fuel pivots c).reached ∧
      Served inp.sources [] (joinPivots inp (exposedBy inp.sources) fuel pivots c).reached := by
  induction fuel generalizing starts pivots c with
  | zero =>
    rw [List.length_eq_zero_iff.1 (Nat.le_zero.1 hfuel)] at hserved
    exact ⟨starts, hb, hg, hserved⟩
  | succ fuel ih =>
    by_cases hne : pivots = []
    · rw [hne] at hserved
      rw [hne, joinPivots]
      exact ⟨starts, hb, hg, hserved⟩
    obtain ⟨p, rest, hnext, hperm, htouched⟩ :
        ∃ p rest, nextPivot (exposedBy inp.sources) c.reached pivots = some (p, rest) ∧ _ ∧ _ := nextPivot_cases hne
    rw [joinPivots, hnext]
    have hp : IsPivot inp.sources p := hpivots p (hperm.mem_iff.2 List.mem_cons_self)
    have hj : Joining inp starts p c (sortOn (score inp p c.reached)
        (((exposedBy inp.sources).getD p []).filter fun s => !c.reached.contains s)) := by
      refine ⟨hb, hg, (sortBy_perm _ _).nodup_iff.2 ((nodup_exposedBy _ _).filter _), fun s => ?_⟩
      rw [mem_sortOn, List.mem_filter, Bool.not_eq_true', ← Bool.not_eq_true, List.contains_iff_mem]
    obtain ⟨starts', hextended⟩ : ∃ starts', Extended inp starts' ((exposedBy inp.sources).getD p []) c
        (joinPivot inp p ((exposedBy inp.sources).getD p []) _ _ c) := by
      rcases htouched with htouched | huntouched
      · exact ⟨starts, joinPivot_touched hj htouched (Nat.le_refl _)⟩
      · obtain ⟨s, hs⟩ := joinPivot_new hp hj (huntouched p (hperm.mem_iff.2 List.mem_cons_self))
          (hserved.closed huntouched) (Nat.le_refl _)
        exact ⟨_, hs⟩
    refine ih hextended.built hextended.grouped (fun q hq => hpivots q (hperm.mem_iff.2 (List.mem_cons_of_mem _ hq)))
      (fun q hq => ?_) ?_
    · rcases hserved q hq with hlisted | hall
      · rcases List.mem_cons.1 (hperm.mem_iff.1 hlisted) with rfl | hlisted
        · exact Or.inr hextended.all
        · exact Or.inl hlisted
      · exact Or.inr fun s hs => hextended.kept s (hall s hs)
    · have hlength := hperm.length_eq
      rw [List.length_cons] at hlength
      omega

/-! ## Sources that share nothing -/

theorem attach_built (hb : Built inp starts c) (hs : s ∈ inp.sources.keys) :
    ∃ starts', Built inp starts' (attach c s) ∧ s ∈ (attach c s).reached ∧ (∀ t ∈ c.reached, t ∈ (attach c s).reached) ∧
      (starts' = starts ∨ c.reached = [] ∧ starts' = [s]) := by
  rw [attach]
  split
  · rename_i hreached
    exact ⟨starts, hb, List.contains_iff_mem.1 hreached, fun _ h => h, Or.inl rfl⟩
  rename_i hnew
  have hnew : s ∉ c.reached := fun h => hnew (List.contains_iff_mem.2 h)
  split
  · rename_i hempty
    have hstarts : starts = [] := by
      have hreached := hb.reached
      rw [hempty] at hreached
      exact (List.append_eq_nil_iff.1 (List.nil_perm.1 hreached)).1
    have h := hb.start hnew hs
    rw [hempty, hstarts] at h
    exact ⟨[s], h, List.mem_singleton_self s, fun t ht => absurd (hempty ▸ ht) List.not_mem_nil, Or.inr ⟨hempty, rfl⟩⟩
  · rename_i first rest hreached
    have hfirst : first ∈ c.reached := hreached ▸ List.mem_cons_self
    refine ⟨starts, hb.join (l := ⟨some first, s, .full, ∅⟩) hnew hs (List.cons_ne_nil _ _) (fun t ht => ?_)
      (formed_attach inp first s), List.mem_append_right _ (List.mem_singleton_self s),
      fun t ht => List.mem_append_left _ ht, Or.inl rfl⟩
    rwa [List.mem_singleton.1 ht]

theorem attachAll_built {rest : List String} (hb : Built inp starts c) (hrest : ∀ s ∈ rest, s ∈ inp.sources.keys) :
    ∃ starts', Built inp starts' (rest.foldl attach c) ∧ (∀ s ∈ rest, s ∈ (rest.foldl attach c).reached) ∧
      (∀ t ∈ c.reached, t ∈ (rest.foldl attach c).reached) ∧
      (starts' = starts ∨ c.reached = [] ∧ ∃ s, starts' = [s]) := by
  induction rest generalizing starts c with
  | nil => exact ⟨starts, hb, fun _ h => absurd h List.not_mem_nil, fun _ h => h, Or.inl rfl⟩
  | cons s rest ih =>
    obtain ⟨hs, hrest⟩ := List.forall_mem_cons.1 hrest
    obtain ⟨starts₁, hb₁, hmem, hkept, hstarts₁⟩ := attach_built hb hs
    obtain ⟨starts₂, hb₂, hall, hkept', hstarts₂⟩ := ih hb₁ hrest
    have hsame : starts₂ = starts₁ := hstarts₂.resolve_right fun h => absurd (h.1 ▸ hmem) List.not_mem_nil
    refine ⟨starts₂, hb₂, List.forall_mem_cons.2 ⟨hkept' s hmem, hall⟩, fun t ht => hkept' t (hkept t ht), ?_⟩
    rw [hsame]
    exact hstarts₁.imp_right fun ⟨hempty, h⟩ => ⟨hempty, s, h⟩

/-! ## The whole chain -/

theorem exposedBy_of_mem {l : List String} (h : (a, l) ∈ (exposedBy sources).toList) :
    (exposedBy sources).getD a [] = l := by
  rw [SortedMap.getD, SortedMap.get?_eq_some_iff.2 h]
  rfl

theorem mem_toList_exposedBy (h : Exposes sources s a) :
    (a, (exposedBy sources).getD a []) ∈ (exposedBy sources).toList := by
  have hmem := mem_exposedBy.2 h
  rw [SortedMap.getD] at hmem ⊢
  cases hl : (exposedBy sources).get? a with
  | none =>
    rw [hl] at hmem
    exact absurd hmem List.not_mem_nil
  | some l => exact SortedMap.get?_eq_some_iff.1 hl

/-- the concepts of more than one source, those of the fewest sources first -/
def pivotsOf (sources : Exposed) : List String :=
  sortOn (fun p => (((exposedBy sources).getD p []).length, p.utf8ByteSize, p))
    (((exposedBy sources).toList.filter fun e => e.2.length > 1).map Prod.fst)

/-- the sources of each concept that no other source has -/
def aloneOf (sources : Exposed) : List String :=
  ((exposedBy sources).toList.filter fun e => e.2.length == 1).flatMap Prod.snd

theorem mem_pivotsOf : p ∈ pivotsOf sources ↔ IsPivot sources p := by
  rw [pivotsOf, mem_sortOn, List.mem_map]
  constructor
  · rintro ⟨⟨p, l⟩, he, rfl⟩
    obtain ⟨he, hlength⟩ := List.mem_filter.1 he
    rw [IsPivot, exposedBy_of_mem he]
    exact of_decide_eq_true hlength
  · intro hp
    obtain ⟨s, hs⟩ := List.exists_mem_of_length_pos (Nat.lt_of_succ_lt hp)
    exact ⟨_, List.mem_filter.2 ⟨mem_toList_exposedBy (mem_exposedBy.1 hs), decide_eq_true hp⟩, rfl⟩

theorem mem_aloneOf : s ∈ aloneOf sources ↔ ∃ a, Exposes sources s a ∧ ¬ IsPivot sources a := by
  rw [aloneOf, List.mem_flatMap]
  constructor
  · rintro ⟨⟨a, l⟩, he, hs⟩
    obtain ⟨he, hlength⟩ := List.mem_filter.1 he
    have hl := exposedBy_of_mem he
    refine ⟨a, mem_exposedBy.1 (hl.symm ▸ hs), ?_⟩
    rw [IsPivot, hl, beq_iff_eq.1 hlength]
    exact Nat.lt_irrefl 1
  · rintro ⟨a, hs, hp⟩
    have hpos := List.length_pos_of_mem (mem_exposedBy.2 hs)
    rw [IsPivot] at hp
    refine ⟨_, List.mem_filter.2 ⟨mem_toList_exposedBy hs, beq_iff_eq.2 ?_⟩, mem_exposedBy.2 hs⟩
    dsimp only
    omega

/-- the chain of all sources, before inner joins are made to keep outer rows -/
def chainOf (inp : Input) : Chain :=
  (aloneOf inp.sources).foldl attach
    (joinPivots inp (exposedBy inp.sources) (pivotsOf inp.sources).length (pivotsOf inp.sources) ⟨[], []⟩)

theorem order_eq (inp : Input) :
    order inp = (chainOf inp).links.map (preserve (((chainOf inp).links.filter isOuter).map Link.right)) := rfl

/-- there is one start for each group of sources that share concepts, and no other one unless nothing is shared -/
structure Begins (sources : Exposed) (starts : List String) : Prop where
  group : ∀ s, Meets sources s → ∃! r, r ∈ starts ∧ Linked sources r s
  meets : ∀ r ∈ starts, Meets sources r ∨ starts = [r]

theorem Grouped.begins {reached : List String} (hg : Grouped sources starts reached) (hserved : Served sources [] reached) :
    Begins sources starts := by
  refine ⟨fun s hs => ?_, fun r hr => Or.inl (hg.meets r hr)⟩
  obtain ⟨t, hne, a, hsa, hta⟩ := hs
  have hreached := ((hserved a (isPivot_of_ne hsa hta hne)).resolve_left List.not_mem_nil) s (mem_exposedBy.2 hsa)
  obtain ⟨r, hr, hlinked⟩ := hg.linked s hreached
  refine ⟨r, ⟨hr, hlinked⟩, fun r' ⟨hr', hlinked'⟩ => by_contra fun hne => ?_⟩
  have : Std.Symm fun r r' => ¬ Linked sources r r' := ⟨fun _ _ h h' => h h'.symm⟩
  exact hg.apart.forall hr' hr hne (hlinked'.trans hlinked.symm)

/-- the chain reaches every source that exposes a concept -/
theorem chainOf_built (inp : Input) : ∃ starts, Built inp starts (chainOf inp) ∧ Begins inp.sources starts ∧
    ∀ s a, Exposes inp.sources s a → s ∈ (chainOf inp).reached := by
  rw [chainOf]
  have hnone : Grouped inp.sources [] [] :=
    ⟨fun _ h => absurd h List.not_mem_nil, List.Pairwise.nil, fun _ h => absurd h List.not_mem_nil⟩
  obtain ⟨starts, hb, hg, hserved⟩ := joinPivots_built (.empty inp) hnone (fun p => mem_pivotsOf.1)
    (fun p hp => Or.inl (mem_pivotsOf.2 hp)) (Nat.le_refl _)
  generalize joinPivots inp _ _ _ _ = c at hb hg hserved ⊢
  have hknown : ∀ s ∈ aloneOf inp.sources, s ∈ inp.sources.keys := fun s hs => by
    obtain ⟨a, hs, -⟩ := mem_aloneOf.1 hs
    exact hs.mem_keys
  obtain ⟨starts', hb', hall, hkept, hstarts⟩ := attachAll_built hb hknown
  refine ⟨starts', hb', ?_, fun s a hs => ?_⟩
  · rcases hstarts with rfl | ⟨hempty, r, rfl⟩
    · exact hg.begins hserved
    · -- nothing was reached, so there are no pivots
      rw [hempty] at hserved
      refine ⟨fun s ⟨t, hne, a, hsa, hta⟩ => ?_, fun t ht => Or.inr (List.mem_singleton.1 ht ▸ rfl)⟩
      have hreached := (hserved a (isPivot_of_ne hsa hta hne)).resolve_left List.not_mem_nil
      exact absurd (hreached s (mem_exposedBy.2 hsa)) List.not_mem_nil
  · by_cases hp : IsPivot inp.sources a
    · exact hkept s (((hserved a hp).resolve_left List.not_mem_nil) s (mem_exposedBy.2 hs))
    · exact hall s (mem_aloneOf.2 ⟨a, hs, hp⟩)

/-! ## The joins -/

theorem right_preserve (outer : List String) (l : Link) : (preserve outer l).right = l.right := by
  rw [preserve]
  split <;> rfl

theorem reads_preserve (outer : List String) (l : Link) : (preserve outer l).reads = l.reads := by
  rw [preserve]
  split <;> rfl

/-- joins that chain the sources: each is a start or the right side of one join, which reads from those before it -/
structure Chains (sources : Exposed) (starts : List String) (links : List Link) : Prop where
  apart : starts.Nodup
  known : ∀ s ∈ starts, s ∈ sources.keys
  count : links.length + starts.length = sources.size
  once : ∀ s ∈ sources.keys, (links.map Link.right).count s = if s ∈ starts then 0 else 1
  reads : InOrder (ReadsFrom starts) links

theorem Built.chains (hb : Built inp starts c) (hall : ∀ s ∈ inp.sources.keys, s ∈ c.reached) (outer : List String) :
    Chains inp.sources starts (c.links.map (preserve outer)) := by
  have hperm : (starts ++ c.links.map Link.right).Perm inp.sources.keys :=
    hb.reached.symm.trans ((List.perm_ext_iff_of_nodup hb.nodup inp.sources.nodup_keys).2 fun s =>
      ⟨hb.known s, hall s⟩)
  have hrights : (c.links.map (preserve outer)).map Link.right = c.links.map Link.right := by
    rw [List.map_map]
    exact List.map_congr_left fun l _ => right_preserve outer l
  have hnodup := hperm.nodup_iff.2 inp.sources.nodup_keys
  refine ⟨(List.nodup_append.1 hnodup).1, fun s hs => hperm.mem_iff.1 (List.mem_append_left _ hs), ?_, fun s hs => ?_, ?_⟩
  · have hlength := hperm.length_eq
    rw [List.length_append, List.length_map] at hlength
    rw [List.length_map, Nat.add_comm, hlength, SortedMap.keys, List.length_map, SortedMap.size]
  · have hcount := List.count_eq_one_of_mem hnodup (hperm.mem_iff.2 hs)
    rw [List.count_append] at hcount
    rw [hrights]
    split
    · rename_i hstart
      have := List.count_pos_iff.2 hstart
      omega
    · rename_i hstart
      rw [List.count_eq_zero.2 hstart] at hcount
      omega
  · refine hb.reads.map fun before l hreads => ⟨?_, fun s hs => ?_⟩
    · rw [reads_preserve]
      exact hreads.1
    · rw [reads_preserve] at hs
      rcases hreads.2 s hs with hstart | ⟨i, hi, hright⟩
      · exact Or.inl hstart
      · refine Or.inr ⟨preserve outer i, List.mem_map_of_mem hi, ?_⟩
        rw [right_preserve, hright]

/-- a chain of some sources has a start -/
theorem Chains.starts_ne_nil {links : List Link} (h : Chains sources starts links) (hpos : 0 < sources.size) :
    starts ≠ [] := by
  rintro rfl
  match links, h with
  | [], h =>
    have hcount := h.count
    rw [List.length_nil, List.length_nil] at hcount
    omega
  | l :: rest, h =>
    obtain ⟨hne, hreads⟩ := h.reads [] l rest rfl
    obtain ⟨s, hs⟩ := List.exists_mem_of_ne_nil _ hne
    rcases hreads s hs with hs | ⟨i, hi, -⟩
    · exact List.not_mem_nil hs
    · exact List.not_mem_nil hi

/-- **How inferred joins chain the sources.** Each source is a start or the right side of exactly one join, and there is
one start for each group of sources that share concepts. So the joins form one chain exactly if there is one group. -/
theorem order_chains (hexposes : ∀ s ∈ inp.sources.keys, ∃ a, Exposes inp.sources s a) (hpos : 0 < inp.sources.size) :
    (∃ starts, Chains inp.sources starts (order inp) ∧ Begins inp.sources starts) ∧
    ((∃ start, Chains inp.sources [start] (order inp)) ↔
      ∀ s t, Meets inp.sources s → Meets inp.sources t → Linked inp.sources s t) := by
  obtain ⟨starts, hb, hbegins, hall⟩ := chainOf_built inp
  have hchains : Chains inp.sources starts (order inp) := hb.chains (fun s hs => (hexposes s hs).elim (hall s)) _
  refine ⟨⟨starts, hchains, hbegins⟩, fun ⟨start, hstart⟩ s t hs ht => ?_, fun hlinked => ?_⟩
  · have hone : starts.length = 1 := by
      have h := hchains.count
      have h' := hstart.count
      rw [List.length_singleton] at h'
      omega
    obtain ⟨r, rfl⟩ := List.length_eq_one_iff.1 hone
    obtain ⟨u, ⟨hu, hus⟩, -⟩ := hbegins.group s hs
    obtain ⟨v, ⟨hv, hvt⟩, -⟩ := hbegins.group t ht
    rw [List.mem_singleton.1 hu] at hus
    rw [List.mem_singleton.1 hv] at hvt
    exact hus.symm.trans hvt
  · match starts, hchains, hbegins, hchains.starts_ne_nil hpos with
    | [start], hchains, _, _ => exact ⟨start, hchains⟩
    | r :: r' :: rest, hchains, hbegins, _ =>
      have hmeets : ∀ q ∈ r :: r' :: rest, Meets inp.sources q := fun q hq =>
        (hbegins.meets q hq).resolve_right fun h => by simp at h
      have hr' : r' ∈ r :: r' :: rest := List.mem_cons_of_mem _ List.mem_cons_self
      obtain ⟨u, -, hunique⟩ := hbegins.group r' (hmeets r' hr')
      have hsame : r = r' := (hunique r ⟨List.mem_cons_self, hlinked r r' (hmeets r List.mem_cons_self)
        (hmeets r' hr')⟩).trans (hunique r' ⟨hr', .refl⟩).symm
      exact absurd (hsame ▸ List.mem_cons_self) (List.nodup_cons.1 hchains.apart).1

/-- sources by their concepts, all complete and without nulls -/
def plainly (l : List (String × List String)) : Input :=
  ⟨.ofList (l.map fun e => (e.1, SortedSet.ofList e.2)), ∅, ∅⟩

/-- orders between customers and shops -/
def orders : Input :=
  plainly [("customers", ["customer"]), ("orders", ["order", "customer", "shop"]), ("shops", ["shop"])]

/-- the orders join the customers and the shops into one chain -/
theorem order_chains_orders : (∀ s ∈ orders.sources.keys, ∃ a, Exposes orders.sources s a) ∧ 0 < orders.sources.size ∧
    ∃ start, Chains orders.sources [start] (order orders) := by
  have hshared : ∀ s ∈ orders.sources.keys, (common orders s "orders").isEmpty = false := by decide +kernel
  have hjoined : ∀ s ∈ orders.sources.keys, Shares orders.sources s "orders" := fun s hs => by
    have h := hshared s hs
    rw [← Bool.not_eq_true, SortedSet.isEmpty_iff, not_forall_not] at h
    obtain ⟨a, ha⟩ := h
    exact ⟨a, mem_common.1 ha⟩
  have hexposes : ∀ s ∈ orders.sources.keys, ∃ a, Exposes orders.sources s a := fun s hs =>
    (hjoined s hs).imp fun a h => h.1
  have hpos : 0 < orders.sources.size := by decide +kernel
  refine ⟨hexposes, hpos, (order_chains hexposes hpos).2.2 fun s t ⟨_, _, _, hs, _⟩ ⟨_, _, _, ht, _⟩ => ?_⟩
  exact (Relation.ReflTransGen.single (hjoined s hs.mem_keys)).trans (Linked.symm (.single (hjoined t ht.mem_keys)))

/-- two pairs of sources, each with a concept of its own -/
def twoPairs : Input := plainly [("a", ["k"]), ("b", ["k"]), ("c", ["m"]), ("d", ["m"])]

/-- **Two joins for four sources**, none of which reads from a source of the other pair. -/
theorem twoPairs_not_chained : twoPairs.sources.size = 4 ∧
    (order twoPairs).map (fun l => (l.reads, l.right)) = [(["d"], "c"), (["b"], "a")] ∧
    ¬ ∃ start, Chains twoPairs.sources [start] (order twoPairs) := by
  have hsize : twoPairs.sources.size = 4 := by decide +kernel
  have hlinks : (order twoPairs).map (fun l => (l.reads, l.right)) = [(["d"], "c"), (["b"], "a")] := by decide +kernel
  refine ⟨hsize, hlinks, fun ⟨start, h⟩ => ?_⟩
  have hcount := h.count
  have hlength := congrArg List.length hlinks
  rw [List.length_map] at hlength
  rw [hlength, hsize] at hcount
  simp at hcount

end JoinChain

end SemanticPlanner
