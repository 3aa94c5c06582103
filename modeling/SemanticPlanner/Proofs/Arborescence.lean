/-
Explicit joins put in order.

  InOrder          each item of a list stands in a relation to those before it
  Rooted           one node is never joined to another, and the joins lead from it to every left node
  Arborescence     joins that reach every node from the root, each over one join
  Grown            what the joins placed so far are
  foldl_place      a sweep places, drops or keeps each pending join
  sweep_ends       the sweeps end with every join served, or with a closed set of nodes that misses a left node
  order_rooted     joins can be ordered exactly if they are rooted, and then form an arborescence

A sweep that places and drops nothing has left the available nodes as they were. So no pending join starts at one of
them, and no join leads out of them.
-/
import Mathlib.Data.List.Nodup
import Mathlib.Logic.Relation
import SemanticPlanner.Plan.JoinOrder

namespace SemanticPlanner

/-! ## Items and those before them -/

/-- each item of a list stands in a relation to the items before it -/
def InOrder {α : Type} (P : List α → α → Prop) (l : List α) : Prop :=
  ∀ before x after, l = before ++ x :: after → P before x

namespace InOrder

variable {α : Type} {P : List α → α → Prop} {l : List α} {a : α}

theorem nil : InOrder P [] := fun before _ _ h => absurd h.symm (by simp)

theorem concat (hl : InOrder P l) (ha : P l a) : InOrder P (l ++ [a]) := by
  intro before x after h
  rcases List.eq_nil_or_concat after with rfl | ⟨rest, b, rfl⟩
  · obtain ⟨rfl, hx⟩ := List.append_inj' h rfl
    cases hx
    exact ha
  · have h : l ++ [a] = (before ++ x :: rest) ++ [b] := by
      rw [h, List.concat_eq_append, List.append_assoc, List.cons_append]
    exact hl before x rest (List.append_inj' h rfl).1

end InOrder

namespace JoinOrder

variable {js l : List NodeJoin} {j : NodeJoin} {r n : PlanId} {s : Sweep}

/-! ## Rooted joins -/

/-- a join leads from the one node to the other -/
def Leads (js : List NodeJoin) (m n : PlanId) : Prop := ∃ j ∈ js, j.left = m ∧ j.right = n

/-- a left node that is no right node -/
def IsRoot (js : List NodeJoin) (r : PlanId) : Prop := (∃ j ∈ js, j.left = r) ∧ ∀ j ∈ js, j.right ≠ r

/-- a single root, from which the joins lead to every left node -/
structure Rooted (js : List NodeJoin) (r : PlanId) : Prop where
  root : IsRoot js r
  single : ∀ m, IsRoot js m → m = r
  leads : ∀ j ∈ js, Relation.ReflTransGen (Leads js) r j.left

/-- a node on either side of a join -/
def Mentions (js : List NodeJoin) (n : PlanId) : Prop := ∃ j ∈ js, j.left = n ∨ j.right = n

/-- a join that starts at the root or where an earlier one ends -/
def Follows (r : PlanId) (before : List NodeJoin) (j : NodeJoin) : Prop := j.left = r ∨ ∃ i ∈ before, i.right = j.left

/-- joins in an order that reaches every node from the root, each over one join -/
structure Arborescence (js : List NodeJoin) (r : PlanId) (out : List NodeJoin) : Prop where
  joins : ∀ j ∈ out, j ∈ js
  first : ∃ j ∈ out.head?, j.left = r
  later : InOrder (Follows r) out
  once : ∀ n, Mentions js n → n ≠ r → (out.map NodeJoin.right).count n = 1

theorem isRoot_iff : ((lefts js).diff (rights js)).contains n = true ↔ IsRoot js n := by
  rw [SortedSet.contains_iff, SortedSet.mem_diff, lefts, rights, SortedSet.mem_ofList, SortedSet.mem_ofList,
    List.mem_map, List.mem_map, not_exists]
  exact and_congr Iff.rfl (forall_congr' fun j => not_and)

/-! ## One sweep -/

/-- both sides of a join are there -/
def Sweep.Serves (s : Sweep) (j : NodeJoin) : Prop := j.left ∈ s.available ∧ j.right ∈ s.available

/-- the joins placed so far lead from the root to the available nodes, to each over one join -/
structure Grown (js : List NodeJoin) (r : PlanId) (s : Sweep) : Prop where
  joins : ∀ j ∈ s.ordered, j ∈ js
  first : ∃ j ∈ s.ordered.head?, j.left = r
  later : InOrder (Follows r) s.ordered
  nodup : (s.ordered.map NodeJoin.right).Nodup
  available : ∀ n, n ∈ s.available ↔ n = r ∨ ∃ j ∈ s.ordered, j.right = n
  leads : ∀ n ∈ s.available, Relation.ReflTransGen (Leads js) r n

theorem Grown.of_same {t : Sweep} (hs : Grown js r s) (hordered : t.ordered = s.ordered)
    (havailable : t.available = s.available) : Grown js r t := by
  obtain ⟨joins, first, later, nodup, available, leads⟩ := hs
  rw [← hordered] at joins first later nodup available
  rw [← havailable] at available leads
  exact ⟨joins, first, later, nodup, available, leads⟩

theorem Grown.place (hs : Grown js r s) (hj : j ∈ js) : Grown js r (place s j) := by
  rw [JoinOrder.place]
  split
  · rename_i hleft
    have hleft := SortedSet.contains_iff.1 hleft
    split
    · exact hs
    rename_i hright
    have hright : j.right ∉ s.available := fun h => hright (SortedSet.contains_iff.2 h)
    have hfollows : Follows r s.ordered j := (hs.available j.left).1 hleft
    obtain ⟨i, hi, hir⟩ := hs.first
    have hnew : j.right ∉ s.ordered.map NodeJoin.right := fun h =>
      hright ((hs.available j.right).2 (Or.inr (List.mem_map.1 h)))
    refine ⟨List.forall_mem_append.2 ⟨hs.joins, List.forall_mem_singleton.2 hj⟩,
      ⟨i, by rw [List.head?_append, hi]; rfl, hir⟩, hs.later.concat hfollows, ?_, fun n => ?_, fun n hn => ?_⟩
    · rw [List.map_append, List.map_singleton, ← List.concat_eq_append]
      exact hs.nodup.concat hnew
    · rw [SortedSet.mem_insert, hs.available]
      constructor
      · rintro (rfl | rfl | ⟨i, hi, rfl⟩)
        · exact Or.inr ⟨j, List.mem_append_right _ (List.mem_singleton_self j), rfl⟩
        · exact Or.inl rfl
        · exact Or.inr ⟨i, List.mem_append_left _ hi, rfl⟩
      · rintro (rfl | ⟨i, hi, rfl⟩)
        · exact Or.inr (Or.inl rfl)
        · rcases List.mem_append.1 hi with hi | hi
          · exact Or.inr (Or.inr ⟨i, hi, rfl⟩)
          · exact Or.inl (congrArg NodeJoin.right (List.mem_singleton.1 hi))
    · rcases SortedSet.mem_insert.1 hn with rfl | hn
      · exact (hs.leads _ hleft).tail ⟨j, hj, rfl, rfl⟩
      · exact hs.leads n hn
  · exact hs.of_same rfl rfl

/-- what one sweep over `l` does to the pending joins -/
structure Swept (l : List NodeJoin) (s t : Sweep) : Prop where
  available : ∀ n ∈ s.available, n ∈ t.available
  kept : ∀ j ∈ t.remaining, j ∈ s.remaining ∨ j ∈ l
  waits : ∀ j ∈ s.remaining, j ∈ t.remaining
  served : ∀ j ∈ l, t.Serves j ∨ j ∈ t.remaining
  length_le : t.remaining.length ≤ s.remaining.length + l.length
  idle : t.remaining.length = s.remaining.length + l.length → t.available = s.available ∧ ∀ j ∈ l, j.left ∉ s.available

theorem swept_place (s : Sweep) (j : NodeJoin) : Swept [j] s (place s j) := by
  rw [place]
  split
  · rename_i hleft
    have hleft := SortedSet.contains_iff.1 hleft
    split
    · rename_i hright
      have hright := SortedSet.contains_iff.1 hright
      refine ⟨fun _ h => h, fun _ h => Or.inl h, fun _ h => h, fun i hi => Or.inl ?_, Nat.le_add_right _ _, fun h => ?_⟩
      · exact List.mem_singleton.1 hi ▸ ⟨hleft, hright⟩
      · simp at h
    · have hold : ∀ n ∈ s.available, n ∈ s.available.insert j.right := fun n hn => SortedSet.mem_insert.2 (Or.inr hn)
      refine ⟨hold, fun _ h => Or.inl h, fun _ h => h, fun i hi => Or.inl ?_, Nat.le_add_right _ _, fun h => ?_⟩
      · rw [List.mem_singleton.1 hi]
        exact ⟨hold _ hleft, SortedSet.mem_insert.2 (Or.inl rfl)⟩
      · simp at h
  · rename_i hleft
    refine ⟨fun _ h => h, fun _ => List.mem_append.1, fun _ => List.mem_append_left _, fun i hi => Or.inr ?_, ?_,
      fun _ => ⟨rfl, fun i hi hmem => ?_⟩⟩
    · exact List.mem_append_right _ hi
    · exact Nat.le_of_eq List.length_append
    · exact hleft (SortedSet.contains_iff.2 (List.mem_singleton.1 hi ▸ hmem))

theorem foldl_place (s : Sweep) (l : List NodeJoin) : Swept l s (l.foldl place s) := by
  induction l generalizing s with
  | nil =>
    exact ⟨fun _ h => h, fun _ => Or.inl, fun _ h => h, fun _ h => absurd h List.not_mem_nil, Nat.le_refl _,
      fun _ => ⟨rfl, fun _ h => absurd h List.not_mem_nil⟩⟩
  | cons j l ih =>
    have h := swept_place s j
    have h' := ih (place s j)
    rw [List.foldl_cons]
    have hle := h.length_le
    have hle' := h'.length_le
    rw [List.length_singleton] at hle
    refine ⟨fun n hn => h'.available n (h.available n hn), fun i hi => ?_, fun i hi => h'.waits i (h.waits i hi),
      fun i hi => ?_, ?_, fun hlength => ?_⟩
    · rcases h'.kept i hi with hi | hi
      · exact (h.kept i hi).imp_right fun hi => List.mem_cons.2 (Or.inl (List.mem_singleton.1 hi))
      · exact Or.inr (List.mem_cons_of_mem _ hi)
    · rcases List.mem_cons.1 hi with rfl | hi
      · rcases h.served i (List.mem_singleton_self i) with hi | hi
        · exact Or.inl ⟨h'.available _ hi.1, h'.available _ hi.2⟩
        · exact Or.inr (h'.waits i hi)
      · exact h'.served i hi
    · rw [List.length_cons]
      omega
    · rw [List.length_cons] at hlength
      obtain ⟨hsame, hj⟩ := h.idle (by rw [List.length_singleton]; omega)
      obtain ⟨hsame', hl⟩ := h'.idle (by omega)
      rw [hsame] at hsame' hl
      exact ⟨hsame', List.forall_mem_cons.2 ⟨hj j (List.mem_singleton_self j), hl⟩⟩

theorem Grown.sweep (hs : Grown js r s) (hl : ∀ j ∈ l, j ∈ js) : Grown js r (l.foldl JoinOrder.place s) := by
  induction l generalizing s with
  | nil => exact hs
  | cons j l ih => exact ih (hs.place (hl j List.mem_cons_self)) fun i hi => hl i (List.mem_cons_of_mem _ hi)

/-! ## All sweeps -/

/-- every join is served, or the available nodes are closed under the joins and miss a left node -/
inductive Ends (js : List NodeJoin) (r : PlanId) : Except PlanningError (List NodeJoin) → Prop
  | ok {s : Sweep} : Grown js r s → (∀ j ∈ js, s.Serves j) → Ends js r (.ok s.ordered)
  | error {s : Sweep} {left right : String} : Grown js r s → (∀ j ∈ js, j.left ∈ s.available → j.right ∈ s.available) →
      (∃ j ∈ js, j.left ∉ s.available) → Ends js r (.error (.joinOrder left right))

theorem sweep_ends {fuel : Nat} (hs : Grown js r s) (hl : ∀ j ∈ l, j ∈ js) (hjs : ∀ j ∈ js, s.Serves j ∨ j ∈ l)
    (hfuel : l.length < fuel) : Ends js r (sweep fuel s l) := by
  induction fuel generalizing s l with
  | zero => exact absurd hfuel (Nat.not_lt_zero _)
  | succ fuel ih =>
    have hswept := foldl_place { s with remaining := [] } l
    have hgrown : Grown js r (l.foldl place { s with remaining := [] }) :=
      Grown.sweep (hs.of_same rfl rfl) hl
    simp only [sweep]
    generalize l.foldl place { s with remaining := [] } = t at hswept hgrown ⊢
    have hserves : ∀ j ∈ js, t.Serves j ∨ j ∈ t.remaining := by
      intro j hj
      rcases hjs j hj with hserved | hmem
      · exact Or.inl ⟨hswept.available _ hserved.1, hswept.available _ hserved.2⟩
      · exact hswept.served j hmem
    have hkept : ∀ j ∈ t.remaining, j ∈ l := fun j hj => (hswept.kept j hj).resolve_left List.not_mem_nil
    have hlength := hswept.length_le
    rw [List.length_nil, Nat.zero_add] at hlength
    split
    · rename_i hempty
      refine .ok hgrown fun j hj => (hserves j hj).resolve_right fun hmem => ?_
      rw [List.isEmpty_iff.1 hempty] at hmem
      exact List.not_mem_nil hmem
    rename_i hne
    split
    · rename_i hsame
      obtain ⟨havailable, hstuck⟩ := hswept.idle (by rw [hsame, List.length_nil, Nat.zero_add])
      obtain ⟨j, hj⟩ := List.exists_mem_of_ne_nil _ fun h => hne (List.isEmpty_iff.2 h)
      rw [← havailable] at hstuck
      refine .error hgrown (fun i hi hleft => ?_) ⟨j, hl j (hkept j hj), hstuck j (hkept j hj)⟩
      exact ((hserves i hi).resolve_right fun hmem => hstuck i (hkept i hmem) hleft).2
    · exact ih hgrown (fun j hj => hl j (hkept j hj)) hserves (by omega)

/-- one join placed, from its own left node -/
theorem grown_start (hj : j ∈ js) : Grown js j.left ⟨[j], SortedSet.ofList [j.left, j.right], []⟩ := by
  have havailable : ∀ n, n ∈ SortedSet.ofList [j.left, j.right] ↔ n = j.left ∨ ∃ i ∈ [j], i.right = n := by
    intro n
    rw [SortedSet.mem_ofList, List.mem_pair]
    simp only [List.mem_singleton, exists_eq_left, @eq_comm _ n j.right]
  refine ⟨fun i hi => List.mem_singleton.1 hi ▸ hj, ⟨j, rfl, rfl⟩, InOrder.nil.concat (Or.inl rfl),
    List.nodup_singleton _, havailable, fun n hn => ?_⟩
  rcases (havailable n).1 hn with rfl | ⟨i, hi, rfl⟩
  · exact .refl
  · rw [List.mem_singleton.1 hi]
    exact .single ⟨j, hj, rfl, rfl⟩

/-- a node that is mentioned is available once every join is served -/
theorem available_of_mentions (hserves : ∀ j ∈ js, s.Serves j) (hn : Mentions js n) : n ∈ s.available := by
  obtain ⟨j, hj, rfl | rfl⟩ := hn
  · exact (hserves j hj).1
  · exact (hserves j hj).2

theorem Grown.arborescence (hs : Grown js r s) (hserves : ∀ j ∈ js, s.Serves j) : Arborescence js r s.ordered := by
  refine ⟨hs.joins, hs.first, hs.later, fun n hn hne => List.count_eq_one_of_mem hs.nodup ?_⟩
  obtain ⟨j, hj, rfl⟩ := ((hs.available n).1 (available_of_mentions hserves hn)).resolve_left hne
  exact List.mem_map_of_mem hj

theorem Grown.rooted (hs : Grown js r s) (hroot : IsRoot js r) (hserves : ∀ j ∈ js, s.Serves j) : Rooted js r := by
  refine ⟨hroot, fun m hm => ?_, fun j hj => hs.leads _ (hserves j hj).1⟩
  obtain ⟨⟨j, hj, rfl⟩, hnever⟩ := hm
  refine ((hs.available j.left).1 (hserves j hj).1).resolve_right ?_
  rintro ⟨i, hi, hright⟩
  exact hnever i (hs.joins i hi) hright

/-- what joins lead to stays among the available nodes if no join leads out of them -/
theorem Grown.not_rooted (hs : Grown js r s) (hroot : IsRoot js r)
    (hclosed : ∀ j ∈ js, j.left ∈ s.available → j.right ∈ s.available) (hmissed : ∃ j ∈ js, j.left ∉ s.available)
    {m : PlanId} : ¬ Rooted js m := by
  intro hm
  obtain ⟨j, hj, hleft⟩ := hmissed
  have hpath := hm.leads j hj
  rw [← hm.single r hroot] at hpath
  have hreach : ∀ n, Relation.ReflTransGen (Leads js) r n → n ∈ s.available := by
    intro n hn
    induction hn with
    | refl => exact (hs.available r).2 (Or.inl rfl)
    | tail _ hstep ih =>
      obtain ⟨i, hi, rfl, rfl⟩ := hstep
      exact hclosed i hi ih
  exact hleft (hreach _ hpath)

/-- the order is that of sweeps from a root, if there is one -/
theorem order_ends (hne : js ≠ []) :
    (∃ r, IsRoot js r ∧ Ends js r (order js)) ∨
      (∀ r, ¬ IsRoot js r) ∧ ∃ left right, order js = .error (.joinOrder left right) := by
  rw [order, if_neg fun h => hne (List.isEmpty_iff.1 h)]
  dsimp only
  split
  · rename_i hnone
    refine Or.inr ⟨fun r hr => ?_, _, _, rfl⟩
    obtain ⟨j, hj, hleft⟩ := hr.1
    exact List.find?_eq_none.1 hnone j hj (isRoot_iff.2 (hleft ▸ hr))
  · rename_i base hbase
    have hmem := List.mem_of_find?_eq_some hbase
    have hbasis : ((lefts js).diff (rights js)).contains base.left = true := by simpa using List.find?_some hbase
    refine Or.inl ⟨base.left, isRoot_iff.1 hbasis, sweep_ends (grown_start hmem) (fun j hj => ?_) (fun j hj => ?_) ?_⟩
    · exact (List.mem_filter.1 hj).1
    · by_cases hsame : j = base
      · rw [hsame]
        exact Or.inl ⟨SortedSet.mem_ofList.2 List.mem_cons_self,
          SortedSet.mem_ofList.2 (List.mem_cons_of_mem _ List.mem_cons_self)⟩
      · exact Or.inr (List.mem_filter.2 ⟨hj, decide_eq_true hsame⟩)
    · exact Nat.lt_succ_of_le (List.length_filter_le _ _)

/-- **When explicit joins can be ordered.** There are none, or they are rooted; then the ordered joins reach every node
from the root, each over one join. Otherwise the error names the join order. -/
theorem order_rooted (js : List NodeJoin) :
    ((∃ out, order js = .ok out) ↔ js = [] ∨ ∃ r, Rooted js r) ∧
    (∀ out, order js = .ok out → js ≠ [] → ∃ r, Rooted js r ∧ Arborescence js r out) ∧
    ∀ e, order js = .error e → ∃ left right, e = .joinOrder left right := by
  by_cases hne : js = []
  · rw [hne]
    exact ⟨⟨fun _ => Or.inl rfl, fun _ => ⟨[], rfl⟩⟩, fun _ _ h => absurd rfl h, fun _ h => nomatch h⟩
  rcases order_ends hne with ⟨r, hroot, hends⟩ | ⟨hnone, left, right, herror⟩
  · generalize order js = result at hends
    cases hends with
    | ok hs hserves =>
      have hrooted := hs.rooted hroot hserves
      refine ⟨⟨fun _ => Or.inr ⟨r, hrooted⟩, fun _ => ⟨_, rfl⟩⟩, fun out h _ => ?_, fun _ h => nomatch h⟩
      cases h
      exact ⟨r, hrooted, hs.arborescence hserves⟩
    | error hs hclosed hmissed =>
      refine ⟨⟨fun ⟨_, h⟩ => (nomatch h), fun h => ?_⟩, fun _ h => (nomatch h), fun e h => ?_⟩
      · obtain ⟨m, hm⟩ := h.resolve_left hne
        exact absurd hm (hs.not_rooted hroot hclosed hmissed)
      · cases h
        exact ⟨_, _, rfl⟩
  · rw [herror]
    refine ⟨⟨fun ⟨_, h⟩ => (nomatch h), fun h => ?_⟩, fun _ h => (nomatch h), fun e h => ?_⟩
    · obtain ⟨m, hm⟩ := h.resolve_left hne
      exact absurd hm.root (hnone m)
    · cases h
      exact ⟨left, right, rfl⟩

/-- two ways from a node to another, the joins into the latter listed first -/
def diamond : List NodeJoin :=
  [⟨⟨1⟩, ⟨3⟩, [], .inner⟩, ⟨⟨2⟩, ⟨3⟩, [], .inner⟩, ⟨⟨0⟩, ⟨1⟩, [], .inner⟩, ⟨⟨0⟩, ⟨2⟩, [], .inner⟩]

/-- one of the two joins into the last node is kept -/
theorem order_rooted_diamond : ∃ out, order diamond = .ok out ∧ out.length = 3 ∧
    ∃ r, Rooted diamond r ∧ Arborescence diamond r out := by
  have hok : order diamond = .ok [⟨⟨0⟩, ⟨1⟩, [], .inner⟩, ⟨⟨1⟩, ⟨3⟩, [], .inner⟩, ⟨⟨0⟩, ⟨2⟩, [], .inner⟩] := rfl
  exact ⟨_, hok, rfl, (order_rooted diamond).2.1 _ hok (List.cons_ne_nil _ _)⟩

end JoinOrder

end SemanticPlanner
