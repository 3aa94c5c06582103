/-
Unions of extracts, and what their conditions say about the integers.

The sweep over the ranges of a union asks for no gap and lets a range start where the one before it ends. So every
integer is in one of the ranges, and one that is in two of them is the last of the one and the first of the other.

- `Scale.follows_iff`: the sweep, for ranges in order
- `Scale.covers_iff`: the sweep after sorting, for ranges in any order
- `Extracts.areExhaustive_iff`: conditions on one integer concept
- `Extracts.unions_cover`: the conditions of a union that is read as one complete source
- `Extracts.ten_covered_twice`: an integer that satisfies two of them
-/
import Mathlib.Data.List.Pairwise
import SemanticPlanner.Proofs.Coverage
import SemanticPlanner.Proofs.Following
import SemanticPlanner.Proofs.ItemByItem
import SemanticPlanner.Proofs.Matching
import SemanticPlanner.Sourcing.Extracts

namespace SemanticPlanner

/-! ## Ranges of integers -/

namespace Limit

/-- the number is at the limit or above it -/
def From : Limit → Int → Prop
  | low, _ => True
  | .at a, n => a ≤ n
  | high, _ => False

/-- the number is at the limit or below it -/
def UpTo : Limit → Int → Prop
  | low, _ => False
  | .at a, n => n ≤ a
  | high, _ => True

/-- the first limit is the second or below it -/
def Le : Limit → Limit → Prop
  | low, _ => True
  | _, low => False
  | _, high => True
  | high, .at _ => False
  | .at a, .at b => a ≤ b

variable {x y z : Limit} {n : Int}

theorem Le.trans (h : Le x y) (h' : Le y z) : Le x z := by
  cases x <;> cases y <;> cases z <;> simp_all [Le]
  omega

theorem From.mono {m : Int} (h : From x n) (hnm : n ≤ m) : From x m := by
  cases x <;> simp_all [From]
  omega

theorem UpTo.mono {m : Int} (h : UpTo x n) (hmn : m ≤ n) : UpTo x m := by
  cases x <;> simp_all [UpTo]
  omega

theorem UpTo.le {m : Int} (h : UpTo x m) (h' : From x n) : m ≤ n := by
  cases x <;> simp_all [UpTo, From]
  omega

/-- between limits that are not in order there are two numbers next to each other -/
theorem exists_next (h : ¬ Le x y) : ∃ n, From y n ∧ UpTo x (n + 1) := by
  cases x <;> cases y <;> simp_all [Le, From, UpTo]
  case at.low a => exact ⟨a - 1, by omega⟩
  case at.at a b => exact ⟨b, by omega⟩
  case high.at b => exact ⟨b, Int.le_refl b⟩

theorem Le.antisymm (h : Le x y) (h' : Le y x) : x = y := by
  cases x <;> cases y <;> simp_all [Le]
  omega

theorem Le.upTo (h : Le x y) (hn : UpTo x n) : UpTo y n := by
  cases x <;> cases y <;> simp_all [Le, UpTo]
  omega

theorem Le.from (h : Le x y) (hn : From y n) : From x n := by
  cases x <;> cases y <;> simp_all [Le, From]
  omega

/-- limits with a number between them are in order -/
theorem le_of_between (h : From x n) (h' : UpTo y n) : Le x y := by
  cases x <;> cases y <;> simp_all [Le, From, UpTo]
  omega

end Limit

namespace Scale

open Limit

/-- the number is in the range -/
def Within (r : Limit × Limit) (n : Int) : Prop := From r.1 n ∧ UpTo r.2 n

/-- one of two ranges ends before the other starts, or where it starts -/
def Apart (r t : Limit × Limit) : Prop := Le r.2 t.1 ∨ Le t.2 r.1

/-- the number is in the one range as its last and in the other as its first -/
def Last (r : Limit × Limit) (n : Int) : Prop := ∀ m, Within r m → m ≤ n

def First (r : Limit × Limit) (n : Int) : Prop := ∀ m, Within r m → n ≤ m

variable {x y : Limit} {r t : Limit × Limit} {ranges : List (Limit × Limit)} {n : Int}

theorem Apart.symm (h : Apart r t) : Apart t r := Or.symm h

theorem isBefore_whole : whole.isBefore x y = false ↔ Le y x := by
  cases x <;> cases y <;> simp [whole, Limit.isBefore, Le]

/-- a gap is where a number lies between two limits -/
theorem isGap_whole : whole.isGap x y = true ↔ ∃ n, ¬ UpTo x n ∧ ¬ From y n := by
  cases x <;> cases y <;> simp [whole, Limit.isGap, UpTo, From]
  case low.at b => exact ⟨b - 1, by omega⟩
  case at.at a b => exact ⟨fun h => ⟨a + 1, by omega, by omega⟩, fun ⟨n, h, h'⟩ => by omega⟩
  case at.high a => exact ⟨a + 1, by omega⟩

/-- the top is the end above every number -/
theorem isHigh_whole : whole.isHigh x = true ↔ ∀ n, UpTo x n := by
  cases x <;> simp [whole, Limit.isBefore, UpTo]
  case «at» a => exact ⟨a + 1, by omega⟩

/-- the later of two ends is the upper one -/
theorem later_whole : whole.later x y = x ∧ Le y x ∨ whole.later x y = y ∧ Le x y := by
  cases h : x.isBefore y with
  | false => exact Or.inl ⟨if_neg (by simp [h]), isBefore_whole.1 h⟩
  | true =>
    refine Or.inr ⟨if_pos h, ?_⟩
    cases x <;> cases y <;> simp_all [Limit.isBefore, Le]
    omega

/-- the later of the last end and the end of the next range -/
theorem upTo_later {last stop : Limit} : UpTo (whole.later last stop) n ↔ UpTo last n ∨ UpTo stop n := by
  obtain ⟨h, hle⟩ | ⟨h, hle⟩ := later_whole (x := last) (y := stop)
  · rw [h]
    exact ⟨Or.inl, fun hn => hn.elim id fun hn => hle.upTo hn⟩
  · rw [h]
    exact ⟨Or.inr, fun hn => hn.elim (fun hn => hle.upTo hn) id⟩

theorem later_le {last stop : Limit} : Le (whole.later last stop) x ↔ Le last x ∧ Le stop x := by
  obtain ⟨h, hle⟩ | ⟨h, hle⟩ := later_whole (x := last) (y := stop)
  · rw [h]
    exact ⟨fun hx => ⟨hx, hle.trans hx⟩, fun hx => hx.1⟩
  · rw [h]
    exact ⟨fun hx => ⟨hle.trans hx, hx⟩, fun hx => hx.2⟩

/-- **the sweep over ranges that hold numbers: nothing beyond the last end is left out, and each range starts where the
ones before it have ended** -/
theorem follows_iff (hne : ∀ r ∈ ranges, ∃ n, Within r n) : ∀ {last : Limit}, whole.follows last ranges = true ↔
    (∀ n, ¬ UpTo last n → ∃ r ∈ ranges, Within r n) ∧ (∀ r ∈ ranges, Le last r.1) ∧
      ranges.Pairwise fun r t => Le r.2 t.1 := by
  induction ranges with
  | nil =>
    intro last
    rw [follows, isHigh_whole]
    simp
  | cons r rest ih =>
    intro last
    obtain ⟨start, stop⟩ := r
    have hrest := fun t ht => hne t (List.mem_cons_of_mem _ ht)
    obtain ⟨m, hm⟩ := hne (start, stop) List.mem_cons_self
    have hstart : Le start stop := le_of_between hm.1 hm.2
    have hgap : whole.isGap last start = false ↔ ∀ n, ¬ UpTo last n → From start n := by
      rw [← Bool.not_eq_true, isGap_whole]
      simp
    rw [follows, Bool.and_eq_true, Bool.and_eq_true, Bool.not_eq_true', Bool.not_eq_true', hgap, isBefore_whole,
      ih hrest, List.pairwise_cons, List.forall_mem_cons]
    simp only [later_le, upTo_later, not_or]
    constructor
    · rintro ⟨⟨hgap, hlast⟩, hcover, hstarts, hrest⟩
      refine ⟨fun n hn => ?_, ⟨hlast, fun t ht => (hstarts t ht).1⟩, fun t ht => (hstarts t ht).2, hrest⟩
      by_cases hstop : UpTo stop n
      · exact ⟨_, List.mem_cons_self, hgap n hn, hstop⟩
      · obtain ⟨t, ht, hin⟩ := hcover n ⟨hn, hstop⟩
        exact ⟨t, List.mem_cons_of_mem _ ht, hin⟩
    · rintro ⟨hcover, ⟨hlast, hstarts⟩, hstops, hrest⟩
      refine ⟨⟨fun n hn => ?_, hlast⟩, fun n hn => ?_, fun t ht => ⟨hstarts t ht, hstops t ht⟩, hrest⟩
      · obtain ⟨t, ht, hin⟩ := hcover n hn
        rcases List.mem_cons.1 ht with rfl | ht
        · exact hin.1
        · exact (hstart.trans (hstops t ht)).from hin.1
      · obtain ⟨t, ht, hin⟩ := hcover n hn.1
        rcases List.mem_cons.1 ht with rfl | ht
        · exact absurd hin.2 hn.2
        · exact ⟨t, ht, hin⟩

theorem before_rank : Sorts.before (whole.rank x) (whole.rank y) = false ↔ Le y x := by
  cases x <;> cases y <;> simp [whole, Limit.rank, Sorts.before, Le]
  exact decide_eq_false_iff_not.trans Int.not_lt

/-- ranges that are apart follow each other in the order of the sweep -/
theorem Apart.le_of_sorted (hapart : Apart r t) (ht : Within t n)
    (h : sortsLE (whole.rank r.1, whole.rank r.2) (whole.rank t.1, whole.rank t.2) = true) :
    Le r.2 t.1 := by
  refine hapart.elim id fun hle => ?_
  rw [sortsLE, Bool.not_eq_true'] at h
  obtain ⟨hstart, hstop⟩ := Bool.or_eq_false_iff.1 h
  have heq : t.1 = r.1 := ((le_of_between ht.1 ht.2).trans hle).antisymm (before_rank.1 hstart)
  have hlast : Le r.2 t.2 :=
    before_rank.1 ((Bool.and_eq_false_iff.1 hstop).resolve_left fun hne => by simp [heq] at hne)
  exact heq ▸ hlast.trans hle

/-- **ranges that hold numbers cover the integers: every integer is in one of them, and any two are apart** -/
theorem covers_iff (hne : ∀ r ∈ ranges, ∃ n, Within r n) : whole.covers ranges = true ↔
    (∀ n, ∃ r ∈ ranges, Within r n) ∧ ranges.Pairwise Apart := by
  set key := fun r : Limit × Limit => (whole.rank r.1, whole.rank r.2) with hkey
  have hperm : (sortOn key ranges).Perm ranges := sortBy_perm _ ranges
  have hne' : ∀ r ∈ sortOn key ranges, ∃ n, Within r n := fun r hr => hne r (mem_sortOn.1 hr)
  rw [covers, ← hkey, follows_iff hne', ← hperm.pairwise_iff Apart.symm]
  constructor
  · rintro ⟨hcover, -, hfollow⟩
    refine ⟨fun n => ?_, hfollow.imp Or.inl⟩
    obtain ⟨r, hr, hin⟩ := hcover n id
    exact ⟨r, mem_sortOn.1 hr, hin⟩
  · rintro ⟨hcover, hapart⟩
    refine ⟨fun n _ => ?_, fun r _ => trivial, ?_⟩
    · obtain ⟨r, hr, hin⟩ := hcover n
      exact ⟨r, mem_sortOn.2 hr, hin⟩
    · refine (List.pairwise_and_iff.2 ⟨pairwise_sortOn key ranges, hapart⟩).imp_of_mem fun {r t} _ ht h => ?_
      obtain ⟨n, hn⟩ := hne' t ht
      exact h.2.le_of_sorted hn h.1

/-- a number of two ranges, where the first ends before the second starts or where it starts -/
theorem meet_of_le (h : Le r.2 t.1) (hr : Within r n) (ht : Within t n) : Last r n ∧ First t n :=
  ⟨fun _ hm => (h.upTo hm.2).le ht.1, fun _ hm => (h.upTo hr.2).le hm.1⟩

/-- two ranges that share their ends with each other only are apart -/
theorem exists_within_both {k k' : Int} (hkk' : k ≤ k') (hr : Within r n) (hk : From t.1 k) (hk' : UpTo t.2 (k' + 1))
    (hstop : UpTo r.2 (k + 1)) (hstart : From r.1 k') :
    ∃ m, Within r m ∧ Within t m ∧ ¬ (Last r m ∧ First t m) ∧ ¬ (Last t m ∧ First r m) := by
  have hin : ∀ m, k ≤ m → m ≤ k' + 1 → Within t m := fun m h h' => ⟨hk.mono h, hk'.mono h'⟩
  by_cases hlow : n < k
  · have hsucc : Within r (k + 1) := ⟨hr.1.mono (by omega), hstop⟩
    refine ⟨k, ⟨hr.1.mono (by omega), hstop.mono (by omega)⟩, hin k (Int.le_refl _) (by omega), fun h => ?_, fun h => ?_⟩
    · have := h.1 _ hsucc
      omega
    · have := h.1 _ (hin (k + 1) (by omega) (by omega))
      omega
  by_cases hhigh : k' + 1 < n
  · have hsucc : Within r (k' + 1) := ⟨hstart.mono (by omega), hr.2.mono (by omega)⟩
    refine ⟨k', ⟨hstart, hr.2.mono (by omega)⟩, hin k' hkk' (by omega), fun h => ?_, fun h => ?_⟩
    · have := h.1 _ hsucc
      omega
    · have := h.1 _ (hin (k' + 1) (by omega) (Int.le_refl _))
      omega
  refine ⟨n, hr, hin n (by omega) (by omega), fun h => ?_, fun h => ?_⟩
  · have hn := h.2 k (hin k (Int.le_refl _) (by omega))
    have := h.1 (k + 1) ⟨hr.1.mono (by omega), hstop⟩
    omega
  · have hn := h.1 (k' + 1) (hin (k' + 1) (by omega) (Int.le_refl _))
    have := h.2 k' ⟨hstart, hr.2.mono (by omega)⟩
    omega

/-- **ranges that hold numbers are apart just where a number of both is the last of one and the first of the other** -/
theorem apart_iff {m : Int} (hr : Within r n) (ht : Within t m) : Apart r t ↔
    ∀ k, Within r k → Within t k → (Last r k ∧ First t k) ∨ (Last t k ∧ First r k) := by
  constructor
  · rintro (h | h) k hrk htk
    · exact Or.inl (meet_of_le h hrk htk)
    · exact Or.inr (meet_of_le h htk hrk)
  · intro hmeet
    by_contra hover
    obtain ⟨hrt, htr⟩ := not_or.1 hover
    obtain ⟨k, hk, hstop⟩ := exists_next hrt
    obtain ⟨k', hstart, hk'⟩ := exists_next htr
    rcases Int.le_total k k' with hle | hle
    · obtain ⟨p, hrp, htp, hlast, hfirst⟩ := exists_within_both hle hr hk hk' hstop hstart
      exact (hmeet p hrp htp).elim hlast hfirst
    · obtain ⟨p, htp, hrp, hfirst, hlast⟩ := exists_within_both hle ht hstart hstop hk' hk
      exact (hmeet p hrp htp).elim hlast hfirst

end Scale

/-! ## Rows and conditions -/

/-- a comparison of two integers -/
def ComparisonOp.Relates : ComparisonOp → Int → Int → Prop
  | eq, m, n => m = n
  | ne, m, n => m ≠ n
  | gt, m, n => n < m
  | gte, m, n => n ≤ m
  | lt, m, n => m < n
  | lte, m, n => m ≤ n
  | _, _, _ => False

theorem ComparisonOp.relates_flip {op : ComparisonOp} {m n : Int} : op.flip.Relates m n ↔ op.Relates n m := by
  cases op <;> simp [flip, Relates, eq_comm]

/-- the value of an expression on a row of integers, where it is a concept or an integer literal -/
def Expr.valueOn (row : String → Int) : Expr → Option Int
  | .concept x => some (row x)
  | .literal (.integer v) => some v
  | _ => none

namespace Condition

/-- a comparison holds of a row of integers -/
def HoldsOn (row : String → Int) : Condition → Prop
  | comparison left op right => ∃ m n, left.valueOn row = some m ∧ right.valueOn row = some n ∧ op.Relates m n
  | _ => False

/-- a comparison of one concept with an integer literal of absolute value below 2^52 -/
def Bounds (x : String) : Condition → Prop
  | comparison (.concept y) _ (.literal (.integer v)) => y = x ∧ v.natAbs < 2 ^ 52
  | comparison (.literal (.integer v)) _ (.concept y) => y = x ∧ v.natAbs < 2 ^ 52
  | _ => False

/-- the values that satisfy a condition lie between two limits, or are one value -/
def IsRange : Condition → Prop
  | comparison _ op _ => op ∈ [.eq, .gt, .gte, .lt, .lte]
  | _ => False

end Condition

/-- a row has the highest value of a concept among the rows of a kind -/
def Highest (x : String) (P : (String → Int) → Prop) (row : String → Int) : Prop := ∀ r, P r → r x ≤ row x

/-- a row has the lowest value of a concept among the rows of a kind -/
def Lowest (x : String) (P : (String → Int) → Prop) (row : String → Int) : Prop := ∀ r, P r → row x ≤ r x

/-- a row of both kinds has the highest value of the one and the lowest of the other -/
def Meet (x : String) (P Q : (String → Int) → Prop) : Prop :=
  ∀ row, P row → Q row → (Highest x P row ∧ Lowest x Q row) ∨ (Highest x Q row ∧ Lowest x P row)

namespace Extracts

open Scale

variable {env : Environment} {x : String} {c d : Condition} {conditions : List Condition}
variable {r t : Limit × Limit}

/-- the numbers that a comparison relates so to a value -/
theorem within_rangeOf {op : ComparisonOp} {v n : Int} (h : whole.rangeOf op v = some r) :
    Within r n ↔ op.Relates n v := by
  cases op <;> cases h <;> simp [Within, Limit.From, Limit.UpTo, ComparisonOp.Relates, whole]
  all_goals omega

/-- the range of a condition, where it bounds a concept -/
def rangeFor (env : Environment) (c : Condition) : Option (Limit × Limit) :=
  (boundOf env c).bind fun b => b.2.2.small?.bind fun v => whole.rangeOf b.2.1 v

/-- a condition holds of the rows whose value is in the range -/
def Spans (x : String) (c : Condition) (r : Limit × Limit) : Prop :=
  (∃ n, Within r n) ∧ ∀ row, c.HoldsOn row ↔ Within r (row x)

theorem small?_of_natAbs {v : Int} (h : v.natAbs < 2 ^ 52) : (Literal.integer v).small? = some v := by
  have h : -4503599627370496 < v ∧ v < 4503599627370496 := by omega
  simp [Literal.small?, h]

/-- a condition that bounds a concept, the concept brought to the left -/
theorem boundOf_of_bounds (hc : c.Bounds x) (hfree : numberOf env (.concept x) = none) :
    ∃ op v, boundOf env c = some (x, op, .integer v) ∧ (Literal.integer v).small? = some v ∧
      (c.IsRange ↔ op ∈ [.eq, .gt, .gte, .lt, .lte]) ∧ ∀ row, c.HoldsOn row ↔ op.Relates (row x) v := by
  unfold Condition.Bounds at hc
  split at hc
  · rename_i op v
    obtain ⟨rfl, hv⟩ := hc
    refine ⟨op, v, ?_, small?_of_natAbs hv, Iff.rfl, fun row => ?_⟩
    · simp only [boundOf, hfree]
      rfl
    · simp [Condition.HoldsOn, Expr.valueOn]
  · rename_i v op y
    obtain ⟨rfl, hv⟩ := hc
    refine ⟨op.flip, v, ?_, small?_of_natAbs hv, ?_, fun row => ?_⟩
    · simp only [boundOf, hfree]
      rfl
    · cases op <;> simp [Condition.IsRange, ComparisonOp.flip]
    · simp [Condition.HoldsOn, Expr.valueOn, ComparisonOp.relates_flip]
  · exact hc.elim

theorem exists_rangeFor (hc : c.Bounds x) (hfree : numberOf env (.concept x) = none) :
    (∃ r, rangeFor env c = some r) ↔ c.IsRange := by
  obtain ⟨op, v, hbound, hsmall, hrange, -⟩ := boundOf_of_bounds hc hfree
  rw [hrange, rangeFor, hbound, Option.bind_some, hsmall, Option.bind_some]
  cases op <;> simp [rangeOf]

theorem spans_rangeFor (hc : c.Bounds x) (hfree : numberOf env (.concept x) = none) (h : rangeFor env c = some r) :
    Spans x c r := by
  obtain ⟨op, v, hbound, hsmall, -, hholds⟩ := boundOf_of_bounds hc hfree
  rw [rangeFor, hbound, Option.bind_some, hsmall, Option.bind_some] at h
  refine ⟨?_, fun row => (hholds row).trans (within_rangeOf h).symm⟩
  have hvalue : ∃ n, op.Relates n v := by
    cases op <;> cases h
    case eq => exact ⟨v, rfl⟩
    case gt => exact ⟨v + 1, Int.lt_succ v⟩
    case gte => exact ⟨v, Int.le_refl v⟩
    case lt => exact ⟨v - 1, Int.sub_lt_self v Int.one_pos⟩
    case lte => exact ⟨v, Int.le_refl v⟩
  exact hvalue.imp fun n hn => (within_rangeOf h).2 hn

theorem highest_within {row : String → Int} : Highest x (fun row => Within r (row x)) row ↔ Last r (row x) :=
  ⟨fun h n hn => h (fun _ => n) hn, fun h _ hrow => h _ hrow⟩

theorem lowest_within {row : String → Int} : Lowest x (fun row => Within r (row x)) row ↔ First r (row x) :=
  ⟨fun h n hn => h (fun _ => n) hn, fun h _ hrow => h _ hrow⟩

/-- ranges are apart where the conditions meet -/
theorem Spans.apart_iff (hc : Spans x c r) (hd : Spans x d t) : Apart r t ↔ Meet x (c.HoldsOn ·) (d.HoldsOn ·) := by
  obtain ⟨⟨n, hn⟩, hc⟩ := hc
  obtain ⟨⟨m, hm⟩, hd⟩ := hd
  simp only [Scale.apart_iff hn hm, Meet, hc, hd, highest_within, lowest_within]
  exact ⟨fun h row => h (row x), fun h k => h fun _ => k⟩

/-! ## Exhaustive conditions -/

/-- the comparisons of conditions that bound one concept -/
theorem exists_comparisons (hc : ∀ c ∈ conditions, c.Bounds x) (hfree : numberOf env (.concept x) = none) :
    ∃ cs : List (ComparisonOp × Int),
      conditions.mapM (boundOf env) = some (cs.map fun k => (x, k.1, .integer k.2)) ∧
      ((cs.map fun k => (k.1, Literal.integer k.2)).mapM fun k => k.2.small?.map (k.1, ·)) = some cs ∧
      conditions.mapM (rangeFor env) = cs.mapM fun k => whole.rangeOf k.1 k.2 := by
  induction conditions with
  | nil => exact ⟨[], rfl, rfl, rfl⟩
  | cons c rest ih =>
    obtain ⟨op, v, hbound, hsmall, -, -⟩ := boundOf_of_bounds (hc c List.mem_cons_self) hfree
    obtain ⟨cs, hbounds, hsmalls, hranges⟩ := ih fun d hd => hc d (List.mem_cons_of_mem _ hd)
    have hrange : rangeFor env c = whole.rangeOf op v := by
      rw [rangeFor, hbound, Option.bind_some, hsmall, Option.bind_some]
    refine ⟨(op, v) :: cs, ?_, ?_, ?_⟩
    · rw [List.mapM_cons, hbound, hbounds]
      rfl
    · rw [List.map_cons, List.mapM_cons, hsmalls, hsmall]
      rfl
    · rw [List.mapM_cons, List.mapM_cons, hrange, hranges]

/-- values filed under one key -/
theorem get?_foldl_update {ν : Type} (k : String) (values : List ν) (m : NameMap (List ν)) (y : String) :
    ((values.map fun v => (k, v)).foldl (fun m e => m.update e.1 [] (· ++ [e.2])) m).get? y =
      if y = k ∧ values ≠ [] then some (m.getD k [] ++ values) else m.get? y := by
  induction values generalizing m with
  | nil => simp
  | cons v rest ih =>
    rw [List.map_cons, List.foldl_cons, ih, SortedMap.update, SortedMap.get?_insert, SortedMap.getD,
      SortedMap.get?_insert]
    by_cases hy : y = k
    · by_cases hrest : rest = [] <;> simp [hy, hrest]
    · simp [hy]

/-- values filed under one key make a map with one entry -/
theorem toList_foldl_update {ν : Type} (k : String) (values : List ν) (hne : values ≠ []) (p : String × List ν → Bool) :
    let m : NameMap (List ν) := (values.map fun v => (k, v)).foldl (fun m e => m.update e.1 [] (· ++ [e.2])) ∅
    (!m.isEmpty && m.toList.all p) = p (k, values) := by
  intro m
  have hempty : ∀ y, (∅ : NameMap (List ν)).get? y = none := SortedMap.get?_empty
  have hget : ∀ e, e ∈ m.toList ↔ e = (k, values) := by
    rintro ⟨y, l⟩
    rw [← SortedMap.get?_eq_some_iff, get?_foldl_update, SortedMap.getD, hempty, hempty, Prod.mk.injEq]
    by_cases hy : y = k
    · simpa [hy, hne] using eq_comm
    · simp [hy]
  have hmem : (k, values) ∈ m.toList := (hget _).2 rfl
  have hnonempty : m.isEmpty = false := List.isEmpty_eq_false_iff.2 (List.ne_nil_of_mem hmem)
  rw [hnonempty, Bool.not_false, Bool.true_and, Bool.eq_iff_iff, List.all_eq_true]
  exact ⟨fun h => h _ hmem, fun h e he => (hget e).1 he ▸ h⟩

/-- conditions that bound one integer concept are exhaustive where their ranges cover the integers -/
theorem areExhaustive_iff_covers (hc : ∀ c ∈ conditions, c.Bounds x) (hfree : numberOf env (.concept x) = none)
    (hint : (env.find? x).map Concept.datatype = some .integer) : areExhaustive env conditions = true ↔
      ∃ ranges, conditions.mapM (rangeFor env) = some ranges ∧ whole.covers ranges = true := by
  obtain ⟨cs, hbounds, hsmalls, hranges⟩ := exists_comparisons hc hfree
  rw [hranges]
  by_cases hcs : cs = []
  · subst hcs
    have : whole.covers [] = false := rfl
    simp only [areExhaustive, hbounds, List.map_nil, List.foldl_nil, List.mapM_nil, Option.pure_def,
      Option.some.injEq, exists_eq_left', this]
    rfl
  · have hone := toList_foldl_update x (cs.map fun k => (k.1, Literal.integer k.2)) (by simpa using hcs)
      fun e => isPartition env e.1 e.2
    rw [List.map_map] at hone
    simp only [areExhaustive, hbounds]
    refine (Bool.eq_iff_iff.1 hone).trans ?_
    simp only [isPartition, hint, partitionsIntegers, hsmalls, partitions]
    cases h : cs.mapM fun k => whole.rangeOf k.1 k.2 with
    | none => simp
    | some ranges => simp

/-- **conditions that bound one integer concept are exhaustive: each is a range, every integer satisfies one of them, and
one that satisfies two is the highest of the one and the lowest of the other** -/
theorem areExhaustive_iff (hc : ∀ c ∈ conditions, c.Bounds x) (hfree : numberOf env (.concept x) = none)
    (hint : (env.find? x).map Concept.datatype = some .integer) : areExhaustive env conditions = true ↔
      (∀ c ∈ conditions, c.IsRange) ∧ (∀ row, ∃ c ∈ conditions, c.HoldsOn row) ∧
        conditions.Pairwise fun c d => Meet x (c.HoldsOn ·) (d.HoldsOn ·) := by
  have hcovers : ∀ ranges, conditions.mapM (rangeFor env) = some ranges → (whole.covers ranges = true ↔
      (∀ row, ∃ c ∈ conditions, c.HoldsOn row) ∧ conditions.Pairwise fun c d => Meet x (c.HoldsOn ·) (d.HoldsOn ·)) := by
    intro ranges hranges
    have hspans : List.Forall₂ (Spans x) conditions ranges :=
      forall₂_mapM_some hranges fun c hmem r hr => spans_rangeFor (hc c hmem) hfree hr
    have hne : ∀ r ∈ ranges, ∃ n, Within r n := fun r hr => (exists_of_forall₂ hspans.flip hr).elim fun _ h => h.2.1
    rw [covers_iff hne, pairwise_iff_of_forall₂ hspans fun hr ht => hr.apart_iff ht]
    refine and_congr_left fun _ => ⟨fun h row => ?_, fun h n => ?_⟩
    · obtain ⟨r, hr, hin⟩ := h (row x)
      obtain ⟨c, hmem, hspan⟩ := exists_of_forall₂ hspans.flip hr
      exact ⟨c, hmem, (hspan.2 row).2 hin⟩
    · obtain ⟨c, hmem, hhold⟩ := h fun _ => n
      obtain ⟨r, hr, hspan⟩ := exists_of_forall₂ hspans hmem
      exact ⟨r, hr, (hspan.2 _).1 hhold⟩
  rw [areExhaustive_iff_covers hc hfree hint]
  constructor
  · rintro ⟨ranges, hranges, h⟩
    refine ⟨fun c hmem => (exists_rangeFor (hc c hmem) hfree).1 ?_, (hcovers ranges hranges).1 h⟩
    obtain ⟨r, -, hr⟩ := exists_of_forall₂ (forall₂_mapM_some hranges fun _ _ _ h => h) hmem
    exact ⟨r, hr⟩
  · rintro ⟨hrange, h⟩
    obtain ⟨ranges, hranges⟩ := exists_mapM fun c hmem => (exists_rangeFor (hc c hmem) hfree).2 (hrange c hmem)
    exact ⟨ranges, hranges, (hcovers ranges hranges).2 h⟩

/-! ## Unions -/

variable {targets : List Concept} {group : List Datasource}

/-- a group of extracts is cut by one concept and exhaustive -/
theorem exists_cutBy (h : group ∈ unions env targets) : ∃ x, (∀ d ∈ group, cutBy targets d = some x) ∧
    areExhaustive env (group.filterMap Datasource.nonPartialFor) = true := by
  obtain ⟨hvalues, hall⟩ := List.mem_filter.1 h
  obtain ⟨x, hx⟩ := SortedMap.mem_values.1 hvalues
  -- the datasources filed under a concept so far are cut by it
  refine ⟨x, List.foldlRecOn
    (motive := fun m : NameMap (List Datasource) => ∀ y g, m.get? y = some g → ∀ d ∈ g, cutBy targets d = some y)
    _ _ (fun _ _ h => by cases h) (fun m hm d _ y g hg e he => ?_) x group hx, hall⟩
  cases hcut : cutBy targets d with
  | none =>
    rw [hcut] at hg
    exact hm y g hg e he
  | some x =>
    rw [hcut] at hg
    simp only [SortedMap.update, SortedMap.get?_insert] at hg
    split at hg
    · rename_i hy
      cases hg
      rcases List.mem_append.1 he with he | he
      · cases hget : m.get? x with
        | none => simp [SortedMap.getD, hget] at he
        | some g' => exact hy ▸ hm x g' hget e (by simpa [SortedMap.getD, hget] using he)
      · rw [List.mem_singleton.1 he, hcut, hy]
    · exact hm y g hg e he

/-- a condition compares a concept of integers with an integer literal of absolute value below 2^52 -/
def BoundsIntegers (env : Environment) (c : Condition) : Prop :=
  ∃ x, c.Bounds x ∧ (env.find? x).map Concept.datatype = some .integer

/-- a datasource is complete for a row -/
def CompleteFor (d : Datasource) (row : String → Int) : Prop := ∃ c, d.nonPartialFor = some c ∧ c.HoldsOn row

theorem completeFor_eq {d : Datasource} (h : d.nonPartialFor = some c) : CompleteFor d = (c.HoldsOn ·) := by
  funext row
  simp [CompleteFor, h]

theorem concepts_of_bounds (hc : c.Bounds x) : c.concepts = [x] := by
  unfold Condition.Bounds at hc
  split at hc
  · obtain ⟨rfl, -⟩ := hc
    rfl
  · obtain ⟨rfl, -⟩ := hc
    rfl
  · exact hc.elim

/-- conditions that are exhaustive bound a concept that is no number itself -/
theorem numberOf_of_areExhaustive (h : areExhaustive env conditions = true) (hmem : c ∈ conditions)
    (hc : c.Bounds x) : numberOf env (.concept x) = none := by
  unfold areExhaustive at h
  split at h
  · cases h
  · rename_i bounds hbounds
    obtain ⟨b, -, hb⟩ := exists_of_forall₂ (forall₂_mapM_some hbounds fun _ _ _ h => h) hmem
    cases hnumber : numberOf env (.concept x) with
    | none => rfl
    | some l =>
      unfold Condition.Bounds at hc
      split at hc
      · rw [hc.1] at hb
        simp [boundOf, hnumber] at hb
      · rw [hc.1] at hb
        simp [boundOf, hnumber] at hb
      · exact hc.elim

/-- **every integer row is in one of the extracts that are read as one complete source, and a row that is in two of them
has the highest value of the one and the lowest of the other** -/
theorem unions_cover (h : group ∈ unions env targets)
    (hbounds : ∀ d ∈ group, ∀ c, d.nonPartialFor = some c → BoundsIntegers env c) :
    ∃ x, (∀ row, ∃ d ∈ group, CompleteFor d row) ∧ group.Pairwise fun d e => Meet x (CompleteFor d) (CompleteFor e) := by
  obtain ⟨x, hcut, hexhaustive⟩ := exists_cutBy h
  have hc : ∀ c ∈ group.filterMap Datasource.nonPartialFor,
      c.Bounds x ∧ (env.find? x).map Concept.datatype = some .integer := by
    intro c hc
    obtain ⟨d, hd, hdc⟩ := List.mem_filterMap.1 hc
    obtain ⟨y, hy, hint⟩ := hbounds d hd c hdc
    have hx := hcut d hd
    simp only [cutBy, hdc, concepts_of_bounds hy] at hx
    split at hx
    · cases hx
      exact ⟨hy, hint⟩
    · cases hx
  obtain ⟨c, hmem⟩ : ∃ c, c ∈ group.filterMap Datasource.nonPartialFor := by
    refine List.exists_mem_of_ne_nil _ fun hnil => ?_
    rw [hnil] at hexhaustive
    cases hexhaustive
  have hfree := numberOf_of_areExhaustive hexhaustive hmem (hc c hmem).1
  obtain ⟨-, hcover, hmeet⟩ := (areExhaustive_iff (fun c h => (hc c h).1) hfree (hc c hmem).2).1 hexhaustive
  refine ⟨x, fun row => ?_, (List.pairwise_filterMap.1 hmeet).imp fun {d e} hde row hd he => ?_⟩
  · obtain ⟨c, hmem, hrow⟩ := hcover row
    obtain ⟨d, hd, hdc⟩ := List.mem_filterMap.1 hmem
    exact ⟨d, hd, c, hdc, hrow⟩
  · obtain ⟨c, hdc, -⟩ := id hd
    obtain ⟨c', hec, -⟩ := id he
    rw [completeFor_eq hdc, completeFor_eq hec] at *
    exact hde c hdc c' hec row hd he

/-- an extract of a property for some of the values of its key -/
def extract (identifier : String) (condition : Condition) : Datasource :=
  ⟨identifier, none, [⟨"id", "local.id", false, false⟩, ⟨"cat", "local.cat", true, false⟩], Grain.ofList ["local.id"], none,
    some condition⟩

/-- a key and its property, which is extracted under two conditions -/
def extracts (low high : Condition) : Environment :=
  ⟨.ofList [("local.id", .key "id" .integer), ("local.cat", .property "cat" .string ["local.id"])],
    .ofList [("low", extract "low" low), ("high", extract "high" high)]⟩

theorem values_extracts (low high : Condition) :
    (extracts low high).datasources.values = [extract "high" high, extract "low" low] := by
  have hbefore : Sorts.before "high" "low" = true := by decide
  simp only [extracts, SortedMap.ofList, SortedMap.insert, SortedMap.values, List.foldl_cons, List.foldl_nil]
  simp only [SortedMap.empty, SortedMap.insertInto, hbefore, if_true, List.map_cons, List.map_nil]

/-- a comparison of the key with a value -/
def bound (op : ComparisonOp) (v : Int) : Condition := .comparison (.concept "local.id") op (.literal (.integer v))

/-- both concepts of the extracts -/
def wanted : List Concept := [.key "id" .integer, .property "cat" .string ["local.id"]]

theorem boundsIntegers_extracts {op op' : ComparisonOp} {v w : Int} (hv : v.natAbs < 2 ^ 52) (hw : w.natAbs < 2 ^ 52) :
    ∀ d ∈ (extracts (bound op v) (bound op' w)).datasources.values, ∀ c, d.nonPartialFor = some c →
      BoundsIntegers (extracts (bound op v) (bound op' w)) c := by
  intro d hd c hc
  rw [values_extracts] at hd
  rcases List.mem_cons.1 hd with rfl | hd
  · cases hc
    exact ⟨"local.id", ⟨rfl, hw⟩, rfl⟩
  · cases List.mem_singleton.1 hd
    cases hc
    exact ⟨"local.id", ⟨rfl, hv⟩, rfl⟩

/-- at most 10, and above 10 -/
theorem unions_cover_aboveTen : ∃ group, group ∈ unions (extracts (bound .lte 10) (bound .gt 10)) wanted ∧
    group.map Datasource.identifier = ["high", "low"] ∧
    ∃ x, (∀ row, ∃ d ∈ group, CompleteFor d row) ∧ group.Pairwise fun d e => Meet x (CompleteFor d) (CompleteFor e) := by
  have hmem : (extracts (bound .lte 10) (bound .gt 10)).datasources.values ∈
      unions (extracts (bound .lte 10) (bound .gt 10)) wanted := List.mem_of_getElem? (i := 0) rfl
  exact ⟨_, hmem, rfl, unions_cover hmem (boundsIntegers_extracts (by decide) (by decide))⟩

/-- **at most 10, and at least 10: both extracts are read, and a row with the value 10 is in both** -/
theorem ten_covered_twice : ∃ group, group ∈ unions (extracts (bound .lte 10) (bound .gte 10)) wanted ∧
    (∀ d ∈ group, ∀ c, d.nonPartialFor = some c → BoundsIntegers (extracts (bound .lte 10) (bound .gte 10)) c) ∧
    ¬ ∀ row, ∃! i : Fin group.length, CompleteFor (group.get i) row := by
  refine ⟨(extracts (bound .lte 10) (bound .gte 10)).datasources.values, List.mem_of_getElem? (i := 0) rfl,
    boundsIntegers_extracts (by decide) (by decide), fun h => ?_⟩
  obtain ⟨i, -, honly⟩ := h fun _ => 10
  have hhigh := honly ⟨0, by decide⟩ ⟨_, rfl, 10, 10, rfl, rfl, Int.le_refl 10⟩
  have hlow := honly ⟨1, by decide⟩ ⟨_, rfl, 10, 10, rfl, rfl, Int.le_refl 10⟩
  cases hhigh.trans hlow.symm

end Extracts

end SemanticPlanner
