/-
The written form of a condition is read in one way.

  Condition.WellNamed   no float is written, and every concept is addressed by identifiers with dots between them
  sign_inj              a comparison and what it compares with are told, although `is` begins `is not`
  ne_signed             no condition up to a blank is an operand up to the sign behind it
  Condition.readsOnce   a condition and what is written behind it, up to a mark, are told by the text
  display_inj           conditions with one text are the same

A bracket may open an expression or a condition. The text behind it decides: after an operand stands one of four signs,
and after a condition a word.
-/
import SemanticPlanner.Proofs.ExprText
import SemanticPlanner.Proofs.Substitution

namespace SemanticPlanner

/-! ## Signs -/

namespace ComparisonOp

/-- one sign with a blank behind it begins another one in a single case -/
theorem eq_or_is_of_begins {o p : ComparisonOp} (h : o.sign.toList ++ [' '] <+: p.sign.toList ++ [' ']) :
    o = p ∨ o = .is ∧ p = .isNot := by
  revert h
  cases o <;> cases p <;> decide

theorem eq_of_begins {o p : ComparisonOp} {y z : List Char} (hy : ∀ u, y ≠ "not".toList ++ ' ' :: u)
    (hbegins : o.sign.toList ++ [' '] <+: p.sign.toList ++ [' '])
    (h : o.sign.toList ++ ' ' :: y = p.sign.toList ++ ' ' :: z) : o = p := by
  rcases eq_or_is_of_begins hbegins with rfl | ⟨rfl, rfl⟩
  · rfl
  · simp [sign] at h
    exact absurd h (by simpa using hy z)

/-- the comparison is told by its sign, if `not` is not what it compares with -/
theorem sign_inj {o p : ComparisonOp} {y z : List Char} (hy : ∀ u, y ≠ "not".toList ++ ' ' :: u)
    (hz : ∀ u, z ≠ "not".toList ++ ' ' :: u) (h : o.sign.toList ++ ' ' :: y = p.sign.toList ++ ' ' :: z) :
    o = p ∧ y = z := by
  have heq : o = p := by
    have hleft : o.sign.toList ++ [' '] <+: o.sign.toList ++ ' ' :: y := ⟨y, by simp⟩
    have hright : p.sign.toList ++ [' '] <+: o.sign.toList ++ ' ' :: y := ⟨z, by simp [h]⟩
    rcases List.prefix_or_prefix_of_prefix hleft hright with hbegins | hbegins
    · exact eq_of_begins hy hbegins h
    · exact (eq_of_begins hz hbegins h.symm).symm
  subst heq
  exact ⟨rfl, List.tail_eq_of_cons_eq (List.append_cancel_left h)⟩

/-- a sign of a comparison is none between operands -/
theorem sign_ne {o : ComparisonOp} {p : FunctionOp} {t : String} {y z : List Char} (h : p.sign? = some t) :
    o.sign.toList ++ ' ' :: y ≠ t.toList ++ ' ' :: z := by
  cases p <;> simp [FunctionOp.sign?] at h <;> subst h <;> cases o <;> simp [sign]

end ComparisonOp

namespace Condition

/-! ## Texts -/

/-- no float is written, and every concept is addressed by identifiers with dots between them -/
structure WellNamed (c : Condition) : Prop where
  floatless : c.Each fun l => ∀ x, l ≠ .float x
  dotted : ∀ a ∈ c.concepts, Address.IsDotted a

/-- the expressions are legible, and the sources of membership tests have a dot and no mark -/
def Legible : Condition → Prop
  | comparison l _ r => l.Legible ∧ r.Legible
  | membership l _ r => l.Legible ∧ Address.Clear r
  | and l r => Legible l ∧ Legible r
  | or l r => Legible l ∧ Legible r
  | not c => Legible c

theorem subset_collectExistence (c : Condition) (out : List String) : out ⊆ c.collectExistence out := by
  induction c generalizing out with
  | comparison => exact List.Subset.refl _
  | membership => exact fun a ha => mem_addNew.2 (Or.inl ha)
  | and l r ihl ihr => exact List.Subset.trans (ihl out) (ihr _)
  | or l r ihl ihr => exact List.Subset.trans (ihl out) (ihr _)
  | not c ih => exact ih out

theorem legible_of {c : Condition} {out : List String} (hfloat : c.Each fun l => ∀ x, l ≠ .float x)
    (hrow : ∀ a, c.mentions a = true → Address.IsDotted a) (hout : ∀ a ∈ c.collectExistence out, Address.IsDotted a) :
    c.Legible := by
  induction c generalizing out with
  | comparison l o r =>
    simp only [mentions, Bool.or_eq_true] at hrow
    exact ⟨Expr.legible_of (fun a ha => hrow a (Or.inl ha)) hfloat.1,
      Expr.legible_of (fun a ha => hrow a (Or.inr ha)) hfloat.2⟩
  | membership l o r =>
    exact ⟨Expr.legible_of hrow hfloat, (hout r (mem_addNew.2 (Or.inr rfl))).clear⟩
  | and l r ihl ihr =>
    simp only [mentions, Bool.or_eq_true] at hrow
    exact ⟨ihl hfloat.1 (fun a ha => hrow a (Or.inl ha)) fun a ha => hout a (subset_collectExistence r _ ha),
      ihr hfloat.2 (fun a ha => hrow a (Or.inr ha)) hout⟩
  | or l r ihl ihr =>
    simp only [mentions, Bool.or_eq_true] at hrow
    exact ⟨ihl hfloat.1 (fun a ha => hrow a (Or.inl ha)) fun a ha => hout a (subset_collectExistence r _ ha),
      ihr hfloat.2 (fun a ha => hrow a (Or.inr ha)) hout⟩
  | not c ih => exact ih hfloat hrow hout

theorem WellNamed.legible {c : Condition} (h : c.WellNamed) : c.Legible := by
  have hrow : ∀ a, c.mentions a = true → Address.IsDotted a := by
    intro a ha
    exact h.dotted a (mem_addAllNew.2 (Or.inl (mentions_iff.1 ha)))
  have hexistence : ∀ a ∈ c.collectExistence [], Address.IsDotted a := by
    intro a ha
    exact h.dotted a (mem_addAllNew.2 (Or.inr ha))
  exact legible_of h.floatless hrow hexistence

/-- the characters a condition is written with -/
def chars (c : Condition) : List Char := c.display.toList

/-- a test, up to what it compares with -/
def testText (l : Expr) (o : ComparisonOp) (y : List Char) : List Char := l.chars ++ ' ' :: (o.sign.toList ++ ' ' :: y)

/-- the source of a membership test, with `s` behind it -/
def sourceText (a : String) (s : List Char) : List Char := '(' :: ("select".toList ++ ' ' :: (a.toList ++ ')' :: s))

/-- two conditions with a word between them, up to the second one -/
def joinedText (l : Condition) (word : String) (y : List Char) : List Char :=
  '(' :: (l.chars ++ ' ' :: (word.toList ++ ' ' :: y))

/-- a negation, up to what it negates -/
def negatedText (y : List Char) : List Char := "not".toList ++ ' ' :: y

/-- the kinds of written conditions -/
inductive Kind where
  | test | joined | negated

/-- how a condition is written with `s` behind it -/
inductive Shape (s : List Char) : Condition → Kind → List Char → Prop
  | comparison {l : Expr} {o : ComparisonOp} {r : Expr} (hl : l.Legible) (hr : r.Legible) :
    Shape s (comparison l o r) .test (testText l o (r.chars ++ s))
  | membership {l : Expr} {o : ComparisonOp} {a : String} (hl : l.Legible) (ha : Address.Clear a) :
    Shape s (membership l o a) .test (testText l o (sourceText a s))
  | and {l r : Condition} (hl : l.Legible) (hr : r.Legible) :
    Shape s (and l r) .joined (joinedText l "and" (r.chars ++ ')' :: s))
  | or {l r : Condition} (hl : l.Legible) (hr : r.Legible) :
    Shape s (or l r) .joined (joinedText l "or" (r.chars ++ ')' :: s))
  | not {c : Condition} (hc : c.Legible) : Shape s (not c) .negated (negatedText (c.chars ++ s))

variable {c d : Condition} {k j : Kind} {r s x y z w : List Char}

theorem Shape.eq (h : Shape s c k x) : c.chars ++ s = x := by
  cases h with
  | comparison => simp [testText, chars, display, Expr.chars]
  | membership => simp [testText, sourceText, chars, display, Expr.chars]
  | and => simp [joinedText, chars, display]
  | or => simp [joinedText, chars, display]
  | not => simp [negatedText, chars, display]

theorem exists_shape (h : c.Legible) (s : List Char) : ∃ k x, Shape s c k x := by
  cases c with
  | comparison l o r => exact ⟨_, _, .comparison h.1 h.2⟩
  | membership l o a => exact ⟨_, _, .membership h.1 h.2⟩
  | and l r => exact ⟨_, _, .and h.1 h.2⟩
  | or l r => exact ⟨_, _, .or h.1 h.2⟩
  | not c => exact ⟨_, _, .not h⟩

/-! ## How conditions begin -/

/-- no operand with the sign behind it is the condition up to a blank -/
def NeverSigned (c : Condition) : Prop := ∀ {e : Expr} {o : FunctionOp} {t : String} {x y : List Char}, e.Legible →
  o.sign? = some t → c.chars ++ ' ' :: x ≠ e.chars ++ ' ' :: (t.toList ++ ' ' :: y)

theorem testText_ne_signed {l e : Expr} {p : ComparisonOp} {o : FunctionOp} {t : String} (hl : l.Legible)
    (he : e.Legible) (ho : o.sign? = some t) : testText l p z ≠ e.chars ++ ' ' :: (t.toList ++ ' ' :: y) := by
  intro h
  obtain ⟨-, hbehind⟩ := Expr.readsOnce l hl he stops_blank stops_blank h
  exact ComparisonOp.sign_ne ho (List.tail_eq_of_cons_eq hbehind)

/-- an expression in brackets has a sign, which two conditions in brackets do not -/
theorem joinedText_ne_expr {word : String} {e : Expr} (hc : c.NeverSigned) (he : e.Legible) (hr : Stops r) :
    joinedText c word z ≠ e.chars ++ r := by
  intro h
  rcases Expr.begins_with_mark he hr (by decide) h.symm with hquote | ⟨-, o, t, a, b, -, ho, ha, -, hbehind⟩
  · exact absurd hquote (by decide)
  · exact hc ha ho hbehind

theorem negatedText_ne_expr {e : Expr} (he : e.Legible) (hr : Stops r) : negatedText z ≠ e.chars ++ r := by
  intro h
  exact Expr.ne_word (Or.inl rfl) he hr h.symm

/-- **no condition up to a blank is an operand up to the sign behind it** -/
theorem neverSigned (hc : c.Legible) : c.NeverSigned := by
  induction c with
  | comparison l p r =>
    intro e o t x y he ho
    rw [Shape.eq (.comparison hc.1 hc.2)]
    exact testText_ne_signed hc.1 he ho
  | membership l p a =>
    intro e o t x y he ho
    rw [Shape.eq (.membership hc.1 hc.2)]
    exact testText_ne_signed hc.1 he ho
  | and l r ihl _ =>
    intro e o t x y he _
    rw [Shape.eq (.and hc.1 hc.2)]
    exact joinedText_ne_expr (ihl hc.1) he stops_blank
  | or l r ihl _ =>
    intro e o t x y he _
    rw [Shape.eq (.or hc.1 hc.2)]
    exact joinedText_ne_expr (ihl hc.1) he stops_blank
  | not c _ =>
    intro e o t x y he _
    rw [Shape.eq (.not (show c.Legible from hc))]
    exact negatedText_ne_expr he stops_blank

/-- what a text is that is written in a kind -/
def Kind.Describes : Kind → List Char → Prop
  | .test, x => ∃ l o y, l.Legible ∧ x = testText l o y
  | .joined, x => ∃ c word y, c.Legible ∧ x = joinedText c word y
  | .negated, x => ∃ y, x = negatedText y

theorem Shape.describes (h : Shape s c k x) : k.Describes x := by
  cases h with
  | comparison hl => exact ⟨_, _, _, hl, rfl⟩
  | membership hl => exact ⟨_, _, _, hl, rfl⟩
  | and hl => exact ⟨_, _, _, hl, rfl⟩
  | or hl => exact ⟨_, _, _, hl, rfl⟩
  | not => exact ⟨_, rfl⟩

/-- the kind is told by the text -/
theorem Kind.eq_of_describes (hk : k.Describes x) (hj : j.Describes x) : k = j := by
  cases k with
  | test =>
    obtain ⟨l, o, y, hl, rfl⟩ := hk
    cases j with
    | test => rfl
    | joined =>
      obtain ⟨c, word, z, hc, h⟩ := hj
      exact absurd h.symm (joinedText_ne_expr (neverSigned hc) hl stops_blank)
    | negated =>
      obtain ⟨z, h⟩ := hj
      exact absurd h.symm (negatedText_ne_expr hl stops_blank)
  | joined =>
    obtain ⟨c, word, y, hc, rfl⟩ := hk
    cases j with
    | test =>
      obtain ⟨l, o, z, hl, h⟩ := hj
      exact absurd h (joinedText_ne_expr (neverSigned hc) hl stops_blank)
    | joined => rfl
    | negated =>
      obtain ⟨z, h⟩ := hj
      simp [joinedText, negatedText] at h
  | negated =>
    obtain ⟨y, rfl⟩ := hk
    cases j with
    | test =>
      obtain ⟨l, o, z, hl, h⟩ := hj
      exact absurd h (negatedText_ne_expr hl stops_blank)
    | joined =>
      obtain ⟨c, word, z, hc, h⟩ := hj
      simp [joinedText, negatedText] at h
    | negated => rfl

/-- texts that agree have the same shape -/
theorem same_shapes (hc : c.Legible) (hd : d.Legible) (h : c.chars ++ r = d.chars ++ s) :
    ∃ k x y, Shape r c k x ∧ Shape s d k y ∧ x = y := by
  obtain ⟨k, x, hx⟩ := exists_shape hc r
  obtain ⟨j, y, hy⟩ := exists_shape hd s
  have hxy : x = y := hx.eq.symm.trans (h.trans hy.eq)
  subst hxy
  obtain rfl := Kind.eq_of_describes hx.describes hy.describes
  exact ⟨k, x, x, hx, hy, rfl⟩

/-! ## Reading conditions -/

/-- the condition and what is written behind it, up to a mark, are told by the text -/
def ReadsOnce (c : Condition) : Prop := ∀ {d : Condition} {r s : List Char}, c.Legible → d.Legible → Stops r →
  Stops s → c.chars ++ r = d.chars ++ s → c = d ∧ r = s

theorem sourceText_ne_expr {e : Expr} {a : String} (he : e.Legible) (hr : Stops r) : e.chars ++ r ≠ sourceText a s := by
  intro h
  rcases Expr.begins_with_mark he hr (by decide) h with hquote | ⟨-, o, t, d, b, -, -, hd, -, hbehind⟩
  · exact absurd hquote (by decide)
  · exact Expr.ne_word (Or.inr rfl) hd stops_blank hbehind.symm

theorem sourceText_inj {a b : String} (ha : Address.Clear a) (hb : Address.Clear b)
    (h : sourceText a r = sourceText b s) : a = b ∧ r = s := by
  simp only [sourceText, List.cons.injEq, true_and, List.append_cancel_left_eq] at h
  obtain ⟨hsource, hrest⟩ := append_inj_of_span ha.plain hb.plain (by simp [marks]) (by simp [marks]) h
  exact ⟨String.toList_inj.1 hsource, List.tail_eq_of_cons_eq hrest⟩

theorem testText_inj {l m : Expr} {o p : ComparisonOp} (hl : l.Legible) (hm : m.Legible)
    (hy : ∀ u, y ≠ negatedText u) (hz : ∀ u, z ≠ negatedText u) (h : testText l o y = testText m p z) :
    l = m ∧ o = p ∧ y = z := by
  obtain ⟨hleft, hbehind⟩ := Expr.readsOnce l hl hm stops_blank stops_blank h
  exact ⟨hleft, ComparisonOp.sign_inj hy hz (List.tail_eq_of_cons_eq hbehind)⟩

theorem joinedText_inj {word other : String} (hread : c.ReadsOnce) (hc : c.Legible) (hd : d.Legible)
    (h : joinedText c word y = joinedText d other z) : c = d ∧ word.toList ++ ' ' :: y = other.toList ++ ' ' :: z := by
  obtain ⟨hleft, hbehind⟩ := hread hc hd stops_blank stops_blank (List.tail_eq_of_cons_eq h)
  exact ⟨hleft, List.tail_eq_of_cons_eq hbehind⟩

/-- two conditions in brackets with one word between them are told, if each of them is -/
theorem pair_inj {l m n : Condition} {word : String} (hread : l.ReadsOnce) (hread' : c.ReadsOnce) (hl : l.Legible)
    (hm : m.Legible) (hc : c.Legible) (hn : n.Legible)
    (h : joinedText l word (c.chars ++ ')' :: r) = joinedText m word (n.chars ++ ')' :: s)) :
    l = m ∧ c = n ∧ r = s := by
  obtain ⟨hleft, hbehind⟩ := joinedText_inj hread hl hm h
  obtain ⟨hright, hrest⟩ := hread' hc hn stops_close stops_close (List.tail_eq_of_cons_eq (List.append_cancel_left hbehind))
  exact ⟨hleft, hright, List.tail_eq_of_cons_eq hrest⟩

theorem expr_ne_negatedText {e : Expr} (he : e.Legible) (hr : Stops r) : ∀ u, e.chars ++ r ≠ negatedText u :=
  fun _ h => negatedText_ne_expr he hr h.symm

theorem sourceText_ne_negatedText {a : String} : ∀ u, sourceText a s ≠ negatedText u := by
  intro u h
  simp [sourceText, negatedText] at h

theorem readsOnce_comparison (l : Expr) (o : ComparisonOp) (e : Expr) : ReadsOnce (comparison l o e) := by
  intro d r s hc hd hr hs h
  obtain ⟨k, x, y, hx, hy, htext⟩ := same_shapes hc hd h
  cases hx with
  | comparison hl he =>
    cases hy with
    | comparison hm hf =>
      obtain ⟨rfl, rfl, hright⟩ := testText_inj hl hm (expr_ne_negatedText he hr) (expr_ne_negatedText hf hs) htext
      obtain ⟨rfl, hrest⟩ := Expr.readsOnce e he hf hr hs hright
      exact ⟨rfl, hrest⟩
    | membership hm _ =>
      obtain ⟨-, -, hright⟩ := testText_inj hl hm (expr_ne_negatedText he hr) sourceText_ne_negatedText htext
      exact absurd hright (sourceText_ne_expr he hr)

theorem readsOnce_membership (l : Expr) (o : ComparisonOp) (a : String) : ReadsOnce (membership l o a) := by
  intro d r s hc hd hr hs h
  obtain ⟨k, x, y, hx, hy, htext⟩ := same_shapes hc hd h
  cases hx with
  | membership hl ha =>
    cases hy with
    | comparison hm hf =>
      obtain ⟨-, -, hright⟩ := testText_inj hl hm sourceText_ne_negatedText (expr_ne_negatedText hf hs) htext
      exact absurd hright.symm (sourceText_ne_expr hf hs)
    | membership hm hb =>
      obtain ⟨rfl, rfl, hright⟩ := testText_inj hl hm sourceText_ne_negatedText sourceText_ne_negatedText htext
      obtain ⟨rfl, hrest⟩ := sourceText_inj ha hb hright
      exact ⟨rfl, hrest⟩

theorem readsOnce_and (hread : c.ReadsOnce) (hread' : d.ReadsOnce) : ReadsOnce (and c d) := by
  intro n r s hc hn hr hs h
  obtain ⟨k, x, y, hx, hy, htext⟩ := same_shapes hc hn h
  cases hx with
  | and hl he =>
    cases hy with
    | and hm hf =>
      obtain ⟨rfl, rfl, hrest⟩ := pair_inj hread hread' hl hm he hf htext
      exact ⟨rfl, hrest⟩
    | or hm _ =>
      obtain ⟨-, hword⟩ := joinedText_inj hread hl hm htext
      simp at hword

theorem readsOnce_or (hread : c.ReadsOnce) (hread' : d.ReadsOnce) : ReadsOnce (or c d) := by
  intro n r s hc hn hr hs h
  obtain ⟨k, x, y, hx, hy, htext⟩ := same_shapes hc hn h
  cases hx with
  | or hl he =>
    cases hy with
    | and hm _ =>
      obtain ⟨-, hword⟩ := joinedText_inj hread hl hm htext
      simp at hword
    | or hm hf =>
      obtain ⟨rfl, rfl, hrest⟩ := pair_inj hread hread' hl hm he hf htext
      exact ⟨rfl, hrest⟩

theorem readsOnce_not (hread : c.ReadsOnce) : ReadsOnce (not c) := by
  intro n r s hc hn hr hs h
  obtain ⟨k, x, y, hx, hy, htext⟩ := same_shapes hc hn h
  cases hx with
  | not hinner =>
    cases hy with
    | @not d hinner' =>
      have hinside : c.chars ++ r = d.chars ++ s := List.tail_eq_of_cons_eq (List.append_cancel_left htext)
      obtain ⟨rfl, hrest⟩ := hread hinner hinner' hr hs hinside
      exact ⟨rfl, hrest⟩

/-- **every condition is read in one way** -/
theorem readsOnce (c : Condition) : ReadsOnce c := by
  induction c with
  | comparison l o e => exact readsOnce_comparison l o e
  | membership l o a => exact readsOnce_membership l o a
  | and c d ihc ihd => exact readsOnce_and ihc ihd
  | or c d ihc ihd => exact readsOnce_or ihc ihd
  | not c ih => exact readsOnce_not ih

/-- **conditions with one text are the same** -/
theorem display_inj (hc : c.WellNamed) (hd : d.WellNamed) (h : c.display = d.display) : c = d := by
  have htext : c.chars ++ [] = d.chars ++ [] := by rw [chars, chars, h]
  exact (readsOnce c hc.legible hd.legible stops_nil stops_nil htext).1

end Condition

end SemanticPlanner
