/-
The written form of an expression is read in one way.

  Address.IsDotted    at least two identifiers with dots between them
  Expr.Legible        no float is written, and every address has a dot and no mark
  Parts               the plain characters that an expression begins with, and what is behind them
  same_parts          where texts agree, the expressions have the same parts, and are of one form
  Expr.readsOnce      an expression and what is written behind it, up to a mark, are told by the text

A quoted text begins with a mark, and so do two operands with a sign between them; behind the name of a function or of an
aggregate a bracket opens. Of what else there is, an address has a dot and a literal has none.
-/
import SemanticPlanner.Proofs.ItemByItem
import SemanticPlanner.Proofs.Literals
import SemanticPlanner.Text.Address

namespace SemanticPlanner

/-! ## Characters -/

/-- the characters that end a name, a number or a keyword -/
def marks : List Char := [' ', '(', ')', ',', '\'']

/-- what may follow a written expression: nothing, a blank, a bracket or a comma -/
def Stops (r : List Char) : Prop := ∀ c ∈ r.head?, c = ' ' ∨ c = ')' ∨ c = ','

theorem stops_nil : Stops [] := nofun

theorem stops_cons {c : Char} {r : List Char} (h : c = ' ' ∨ c = ')' ∨ c = ',') : Stops (c :: r) := by
  intro x hx
  cases hx
  exact h

theorem stops_blank {r : List Char} : Stops (' ' :: r) := stops_cons (Or.inl rfl)

theorem stops_close {r : List Char} : Stops (')' :: r) := stops_cons (Or.inr (Or.inl rfl))

theorem stops_comma {r : List Char} : Stops (',' :: r) := stops_cons (Or.inr (Or.inr rfl))

theorem Stops.marks {r : List Char} (h : Stops r) : ∀ c ∈ r.head?, ¬ c ∉ marks := by
  intro c hc
  rcases h c hc with rfl | rfl | rfl
  · decide
  · decide
  · decide

namespace Address

/-- a letter, a digit or an underscore; beyond ASCII every character counts as a letter -/
def isWordChar (c : Char) : Bool := c.isAlphanum || c == '_' || decide (128 ≤ c.toNat)

/-- a name of letters, digits and underscores that does not begin with a digit -/
def IsIdentifier (name : String) : Prop :=
  name ≠ "" ∧ (∀ c ∈ name.toList, isWordChar c = true) ∧ ∀ c ∈ name.toList.head?, c.isDigit = false

/-- at least two identifiers with dots between them -/
def IsDotted (address : String) : Prop :=
  2 ≤ (segments address).length ∧ ∀ s ∈ segments address, IsIdentifier s

/-- the address has a dot, and no mark -/
structure Clear (address : String) : Prop where
  dot : '.' ∈ address.toList
  plain : ∀ c ∈ address.toList, c ∉ marks

/-- identifiers with dots between them are clear -/
theorem IsDotted.clear {address : String} (h : IsDotted address) : Clear address := by
  obtain ⟨hlength, hwords⟩ := h
  constructor
  · by_contra hdot
    rw [segments, Text.splitAt, Text.splitChar_of_notMem hdot] at hlength
    simp at hlength
  · intro c hc
    by_cases hdot : c = '.'
    · subst hdot
      decide
    · obtain ⟨p, hp, hcp⟩ := Text.exists_mem_splitChar hc hdot
      have hsegment : String.ofList p ∈ segments address := List.mem_map_of_mem hp
      have hword := (hwords _ hsegment).2.1 c (by simpa using hcp)
      have hmarks : ∀ c ∈ marks, isWordChar c = false := by simp [marks, isWordChar]
      intro hmark
      rw [hmarks c hmark] at hword
      cases hword

end Address

/-! ## Literals -/

namespace Literal

variable {l k : Literal}

/-- an integer is written with digits, and a minus -/
theorem mem_display_integer {n : ℤ} {c : Char} (h : c ∈ (integer n).display.toList) : c.isDigit = true ∨ c = '-' := by
  have hdigits : ∀ k : ℕ, c ∈ k.repr.toList → c.isDigit = true := by
    intro k hk
    rw [Nat.repr_eq_ofList_toDigits, String.toList_ofList] at hk
    exact Nat.isDigit_of_mem_toDigits (by decide) (by decide) hk
  change c ∈ n.repr.toList at h
  rw [Int.repr_eq_if] at h
  split at h
  · exact Or.inl (hdigits _ h)
  · rw [String.toList_append, List.mem_append] at h
    rcases h with h | h
    · exact Or.inr (List.mem_singleton.1 h)
    · exact Or.inl (hdigits _ h)

/-- a literal that is written without quotes and without a fraction -/
def Unquoted (l : Literal) : Prop := (∀ s, l ≠ text s) ∧ ∀ x, l ≠ float x

/-- what holds of digits, of the minus and of the letters of the keywords -/
theorem Unquoted.of_chars {P : Char → Prop} (h : l.Unquoted) (hdigit : ∀ c : Char, c.isDigit = true ∨ c = '-' → P c)
    (hletter : ∀ c ∈ "truefalsn".toList, P c) : ∀ c ∈ l.display.toList, P c := by
  intro c hc
  cases l with
  | integer n => exact hdigit c (mem_display_integer hc)
  | float x => exact absurd rfl (h.2 x)
  | text s => exact absurd rfl (h.1 s)
  | boolean b =>
    have hsub : (boolean b).display.toList ⊆ "truefalsn".toList := by cases b <;> simp [display]
    exact hletter c (hsub hc)
  | null =>
    have hsub : null.display.toList ⊆ "truefalsn".toList := by simp [display]
    exact hletter c (hsub hc)

theorem Unquoted.plain (h : l.Unquoted) : ∀ c ∈ l.display.toList, c ∉ marks := by
  have hmarks : ∀ c ∈ marks, ¬ (c.isDigit = true ∨ c = '-') := by simp [marks]
  exact h.of_chars (fun c hc hmark => hmarks c hmark hc) (by simp [marks])

theorem Unquoted.no_dot (h : l.Unquoted) : '.' ∉ l.display.toList := by
  intro hdot
  refine h.of_chars (P := fun c => c ≠ '.') ?_ (by simp) '.' hdot rfl
  rintro c hc rfl
  exact absurd hc (by decide)

theorem Unquoted.ne_nil (h : l.Unquoted) : l.display.toList ≠ [] := by
  cases l with
  | integer n =>
    change n.repr.toList ≠ []
    rw [Int.repr_eq_if]
    split
    · simp
    · simp
  | float x => exact absurd rfl (h.2 x)
  | text s => exact absurd rfl (h.1 s)
  | boolean b => cases b <;> decide
  | null => decide

/-- no digit is a letter -/
theorem not_isAlpha_of_isDigit {c : Char} (h : c.isDigit = true) : c.isAlpha = false := by
  have hle : c.toNat ≤ 57 := by
    simp only [Char.isDigit, Bool.and_eq_true, decide_eq_true_eq, UInt32.le_iff_toNat_le] at h
    exact h.2
  simp [Char.isAlpha, Char.isUpper, Char.isLower, UInt32.le_iff_toNat_le]
  omega

/-- a word with a letter is not how an integer is written -/
theorem display_integer_ne {w : String} (n : ℤ) (hw : ∃ c ∈ w.toList, c.isAlpha = true) : (integer n).display ≠ w := by
  rintro rfl
  obtain ⟨c, hc, halpha⟩ := hw
  rcases mem_display_integer hc with h | rfl
  · rw [not_isAlpha_of_isDigit h] at halpha
    cases halpha
  · exact absurd halpha (by decide)

/-- what is written without quotes and is no integer is a keyword -/
theorem exists_isAlpha_boolean (b : Bool) : ∃ c ∈ (boolean b).display.toList, c.isAlpha = true :=
  ⟨'e', by cases b <;> simp [display], by decide⟩

theorem Unquoted.display_inj (hl : l.Unquoted) (hk : k.Unquoted) (h : l.display = k.display) : l = k := by
  have hnull : ∃ c ∈ null.display.toList, c.isAlpha = true := ⟨'n', by simp [display], by decide⟩
  cases l with
  | integer n =>
    cases k with
    | integer m => exact congrArg integer (Int.repr_inj.1 h)
    | boolean b => exact absurd h (display_integer_ne n (exists_isAlpha_boolean b))
    | null => exact absurd h (display_integer_ne n hnull)
    | float x => exact absurd rfl (hk.2 x)
    | text s => exact absurd rfl (hk.1 s)
  | boolean b =>
    cases k with
    | integer m => exact absurd h.symm (display_integer_ne m (exists_isAlpha_boolean b))
    | boolean c => cases b <;> cases c <;> simp [display] at h ⊢
    | null => cases b <;> simp [display] at h
    | float x => exact absurd rfl (hk.2 x)
    | text s => exact absurd rfl (hk.1 s)
  | null =>
    cases k with
    | integer m => exact absurd h.symm (display_integer_ne m hnull)
    | boolean c => cases c <;> simp [display] at h
    | null => rfl
    | float x => exact absurd rfl (hk.2 x)
    | text s => exact absurd rfl (hk.1 s)
  | float x => exact absurd rfl (hl.2 x)
  | text s => exact absurd rfl (hl.1 s)

/-- `not` and `select` are none of the keywords -/
theorem Unquoted.ne_word (hl : l.Unquoted) {w : String} (hw : w = "not" ∨ w = "select") : l.display ≠ w := by
  cases l with
  | integer n => exact display_integer_ne n ⟨'t', by rcases hw with rfl | rfl <;> simp, by decide⟩
  | float x => exact absurd rfl (hl.2 x)
  | text s => exact absurd rfl (hl.1 s)
  | boolean b => rcases hw with rfl | rfl <;> cases b <;> simp [display]
  | null => rcases hw with rfl | rfl <;> simp [display]

/-- a quoted text ends at the first quote that is not doubled -/
theorem quoted_inj {xs ys r s : List Char} (hr : Stops r) (hs : Stops s)
    (h : doubleQuotes xs ++ '\'' :: r = doubleQuotes ys ++ '\'' :: s) : xs = ys ∧ r = s := by
  have hquote : ∀ {t u : List Char}, Stops t → t ≠ '\'' :: u := by
    rintro t u ht rfl
    exact absurd (ht '\'' rfl) (by decide)
  induction xs generalizing ys with
  | nil =>
    cases ys with
    | nil => exact ⟨rfl, List.tail_eq_of_cons_eq h⟩
    | cons y ys =>
      by_cases hy : y = '\''
      · simp [doubleQuotes, hy] at h
        exact absurd h (hquote hr)
      · simp [doubleQuotes, hy] at h
        exact absurd h.1.symm hy
  | cons x xs ih =>
    cases ys with
    | nil =>
      by_cases hx : x = '\''
      · simp [doubleQuotes, hx] at h
        exact absurd h.symm (hquote hs)
      · simp [doubleQuotes, hx] at h
    | cons y ys =>
      by_cases hx : x = '\''
      · by_cases hy : y = '\''
        · simp [doubleQuotes, hx, hy] at h
          obtain ⟨rfl, rfl⟩ := ih h
          exact ⟨by rw [hx, hy], rfl⟩
        · simp [doubleQuotes, hx, hy] at h
          exact absurd h.1.symm hy
      · by_cases hy : y = '\''
        · simp [doubleQuotes, hx, hy] at h
        · simp [doubleQuotes, hx, hy] at h
          obtain ⟨rfl, rfl⟩ := ih h.2
          exact ⟨by rw [h.1], rfl⟩

end Literal

/-! ## Operators -/

theorem FunctionOp.name_inj {o p : FunctionOp} (h : o.name = p.name) : o = p := by
  cases o <;> cases p <;> first | rfl | exact absurd h (by decide)

theorem AggregateOp.name_inj {o p : AggregateOp} (h : o.name = p.name) : o = p := by
  cases o <;> cases p <;> first | rfl | exact absurd h (by decide)

theorem FunctionOp.name_ne (o : FunctionOp) (p : AggregateOp) : o.name ≠ p.name := by
  cases o <;> cases p <;> decide

/-- the functions with a sign are told by it -/
theorem FunctionOp.sign_inj {o p : FunctionOp} (h : o.sign? = p.sign?) (ho : o.sign? ≠ none) : o = p := by
  revert h ho
  cases o <;> cases p <;> decide

theorem FunctionOp.sign_plain {o : FunctionOp} {s : String} (h : o.sign? = some s) : ∀ c ∈ s.toList, c ∉ marks := by
  cases o <;> simp [sign?] at h <;> subst h <;> simp [marks]

/-- what is called by a name -/
structure Called (name : String) : Prop where
  ne_nil : name.toList ≠ []
  plain : ∀ c ∈ name.toList, c ∉ marks

theorem FunctionOp.called (o : FunctionOp) : Called o.name := by
  cases o <;> constructor <;> simp [name, marks]

theorem AggregateOp.called (o : AggregateOp) : Called o.name := by
  cases o <;> constructor <;> simp [name, marks]

namespace Expr

/-! ## Texts -/

mutual

/-- no float is written, and every address has a dot and no mark -/
def Legible : Expr → Prop
  | concept a => Address.Clear a
  | literal l => ∀ x, l ≠ .float x
  | function _ args => LegibleAll args
  | aggregate _ args => LegibleAll args

def LegibleAll : List Expr → Prop
  | [] => True
  | e :: es => Legible e ∧ LegibleAll es

end

mutual

theorem legible_of : ∀ {e : Expr}, (∀ a, e.mentions a = true → Address.IsDotted a) → e.Each (fun l => ∀ x, l ≠ .float x) →
    e.Legible
  | concept a, h, _ => (h a (decide_eq_true rfl)).clear
  | literal _, _, hfloat => hfloat
  | function _ _, h, hfloat => legibleAll_of h hfloat
  | aggregate _ _, h, hfloat => legibleAll_of h hfloat

theorem legibleAll_of : ∀ {es : List Expr}, (∀ a, mentionsAny a es = true → Address.IsDotted a) →
    EachOf (fun l => ∀ x, l ≠ .float x) es → LegibleAll es
  | [], _, _ => trivial
  | e :: es, h, hfloat => by
    simp only [mentionsAny, Bool.or_eq_true] at h
    exact ⟨legible_of (fun a ha => h a (Or.inl ha)) hfloat.1, legibleAll_of (fun a ha => h a (Or.inr ha)) hfloat.2⟩

end

/-- the characters an expression is written with -/
def chars (e : Expr) : List Char := e.display.toList

/-- the further arguments of a call, and its end -/
def tailChars : List Expr → List Char
  | [] => [')']
  | e :: es => ',' :: ' ' :: (e.chars ++ tailChars es)

/-- the arguments of a call, and its end -/
def listChars : List Expr → List Char
  | [] => [')']
  | e :: es => e.chars ++ tailChars es

theorem toList_join_displayAll (e : Expr) (es : List Expr) :
    (Text.join ", " (displayAll (e :: es))).toList ++ [')'] = e.chars ++ tailChars es := by
  induction es generalizing e with
  | nil => simp [displayAll, Text.join, tailChars, chars]
  | cons d es ih =>
    have ih := ih d
    simp only [displayAll, Text.join, String.intercalate_cons_cons, String.toList_append, List.append_assoc] at ih ⊢
    rw [ih]
    simp [tailChars, chars]

theorem toList_call (name : String) (args : List Expr) :
    (name ++ "(" ++ Text.join ", " (displayAll args) ++ ")").toList = name.toList ++ '(' :: listChars args := by
  cases args with
  | nil => simp [displayAll, Text.join, listChars]
  | cons e es => simp [listChars, ← toList_join_displayAll]

theorem display_call {o : FunctionOp} {args : List Expr} (h : o.sign? = none ∨ args.length ≠ 2) :
    (function o args).display = o.name ++ "(" ++ Text.join ", " (displayAll args) ++ ")" := by
  rcases h with h | h
  · simp [display, h]
  · rcases args with _ | ⟨d, _ | ⟨e, _ | ⟨x, args⟩⟩⟩
    · simp [display, displayAll]
    · simp [display, displayAll]
    · exact absurd rfl h
    · simp [display, displayAll]

/-! ## How expressions begin -/

/-- the kinds of written expressions -/
inductive Form where
  | address | text | plain | signed | call

/-- the kind that is told by the plain characters at the beginning and what follows them -/
def Form.of (front behind : List Char) : Form :=
  if behind.head? = some '\'' then .text
  else if behind.head? = some '(' then if front = [] then .signed else .call
  else if '.' ∈ front then .address else .plain

/-- the plain characters that an expression begins with, and what is behind them when `r` is written after it -/
inductive Parts (r : List Char) : Expr → Form → List Char → List Char → Prop
  | concept {a : String} (h : Address.Clear a) : Parts r (concept a) .address a.toList r
  | text (s : String) : Parts r (literal (.text s)) .text [] ('\'' :: (Literal.doubleQuotes s.toList ++ '\'' :: r))
  | plain {l : Literal} (h : l.Unquoted) : Parts r (literal l) .plain l.display.toList r
  | signed {o : FunctionOp} {s : String} {d e : Expr} (hs : o.sign? = some s) (hd : d.Legible) (he : e.Legible) :
    Parts r (function o [d, e]) .signed [] ('(' :: (d.chars ++ ' ' :: (s.toList ++ ' ' :: (e.chars ++ ')' :: r))))
  | function {o : FunctionOp} {args : List Expr} (hcall : o.sign? = none ∨ args.length ≠ 2) (h : LegibleAll args) :
    Parts r (function o args) .call o.name.toList ('(' :: (listChars args ++ r))
  | aggregate {o : AggregateOp} {args : List Expr} (h : LegibleAll args) :
    Parts r (aggregate o args) .call o.name.toList ('(' :: (listChars args ++ r))

variable {d e : Expr} {f g : Form} {r s x y z w : List Char}

theorem exists_parts (h : e.Legible) (r : List Char) : ∃ f x y, Parts r e f x y ∧ e.chars ++ r = x ++ y := by
  cases e with
  | concept a => exact ⟨_, _, _, .concept h, rfl⟩
  | literal l =>
    by_cases htext : ∃ t, l = .text t
    · obtain ⟨t, rfl⟩ := htext
      exact ⟨_, _, _, .text t, by simp [chars, display, Literal.display]⟩
    · exact ⟨_, _, _, .plain ⟨fun t ht => htext ⟨t, ht⟩, h⟩, by simp [chars, display]⟩
  | function o args =>
    by_cases hcall : o.sign? = none ∨ args.length ≠ 2
    · exact ⟨_, _, _, .function hcall h, by rw [chars, display_call hcall, toList_call, List.append_assoc]; rfl⟩
    · rw [not_or, not_not, List.length_eq_two] at hcall
      obtain ⟨hsign, d, e, rfl⟩ := hcall
      obtain ⟨s, hs⟩ := Option.ne_none_iff_exists'.1 hsign
      exact ⟨_, _, _, .signed hs h.1 h.2.1, by simp [chars, display, displayAll, hs]⟩
  | aggregate o args => exact ⟨_, _, _, .aggregate h, by rw [chars, display, toList_call, List.append_assoc]; rfl⟩

theorem Parts.front_plain (h : Parts r e f x y) : ∀ c ∈ x, c ∉ marks := by
  cases h with
  | concept h => exact h.plain
  | text => nofun
  | plain h => exact h.plain
  | signed => nofun
  | function => exact (FunctionOp.called _).plain
  | aggregate => exact (AggregateOp.called _).plain

theorem Parts.behind_mark (h : Parts r e f x y) (hr : Stops r) : ∀ c ∈ y.head?, ¬ c ∉ marks := by
  cases h with
  | concept => exact hr.marks
  | plain => exact hr.marks
  | text => simp [marks]
  | signed => simp [marks]
  | function => simp [marks]
  | aggregate => simp [marks]

theorem Parts.form_eq (h : Parts r e f x y) (hr : Stops r) : Form.of x y = f := by
  have hquote : r.head? ≠ some '\'' := fun h => absurd (hr _ h) (by decide)
  have hopen : r.head? ≠ some '(' := fun h => absurd (hr _ h) (by decide)
  cases h with
  | concept h => simp [Form.of, hquote, hopen, h.dot]
  | text => simp [Form.of]
  | plain h => simp [Form.of, hquote, hopen, h.no_dot]
  | signed => simp [Form.of]
  | function => simp [Form.of, (FunctionOp.called _).ne_nil]
  | aggregate => simp [Form.of, (AggregateOp.called _).ne_nil]

/-- **texts that agree have the same parts** -/
theorem same_parts (hd : d.Legible) (he : e.Legible) (hr : Stops r) (hs : Stops s) (h : d.chars ++ r = e.chars ++ s) :
    ∃ f x y z w, Parts r d f x y ∧ Parts s e f z w ∧ x = z ∧ y = w := by
  obtain ⟨f, x, y, hd, hxy⟩ := exists_parts hd r
  obtain ⟨g, z, w, he, hzw⟩ := exists_parts he s
  obtain ⟨rfl, rfl⟩ := append_inj_of_span hd.front_plain he.front_plain (hd.behind_mark hr) (he.behind_mark hs)
    (hxy.symm.trans (h.trans hzw))
  have hform : f = g := (hd.form_eq hr).symm.trans (he.form_eq hs)
  subst hform
  exact ⟨f, x, y, x, y, hd, he, rfl, rfl⟩

/-- an expression that begins with a mark is a quoted text or has a sign -/
theorem begins_with_mark {c : Char} (he : e.Legible) (hr : Stops r) (hc : c ∈ marks) (h : e.chars ++ r = c :: y) :
    c = '\'' ∨ c = '(' ∧ ∃ o t a b, e = function o [a, b] ∧ o.sign? = some t ∧ a.Legible ∧ b.Legible ∧
      y = a.chars ++ ' ' :: (t.toList ++ ' ' :: (b.chars ++ ')' :: r)) := by
  obtain ⟨f, x, z, hparts, hxz⟩ := exists_parts he r
  have hempty : ∀ c ∈ ([] : List Char), c ∉ marks := nofun
  obtain ⟨hfront, hbehind⟩ := append_inj_of_span hparts.front_plain hempty (hparts.behind_mark hr)
    (by simpa using hc) (hxz.symm.trans h)
  cases hparts with
  | concept ha => exact absurd ha.dot (by simp [hfront])
  | text => exact Or.inl (List.head_eq_of_cons_eq hbehind).symm
  | plain hl => exact absurd hfront hl.ne_nil
  | signed hs ha hb =>
    obtain ⟨rfl, rfl⟩ := List.cons_eq_cons.1 hbehind
    exact Or.inr ⟨rfl, _, _, _, _, rfl, hs, ha, hb, rfl⟩
  | function => exact absurd hfront (FunctionOp.called _).ne_nil
  | aggregate => exact absurd hfront (AggregateOp.called _).ne_nil

/-- no expression is written `not` or `select` -/
theorem ne_word {word : String} (hword : word = "not" ∨ word = "select") (he : e.Legible) (hr : Stops r) :
    e.chars ++ r ≠ word.toList ++ ' ' :: y := by
  intro h
  obtain ⟨f, x, z, hparts, hxz⟩ := exists_parts he r
  have hplain : ∀ c ∈ word.toList, c ∉ marks := by rcases hword with rfl | rfl <;> simp [marks]
  obtain ⟨hfront, hbehind⟩ := append_inj_of_span hparts.front_plain hplain (hparts.behind_mark hr)
    (by simp [marks]) (hxz.symm.trans h)
  cases hparts with
  | concept ha =>
    have hdot := ha.dot
    rw [hfront] at hdot
    rcases hword with rfl | rfl <;> simp at hdot
  | plain hl => exact hl.ne_word hword (String.toList_inj.1 hfront)
  | text => simp at hbehind
  | signed => simp at hbehind
  | function => simp at hbehind
  | aggregate => simp at hbehind

/-! ## Reading expressions -/

/-- the expression and what is written behind it, up to a mark, are told by the text -/
def ReadsOnce (d : Expr) : Prop := ∀ {e : Expr} {r s : List Char}, d.Legible → e.Legible → Stops r → Stops s →
  d.chars ++ r = e.chars ++ s → d = e ∧ r = s

theorem stops_tailChars (es : List Expr) (r : List Char) : Stops (tailChars es ++ r) := by
  cases es with
  | nil => exact stops_close
  | cons e es => exact stops_comma

theorem tailChars_inj {ds es : List Expr} (hread : ∀ d ∈ ds, ReadsOnce d) (hd : LegibleAll ds) (he : LegibleAll es)
    (h : tailChars ds ++ r = tailChars es ++ s) : ds = es ∧ r = s := by
  induction ds generalizing es with
  | nil =>
    cases es with
    | nil => exact ⟨rfl, List.tail_eq_of_cons_eq h⟩
    | cons e es => simp [tailChars] at h
  | cons d ds ih =>
    cases es with
    | nil => simp [tailChars] at h
    | cons e es =>
      obtain ⟨hreadd, hread⟩ := List.forall_mem_cons.1 hread
      simp only [tailChars, List.cons_append, List.append_assoc, List.cons.injEq, true_and] at h
      obtain ⟨rfl, htail⟩ := hreadd hd.1 he.1 (stops_tailChars ds r) (stops_tailChars es s) h
      obtain ⟨rfl, hrest⟩ := ih hread hd.2 he.2 htail
      exact ⟨rfl, hrest⟩

theorem listChars_inj {ds es : List Expr} (hread : ∀ d ∈ ds, ReadsOnce d) (hd : LegibleAll ds) (he : LegibleAll es)
    (h : listChars ds ++ r = listChars es ++ s) : ds = es ∧ r = s := by
  have hclose : ∀ {e : Expr} {t u : List Char}, e.Legible → Stops t → e.chars ++ t ≠ ')' :: u := by
    intro e t u he ht h
    rcases begins_with_mark he ht (by decide) h with h | ⟨h, -⟩
    · exact absurd h (by decide)
    · exact absurd h (by decide)
  cases ds with
  | nil =>
    cases es with
    | nil => exact ⟨rfl, List.tail_eq_of_cons_eq h⟩
    | cons e es =>
      simp only [listChars, List.append_assoc] at h
      exact absurd h.symm (hclose he.1 (stops_tailChars es s))
  | cons d ds =>
    cases es with
    | nil =>
      simp only [listChars, List.append_assoc] at h
      exact absurd h (hclose hd.1 (stops_tailChars ds r))
    | cons e es =>
      obtain ⟨hreadd, hread⟩ := List.forall_mem_cons.1 hread
      simp only [listChars, List.append_assoc] at h
      obtain ⟨rfl, htail⟩ := hreadd hd.1 he.1 (stops_tailChars ds r) (stops_tailChars es s) h
      obtain ⟨rfl, hrest⟩ := tailChars_inj hread hd.2 he.2 htail
      exact ⟨rfl, hrest⟩

theorem readsOnce_concept (a : String) : ReadsOnce (concept a) := by
  intro e r s hd he hr hs h
  obtain ⟨f, x, y, z, w, hd, he, hfront, hbehind⟩ := same_parts hd he hr hs h
  cases hd
  cases he
  exact ⟨congrArg concept (String.toList_inj.1 hfront), hbehind⟩

theorem readsOnce_literal (l : Literal) : ReadsOnce (literal l) := by
  intro e r s hd he hr hs h
  obtain ⟨f, x, y, z, w, hd, he, hfront, hbehind⟩ := same_parts hd he hr hs h
  cases hd with
  | text t =>
    cases he with
    | text u =>
      obtain ⟨htext, hrest⟩ := Literal.quoted_inj hr hs (List.tail_eq_of_cons_eq hbehind)
      exact ⟨by rw [String.toList_inj.1 htext], hrest⟩
  | plain hl =>
    cases he with
    | plain hk => exact ⟨congrArg literal (hl.display_inj hk (String.toList_inj.1 hfront)), hbehind⟩

theorem readsOnce_function {o : FunctionOp} {args : List Expr} (hread : ∀ d ∈ args, ReadsOnce d) :
    ReadsOnce (function o args) := by
  intro e r s hd he hr hs h
  obtain ⟨f, x, y, z, w, hd, he, hfront, hbehind⟩ := same_parts hd he hr hs h
  cases hd with
  | @signed _ t a b hsign ha hb =>
    cases he with
    | @signed p u a' b' hsign' ha' hb' =>
      obtain ⟨hreada, hreadb⟩ := List.forall_mem_cons.1 hread
      obtain ⟨rfl, hsigns⟩ := hreada ha ha' stops_blank stops_blank
        (List.tail_eq_of_cons_eq hbehind)
      obtain ⟨htext, hright⟩ := append_inj_of_span (FunctionOp.sign_plain hsign) (FunctionOp.sign_plain hsign')
        (by simp [marks]) (by simp [marks]) (List.tail_eq_of_cons_eq hsigns)
      rw [String.toList_inj.1 htext] at hsign
      obtain rfl := FunctionOp.sign_inj (hsign.trans hsign'.symm) (by simp [hsign])
      obtain ⟨rfl, hrest⟩ := hreadb b List.mem_cons_self hb hb' stops_close stops_close
        (List.tail_eq_of_cons_eq hright)
      exact ⟨rfl, List.tail_eq_of_cons_eq hrest⟩
  | function hcall hargs =>
    cases he with
    | function _ hargs' =>
      obtain ⟨rfl, hrest⟩ := listChars_inj hread hargs hargs' (List.tail_eq_of_cons_eq hbehind)
      exact ⟨by rw [FunctionOp.name_inj (String.toList_inj.1 hfront)], hrest⟩
    | aggregate => exact absurd (String.toList_inj.1 hfront) (FunctionOp.name_ne _ _)

theorem readsOnce_aggregate {o : AggregateOp} {args : List Expr} (hread : ∀ d ∈ args, ReadsOnce d) :
    ReadsOnce (aggregate o args) := by
  intro e r s hd he hr hs h
  obtain ⟨f, x, y, z, w, hd, he, hfront, hbehind⟩ := same_parts hd he hr hs h
  cases hd with
  | aggregate hargs =>
    cases he with
    | function => exact absurd (String.toList_inj.1 hfront).symm (FunctionOp.name_ne _ _)
    | aggregate hargs' =>
      obtain ⟨rfl, hrest⟩ := listChars_inj hread hargs hargs' (List.tail_eq_of_cons_eq hbehind)
      exact ⟨by rw [AggregateOp.name_inj (String.toList_inj.1 hfront)], hrest⟩

mutual

/-- **every expression is read in one way** -/
theorem readsOnce : ∀ d : Expr, ReadsOnce d
  | concept a => readsOnce_concept a
  | literal l => readsOnce_literal l
  | function _ args => readsOnce_function (readsOnceAll args)
  | aggregate _ args => readsOnce_aggregate (readsOnceAll args)

theorem readsOnceAll : ∀ ds : List Expr, ∀ d ∈ ds, ReadsOnce d
  | [] => nofun
  | d :: ds => List.forall_mem_cons.2 ⟨readsOnce d, readsOnceAll ds⟩

end

end Expr

end SemanticPlanner
