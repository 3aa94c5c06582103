/-
Cutting a text at a character or into lines, trimming its blanks, and joining pieces with a text between them.

Joining the pieces of a cut with the same character gives the text back (`flatten_splitChar`). Blanks are the characters
of the Unicode property White_Space.
-/
namespace SemanticPlanner.Text

/-- the pieces between the characters equal to `sep`; never empty -/
def splitChar (sep : Char) : List Char → List (List Char)
  | [] => [[]]
  | c :: r =>
    if c = sep then [] :: splitChar sep r
    else match splitChar sep r with
      | [] => [[c]]
      | p :: ps => (c :: p) :: ps

def splitAt (sep : Char) (text : String) : List String := (splitChar sep text.toList).map String.ofList

/-- the items written one after the other with `sep` between them -/
def join (sep : String) (items : List String) : String := sep.intercalate items

/-- the lines of a text; what follows the last line end is a line only if it is not empty -/
def lines (text : String) : List String :=
  let pieces := splitAt '\n' text
  if pieces.getLast? = some "" then pieces.dropLast else pieces

/-- the text of the given lines -/
def ofLines (items : List String) : String := join "" (items.map fun l => l ++ "\n")

/-- the characters of the Unicode property White_Space -/
def isBlank (c : Char) : Bool :=
  let n := c.toNat
  (9 ≤ n && n ≤ 13) || n == 0x20 || n == 0x85 || n == 0xA0 || n == 0x1680 || (0x2000 ≤ n && n ≤ 0x200A)
    || n == 0x2028 || n == 0x2029 || n == 0x202F || n == 0x205F || n == 0x3000

/-- the text without the blanks at its two ends -/
def trimBlank (text : String) : String :=
  String.ofList ((text.toList.dropWhile isBlank).reverse.dropWhile isBlank).reverse

/-! ## Pieces -/

theorem splitChar_ne_nil (sep : Char) (cs : List Char) : splitChar sep cs ≠ [] := by
  cases cs with
  | nil => simp [splitChar]
  | cons c r =>
    simp only [splitChar]
    split
    · simp
    · split <;> simp

theorem splitChar_append (sep : Char) (xs ys : List Char) :
    splitChar sep (xs ++ sep :: ys) = splitChar sep xs ++ splitChar sep ys := by
  induction xs with
  | nil => simp [splitChar]
  | cons x xs ih =>
    by_cases hx : x = sep
    · simp [splitChar, hx, ih]
    · cases hs : splitChar sep xs with
      | nil => exact absurd hs (splitChar_ne_nil sep xs)
      | cons p ps =>
        rw [hs] at ih
        simp [splitChar, hx, ih, hs]

theorem splitChar_of_notMem {sep : Char} {xs : List Char} (h : sep ∉ xs) : splitChar sep xs = [xs] := by
  induction xs with
  | nil => rfl
  | cons x xs ih =>
    rw [List.mem_cons, not_or] at h
    simp [splitChar, Ne.symm h.1, ih h.2]

/-- every other character is in a piece -/
theorem exists_mem_splitChar {sep c : Char} {cs : List Char} (h : c ∈ cs) (hc : c ≠ sep) :
    ∃ p ∈ splitChar sep cs, c ∈ p := by
  induction cs with
  | nil => cases h
  | cons d cs ih =>
    simp only [splitChar]
    by_cases hd : d = sep
    · rw [if_pos hd]
      have hmem : c ∈ cs := (List.mem_cons.1 h).resolve_left fun he => hc (he.trans hd)
      obtain ⟨p, hp, hcp⟩ := ih hmem
      exact ⟨p, List.mem_cons_of_mem _ hp, hcp⟩
    · rw [if_neg hd]
      cases hs : splitChar sep cs with
      | nil => exact absurd hs (splitChar_ne_nil sep cs)
      | cons p ps =>
        rcases List.mem_cons.1 h with rfl | hmem
        · exact ⟨c :: p, List.mem_cons_self, List.mem_cons_self⟩
        · obtain ⟨q, hq, hcq⟩ := ih hmem
          rw [hs] at hq
          rcases List.mem_cons.1 hq with rfl | hq
          · exact ⟨d :: q, List.mem_cons_self, List.mem_cons_of_mem _ hcq⟩
          · exact ⟨q, List.mem_cons_of_mem _ hq, hcq⟩

theorem flatten_splitChar (sep : Char) (cs : List Char) : ([sep] : List Char).intercalate (splitChar sep cs) = cs := by
  induction cs with
  | nil => rfl
  | cons c r ih =>
    simp only [splitChar]
    split
    · rename_i h
      cases hs : splitChar sep r with
      | nil => exact absurd hs (splitChar_ne_nil sep r)
      | cons p ps => rw [hs] at ih; simp [List.intercalate, List.intersperse] at ih ⊢; exact ⟨h.symm, ih⟩
    · split
      · rename_i hs
        exact absurd hs (splitChar_ne_nil sep r)
      · rename_i p ps hs
        rw [hs] at ih
        cases ps with
        | nil => simp [List.intercalate, List.intersperse] at ih ⊢; exact ih
        | cons q qs => simp [List.intercalate, List.intersperse] at ih ⊢; exact ih

end SemanticPlanner.Text
