import Mathlib.Data.List.TakeWhile
import Pearl.Directive

namespace Pearl

namespace Text

/-- A run of characters ends where it has to end, whatever stands there. -/
theorem takeWhile_append_of_head {p : Char → Bool} {d : List Char}
    (hd : ∀ c ∈ d.head?, p c = false) (cs : List Char) :
    (cs ++ d).takeWhile p = cs.takeWhile p := by
  induction cs with
  | nil =>
    cases d with
    | nil => rfl
    | cons c d => rw [List.nil_append, List.takeWhile_cons, hd c rfl]; rfl
  | cons c cs ih => rw [List.cons_append, List.takeWhile_cons, ih, List.takeWhile_cons]

/-! ### Blanks are no word characters, letters are -/

/-- No code point lies in a range of both tables. -/
def disjointRanges (a b : List (Nat × Nat)) : Bool :=
  a.all fun r => b.all fun q => r.2 < q.1 || q.2 < r.1

theorem inRanges_eq_false {a b : List (Nat × Nat)} (h : disjointRanges a b = true) {c : Char}
    (hc : inRanges a c = true) : inRanges b c = false := by
  obtain ⟨r, hr, hrc⟩ := List.any_eq_true.mp hc
  have hb := List.all_eq_true.mp h r hr
  rw [inRanges, List.any_eq_false]
  intro q hq hqc
  have hd := List.all_eq_true.mp hb q hq
  simp only [Bool.and_eq_true, Bool.or_eq_true, decide_eq_true_eq] at hrc hqc hd
  omega

theorem disjoint_blank_letter : disjointRanges blankRanges letterRanges = true := by
  decide +kernel

theorem disjoint_blank_numeral : disjointRanges blankRanges numeralRanges = true := by
  decide +kernel

theorem inRanges_of_isDigit {c : Char} (h : c.isDigit = true) :
    inRanges [(0x30, 0x39)] c = true := by
  simp only [Char.isDigit, Bool.and_eq_true, decide_eq_true_eq, ge_iff_le,
    UInt32.le_iff_toNat_le] at h
  simpa [inRanges] using h

theorem isWordChar_of_isBlank {c : Char} (h : isBlank c = true) : isWordChar c = false := by
  have hletter : isLetter c = false := by
    rw [isLetter, inRanges_eq_false disjoint_blank_letter h, Bool.or_false]
    by_contra ha
    have hr : inRanges [(0x41, 0x5A), (0x61, 0x7A)] c = true := by
      rw [Bool.not_eq_false] at ha
      change (decide (c.val ≥ 65 ∧ c.val ≤ 90) ||
        decide (c.val ≥ 97) && decide (c.val ≤ 122)) = true at ha
      simp only [Bool.or_eq_true, Bool.and_eq_true, decide_eq_true_eq, ge_iff_le,
        UInt32.le_iff_toNat_le] at ha
      simpa [inRanges] using ha
    exact absurd hr (by rw [inRanges_eq_false (by decide) h]; decide)
  have hnumeral : isNumeral c = false := by
    rw [isNumeral, inRanges_eq_false disjoint_blank_numeral h, Bool.or_false]
    by_contra ha
    have hr := inRanges_of_isDigit (by simpa using ha)
    exact absurd hr (by rw [inRanges_eq_false (by decide) h]; decide)
  have hline : c ≠ '_' := by
    rintro rfl
    exact absurd h (by decide)
  simp [isWordChar, isAlphanumeric, hletter, hnumeral, hline]

theorem isBlank_of_isWordChar {c : Char} (hc : isWordChar c = true) : isBlank c = false := by
  by_contra hblank
  rw [isWordChar_of_isBlank (by simpa using hblank)] at hc
  cases hc

theorem isWordChar_of_isAlpha {c : Char} (hc : c.isAlpha = true) : isWordChar c = true := by
  simp [isWordChar, isAlphanumeric, isLetter, hc]

/-- Only blanks are taken from the end of a text. -/
theorem exists_trimEnd_append (cs : List Char) :
    ∃ blanks, trimEnd cs ++ blanks = cs ∧ ∀ c ∈ blanks, isBlank c = true := by
  refine ⟨(cs.reverse.takeWhile isBlank).reverse, ?_, ?_⟩
  · rw [trimEnd, ← List.reverse_append, List.takeWhile_append_dropWhile, List.reverse_reverse]
  · intro c hc
    exact List.mem_takeWhile_imp (List.mem_reverse.mp hc)

theorem trimEnd_cons_of_not_blank {c : Char} (hc : isBlank c = false) (cs : List Char) :
    trimEnd (c :: cs) = c :: trimEnd cs := by
  rw [trimEnd, trimEnd, List.reverse_cons, List.dropWhile_append]
  split
  · rename_i h
    rw [List.isEmpty_iff.mp h]
    simp [hc]
  · simp

/-! ### Words and what follows them -/

theorem dropHead?_eq_some_iff {head cs rest : List Char} :
    dropHead? head cs = some rest ↔ cs = head ++ rest := by
  fun_induction dropHead? head cs with
  | case1 cs => simp [eq_comm]
  | case2 => simp
  | case3 h hs cs ih => simp [ih]
  | case4 h hs c cs hc => simp [Ne.symm hc]

theorem splitWord_append {word rest : List Char} (hword : ∀ c ∈ word, isWordChar c = true)
    (hrest : ∀ c ∈ rest.head?, isWordChar c = false) : splitWord (word ++ rest) = (word, rest) := by
  have htake : rest.takeWhile isWordChar = [] ∧ rest.dropWhile isWordChar = rest := by
    cases rest with
    | nil => exact ⟨rfl, rfl⟩
    | cons c rest => simp [hrest c rfl]
  rw [splitWord, List.takeWhile_append_of_pos hword, List.dropWhile_append_of_pos hword, htake.1,
    htake.2, List.append_nil]

end Text

namespace Directive

open Text

/-! ### Comments do not reach into the word -/

/-- The word is not changed by what follows it, if that neither goes on with a word nor holds
one itself. -/
theorem spelledWord_append (a d : List Char) (hd : ∀ c ∈ d.head?, isWordChar c = false)
    (hword : spelledWord ('#' :: d) = []) :
    spelledWord ('#' :: (a ++ d)) = spelledWord ('#' :: a) := by
  have htrim : trimStart (a ++ d) =
      if (trimStart a).isEmpty then trimStart d else trimStart a ++ d := List.dropWhile_append
  rw [spelledWord, htrim]
  rw [spelledWord] at hword
  cases h : trimStart a with
  | nil =>
    rw [List.isEmpty_nil, if_pos rfl, hword, spelledWord, h]
  | cons c cs =>
    have htake := takeWhile_append_of_head hd (c :: cs)
    rw [spelledWord, h]
    simp only [List.isEmpty_cons, Bool.false_eq_true, if_false, List.cons_append, splitWord]
    rw [← List.cons_append, htake]

/-- A comment starts with an exclamation mark. -/
theorem exists_beforeComment_append (mark : Option Char) (cs : List Char) :
    ∃ comment, beforeComment mark cs ++ comment = cs ∧ ∀ c ∈ comment.head?, c = '!' := by
  fun_induction beforeComment mark cs with
  | case1 => exact ⟨[], rfl, by simp⟩
  | case2 mark c cs ih | case4 c cs hc ih =>
    obtain ⟨comment, happend, hhead⟩ := ih
    exact ⟨comment, by rw [List.cons_append, happend], hhead⟩
  | case3 cs => exact ⟨'!' :: cs, rfl, by simp⟩

theorem isWordChar_mark : isWordChar '!' = false := by decide +kernel

theorem stripComment_hash (rest : List Char) :
    stripComment ('#' :: rest) = '#' :: trimEnd (beforeComment none rest) := by
  rw [stripComment, beforeComment, if_neg (by decide), if_neg (by decide)]
  exact trimEnd_cons_of_not_blank (by decide) _

/-- A `#` line has the same word with its comment and without. -/
theorem spelledWord_stripComment (rest : List Char) :
    spelledWord (stripComment ('#' :: rest)) = spelledWord ('#' :: rest) := by
  obtain ⟨comment, hcomment, hmark⟩ := exists_beforeComment_append none rest
  obtain ⟨blanks, hblanks, hblank⟩ := exists_trimEnd_append (beforeComment none rest)
  have hfirst : spelledWord ('#' :: (beforeComment none rest ++ comment)) =
      spelledWord ('#' :: beforeComment none rest) := by
    refine spelledWord_append _ _ (fun c hc => hmark c hc ▸ isWordChar_mark) ?_
    cases comment with
    | nil => rfl
    | cons c cs =>
      rw [hmark c rfl]
      simp [spelledWord, trimStart, show isBlank '!' = false by decide]
  have hsecond : spelledWord ('#' :: (trimEnd (beforeComment none rest) ++ blanks)) =
      spelledWord ('#' :: trimEnd (beforeComment none rest)) := by
    refine spelledWord_append _ _ ?_ ?_
    · intro c hc
      exact isWordChar_of_isBlank (hblank c (List.mem_of_mem_head? hc))
    · rw [spelledWord, trimStart, List.dropWhile_eq_nil_iff.mpr hblank]
  rw [stripComment_hash, ← hsecond, hblanks, ← hfirst, hcomment]

theorem wordOf_stripComment (rest : List Char) :
    wordOf (stripComment ('#' :: rest)) = wordOf ('#' :: rest) := by
  rw [wordOf, spelledWord_stripComment, wordOf]

theorem isWordChar_of_mem_text (word : DirectiveWord) :
    ∀ c ∈ word.text.toList, isWordChar c = true := by
  apply List.all_eq_true.mp
  cases word <;> decide +kernel

theorem word_of_arguments? {word : DirectiveWord} {line : List Char} {d : Directive}
    (h : arguments? word line = some d) : d.word = word := by
  cases word with
  | define | undef | inclusion | ifdef | ifndef =>
    obtain ⟨x, -, rfl⟩ := Option.map_eq_some_iff.mp h
    rfl
  | otherwise | endif => cases h; rfl

/-- A directive that can be read has the word of its line. -/
theorem word_of_parse {rest : List Char} {d : Directive} (h : parse ('#' :: rest) = .ok d) :
    DirectiveWord.ofText? (wordOf ('#' :: rest)) = some d.word := by
  unfold parse at h
  dsimp only at h
  rw [wordOf_stripComment] at h
  split at h
  · cases h
  · rename_i word hword
    split at h
    · cases h
    · rename_i d' hd
      cases h
      rw [hword, word_of_arguments? hd]

end Directive

end Pearl
