import Pearl.Proofs.DirectiveWord

namespace Pearl

namespace Text

theorem trimStart_append_of_blank {blanks : List Char} (h : ∀ c ∈ blanks, isBlank c = true)
    (cs : List Char) : trimStart (blanks ++ cs) = trimStart cs :=
  List.dropWhile_append_of_pos h

theorem trimStart_of_head? {cs : List Char} (h : ∀ c ∈ cs.head?, isBlank c = false) :
    trimStart cs = cs := by
  cases cs with
  | nil => rfl
  | cons c cs => rw [trimStart, List.dropWhile_cons_of_neg (by simp [h c rfl])]

theorem trimEnd_append_of_blank {blanks : List Char} (h : ∀ c ∈ blanks, isBlank c = true)
    (cs : List Char) : trimEnd (cs ++ blanks) = trimEnd cs := by
  have hreverse : ∀ c ∈ blanks.reverse, isBlank c = true := fun c hc => h c (List.mem_reverse.mp hc)
  rw [trimEnd, List.reverse_append, List.dropWhile_append_of_pos hreverse, trimEnd]

theorem trimEnd_of_getLast? {cs : List Char} (h : ∀ c ∈ cs.getLast?, isBlank c = false) :
    trimEnd cs = cs := by
  have hreverse : trimStart cs.reverse = cs.reverse := by
    apply trimStart_of_head?
    rwa [List.head?_reverse]
  rw [trimEnd, ← trimStart, hreverse, List.reverse_reverse]

end Text

namespace Directive

open Text

/-! ### Comments and quotes -/

/-- No comment starts in the text and no quote is left open at its end, whatever follows. -/
def IsBalanced (cs : List Char) : Prop :=
  ∀ rest, beforeComment none (cs ++ rest) = cs ++ beforeComment none rest

theorem IsBalanced.append {cs ds : List Char} (hcs : IsBalanced cs) (hds : IsBalanced ds) :
    IsBalanced (cs ++ ds) := by
  intro rest
  rw [List.append_assoc, hcs, hds, List.append_assoc]

/-- A character that neither starts a comment nor opens a quote. -/
def isPlain (c : Char) : Bool := c ≠ '!' && c ≠ '\x27' && c ≠ '"'

theorem isBalanced_of_isPlain {cs : List Char} (h : ∀ c ∈ cs, isPlain c = true) :
    IsBalanced cs := by
  intro rest
  induction cs with
  | nil => rfl
  | cons c cs ih =>
    obtain ⟨hc, hcs⟩ := List.forall_mem_cons.mp h
    simp only [isPlain, Bool.and_eq_true, decide_eq_true_eq] at hc
    rw [List.cons_append, beforeComment, if_neg hc.1.1, if_neg (by simp [hc.1.2, hc.2]), ih hcs]
    rfl

theorem isPlain_of_isWordChar {c : Char} (hc : isWordChar c = true) : isPlain c = true := by
  have hmarks : ∀ d, isPlain d = false → isWordChar d = false := by
    intro d hd
    simp only [isPlain, Bool.and_eq_false_iff, decide_eq_false_iff_not, not_not] at hd
    rcases hd with (rfl | rfl) | rfl <;> decide +kernel
  by_contra hplain
  rw [hmarks c (by simpa using hplain)] at hc
  cases hc

theorem isPlain_of_isBlank {c : Char} (hc : isBlank c = true) : isPlain c = true := by
  by_contra hplain
  simp only [isPlain, Bool.and_eq_true, decide_eq_true_eq, not_and_or, not_not] at hplain
  rcases hplain with (rfl | rfl) | rfl <;> exact absurd hc (by decide)

def inQuotes (cs : List Char) : List Char := '"' :: (cs ++ ['"'])

/-- Within double quotes nothing but a double quote counts. -/
theorem isBalanced_inQuotes {cs : List Char} (h : '"' ∉ cs) : IsBalanced (inQuotes cs) := by
  intro rest
  have hinside : beforeComment (some '"') (cs ++ '"' :: rest) =
      cs ++ '"' :: beforeComment none rest := by
    induction cs with
    | nil => rfl
    | cons c cs ih =>
      obtain ⟨hc, hcs⟩ : '"' ≠ c ∧ '"' ∉ cs := by simpa using h
      rw [List.cons_append, beforeComment, if_neg (Ne.symm hc), ih hcs]
      rfl
  change beforeComment none ('"' :: (cs ++ ['"'] ++ rest)) = _
  rw [beforeComment, if_neg (by decide), List.append_assoc]
  exact (congrArg ('"' :: ·) hinside).trans (by simp [inQuotes])

/-! ### Lines in their parts -/

/-- What stands around the word of a line and its argument: blanks behind the `#` and behind the
word, and at the end of the line blanks and a comment. Only the blanks behind the word have to be
there. -/
structure Layout where
  afterMark : List Char
  afterWord : List Char
  atEnd : List Char
  comment : List Char
  blank_afterMark : ∀ c ∈ afterMark, isBlank c = true
  blank_afterWord : ∀ c ∈ afterWord, isBlank c = true
  blank_atEnd : ∀ c ∈ atEnd, isBlank c = true
  afterWord_ne_nil : afterWord ≠ []
  mark_comment : ∀ c ∈ comment.head?, c = '!'

def Layout.line (l : Layout) (word : DirectiveWord) (arg : List Char) : List Char :=
  '#' :: (l.afterMark ++ (word.text.toList ++ (l.afterWord ++ (arg ++ (l.atEnd ++ l.comment)))))

/-- A text that is taken for the whole argument of a line. -/
structure IsArgument (arg : List Char) : Prop where
  balanced : IsBalanced arg
  head : ∀ c ∈ arg.head?, isBlank c = false
  last : ∃ c ∈ arg.getLast?, isBlank c = false

theorem beforeComment_comment {comment : List Char} (h : ∀ c ∈ comment.head?, c = '!') :
    beforeComment none comment = [] := by
  cases comment with
  | nil => rfl
  | cons c cs => rw [beforeComment, if_pos (h c rfl)]

section Line

variable {arg : List Char} (l : Layout) (word : DirectiveWord)

theorem stripComment_line (h : IsArgument arg) :
    stripComment (l.line word arg) =
      '#' :: (l.afterMark ++ (word.text.toList ++ (l.afterWord ++ arg))) := by
  have hplain : ∀ c ∈ l.afterMark ++ word.text.toList ++ l.afterWord, isPlain c = true := by
    intro c hc
    rcases List.mem_append.mp hc with hc | hc
    · rcases List.mem_append.mp hc with hc | hc
      · exact isPlain_of_isBlank (l.blank_afterMark c hc)
      · exact isPlain_of_isWordChar (isWordChar_of_mem_text word c hc)
    · exact isPlain_of_isBlank (l.blank_afterWord c hc)
  have hbefore : IsBalanced (l.afterMark ++ word.text.toList ++ l.afterWord ++ arg) :=
    (isBalanced_of_isPlain hplain).append h.balanced
  have hend : IsBalanced l.atEnd :=
    isBalanced_of_isPlain fun c hc => isPlain_of_isBlank (l.blank_atEnd c hc)
  -- trimming goes as far as the argument, which does not end in a blank
  have hlast : ∀ c ∈ (l.afterMark ++ word.text.toList ++ l.afterWord ++ arg).getLast?,
      isBlank c = false := by
    obtain ⟨d, hd, hblank⟩ := h.last
    rw [List.getLast?_append, hd]
    rintro c ⟨⟩
    exact hblank
  have hcomment := (hbefore.append hend) l.comment
  rw [beforeComment_comment l.mark_comment, List.append_nil] at hcomment
  rw [Layout.line, stripComment_hash]
  simp only [← List.append_assoc] at hcomment ⊢
  rw [hcomment, trimEnd_append_of_blank l.blank_atEnd, trimEnd_of_getLast? hlast]

/-- Whether what stands behind the `#` starts with a blank does not matter. -/
theorem trimStart_afterMark (rest : List Char) :
    trimStart (l.afterMark ++ (word.text.toList ++ rest)) = word.text.toList ++ rest := by
  rw [trimStart_append_of_blank l.blank_afterMark]
  apply trimStart_of_head?
  intro c hc
  cases word <;> cases hc <;> decide

theorem wordOf_line (h : IsArgument arg) : wordOf (stripComment (l.line word arg)) = word.text := by
  obtain ⟨b, blanks, hafter⟩ := List.exists_cons_of_ne_nil l.afterWord_ne_nil
  have hrest : ∀ c ∈ (l.afterWord ++ arg).head?, isWordChar c = false := by
    intro c hc
    rw [hafter] at hc
    cases hc
    exact isWordChar_of_isBlank (l.blank_afterWord b (by simp [hafter]))
  have hsplit := splitWord_append (isWordChar_of_mem_text word) hrest
  have hspelled : spelledWord (stripComment (l.line word arg)) = word.text.toList := by
    rw [stripComment_line l word h, spelledWord, trimStart_afterMark]
    cases word <;> exact congrArg Prod.fst hsplit
  rw [wordOf, hspelled]
  cases word <;> decide

theorem argument?_line (h : IsArgument arg) :
    argument? word (stripComment (l.line word arg)) = some arg := by
  obtain ⟨b, blanks, hafter⟩ := List.exists_cons_of_ne_nil l.afterWord_ne_nil
  obtain ⟨hb, hblanks⟩ := List.forall_mem_cons.mp (hafter ▸ l.blank_afterWord)
  rw [stripComment_line l word h, argument?, trimStart_afterMark, dropHead?_eq_some_iff.mpr rfl,
    hafter]
  simp only [List.cons_append, hb, if_true]
  rw [trimStart_append_of_blank hblanks, trimStart_of_head? h.head]

/-- A line is read as its argument is. -/
theorem parse_line (h : IsArgument arg) {d : Directive}
    (hd : ∀ line, argument? word line = some arg → arguments? word line = some d) :
    parse (l.line word arg) = .ok d := by
  have hword : DirectiveWord.ofText? word.text = some word := by cases word <;> decide
  unfold parse
  dsimp only
  rw [wordOf_line l word h, hword]
  dsimp only
  rw [hd _ (argument?_line l word h)]

end Line

/-! ### Quoted arguments -/

/-- The name of a macro in a directive: an ASCII letter, then word characters. -/
def isName : List Char → Bool
  | [] => false
  | c :: cs => c.isAlpha && cs.all isWordChar

theorem head?_inQuotes (cs : List Char) : ∀ c ∈ (inQuotes cs).head?, isBlank c = false := by
  rintro c ⟨⟩
  decide

theorem getLast?_inQuotes (cs : List Char) : (inQuotes cs).getLast? = some '"' := by
  rw [inQuotes, ← List.cons_append, List.getLast?_concat]

theorem unquote_inQuotes (cs : List Char) : unquote (inQuotes cs) = cs := by
  have htrim : trim (inQuotes cs) = inQuotes cs := by
    rw [trim, trimStart_of_head? (head?_inQuotes cs), trimEnd_of_getLast?]
    rw [getLast?_inQuotes]
    rintro c ⟨⟩
    decide
  rw [unquote, htrim, inQuotes]
  simp only [List.getLast?_concat, if_true, List.dropLast_concat]

theorem enclosed?_append_quote {cs : List Char} (h : '"' ∉ cs) :
    enclosed? '"' (cs ++ ['"']) = some cs := by
  have hne : ∀ c ∈ cs, decide (c ≠ '"') = true := by
    intro c hc
    exact decide_eq_true fun he => h (he ▸ hc)
  rw [enclosed?, splitFirst, List.dropWhile_append_of_pos hne, List.takeWhile_append_of_pos hne]
  simp

theorem isWordChar_of_isName {cs : List Char} (h : isName cs = true) :
    ∀ c ∈ cs, isWordChar c = true := by
  cases cs with
  | nil => cases h
  | cons c cs =>
    rw [isName, Bool.and_eq_true, List.all_eq_true] at h
    exact List.forall_mem_cons.mpr ⟨isWordChar_of_isAlpha h.1, h.2⟩

theorem macroName?_append {name : String} (hname : isName name.toList = true) {rest : List Char}
    (hrest : ∀ c ∈ rest.head?, isWordChar c = false) :
    macroName? (name.toList ++ rest) = some (name, rest) := by
  have hsplit := splitWord_append (isWordChar_of_isName hname) hrest
  cases hcs : name.toList with
  | nil =>
    rw [hcs] at hname
    cases hname
  | cons c cs =>
    rw [hcs, isName, Bool.and_eq_true] at hname
    rw [hcs] at hsplit
    rw [List.cons_append] at hsplit ⊢
    rw [macroName?, if_pos hname.1, hsplit, ← hcs, String.ofList_toList]

theorem isArgument_inQuotes {cs : List Char} (h : '"' ∉ cs) : IsArgument (inQuotes cs) :=
  ⟨isBalanced_inQuotes h, head?_inQuotes cs, '"', getLast?_inQuotes cs, by decide⟩

theorem isArgument_of_isName {name : List Char} (h : isName name = true) : IsArgument name := by
  have hword := isWordChar_of_isName h
  have hblank : ∀ c ∈ name, isBlank c = false :=
    fun c hc => isBlank_of_isWordChar (hword c hc)
  have hne : name ≠ [] := by
    rintro rfl
    cases h
  refine ⟨?_, ?_, ?_⟩
  · exact isBalanced_of_isPlain fun c hc => isPlain_of_isWordChar (hword c hc)
  · exact fun c hc => hblank c (List.mem_of_mem_head? hc)
  · exact ⟨name.getLast hne, List.getLast?_eq_some_getLast hne, hblank _ (List.getLast_mem hne)⟩

/-- Two arguments with blanks between them make one. -/
theorem IsArgument.append {first gap last : List Char} (hfirst : IsArgument first)
    (hlast : IsArgument last) (hgap : ∀ c ∈ gap, isBlank c = true) :
    IsArgument (first ++ (gap ++ last)) := by
  have hbalanced : IsBalanced gap :=
    isBalanced_of_isPlain fun c hc => isPlain_of_isBlank (hgap c hc)
  refine ⟨hfirst.balanced.append (hbalanced.append hlast.balanced), ?_, ?_⟩
  · cases first with
    | nil =>
      obtain ⟨c, hc, -⟩ := hfirst.last
      cases hc
    | cons c cs => exact hfirst.head
  · obtain ⟨c, hc, hblank⟩ := hlast.last
    exact ⟨c, by rw [List.getLast?_append, List.getLast?_append, hc]; rfl, hblank⟩

theorem definition?_quoted {name value : String} (hname : isName name.toList = true)
    {gap : List Char} (hgap : ∀ c ∈ gap, isBlank c = true) (hne : gap ≠ [])
    (hline : '\n' ∉ value.toList) :
    definition? (name.toList ++ (gap ++ inQuotes value.toList)) = some (name, value) := by
  obtain ⟨b, blanks, rfl⟩ := List.exists_cons_of_ne_nil hne
  obtain ⟨hb, hblanks⟩ := List.forall_mem_cons.mp hgap
  have hhead : ∀ c ∈ (b :: blanks ++ inQuotes value.toList).head?, isWordChar c = false := by
    rintro c ⟨⟩
    exact isWordChar_of_isBlank hb
  have hbody : trimStart (blanks ++ inQuotes value.toList) = inQuotes value.toList := by
    rw [trimStart_append_of_blank hblanks, trimStart_of_head? (head?_inQuotes _)]
  have hbreak : (inQuotes value.toList).contains '\n' = false := by
    simp [inQuotes, hline]
  rw [definition?, macroName?_append hname hhead]
  simp only [List.cons_append, hbody, hb, hbreak, unquote_inQuotes, String.ofList_toList,
    Bool.not_false, Bool.and_self, if_true]

theorem fileName?_quoted {value : String} (hquote : '"' ∉ value.toList) :
    fileName? (inQuotes value.toList) = some value := by
  simp only [fileName?, inQuotes, enclosed?_append_quote hquote, Option.some_or, Option.map_some,
    String.ofList_toList]

/-- A value in double quotes is taken as it stands, whatever the blanks and the comment around it:
neither blanks at its ends nor exclamation marks nor apostrophes in it are touched. -/
theorem parse_quoted (l : Layout) {name value : String} (hname : isName name.toList = true)
    {gap : List Char} (hgap : ∀ c ∈ gap, isBlank c = true) (hne : gap ≠ [])
    (hquote : '"' ∉ value.toList) (hline : '\n' ∉ value.toList) :
    parse (l.line .define (name.toList ++ (gap ++ inQuotes value.toList))) =
        .ok (.define name value) ∧
      parse (l.line .inclusion (inQuotes value.toList)) = .ok (.inclusion value) := by
  have harg := isArgument_inQuotes hquote
  constructor
  · apply parse_line l .define ((isArgument_of_isName hname).append harg hgap)
    intro line hargument
    rw [arguments?, hargument, Option.bind_some, definition?_quoted hname hgap hne hline]
    rfl
  · apply parse_line l .inclusion harg
    intro line hargument
    rw [arguments?, hargument, Option.bind_some, fileName?_quoted hquote]
    rfl

/-- Blanks at both ends of the value, both marks in it, and a comment with an open quote. -/
theorem parse_quoted_marks :
    isName "X".toList = true ∧ '"' ∉ " it's !new ".toList ∧ '\n' ∉ " it's !new ".toList ∧
      parse "#\tdefine  X \t\" it's !new \" ! the \"old".toList =
        .ok (.define "X" " it's !new ") ∧
      parse "#\tinclude  \" it's !new \" ! the \"old".toList = .ok (.inclusion " it's !new ") := by
  let l : Layout :=
    { afterMark := ['\t'], afterWord := [' ', ' '], atEnd := [' '], comment := "! the \"old".toList
      blank_afterMark := List.all_eq_true.mp (by decide)
      blank_afterWord := List.all_eq_true.mp (by decide)
      blank_atEnd := List.all_eq_true.mp (by decide)
      afterWord_ne_nil := by decide
      mark_comment := by rintro c ⟨⟩; rfl }
  have hquoted := @parse_quoted l "X" " it's !new " (by decide) [' ', '\t']
    (List.all_eq_true.mp (by decide)) (by decide) (by decide) (by decide)
  exact ⟨by decide, by decide, by decide, hquoted⟩

end Directive

end Pearl
