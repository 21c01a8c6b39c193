import Mathlib.Data.List.Find
import Pearl.Proofs.DirectiveWord
import Pearl.Proofs.ScanPiece

namespace Pearl

theorem Text.AtLineEnd.eq_nil_or_cons {rest : List Char} (h : AtLineEnd rest) :
    rest = [] ∨ ∃ cs, rest = '\n' :: cs := by
  cases rest with
  | nil => exact Or.inl rfl
  | cons c cs => exact Or.inr ⟨cs, by rw [h c rfl]⟩

namespace Lexeme

open Text

variable {rest : List Char}

/-! ### Elements end with their line -/

theorem run_append {p : Char → Bool} (hp : p '\n' = false) (hrest : AtLineEnd rest)
    (line : List Char) : run p (line ++ rest) = run p line := by
  have hhead : ∀ c ∈ rest.head?, p c = false := fun c hc => hrest c hc ▸ hp
  rw [run, run, takeWhile_append_of_head hhead]

theorem run_le (p : Char → Bool) (cs : List Char) : run p cs ≤ cs.length :=
  (List.takeWhile_sublist p).length_le

theorem digits_append (hrest : AtLineEnd rest) (line : List Char) :
    run isDecimalDigit (line ++ rest) = run isDecimalDigit line :=
  run_append (by decide +kernel) hrest line

theorem fractionLength_append (hrest : AtLineEnd rest) (line : List Char) :
    fractionLength (line ++ rest) = fractionLength line := by
  cases line with
  | nil =>
    rcases hrest.eq_nil_or_cons with rfl | ⟨cs, rfl⟩
    · rfl
    · rfl
  | cons c line =>
    by_cases hc : c = '.'
    · subst hc
      simp only [List.cons_append, fractionLength, digits_append hrest]
    · simp [fractionLength, hc]

theorem fractionLength_le (cs : List Char) : fractionLength cs ≤ cs.length := by
  unfold fractionLength
  split
  · exact Nat.succ_le_succ (run_le _ _)
  · exact Nat.zero_le _

theorem exponentLength_append (hrest : AtLineEnd rest) (line : List Char) :
    exponentLength (line ++ rest) = exponentLength line := by
  rcases line with _ | ⟨c, _ | ⟨s, ds⟩⟩
  · rcases hrest.eq_nil_or_cons with rfl | ⟨cs, rfl⟩
    · rfl
    · rfl
  · rcases hrest.eq_nil_or_cons with rfl | ⟨cs, rfl⟩
    · rfl
    · have hzero : run isDecimalDigit ('\n' :: cs) = 0 := by
        rw [run, List.takeWhile_cons_of_neg (by decide +kernel)]
        rfl
      simp only [List.cons_append, List.nil_append, exponentLength, hzero]
      simp
  · have hds := digits_append hrest ds
    have hsds := digits_append hrest (s :: ds)
    rw [List.cons_append] at hsds
    simp only [List.cons_append, exponentLength, hds, hsds]

theorem exponentLength_le (cs : List Char) : exponentLength cs ≤ cs.length := by
  unfold exponentLength
  split
  · exact Nat.zero_le _
  · rename_i c cs
    split
    · split
      · exact Nat.zero_le _
      · rename_i s ds
        have hds := run_le isDecimalDigit ds
        have hsds := run_le isDecimalDigit (s :: ds)
        rw [List.length_cons] at hsds
        simp only [List.length_cons]
        split <;> split <;> omega
    · exact Nat.zero_le _

theorem precisionLength_append (hrest : AtLineEnd rest) (line : List Char) :
    precisionLength (line ++ rest) = precisionLength line := by
  cases line with
  | nil =>
    rcases hrest.eq_nil_or_cons with rfl | ⟨cs, rfl⟩
    · rfl
    · rfl
  | cons c line =>
    by_cases hc : c = '('
    · subst hc
      simp only [List.cons_append, precisionLength, digits_append hrest,
        List.drop_append_of_le_length (run_le _ _)]
      cases hdrop : line.drop (run isDecimalDigit line) with
      | nil =>
        rcases hrest.eq_nil_or_cons with rfl | ⟨cs, rfl⟩
        · rfl
        · cases run isDecimalDigit line <;> rfl
      | cons d ds =>
        by_cases hd : d = ')'
        · subst hd
          cases run isDecimalDigit line <;> rfl
        · cases run isDecimalDigit line <;> simp [hd]
    · simp [precisionLength, hc]

theorem numberLength_append (hrest : AtLineEnd rest) (line : List Char) :
    numberLength (line ++ rest) = numberLength line := by
  have hd := run_le isDecimalDigit line
  have hf := fractionLength_le (line.drop (run isDecimalDigit line))
  rw [List.length_drop] at hf
  have he := exponentLength_le
    (line.drop (run isDecimalDigit line + fractionLength (line.drop (run isDecimalDigit line))))
  rw [List.length_drop] at he
  simp only [numberLength, digits_append hrest]
  rw [List.drop_append_of_le_length hd, fractionLength_append hrest,
    List.drop_append_of_le_length (by omega), exponentLength_append hrest,
    List.drop_append_of_le_length (by omega), precisionLength_append hrest]

theorem stringExtent_cons_of_ne {c : Char} (hn : c ≠ '\n') (hc : c ≠ '\x27') (cs : List Char) :
    stringExtent (c :: cs) = ((stringExtent cs).1 + 1, (stringExtent cs).2) := by
  rw [stringExtent.eq_def]
  split
  · rename_i h
    cases h
  · rename_i h
    cases h
    exact absurd rfl hc
  · rename_i h
    cases h
    rw [if_neg hn, if_neg hc]

theorem stringExtent_quote {cs : List Char} (hcs : cs.head? ≠ some '\x27') :
    stringExtent ('\x27' :: cs) = (1, true) := by
  rw [stringExtent.eq_def]
  split
  · rename_i h
    cases h
  · rename_i h
    cases h
    exact absurd rfl hcs
  · rename_i h
    cases h
    rw [if_neg (by decide), if_pos rfl]

theorem stringExtent_append (hrest : AtLineEnd rest) (line : List Char) :
    stringExtent (line ++ rest) = stringExtent line := by
  fun_induction stringExtent line with
  | case1 =>
    rcases hrest.eq_nil_or_cons with rfl | ⟨cs, rfl⟩
    · rfl
    · rfl
  | case2 cs r ih =>
    simp only [List.cons_append, stringExtent, ih]
    rfl
  | case3 => rfl
  | case4 cs hquotes _ =>
    apply stringExtent_quote
    cases cs with
    | nil =>
      intro h
      exact absurd (hrest _ h) (by decide)
    | cons d ds =>
      intro h
      exact hquotes ds rfl (by rw [Option.some.inj h])
  | case5 c cs hquotes hn hq r ih =>
    rw [List.cons_append, stringExtent_cons_of_ne hn hq, ih]

theorem stringExtent_le (cs : List Char) : (stringExtent cs).1 ≤ cs.length := by
  fun_induction stringExtent cs with
  | case1 => exact Nat.le_refl _
  | case2 cs r ih => exact Nat.add_le_add_right ih 2
  | case3 => exact Nat.zero_le _
  | case4 cs => exact Nat.le_add_left 1 _
  | case5 c cs hquotes hn hq r ih => exact Nat.succ_le_succ ih

theorem bitSuffixLength_append (hrest : AtLineEnd rest) (line : List Char) :
    bitSuffixLength (line ++ rest) = bitSuffixLength line := by
  cases line with
  | nil =>
    rcases hrest.eq_nil_or_cons with rfl | ⟨cs, rfl⟩
    · rfl
    · rfl
  | cons c line =>
    by_cases hc : c = 'B'
    · subst hc
      rcases line with _ | ⟨d, _ | ⟨e, line⟩⟩
      · rcases hrest.eq_nil_or_cons with rfl | ⟨cs, rfl⟩
        · rfl
        · rfl
      · rcases hrest.eq_nil_or_cons with rfl | ⟨cs, rfl⟩
        · rfl
        · by_cases hd : ('1' ≤ d && d ≤ '4') = true
          · simp [bitSuffixLength, hd, show isNameChar '\n' = false by decide]
          · simp [bitSuffixLength, hd]
      · by_cases hd : ('1' ≤ d && d ≤ '4') = true
        · simp [bitSuffixLength, hd]
        · simp [bitSuffixLength, hd]
    · simp [bitSuffixLength, hc]

theorem isPrefixOf_append (hrest : AtLineEnd rest) (op line : List Char) (hop : '\n' ∉ op) :
    op.isPrefixOf (line ++ rest) = op.isPrefixOf line := by
  induction op generalizing line with
  | nil => simp
  | cons o op ih =>
    simp only [List.mem_cons, not_or] at hop
    cases line with
    | nil =>
      rcases hrest.eq_nil_or_cons with rfl | ⟨cs, rfl⟩
      · rfl
      · simp [List.isPrefixOf, Ne.symm hop.1]
    | cons c line => simp only [List.cons_append, List.isPrefixOf, ih line hop.2]

theorem operatorExtent_append (hrest : AtLineEnd rest) (part : Part) (c : Char)
    (line : List Char) : operatorExtent part c (line ++ rest) = operatorExtent part c line := by
  have hops : ∀ op ∈ longOperators part, '\n' ∉ op := by cases part <;> decide
  have hfind : (longOperators part).find? (·.isPrefixOf (c :: (line ++ rest))) =
      (longOperators part).find? (·.isPrefixOf (c :: line)) := by
    apply List.find?_congr
    intro op hop
    exact isPrefixOf_append hrest op (c :: line) (hops op hop)
  rw [operatorExtent, operatorExtent, hfind]

theorem quotedExtent_append (hrest : AtLineEnd rest) (line : List Char) :
    quotedExtent (line ++ rest) = quotedExtent line := by
  have hle := stringExtent_le line
  rw [quotedExtent, quotedExtent, stringExtent_append hrest]
  cases h : stringExtent line with
  | mk n closed =>
    rw [h] at hle
    cases closed with
    | false => rfl
    | true =>
      dsimp only
      rw [List.drop_append_of_le_length hle, bitSuffixLength_append hrest]

/-- A block comment, the one kind of element that may go on after its line, starts here. -/
def startsComment (c : Char) (cs : List Char) : Bool := c = '/' && cs.head? = some '*'

theorem startsComment_append (hrest : AtLineEnd rest) (c : Char) (line : List Char) :
    startsComment c (line ++ rest) = startsComment c line := by
  cases line with
  | nil =>
    rcases hrest.eq_nil_or_cons with rfl | ⟨cs, rfl⟩
    · rfl
    · simp [startsComment]
  | cons d line => rfl

/-- Other elements are decided by their line alone. -/
theorem extent_append (hrest : AtLineEnd rest) (part : Part) (c : Char) (line : List Char)
    (hc : startsComment c line = false) :
    extent part c (line ++ rest) = extent part c line := by
  have hc' := (startsComment_append hrest c line).trans hc
  unfold startsComment at hc hc'
  have hname := run_append (p := isNameChar) (by decide) hrest line
  have hcomment := run_append (p := (· ≠ '\n')) (by decide) hrest line
  simp only [extent, hc, hc', hname, hcomment, Bool.false_eq_true, if_false,
    List.take_append_of_le_length (run_le isNameChar line), numberLength_append hrest,
    quotedExtent_append hrest, operatorExtent_append hrest]

/-! ### What stands after an element -/

theorem commentExtent_pos (c : Char) (cs : List Char) : 0 < (commentExtent (c :: cs)).1 := by
  rw [commentExtent.eq_def]
  split
  · rename_i h
    cases h
  · exact Nat.succ_pos 1
  · exact Nat.succ_pos _

theorem commentExtent_cons {c : Char} {cs : List Char} (h : c = '*' → cs.head? ≠ some '/') :
    commentExtent (c :: cs) = ((commentExtent cs).1 + 1, (commentExtent cs).2) := by
  rw [commentExtent.eq_def]
  split
  · rename_i he
    cases he
  · rename_i he
    cases he
    exact absurd rfl (h rfl)
  · rename_i he
    cases he
    rfl

/-- A comment is decided by its own characters, and by the end of the text if it is not closed. -/
theorem commentExtent_take (cs rest : List Char)
    (hlength : rest.length = (cs.drop (commentExtent cs).1).length) :
    commentExtent (cs.take (commentExtent cs).1 ++ rest) = commentExtent cs := by
  fun_induction commentExtent cs with
  | case1 =>
    rw [List.eq_nil_of_length_eq_zero hlength]
    rfl
  | case2 => rfl
  | case3 c cs hclose r ih =>
    rw [List.take_succ_cons, List.cons_append]
    have hrest := ih hlength
    rw [commentExtent_cons, hrest]
    rintro rfl
    cases cs with
    | nil =>
      rw [List.eq_nil_of_length_eq_zero hlength]
      simp
    | cons d ds =>
      obtain ⟨n, hn⟩ := Nat.exists_eq_succ_of_ne_zero (commentExtent_pos d ds).ne'
      have htake : (d :: ds).take r.1 = d :: ds.take n := by
        rw [show r.1 = n + 1 from hn, List.take_succ_cons]
      rw [htake]
      intro h
      exact hclose ds rfl (by rw [Option.some.inj h])

theorem splitLine_append_congr {rest rest' : List Char}
    (h : (splitLine rest).1 = (splitLine rest').1) (cs : List Char) :
    (splitLine (cs ++ rest)).1 = (splitLine (cs ++ rest')).1 := by
  induction cs with
  | nil => exact h
  | cons c cs ih =>
    simp only [splitLine, List.cons_append, List.takeWhile_cons] at ih ⊢
    rw [ih]

theorem extent_eq_of_line {part : Part} {c : Char} {cs cs' : List Char}
    (hc : startsComment c cs = false) (hline : (splitLine cs').1 = (splitLine cs).1) :
    extent part c cs' = extent part c cs := by
  have hend := atLineEnd_splitLine cs
  have hend' := atLineEnd_splitLine cs'
  have hfirst : startsComment c (splitLine cs).1 = false := by
    rw [← startsComment_append hend, splitLine_append_self, hc]
  rw [← splitLine_append_self cs, ← splitLine_append_self cs', extent_append hend part c _ hfirst,
    hline, extent_append hend' part c _ hfirst]

theorem eq_of_startsComment {c : Char} {cs : List Char} (hc : startsComment c cs = true) :
    c = '/' ∧ ∃ ds, cs = '*' :: ds := by
  cases cs with
  | nil => simp [startsComment] at hc
  | cons d ds => simpa [startsComment] using hc

theorem extent_comment (part : Part) (ds : List Char) :
    extent part '/' ('*' :: ds) = ⟨.comment, (commentExtent ds).1 + 1,
      if (commentExtent ds).2 then none else some .unterminatedComment⟩ := by
  rw [extent, if_neg (by decide), if_pos (by simp), blockCommentExtent, List.drop_one,
    List.tail_cons]
  cases h : commentExtent ds with
  | mk n closed => cases closed <;> rfl

/-- The element at the head of a text stays the same if what follows it is replaced by something
as long, whose first line is the same. -/
theorem extent_take (part : Part) (c : Char) (cs rest : List Char)
    (hline : (splitLine rest).1 = (splitLine (tail part c cs)).1)
    (hlength : rest.length = (tail part c cs).length) :
    extent part c (cs.take (extent part c cs).extra ++ rest) = extent part c cs := by
  have hcs : cs.take (extent part c cs).extra ++ tail part c cs = cs := List.take_append_drop ..
  cases hc : startsComment c cs with
  | false =>
    apply extent_eq_of_line hc
    have h := splitLine_append_congr hline (cs.take (extent part c cs).extra)
    rwa [hcs] at h
  | true =>
    obtain ⟨rfl, ds, rfl⟩ := eq_of_startsComment hc
    rw [tail, extent_comment] at hlength
    rw [extent_comment] at ⊢
    simp only [List.take_succ_cons, List.cons_append, List.drop_succ_cons] at hlength ⊢
    rw [extent_comment, commentExtent_take ds rest hlength]

theorem take_drop_take_append (n : Nat) (cs rest : List Char)
    (hlength : rest.length = (cs.drop n).length) :
    (cs.take n ++ rest).take n = cs.take n ∧ (cs.take n ++ rest).drop n = rest := by
  rcases Nat.le_total n cs.length with hn | hn
  · have htake : (cs.take n).length = n := List.length_take_of_le hn
    exact ⟨List.take_left' htake, List.drop_left' htake⟩
  · have hrest : rest = [] := by
      apply List.eq_nil_of_length_eq_zero
      rw [hlength, List.length_drop]
      omega
    simp [hrest, List.take_take]

theorem head_take (part : Part) (c : Char) (cs rest : List Char)
    (hline : (splitLine rest).1 = (splitLine (tail part c cs)).1)
    (hlength : rest.length = (tail part c cs).length) :
    head part c (cs.take (extent part c cs).extra ++ rest) = head part c cs ∧
      tail part c (cs.take (extent part c cs).extra ++ rest) = rest := by
  have hextent := extent_take part c cs rest hline hlength
  have hcut := take_drop_take_append (extent part c cs).extra cs rest hlength
  rw [head, tail, hextent]
  exact ⟨by rw [head, hcut.1], hcut.2⟩

/-! ### Elements within their line -/

theorem precisionLength_le (cs : List Char) : precisionLength cs ≤ cs.length := by
  unfold precisionLength
  split
  · rename_i cs
    dsimp only
    split
    · exact Nat.zero_le _
    · rename_i n ds hn hdrop
      have hlength := congrArg List.length hdrop
      rw [List.length_drop, List.length_cons, hn] at hlength
      rw [List.length_cons]
      omega
    · exact Nat.zero_le _
  · exact Nat.zero_le _

theorem numberLength_le (cs : List Char) : numberLength cs ≤ cs.length := by
  have hdigits := run_le isDecimalDigit cs
  have hfraction := fractionLength_le (cs.drop (run isDecimalDigit cs))
  have hexponent := exponentLength_le
    (cs.drop (run isDecimalDigit cs + fractionLength (cs.drop (run isDecimalDigit cs))))
  have hprecision := precisionLength_le
    (cs.drop (run isDecimalDigit cs + fractionLength (cs.drop (run isDecimalDigit cs)) +
      exponentLength
        (cs.drop (run isDecimalDigit cs + fractionLength (cs.drop (run isDecimalDigit cs))))))
  rw [List.length_drop] at hfraction hexponent hprecision
  unfold numberLength
  dsimp only
  omega

theorem bitSuffixLength_le (cs : List Char) : bitSuffixLength cs ≤ cs.length := by
  rcases cs with _ | ⟨c, _ | ⟨d, cs⟩⟩
  · exact Nat.zero_le _
  · by_cases hc : c = 'B'
    · subst hc
      exact Nat.le_refl 1
    · simp [bitSuffixLength, hc]
  · by_cases hc : c = 'B'
    · subst hc
      by_cases hd : ('1' ≤ d && d ≤ '4') = true
      · simp only [bitSuffixLength, hd, if_true, List.length_cons]
        split
        · split <;> omega
        · omega
      · simp only [bitSuffixLength, hd, Bool.false_eq_true, if_false, List.length_cons]
        split
        · split <;> omega
        · omega
    · simp [bitSuffixLength, hc]

theorem quotedExtent_le (cs : List Char) : (quotedExtent cs).extra ≤ cs.length := by
  have hstring := stringExtent_le cs
  have hbits := bitSuffixLength_le (cs.drop (stringExtent cs).1)
  rw [List.length_drop] at hbits
  unfold quotedExtent
  split
  · rename_i n h
    rw [h] at hstring
    exact hstring
  · rename_i n h
    rw [h] at hstring hbits
    dsimp only at hstring hbits
    split
    · exact hstring
    · dsimp only
      omega

theorem operatorExtent_le (part : Part) (c : Char) (cs : List Char) :
    (operatorExtent part c cs).extra ≤ cs.length := by
  unfold operatorExtent
  split
  · rename_i op hfind
    have hop := List.find?_some hfind
    have hle := (List.isPrefixOf_iff_prefix.mp hop).length_le
    rw [List.length_cons] at hle
    dsimp only
    omega
  · split
    · exact Nat.zero_le _
    · split <;> exact Nat.zero_le _

theorem extent_extra_le (part : Part) (c : Char) (cs : List Char)
    (hc : startsComment c cs = false) : (extent part c cs).extra ≤ cs.length := by
  unfold startsComment at hc
  unfold extent
  rw [hc]
  split
  · exact run_le _ cs
  · rw [if_neg Bool.false_ne_true]
    split
    · exact run_le _ cs
    · split
      · exact numberLength_le cs
      · split
        · exact quotedExtent_le cs
        · exact operatorExtent_le part c cs

theorem kind_of_startsComment (part : Part) {c : Char} {cs : List Char}
    (hc : startsComment c cs = true) : (extent part c cs).kind = .comment := by
  unfold startsComment at hc
  unfold extent
  rw [hc]
  split
  · rfl
  · rw [if_pos rfl]
    unfold blockCommentExtent
    split <;> rfl

/-- Elements other than comments do not reach over the end of their line. -/
theorem not_mem_text_head {part : Part} {c : Char} {cs : List Char} (hn : c ≠ '\n')
    (hk : (head part c cs).kind ≠ .comment) : '\n' ∉ (head part c cs).text := by
  have hc : startsComment c cs = false := by
    apply Bool.eq_false_iff.mpr
    intro hc
    exact hk (kind_of_startsComment part hc)
  have hline := not_mem_splitLine cs
  have hend := atLineEnd_splitLine cs
  have hc' : startsComment c (splitLine cs).1 = false := by
    rw [← startsComment_append hend, splitLine_append_self, hc]
  have hextent : extent part c cs = extent part c (splitLine cs).1 := by
    rw [← extent_append hend part c _ hc', splitLine_append_self]
  have hle := extent_extra_le part c _ hc'
  rw [← hextent] at hle
  have htake : ((splitLine cs).1 ++ (splitLine cs).2).take (extent part c cs).extra =
      (splitLine cs).1.take (extent part c cs).extra := List.take_append_of_le_length hle
  rw [splitLine_append_self] at htake
  change '\n' ∉ c :: cs.take (extent part c cs).extra
  rw [htake]
  intro hmem
  rcases List.mem_cons.mp hmem with he | hmem
  · exact hn he.symm
  · exact hline (List.mem_of_mem_take hmem)

end Lexeme

end Pearl
