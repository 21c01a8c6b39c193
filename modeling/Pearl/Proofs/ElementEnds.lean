import Mathlib.Data.List.TakeWhile
import Pearl.Proofs.IncludeInlining

namespace Pearl

namespace Lexeme

open Text

/-! ### Elements in front of a blank or a letter -/

/-- A blank or a letter: no element but a word, a comment, a string or an exponent goes on
with it. -/
def isClear (d : Char) : Bool := d = ' ' || d.isAlpha

theorem ne_of_isClear {d c : Char} (hd : isClear d = true) (hc : isClear c = false) : d ≠ c := by
  rintro rfl
  rw [hc] at hd
  cases hd

theorem isDecimalDigit_of_isAlpha {d : Char} (hd : d.isAlpha = true) :
    isDecimalDigit d = false := by
  have hletter : inRanges [(0x41, 0x5A), (0x61, 0x7A)] d = true := by
    have hascii : (decide (65 ≤ d.val ∧ d.val ≤ 90) || 97 ≤ d.val && d.val ≤ 122) = true := hd
    simp only [Bool.or_eq_true, Bool.and_eq_true, decide_eq_true_eq,
      UInt32.le_iff_toNat_le] at hascii
    simpa [inRanges] using hascii
  have hdigit : inRanges [(0x30, 0x39)] d = false := inRanges_eq_false (by decide) hletter
  have hother : inRanges decimalRanges d = false := inRanges_eq_false (by decide +kernel) hletter
  rw [isDecimalDigit, hother, Bool.or_false]
  by_contra h
  simp only [Bool.not_eq_false, Char.isDigit, Bool.and_eq_true, decide_eq_true_eq, ge_iff_le,
    UInt32.le_iff_toNat_le] at h
  rw [show inRanges [(0x30, 0x39)] d = true by simpa [inRanges] using h] at hdigit
  cases hdigit

theorem isDecimalDigit_of_isClear {d : Char} (hd : isClear d = true) :
    isDecimalDigit d = false := by
  simp only [isClear, Bool.or_eq_true, decide_eq_true_eq] at hd
  rcases hd with rfl | hd
  · decide +kernel
  · exact isDecimalDigit_of_isAlpha hd

theorem isNameChar_of_isAlpha {d : Char} (hd : d.isAlpha = true) : isNameChar d = true := by
  simp [isNameChar, Char.isAlphanum, hd]

theorem run_append_of_neg {p : Char → Bool} {d : Char} (hd : p d = false) (cs r : List Char) :
    run p (cs ++ d :: r) = run p cs := by
  rw [run, run, takeWhile_append_of_head]
  intro c hc
  rwa [← Option.some.inj hc]

/-- A run that ends in a text stays as it is whatever follows the text. -/
theorem run_append_of_le {p : Char → Bool} {d : Char} (hd : p d = true) {cs r : List Char}
    (hle : run p (cs ++ d :: r) ≤ cs.length) (rest : List Char) :
    run p (cs ++ rest) = run p cs := by
  have hlt : (cs.takeWhile p).length ≠ cs.length := by
    intro he
    rw [run, List.takeWhile_append, if_pos he, List.takeWhile_cons_of_pos hd,
      List.length_append, List.length_cons] at hle
    omega
  rw [run, List.takeWhile_append, if_neg hlt, run]

section Clear

variable {d : Char} {r : List Char}

/-! #### Numbers -/

theorem fractionLength_append_clear (hd : isClear d = true) (cs : List Char) :
    fractionLength (cs ++ d :: r) = fractionLength cs := by
  cases cs with
  | nil => simp [fractionLength, ne_of_isClear hd (c := '.') (by decide)]
  | cons c cs =>
    by_cases hc : c = '.'
    · subst hc
      simp only [List.cons_append, fractionLength,
        run_append_of_neg (isDecimalDigit_of_isClear hd)]
    · simp [fractionLength, hc]

theorem exponentLength_append_clear (hd : isClear d = true) {cs : List Char}
    (h : cs = [] → exponentLength (d :: r) = 0) :
    exponentLength (cs ++ d :: r) = exponentLength cs := by
  have hdigit := isDecimalDigit_of_isClear hd
  have hzero : run isDecimalDigit (d :: r) = 0 := by
    rw [run, List.takeWhile_cons_of_neg (by simp [hdigit])]
    rfl
  rcases cs with _ | ⟨c, _ | ⟨s, ds⟩⟩
  · exact h rfl
  · have hplus := ne_of_isClear hd (c := '+') (by decide)
    have hminus := ne_of_isClear hd (c := '-') (by decide)
    simp [exponentLength, hplus, hminus, hzero]
  · have hds := run_append_of_neg (r := r) hdigit ds
    have hsds := run_append_of_neg (r := r) hdigit (s :: ds)
    rw [List.cons_append] at hsds
    simp only [List.cons_append, exponentLength, hds, hsds]

theorem precisionLength_append_clear (hd : isClear d = true) (cs : List Char) :
    precisionLength (cs ++ d :: r) = precisionLength cs := by
  have hdigit := isDecimalDigit_of_isClear hd
  cases cs with
  | nil => simp [precisionLength, ne_of_isClear hd (c := '(') (by decide)]
  | cons c cs =>
    by_cases hc : c = '('
    · subst hc
      simp only [List.cons_append, precisionLength, run_append_of_neg hdigit,
        List.drop_append_of_le_length (run_le _ _)]
      cases hdrop : cs.drop (run isDecimalDigit cs) with
      | nil =>
        have hclose := ne_of_isClear hd (c := ')') (by decide)
        cases run isDecimalDigit cs <;> simp [hclose]
      | cons e es =>
        by_cases he : e = ')'
        · subst he
          cases run isDecimalDigit cs <;> rfl
        · cases run isDecimalDigit cs <;> simp [he]
    · simp [precisionLength, hc]

/-- A number ends in front of a blank, and in front of a letter unless that starts an exponent. -/
theorem numberLength_append_clear (hd : isClear d = true) {cs : List Char}
    (h : exponentLength (d :: r) = 0 ∨ numberLength (cs ++ d :: r) ≤ cs.length) :
    numberLength (cs ++ d :: r) = numberLength cs := by
  have hdigits := run_append_of_neg (r := r) (isDecimalDigit_of_isClear hd) cs
  have hle := run_le isDecimalDigit cs
  have hfraction := fractionLength_le (cs.drop (run isDecimalDigit cs))
  rw [List.length_drop] at hfraction
  have hexponent := exponentLength_le
    (cs.drop (run isDecimalDigit cs + fractionLength (cs.drop (run isDecimalDigit cs))))
  rw [List.length_drop] at hexponent
  unfold numberLength at h ⊢
  dsimp only at h ⊢
  rw [hdigits, List.drop_append_of_le_length hle, fractionLength_append_clear hd,
    List.drop_append_of_le_length (by omega)] at h ⊢
  have hempty : cs.drop (run isDecimalDigit cs + fractionLength (cs.drop (run isDecimalDigit cs))) =
      [] → exponentLength (d :: r) = 0 := by
    intro hdrop
    rcases h with h | h
    · exact h
    · rw [hdrop, List.nil_append] at h
      have hlength := List.drop_eq_nil_iff.mp hdrop
      omega
  rw [exponentLength_append_clear hd hempty, List.drop_append_of_le_length (by omega),
    precisionLength_append_clear hd]

/-! #### Strings -/

theorem stringExtent_append_of_closed (hd : d ≠ '\x27') {cs : List Char}
    (h : (stringExtent cs).2 = true) : stringExtent (cs ++ d :: r) = stringExtent cs := by
  fun_induction stringExtent cs with
  | case1 => cases h
  | case2 cs e ih =>
    simp only [List.cons_append, stringExtent, ih h]
    rfl
  | case3 => cases h
  | case4 cs hquotes _ =>
    apply stringExtent_quote
    cases cs with
    | nil => simpa using hd
    | cons e es =>
      intro he
      exact hquotes es rfl (by rw [Option.some.inj he])
  | case5 c cs hquotes hn hq e ih =>
    rw [List.cons_append, stringExtent_cons_of_ne hn hq, ih h]

/-- A string that is not closed in its line goes on behind it. -/
theorem length_lt_stringExtent (hd : d ≠ '\x27') (hn : d ≠ '\n') {cs : List Char}
    (hcs : '\n' ∉ cs) (h : (stringExtent cs).2 = false) :
    cs.length < (stringExtent (cs ++ d :: r)).1 := by
  fun_induction stringExtent cs with
  | case1 =>
    rw [List.nil_append, stringExtent_cons_of_ne hn hd]
    exact Nat.succ_pos _
  | case2 cs e ih =>
    simp only [List.mem_cons, not_or] at hcs
    have hlt := ih hcs.2.2 h
    simp only [List.cons_append, stringExtent, List.length_cons]
    omega
  | case3 => simp at hcs
  | case4 => cases h
  | case5 c cs hquotes hline hq e ih =>
    simp only [List.mem_cons, not_or] at hcs
    have hlt := ih hcs.2 h
    rw [List.cons_append, stringExtent_cons_of_ne hline hq]
    simp only [List.length_cons]
    omega

theorem bitSuffixLength_append_space (cs : List Char) :
    bitSuffixLength (cs ++ ' ' :: r) = bitSuffixLength cs := by
  have hname : isNameChar ' ' = false := by decide
  rcases cs with _ | ⟨c, cs⟩
  · rfl
  · by_cases hc : c = 'B'
    · subst hc
      rcases cs with _ | ⟨e, _ | ⟨f, cs⟩⟩
      · rfl
      · by_cases he : ('1' ≤ e && e ≤ '4') = true
        · simp [bitSuffixLength, he, hname]
        · simp [bitSuffixLength, he]
      · by_cases he : ('1' ≤ e && e ≤ '4') = true
        · simp [bitSuffixLength, he]
        · simp [bitSuffixLength, he]
    · simp [bitSuffixLength, hc]

theorem isDigit_of_width {e : Char} (he : ('1' ≤ e && e ≤ '4') = true) : e.isDigit = true := by
  simp only [Bool.and_eq_true, decide_eq_true_eq, Char.le_def, UInt32.le_iff_toNat_le] at he
  simp only [Char.isDigit, Bool.and_eq_true, decide_eq_true_eq, ge_iff_le, UInt32.le_iff_toNat_le]
  have hone : '1'.val.toNat = 49 := rfl
  have hfour : '4'.val.toNat = 52 := rfl
  have hzero : '0'.val.toNat = 48 := rfl
  have hnine : '9'.val.toNat = 57 := rfl
  omega

/-- A suffix is not followed by a letter. -/
theorem exists_of_bitSuffixLength (hd : d.isAlpha = true) {cs : List Char} (hcs : cs ≠ [])
    (h : bitSuffixLength (cs ++ d :: r) ≠ 0) : ∃ c ∈ cs, isNameChar c = false := by
  have hname := isNameChar_of_isAlpha hd
  have hwidth : ('1' ≤ d && d ≤ '4') = false := by
    by_contra hw
    rw [Bool.not_eq_false] at hw
    have hdigit := isDecimalDigit_of_isAlpha hd
    rw [isDecimalDigit, isDigit_of_width hw] at hdigit
    cases hdigit
  rcases cs with _ | ⟨c, cs⟩
  · exact absurd rfl hcs
  · by_cases hc : c = 'B'
    · subst hc
      rcases cs with _ | ⟨f, _ | ⟨g, cs⟩⟩
      · simp [bitSuffixLength, hname, hwidth] at h
      · by_cases hf : ('1' ≤ f && f ≤ '4') = true
        · simp [bitSuffixLength, hf, hname] at h
        · refine ⟨f, by simp, ?_⟩
          simpa [bitSuffixLength, hf] using h
      · by_cases hf : ('1' ≤ f && f ≤ '4') = true
        · refine ⟨g, by simp, ?_⟩
          simpa [bitSuffixLength, hf] using h
        · refine ⟨f, by simp, ?_⟩
          simpa [bitSuffixLength, hf] using h
    · simp [bitSuffixLength, hc] at h

/-- A bit string stays as it is unless its suffix may go on. -/
theorem bitSuffixLength_append_of_ends {cs : List Char}
    (hnil : cs = [] → bitSuffixLength (d :: r) = 0)
    (hcs : cs.head? = some 'B' → ∃ c ∈ cs, isNameChar c = false) :
    bitSuffixLength (cs ++ d :: r) = bitSuffixLength cs := by
  rcases cs with _ | ⟨c, cs⟩
  · exact hnil rfl
  · by_cases hc : c = 'B'
    · subst hc
      obtain ⟨e, he, hname⟩ := hcs rfl
      rcases cs with _ | ⟨f, _ | ⟨g, cs⟩⟩
      · rw [List.mem_singleton.mp he] at hname
        exact absurd hname (by decide)
      · by_cases hf : ('1' ≤ f && f ≤ '4') = true
        · simp only [List.mem_cons, List.not_mem_nil, or_false] at he
          rcases he with rfl | rfl
          · exact absurd hname (by decide)
          · simp [isNameChar, Char.isAlphanum, isDigit_of_width hf] at hname
        · simp [bitSuffixLength, hf]
      · by_cases hf : ('1' ≤ f && f ≤ '4') = true
        · simp [bitSuffixLength, hf]
        · simp [bitSuffixLength, hf]
    · simp [bitSuffixLength, hc]

theorem quotedExtent_of_closed {cs : List Char} (h : (stringExtent cs).2 = true) :
    (quotedExtent cs).extra =
      (stringExtent cs).1 + bitSuffixLength (cs.drop (stringExtent cs).1) := by
  obtain ⟨n, hn⟩ : ∃ n, stringExtent cs = (n, true) := ⟨_, Prod.ext rfl h⟩
  simp only [quotedExtent, hn]
  cases bitSuffixLength (cs.drop n) <;> rfl

theorem quotedExtent_congr {cs cs' : List Char} (h : (stringExtent cs).2 = true)
    (hstring : stringExtent cs' = stringExtent cs)
    (hbits : bitSuffixLength (cs'.drop (stringExtent cs).1) =
      bitSuffixLength (cs.drop (stringExtent cs).1)) : quotedExtent cs' = quotedExtent cs := by
  obtain ⟨n, hn⟩ : ∃ n, stringExtent cs = (n, true) := ⟨_, Prod.ext rfl h⟩
  rw [hn] at hbits
  simp only [quotedExtent, hstring, hn, hbits]

theorem quotedExtent_append_space {cs : List Char} (h : (stringExtent cs).2 = true) :
    quotedExtent (cs ++ ' ' :: r) = quotedExtent cs := by
  apply quotedExtent_congr h (stringExtent_append_of_closed (by decide) h)
  rw [List.drop_append_of_le_length (stringExtent_le cs), bitSuffixLength_append_space]

/-- A string that ends before a letter is closed, and no suffix goes on with the letter. -/
theorem quotedExtent_append_alpha (hd : d.isAlpha = true) {cs : List Char} (hn : '\n' ∉ cs)
    (hle : (quotedExtent (cs ++ d :: r)).extra ≤ cs.length)
    (hfree : (cs.drop (quotedExtent (cs ++ d :: r)).extra).head? = some 'B' →
      ∃ c ∈ cs.drop (quotedExtent (cs ++ d :: r)).extra, isNameChar c = false) :
    (stringExtent cs).2 = true ∧ quotedExtent (cs ++ d :: r) = quotedExtent cs := by
  have hclear : isClear d = true := by simp [isClear, hd]
  have hquote := ne_of_isClear hclear (c := '\x27') (by decide)
  have hclosed : (stringExtent cs).2 = true := by
    by_contra hopen
    rw [Bool.not_eq_true] at hopen
    have hlt := length_lt_stringExtent (r := r) hquote
      (ne_of_isClear hclear (by decide)) hn hopen
    have hextra : (stringExtent (cs ++ d :: r)).1 ≤ (quotedExtent (cs ++ d :: r)).extra := by
      unfold quotedExtent
      split
      · rename_i h
        rw [h]
      · rename_i h
        rw [h]
        split
        · exact Nat.le_refl _
        · exact Nat.le_add_right _ _
    omega
  have hstring := stringExtent_append_of_closed (r := r) hquote hclosed
  have hlength := stringExtent_le cs
  refine ⟨hclosed, quotedExtent_congr hclosed hstring ?_⟩
  rw [quotedExtent_of_closed (by rw [hstring, hclosed]), hstring,
    List.drop_append_of_le_length hlength] at hle hfree
  rw [List.drop_append_of_le_length hlength]
  apply bitSuffixLength_append_of_ends
  · intro hnil
    rw [hnil, List.nil_append] at hle
    have hdrop := List.drop_eq_nil_iff.mp hnil
    omega
  · intro hhead
    by_cases hzero : bitSuffixLength (cs.drop (stringExtent cs).1 ++ d :: r) = 0
    · rw [hzero, Nat.add_zero] at hfree
      exact hfree hhead
    · exact exists_of_bitSuffixLength hd (fun hnil => by simp [hnil] at hhead) hzero

/-! #### Operators -/

theorem isPrefixOf_append_clear (hd : isClear d = true) {op : List Char}
    (hop : ∀ c ∈ op, isClear c = false) (cs : List Char) :
    op.isPrefixOf (cs ++ d :: r) = op.isPrefixOf cs := by
  induction op generalizing cs with
  | nil => simp
  | cons o op ih =>
    simp only [List.mem_cons, forall_eq_or_imp] at hop
    cases cs with
    | nil => simp [List.isPrefixOf, (ne_of_isClear hd hop.1).symm]
    | cons c cs => simp only [List.cons_append, List.isPrefixOf, ih hop.2 cs]

theorem operatorExtent_append_clear (hd : isClear d = true) (part : Part) (c : Char)
    (cs : List Char) : operatorExtent part c (cs ++ d :: r) = operatorExtent part c cs := by
  have hall : (longOperators part).all (·.all (!isClear ·)) = true := by cases part <;> decide
  have hops : ∀ op ∈ longOperators part, ∀ o ∈ op, isClear o = false := by
    simpa [List.all_eq_true] using hall
  have hfind : (longOperators part).find? (·.isPrefixOf (c :: (cs ++ d :: r))) =
      (longOperators part).find? (·.isPrefixOf (c :: cs)) := by
    apply List.find?_congr
    intro op hop
    exact isPrefixOf_append_clear hd (hops op hop) (c :: cs)
  rw [operatorExtent, operatorExtent, hfind]

end Clear

/-! #### All elements -/

variable {part : Part} {c : Char} {cs : List Char}

/-- Neither a line comment nor anything that is not closed. -/
def IsClosed (l : Lexeme) : Prop :=
  l.text.head? ≠ some '!' ∧ l.fault ≠ some .unterminatedComment ∧
    l.fault ≠ some .unterminatedString

instance (l : Lexeme) : Decidable l.IsClosed := inferInstanceAs (Decidable (_ ∧ _))

theorem closed_of_fault (hc : c = '\x27')
    (hfault : (extent part c cs).fault ≠ some .unterminatedString) :
    (stringExtent cs).2 = true := by
  subst hc
  by_contra hopen
  rw [Bool.not_eq_true] at hopen
  obtain ⟨n, hn⟩ : ∃ n, stringExtent cs = (n, false) := ⟨_, Prod.ext rfl hopen⟩
  simp [extent, quotedExtent, hn] at hfault

theorem extent_congr {cs' : List Char} (hcomment : startsComment c cs = false)
    (hcomment' : startsComment c cs' = false) (hline : c ≠ '!')
    (hname : c.isAlpha = true → run isNameChar cs' = run isNameChar cs ∧
      cs'.take (run isNameChar cs) = cs.take (run isNameChar cs))
    (hnumber : c.isDigit = true → numberLength cs' = numberLength cs)
    (hquoted : c = '\x27' → quotedExtent cs' = quotedExtent cs)
    (hoperator : operatorExtent part c cs' = operatorExtent part c cs) :
    extent part c cs' = extent part c cs := by
  unfold startsComment at hcomment hcomment'
  simp only [extent, if_neg hline, hcomment, hcomment', Bool.false_eq_true, if_false]
  split
  · rename_i h
    rw [(hname h).1, (hname h).2]
  · split
    · rename_i h
      rw [hnumber h]
    · split
      · rename_i h
        exact hquoted h
      · exact hoperator

theorem startsComment_append_clear {d : Char} (hd : isClear d = true) (c : Char)
    (cs r : List Char) : startsComment c (cs ++ d :: r) = startsComment c cs := by
  cases cs with
  | nil => simp [startsComment, ne_of_isClear hd (c := '*') (by decide)]
  | cons e cs => rfl

/-- Elements that are closed end in front of a blank. -/
theorem extent_append_space (hcomment : startsComment c cs = false) (hline : c ≠ '!')
    (hstring : c = '\x27' → (stringExtent cs).2 = true) (r : List Char) :
    extent part c (cs ++ ' ' :: r) = extent part c cs := by
  have hclear : isClear ' ' = true := by decide
  refine extent_congr hcomment ((startsComment_append_clear hclear c cs r).trans hcomment) hline
    ?_ ?_ ?_ (operatorExtent_append_clear hclear part c cs)
  · intro _
    exact ⟨run_append_of_neg (by decide) cs r, List.take_append_of_le_length (run_le _ cs)⟩
  · intro _
    exact numberLength_append_clear hclear (.inl rfl)
  · intro hq
    exact quotedExtent_append_space (hstring hq)

/-- Elements that end in front of a letter are what they would be at the end of the text. -/
theorem extent_append_alpha {x : Char} (hx : x.isAlpha = true) {r : List Char} (hn : '\n' ∉ cs)
    (hcomment : startsComment c cs = false)
    (hle : (extent part c (cs ++ x :: r)).extra ≤ cs.length)
    (hfree : (cs.drop (extent part c (cs ++ x :: r)).extra).head? = some 'B' →
      ∃ e ∈ cs.drop (extent part c (cs ++ x :: r)).extra, isNameChar e = false) :
    c ≠ '!' ∧ (c = '\x27' → (stringExtent cs).2 = true) ∧
      extent part c (cs ++ x :: r) = extent part c cs := by
  have hclear : isClear x = true := by simp [isClear, hx]
  have hcomment' := (startsComment_append_clear hclear c cs r).trans hcomment
  have hline : c ≠ '!' := by
    rintro rfl
    have hrun : (extent part '!' (cs ++ x :: r)).extra = run (· ≠ '\n') (cs ++ x :: r) := rfl
    rw [hrun, run, List.takeWhile_append_of_pos, List.takeWhile_cons_of_pos,
      List.length_append, List.length_cons] at hle
    · omega
    · simpa using ne_of_isClear hclear (c := '\n') (by decide)
    · intro e he
      simpa using fun h : e = '\n' => hn (h ▸ he)
  have hextent := hcomment'
  unfold startsComment at hextent
  simp only [extent, if_neg hline, hextent, Bool.false_eq_true, if_false] at hle hfree
  have hstring : c = '\x27' → (stringExtent cs).2 = true ∧
      quotedExtent (cs ++ x :: r) = quotedExtent cs := by
    rintro rfl
    exact quotedExtent_append_alpha hx hn hle hfree
  refine ⟨hline, fun hq => (hstring hq).1, extent_congr hcomment hcomment' hline ?_ ?_
    (fun hq => (hstring hq).2) (operatorExtent_append_clear hclear part c cs)⟩
  · intro hc
    rw [if_pos hc] at hle
    have hrun := run_append_of_le (isNameChar_of_isAlpha hx) hle (x :: r)
    exact ⟨hrun, List.take_append_of_le_length (run_le _ cs)⟩
  · intro hc
    have halpha : c.isAlpha = false := by
      by_contra h
      rw [Bool.not_eq_false] at h
      have hdigit := isDecimalDigit_of_isAlpha h
      rw [isDecimalDigit, hc] at hdigit
      cases hdigit
    rw [halpha, if_neg Bool.false_ne_true, if_pos hc] at hle
    exact numberLength_append_clear hclear (.inr hle)

/-- A comment that ends in a text is closed there. -/
theorem commentExtent_of_append {r : List Char} (hclosed : (commentExtent (cs ++ r)).2 = true)
    (hle : (commentExtent (cs ++ r)).1 ≤ cs.length) : (commentExtent cs).2 = true := by
  fun_induction commentExtent cs with
  | case1 =>
    rw [List.nil_append] at hclosed hle
    cases r with
    | nil => cases hclosed
    | cons c r => exact absurd (commentExtent_pos c r) (by simpa using hle)
  | case2 => rfl
  | case3 c cs hclose e ih =>
    have hcons : commentExtent (c :: (cs ++ r)) =
        ((commentExtent (cs ++ r)).1 + 1, (commentExtent (cs ++ r)).2) := by
      apply commentExtent_cons
      rintro rfl
      cases cs with
      | nil =>
        -- the comment would have to end behind the text
        intro hr
        obtain ⟨r, rfl⟩ : ∃ r', r = '/' :: r' := by
          cases r with
          | nil => cases hr
          | cons d r => exact ⟨r, by rw [Option.some.inj hr]⟩
        simp [commentExtent] at hle
      | cons d ds =>
        intro hd
        exact hclose ds rfl (by rw [Option.some.inj hd])
    rw [List.cons_append, hcons] at hclosed hle
    exact ih hclosed (Nat.le_of_succ_le_succ hle)

/-- The element in front of a letter stays as it is if a blank is put in the place of the letter,
and so does what stands between them. -/
theorem head_spaced {x : Char} (hx : x.isAlpha = true) {r : List Char}
    (hle : (extent part c (cs ++ x :: r)).extra ≤ cs.length)
    (hfree : (cs.drop (extent part c (cs ++ x :: r)).extra).head? = some 'B' →
      ∃ e ∈ cs.drop (extent part c (cs ++ x :: r)).extra, isNameChar e = false)
    (r' : List Char) :
    head part c (cs ++ ' ' :: r') = head part c (cs ++ x :: r) ∧
      tail part c (cs ++ ' ' :: r') =
        cs.drop (extent part c (cs ++ x :: r)).extra ++ ' ' :: r' := by
  have hclear : isClear x = true := by simp [isClear, hx]
  have hcomment := startsComment_append_clear hclear c cs r
  have hextent : extent part c (cs ++ ' ' :: r') = extent part c (cs ++ x :: r) := by
    cases hc : startsComment c cs with
    | true =>
      obtain ⟨rfl, ds, rfl⟩ := eq_of_startsComment hc
      simp only [List.cons_append, extent_comment] at hle ⊢
      have hclosed : (commentExtent (ds ++ x :: r)).2 = true := by
        by_contra hopen
        rw [Bool.not_eq_true] at hopen
        rw [commentExtent_open hopen] at hle
        simp only [List.length_append, List.length_cons] at hle
        omega
      have hds := commentExtent_of_append hclosed (by simpa using hle)
      rw [(commentExtent_append hds _).1, (commentExtent_append hds _).1]
    | false =>
      by_cases hn : '\n' ∈ cs
      · apply extent_eq_of_line (hcomment.trans hc)
        rw [splitLine_append_of_mem hn, splitLine_append_of_mem hn]
      · obtain ⟨hline, hstring, hextent⟩ := extent_append_alpha hx hn hc hle hfree
        rw [hextent, extent_append_space hc hline hstring]
  rw [head, tail, hextent, head]
  refine ⟨?_, List.drop_append_of_le_length hle⟩
  rw [List.take_append_of_le_length hle, List.take_append_of_le_length hle]

/-- A closed element stays as it is in front of a blank. -/
theorem head_append_space (h : (head part c cs).IsClosed) (r : List Char) :
    head part c (cs ++ ' ' :: r) = head part c cs ∧
      tail part c (cs ++ ' ' :: r) = tail part c cs ++ ' ' :: r := by
  obtain ⟨hline, hcomment, hstring⟩ := h
  have hextent : extent part c (cs ++ ' ' :: r) = extent part c cs ∧
      (extent part c cs).extra ≤ cs.length := by
    cases hc : startsComment c cs with
    | true =>
      obtain ⟨rfl, ds, rfl⟩ := eq_of_startsComment hc
      have hclosed : (commentExtent ds).2 = true := by
        by_contra hopen
        simp [head, extent_comment, hopen] at hcomment
      obtain ⟨hextent, hle⟩ := commentExtent_append hclosed (' ' :: r)
      rw [List.cons_append, extent_comment, extent_comment, hextent]
      exact ⟨rfl, Nat.succ_le_succ hle⟩
    | false =>
      have hne : c ≠ '!' := fun h => hline (congrArg some h)
      exact ⟨extent_append_space hc hne (fun hq => closed_of_fault hq hstring) r,
        extent_extra_le part c cs hc⟩
  rw [head, tail, hextent.1, head]
  exact ⟨by rw [List.take_append_of_le_length hextent.2],
    List.drop_append_of_le_length hextent.2⟩

end Lexeme

end Pearl
