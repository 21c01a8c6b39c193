import Pearl.Proofs.ElementEnds
import Pearl.Proofs.IncludeNesting
import Pearl.Proofs.LayoutIndependence

namespace Pearl

namespace Lexeme

open Text

/-! ### Elements by themselves -/

section Take

variable {n : Nat} {cs : List Char}

theorem run_take_eq_min (p : Char → Bool) (n : Nat) (cs : List Char) :
    run p (cs.take n) = min n (run p cs) := by
  unfold run
  induction cs generalizing n with
  | nil => simp
  | cons c cs ih =>
    cases n with
    | zero => simp
    | succ n =>
      by_cases hc : p c = true
      · simp only [List.take_succ_cons, List.takeWhile_cons_of_pos hc, List.length_cons, ih]
        omega
      · simp [List.takeWhile_cons_of_neg hc]

theorem run_take {p : Char → Bool} (h : run p cs ≤ n) : run p (cs.take n) = run p cs :=
  (run_take_eq_min p n cs).trans (Nat.min_eq_right h)

theorem fractionLength_take (h : fractionLength cs ≤ n) :
    fractionLength (cs.take n) = fractionLength cs := by
  cases cs with
  | nil => simp
  | cons c cs =>
    by_cases hc : c = '.'
    · subst hc
      simp only [fractionLength] at h
      obtain ⟨m, rfl⟩ : ∃ m, n = m + 1 := ⟨n - 1, by omega⟩
      simp only [List.take_succ_cons, fractionLength, run_take (Nat.le_of_succ_le_succ h)]
    · cases n with
      | zero => simp [fractionLength, hc]
      | succ n => simp [fractionLength, hc]

theorem exponentLength_signed {c s : Char} (hc : (c = 'E' || c = 'e') = true)
    (hs : (s = '+' || s = '-') = true) (ds : List Char) :
    exponentLength (c :: s :: ds) =
      if run isDecimalDigit ds = 0 then 0 else run isDecimalDigit ds + 2 := by
  simp only [exponentLength, hc, hs, if_true]
  cases run isDecimalDigit ds <;> rfl

theorem exponentLength_unsigned {c s : Char} (hc : (c = 'E' || c = 'e') = true)
    (hs : (s = '+' || s = '-') = false) (ds : List Char) :
    exponentLength (c :: s :: ds) =
      if run isDecimalDigit (s :: ds) = 0 then 0 else run isDecimalDigit (s :: ds) + 1 := by
  simp only [exponentLength, hc, hs, if_true, Bool.false_eq_true, if_false]
  cases run isDecimalDigit (s :: ds) <;> rfl

theorem exponentLength_of_ne {c : Char} (hc : (c = 'E' || c = 'e') = false) (cs : List Char) :
    exponentLength (c :: cs) = 0 := by
  simp only [exponentLength, hc, Bool.false_eq_true, if_false]

theorem exponentLength_singleton (c : Char) : exponentLength [c] = 0 := by
  simp [exponentLength]

theorem exponentLength_take (h : exponentLength cs ≤ n) :
    exponentLength (cs.take n) = exponentLength cs := by
  rcases cs with _ | ⟨c, _ | ⟨s, ds⟩⟩
  · rw [List.take_nil]
  · cases n <;> simp [exponentLength]
  · cases hc : (c = 'E' || c = 'e' : Bool) with
    | false =>
      rw [exponentLength_of_ne hc]
      cases n with
      | zero => rfl
      | succ n => exact exponentLength_of_ne hc _
    | true =>
      cases hs : (s = '+' || s = '-' : Bool) with
      | true =>
        rw [exponentLength_signed hc hs] at h ⊢
        rcases n with _ | _ | n
        · rw [if_pos (by_contra fun hd => by simp [hd] at h)]
          rfl
        · rw [if_pos (by_contra fun hd => by simp [hd] at h)]
          exact exponentLength_singleton c
        · have hdigits : run isDecimalDigit ds ≤ n := by
            split at h <;> omega
          rw [List.take_succ_cons, List.take_succ_cons, exponentLength_signed hc hs,
            run_take hdigits]
      | false =>
        rw [exponentLength_unsigned hc hs] at h ⊢
        rcases n with _ | _ | n
        · rw [if_pos (by_contra fun hd => by simp [hd] at h)]
          rfl
        · rw [if_pos (by_contra fun hd => by rw [if_neg hd] at h; omega)]
          exact exponentLength_singleton c
        · have hdigits : run isDecimalDigit (s :: ds) ≤ n + 1 := by
            split at h <;> omega
          have htake := run_take hdigits
          rw [List.take_succ_cons] at htake
          rw [List.take_succ_cons, List.take_succ_cons, exponentLength_unsigned hc hs, htake]

theorem precisionLength_paren (cs : List Char) :
    precisionLength ('(' :: cs) =
      if run isDecimalDigit cs ≠ 0 ∧ (cs.drop (run isDecimalDigit cs)).head? = some ')' then
        run isDecimalDigit cs + 2
      else 0 := by
  simp only [precisionLength]
  cases run isDecimalDigit cs with
  | zero => simp
  | succ d =>
    cases hdrop : cs.drop (d + 1) with
    | nil => simp
    | cons e es =>
      by_cases he : e = ')'
      · simp [he]
      · simp [he]

theorem precisionLength_take (h : precisionLength cs ≤ n) :
    precisionLength (cs.take n) = precisionLength cs := by
  cases cs with
  | nil => rw [List.take_nil]
  | cons c cs =>
    by_cases hc : c = '('
    · subst hc
      cases n with
      | zero => exact (Nat.le_zero.mp h).symm
      | succ n =>
        rw [precisionLength_paren] at h
        rw [List.take_succ_cons, precisionLength_paren, precisionLength_paren, List.drop_take]
        rcases Nat.lt_or_ge (run isDecimalDigit cs) n with hlt | hge
        · have hhead : ((cs.drop (run isDecimalDigit cs)).take (n - run isDecimalDigit cs)).head? =
              (cs.drop (run isDecimalDigit cs)).head? := by
            rw [List.head?_take, if_neg (by omega)]
          rw [run_take (Nat.le_of_lt hlt), hhead]
        · -- digits that are cut off are followed by nothing
          have hcut : (cs.drop (run isDecimalDigit (cs.take n))).take
              (n - run isDecimalDigit (cs.take n)) = [] := by
            rw [run_take_eq_min, Nat.min_eq_left hge, Nat.sub_self, List.take_zero]
          rw [hcut, if_neg (by simp)]
          split at h
          · omega
          · rename_i hno
            rw [if_neg hno]
    · cases n <;> simp [precisionLength, hc]

theorem numberLength_take (h : numberLength cs ≤ n) :
    numberLength (cs.take n) = numberLength cs := by
  unfold numberLength at h ⊢
  dsimp only at h ⊢
  have hdigits : run isDecimalDigit (cs.take n) = run isDecimalDigit cs := run_take (by omega)
  rw [hdigits]
  generalize run isDecimalDigit cs = d at h ⊢
  have hfraction : fractionLength ((cs.take n).drop d) = fractionLength (cs.drop d) := by
    rw [List.drop_take]
    exact fractionLength_take (by omega)
  rw [hfraction]
  generalize fractionLength (cs.drop d) = f at h ⊢
  have hexponent : exponentLength ((cs.take n).drop (d + f)) =
      exponentLength (cs.drop (d + f)) := by
    rw [List.drop_take]
    exact exponentLength_take (by omega)
  rw [hexponent]
  generalize exponentLength (cs.drop (d + f)) = e at h ⊢
  have hprecision : precisionLength ((cs.take n).drop (d + f + e)) =
      precisionLength (cs.drop (d + f + e)) := by
    rw [List.drop_take]
    exact precisionLength_take (by omega)
  rw [hprecision]

theorem stringExtent_take (cs : List Char) :
    ∀ n, (stringExtent cs).1 ≤ n → stringExtent (cs.take n) = stringExtent cs := by
  fun_induction stringExtent cs with
  | case1 =>
    intro n _
    rw [List.take_nil]
    rfl
  | case2 cs r ih =>
    intro n h
    obtain ⟨m, rfl⟩ : ∃ m, n = m + 2 := ⟨n - 2, by omega⟩
    simp only [List.take_succ_cons, stringExtent, ih m (Nat.le_of_add_le_add_right h)]
    rfl
  | case3 cs hquotes =>
    intro n _
    cases n with
    | zero => rfl
    | succ n => rfl
  | case4 cs hquotes _ =>
    intro n h
    obtain ⟨m, rfl⟩ : ∃ m, n = m + 1 := ⟨n - 1, by omega⟩
    rw [List.take_succ_cons]
    apply stringExtent_quote
    cases cs with
    | nil => simp
    | cons d ds =>
      intro hd
      cases m with
      | zero => cases hd
      | succ m => exact hquotes ds rfl (by rw [Option.some.inj hd])
  | case5 c cs hquotes hn hq r ih =>
    intro n h
    obtain ⟨m, rfl⟩ : ∃ m, n = m + 1 := ⟨n - 1, by omega⟩
    rw [List.take_succ_cons, stringExtent_cons_of_ne hn hq, ih m (Nat.le_of_succ_le_succ h)]

/-- A suffix that something follows is none, so that it may not be cut off anywhere else. -/
theorem bitSuffixLength_take (cs : List Char) :
    bitSuffixLength (cs.take (bitSuffixLength cs)) = bitSuffixLength cs := by
  rcases cs with _ | ⟨c, cs⟩
  · rfl
  · by_cases hc : c = 'B'
    · subst hc
      rcases cs with _ | ⟨e, _ | ⟨f, cs⟩⟩
      · rfl
      · by_cases he : ('1' ≤ e && e ≤ '4') = true
        · simp [bitSuffixLength, he]
        · by_cases hn : isNameChar e = true <;> simp [bitSuffixLength, he, hn]
      · by_cases he : ('1' ≤ e && e ≤ '4') = true
        · by_cases hn : isNameChar f = true <;> simp [bitSuffixLength, he, hn]
        · by_cases hn : isNameChar e = true <;> simp [bitSuffixLength, he, hn]
    · simp [bitSuffixLength, hc]

theorem quotedExtent_take (cs : List Char) :
    quotedExtent (cs.take (quotedExtent cs).extra) = quotedExtent cs := by
  cases hclosed : (stringExtent cs).2 with
  | false =>
    have hstring : stringExtent cs = ((stringExtent cs).1, false) := Prod.ext rfl hclosed
    have hextra : (quotedExtent cs).extra = (stringExtent cs).1 := by rw [quotedExtent, hstring]
    rw [hextra, quotedExtent, stringExtent_take cs _ (Nat.le_refl _), quotedExtent]
    rw [hstring]
  | true =>
    rw [quotedExtent_of_closed hclosed]
    apply quotedExtent_congr hclosed (stringExtent_take cs _ (Nat.le_add_right _ _))
    rw [List.drop_take, Nat.add_sub_cancel_left, bitSuffixLength_take]

theorem isPrefixOf_of_take {op : List Char} {c : Char}
    (h : op.isPrefixOf (c :: cs.take n) = true) : op.isPrefixOf (c :: cs) = true := by
  rw [List.isPrefixOf_iff_prefix] at h ⊢
  exact h.trans ((List.prefix_cons_inj c).mpr (List.take_prefix n cs))

/-- The first operator that a text starts with is the first that it starts with itself. -/
theorem find?_take {ops : List (List Char)} {op : List Char} {c : Char}
    (h : ops.find? (·.isPrefixOf (c :: cs)) = some op) :
    ops.find? (·.isPrefixOf (c :: cs.take (op.length - 1))) = some op := by
  obtain ⟨hstarts, front, back, hsplit, hfront⟩ := List.find?_eq_some_iff_append.mp h
  refine List.find?_eq_some_iff_append.mpr ⟨?_, front, back, hsplit, ?_⟩
  · cases op with
    | nil => rfl
    | cons o op =>
      rw [List.isPrefixOf_iff_prefix, List.cons_prefix_cons] at hstarts ⊢
      refine ⟨hstarts.1, ?_⟩
      have htake : op = cs.take op.length := List.prefix_iff_eq_take.mp hstarts.2
      rw [List.length_cons, Nat.add_sub_cancel]
      exact ⟨[], by rw [List.append_nil, ← htake]⟩
  · intro o ho
    have hno := hfront o ho
    rw [Bool.not_eq_true'] at hno ⊢
    by_contra hyes
    rw [Bool.not_eq_false] at hyes
    rw [isPrefixOf_of_take hyes] at hno
    cases hno

theorem operatorExtent_take (part : Part) (c : Char) (cs : List Char) :
    operatorExtent part c (cs.take (operatorExtent part c cs).extra) =
      operatorExtent part c cs := by
  cases hop : (longOperators part).find? (·.isPrefixOf (c :: cs)) with
  | some op =>
    have hextent : operatorExtent part c cs = { kind := .operator, extra := op.length - 1 } := by
      rw [operatorExtent, hop]
    rw [hextent, operatorExtent, find?_take hop]
  | none =>
    have hnone : ∀ n, (longOperators part).find? (·.isPrefixOf (c :: cs.take n)) = none := by
      intro n
      rw [List.find?_eq_none] at hop ⊢
      intro op hmem hstarts
      exact hop op hmem (isPrefixOf_of_take hstarts)
    rw [operatorExtent, hnone, operatorExtent, hop]

/-- An element is what it is by its own characters alone. -/
theorem extent_take_self (part : Part) {c : Char} (hc : startsComment c cs = false) :
    startsComment c (cs.take (extent part c cs).extra) = false ∧
      extent part c (cs.take (extent part c cs).extra) = extent part c cs := by
  have hcut : ∀ n, startsComment c (cs.take n) = false := by
    intro n
    cases cs with
    | nil => rw [List.take_nil, hc]
    | cons d cs =>
      cases n with
      | zero => simp [startsComment]
      | succ n => exact hc
  refine ⟨hcut _, ?_⟩
  have hplain : ∀ ds, startsComment c ds = false → c ≠ '!' → extent part c ds =
      if c.isAlpha then
        ⟨Keyword.classify (String.ofList (c :: ds.take (run isNameChar ds))), run isNameChar ds,
          none⟩
      else if c.isDigit then { kind := .number, extra := numberLength ds }
      else if c = '\x27' then quotedExtent ds
      else operatorExtent part c ds := by
    intro ds hds hline
    unfold startsComment at hds
    rw [extent, if_neg hline, hds, if_neg Bool.false_ne_true]
  by_cases hline : c = '!'
  · subst hline
    have hextent : ∀ ds, extent part '!' ds =
        { kind := .comment, extra := run (· ≠ '\n') ds } := fun ds => rfl
    rw [hextent, hextent, run_take (Nat.le_refl _)]
  · rw [hplain cs hc hline, hplain _ (hcut _) hline]
    split
    · rw [run_take (Nat.le_refl _), List.take_take, Nat.min_self]
    · split
      · rw [numberLength_take (Nat.le_refl _)]
      · split
        · exact quotedExtent_take cs
        · exact operatorExtent_take part c cs

/-- A comment that is closed is what it is by its own characters alone. -/
theorem commentExtent_take_append (h : (commentExtent cs).2 = true) (rest : List Char) :
    commentExtent (cs.take (commentExtent cs).1 ++ rest) = commentExtent cs := by
  have hle : (commentExtent cs).1 ≤ (cs.take (commentExtent cs).1).length := by
    rw [List.length_take]
    have hlength := (commentExtent_append h []).2
    omega
  have hcut := List.take_append_drop (commentExtent cs).1 cs
  have hclosed : (commentExtent (cs.take (commentExtent cs).1)).2 = true := by
    apply commentExtent_of_append (r := cs.drop (commentExtent cs).1)
    · rw [hcut, h]
    · rw [hcut]
      exact hle
  have hself := (commentExtent_append hclosed (cs.drop (commentExtent cs).1)).1
  rw [hcut] at hself
  rw [(commentExtent_append hclosed rest).1, ← hself]

/-- The element at the head of a text is there as well if nothing follows it in its line, and
nothing at all if it is a comment that is not closed. -/
theorem extent_alone {part : Part} {c : Char} {rest : List Char} (hrest : AtLineEnd rest)
    (hopen : (extent part c cs).fault = some .unterminatedComment → rest = []) :
    extent part c (cs.take (extent part c cs).extra ++ rest) = extent part c cs ∧
      (extent part c cs).extra ≤ cs.length := by
  cases hc : startsComment c cs with
  | false =>
    obtain ⟨hcut, hself⟩ := extent_take_self part hc
    exact ⟨(extent_append hrest part c _ hcut).trans hself, extent_extra_le part c cs hc⟩
  | true =>
    obtain ⟨rfl, ds, rfl⟩ := eq_of_startsComment hc
    rw [extent_comment] at hopen ⊢
    rw [List.take_succ_cons, List.cons_append, extent_comment, List.length_cons]
    cases hclosed : (commentExtent ds).2 with
    | true =>
      have hle := (commentExtent_append hclosed []).2
      rw [commentExtent_take_append hclosed, hclosed]
      exact ⟨rfl, Nat.succ_le_succ hle⟩
    | false =>
      have hall := commentExtent_open hclosed
      rw [hopen (by simp [hclosed]), List.append_nil, hall, List.take_length, hclosed, hall]
      exact ⟨rfl, Nat.le_refl _⟩

theorem head_alone {part : Part} {c : Char} {rest : List Char} (hrest : AtLineEnd rest)
    (hopen : (head part c cs).fault = some .unterminatedComment → rest = []) :
    head part c (cs.take (extent part c cs).extra ++ rest) = head part c cs ∧
      tail part c (cs.take (extent part c cs).extra ++ rest) = rest := by
  obtain ⟨hextent, hle⟩ := extent_alone hrest hopen
  have hlength : (cs.take (extent part c cs).extra).length = (extent part c cs).extra :=
    List.length_take_of_le hle
  rw [head, tail, hextent, head]
  exact ⟨by rw [List.take_left' hlength], List.drop_left' hlength⟩

end Take

/-! ### The elements of a text, one per line -/

/-- The elements of a text that starts in a part of a module. -/
def sequence (part : Part) (cs : List Char) : List Lexeme :=
  match cs with
  | [] => []
  | c :: cs =>
    if isSpace c || c = '\n' then sequence part cs
    else
      have := length_tail_le part c cs
      head part c cs :: sequence (Expansion.partAfter part (head part c cs)) (tail part c cs)
termination_by cs.length
decreasing_by
  · exact Nat.lt_succ_self cs.length
  · exact Nat.lt_succ_of_le this

def spread : List Lexeme → List Char
  | [] => []
  | [l] => l.text
  | l :: m :: ls => l.text ++ '\n' :: spread (m :: ls)

theorem sequence_newline (part : Part) (cs : List Char) :
    sequence part ('\n' :: cs) = sequence part cs := by
  rw [sequence, if_pos (by decide)]

theorem sequence_element (part : Part) {c : Char} (hc : ¬(isSpace c || c = '\n') = true)
    (cs : List Char) :
    sequence part (c :: cs) = head part c cs ::
      sequence (Expansion.partAfter part (head part c cs)) (tail part c cs) := by
  rw [sequence, if_neg hc]

/-- What stands below an element starts with the end of its line. -/
theorem exists_spread_cons (l : Lexeme) (ls : List Lexeme) :
    ∃ rest, spread (l :: ls) = l.text ++ rest ∧ AtLineEnd rest ∧ (ls = [] → rest = []) ∧
      ∀ part, sequence part rest = sequence part (spread ls) := by
  cases ls with
  | nil =>
    refine ⟨[], by simp [spread], ?_, fun _ => rfl, fun part => rfl⟩
    intro c hc
    cases hc
  | cons m ls =>
    refine ⟨'\n' :: spread (m :: ls), rfl, ?_, fun h => (List.cons_ne_nil _ _ h).elim, ?_⟩
    · intro c hc
      exact (Option.some.inj hc).symm
    · intro part
      exact sequence_newline part _

/-- Elements that are spread over lines of their own are read back. -/
theorem sequence_spread (part : Part) (cs : List Char) :
    sequence part (spread (sequence part cs)) = sequence part cs := by
  fun_induction sequence part cs with
  | case1 part => rw [spread, sequence]
  | case2 part c cs hblank ih => exact ih
  | case3 part c cs hblank _ ih =>
    obtain ⟨rest, hspread, hend, hlast, hsame⟩ := exists_spread_cons (head part c cs)
      (sequence (Expansion.partAfter part (head part c cs)) (tail part c cs))
    have hopen : (head part c cs).fault = some .unterminatedComment → rest = [] := by
      intro hfault
      apply hlast
      rw [tail_eq_nil hfault, sequence]
    obtain ⟨hhead, htail⟩ := head_alone hend hopen
    have htext : spread (head part c cs ::
        sequence (Expansion.partAfter part (head part c cs)) (tail part c cs)) =
        c :: (cs.take (extent part c cs).extra ++ rest) := hspread
    rw [htext, sequence_element part hblank, hhead, htail, hsame, ih]

def spelling (l : Lexeme) : TokenKind × String := (l.kind, String.ofList l.text)

theorem toList_intercalate_spelling (ls : List Lexeme) :
    ("\n".intercalate (ls.map fun l => l.spelling.2)).toList = spread ls := by
  induction ls with
  | nil => simp [spread]
  | cons l ls ih =>
    cases ls with
    | nil => simp [spread, spelling]
    | cons m ls =>
      simp only [List.map_cons, String.intercalate_cons_cons, String.toList_append] at ih ⊢
      rw [ih]
      simp [spread, spelling]

end Lexeme

/-! ### Texts without directives and macros -/

namespace Scan

/-- No macro has a meaning, and no condition is open. -/
structure State.Bare (s : State) : Prop where
  macros : s.macros = {}
  conditions : s.conditions = {}

variable {s : State}

/-- Where no macro has a meaning, an element is added as it is. -/
theorem State.Bare.element (h : s.Bare) (uri : String) (l : Lexeme) :
    (s.element uri l).Bare ∧ (s.element uri l).part = Expansion.partAfter s.part l ∧
      (s.element uri l).tokens.toList.map Token.spelling =
        s.tokens.toList.map Token.spelling ++ [l.spelling] := by
  have hplain : s.element uri l = s.plain uri l := by
    have hnone : Expansion.reference? s.macros [] l = none := by
      rw [h.macros]
      simp [Expansion.reference?, MacroTable.get?]
    rw [State.element, hnone]
  have hagrees := State.agrees_plain s uri l
  rw [hplain, hagrees.part, hagrees.tokens]
  refine ⟨⟨hagrees.macros.trans h.macros, ?_⟩, rfl, ?_⟩
  · exact (State.conditions_plain s uri l).trans h.conditions
  · simp [State.emit, State.advance, State.tokenHere, Token.spelling, Lexeme.spelling]

/-- A text in which `#` has no meaning is read element by element. -/
theorem run_bare (σ : Setting) (hσ : σ.directives = false) (src : Source)
    (nested : Option Reader) (s : State) (cs : List Char) : s.Bare →
    (run σ src nested s cs).tokens.toList.map Token.spelling =
      s.tokens.toList.map Token.spelling ++
        (Lexeme.sequence s.part cs).map Lexeme.spelling := by
  induction s, cs using run_induction σ src nested with
  | nil s =>
    intro _
    rw [run_nil, Lexeme.sequence, List.map_nil, List.append_nil]
  | next s text p rest hnext ih =>
    intro h
    have hactive : s.conditions.active = true := by rw [h.conditions]; rfl
    rw [run_of_next σ src nested hnext]
    cases hnext with
    | newline rest =>
      rw [Lexeme.sequence_newline]
      exact ih ⟨h.macros, h.conditions⟩
    | space rest hc =>
      rw [Lexeme.sequence, if_pos (by rw [hc]; rfl)]
      exact ih ⟨h.macros, h.conditions⟩
    | directive hd => exact absurd (hσ.symm.trans hd) Bool.false_ne_true
    | inactive hn hc hs hd ha => exact absurd (ha.symm.trans hactive) Bool.false_ne_true
    | @element c cs hn hc hs =>
      obtain ⟨hbare, hpart, htokens⟩ := h.element src.uri (Lexeme.head s.part c cs)
      have hrest := ih hbare
      have hblank : ¬(Lexeme.isSpace c || c = '\n') = true := by simp [hc, hn]
      rw [Lexeme.sequence_element s.part hblank, List.map_cons]
      simp only [State.take] at hrest ⊢
      rw [hrest, htokens, hpart, List.append_assoc, List.singleton_append]

/-- Reading a text in which neither `#` nor any name has a special meaning does not depend on its
layout: its elements, each put on a line of its own, are read as the same elements. -/
theorem spelling_respaced (files : FileTree) (options : Options) (levels : Nat) (src : Source)
    (cache : IncludeCache) (part : Part) (cs : List Char) :
    let read (cs : List Char) : List Token :=
      (Scan.text { files, options, directives := false } levels src cs
        { macros := {}, cache, part }).tokens.toList
    let respaced := "\n".intercalate ((read cs).map Token.text)
    (read respaced.toList).map Token.spelling = (read cs).map Token.spelling := by
  intro read respaced
  have hread : ∀ cs, (read cs).map Token.spelling =
      (Lexeme.sequence part cs).map Lexeme.spelling := by
    intro cs
    have hrun := run_bare { files, options, directives := false } rfl src
      (reader? { files, options, directives := false } levels) { macros := {}, cache, part } cs
      ⟨rfl, rfl⟩
    change (Array.toList (State.tokens (Scan.text _ _ _ _ _))).map _ = _
    rw [text_eq_run, (State.agrees_finish _ _).tokens, hrun]
    rfl
  have htexts : (read cs).map Token.text =
      (Lexeme.sequence part cs).map fun l => l.spelling.2 := by
    have hsecond := congrArg (List.map Prod.snd) (hread cs)
    rw [List.map_map, List.map_map] at hsecond
    exact hsecond
  have hrespaced : respaced.toList = Lexeme.spread (Lexeme.sequence part cs) := by
    rw [← Lexeme.toList_intercalate_spelling, ← htexts]
  rw [hrespaced, hread, hread, Lexeme.sequence_spread]

end Scan

end Pearl
