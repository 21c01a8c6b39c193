import Pearl.Proofs.MacroSubstitution

namespace Pearl

namespace Directive

open Text

/-! ### How the word of a directive is written -/

/-- The argument of a word is found behind its lower-case spelling only. -/
theorem spelledWord_of_argument? {word : DirectiveWord} {line arg : List Char}
    (h : argument? word line = some arg) : spelledWord line = word.text.toList := by
  unfold argument? at h
  split at h
  · rename_i rest
    split at h
    · rename_i c cs hdrop
      split at h
      · rename_i hblank
        have hrest : ∀ d ∈ (c :: cs).head?, isWordChar d = false := by
          rintro d ⟨⟩
          exact isWordChar_of_isBlank hblank
        have hsplit := splitWord_append (isWordChar_of_mem_text word) hrest
        rw [spelledWord, dropHead?_eq_some_iff.mp hdrop]
        cases word <;> exact congrArg Prod.fst hsplit
      · cases h
    · cases h
  · cases h

theorem exists_argument? {word : DirectiveWord} {line : List Char} {d : Directive}
    (h : arguments? word line = some d) :
    (d = .otherwise ∨ d = .endif) ∨ ∃ arg, argument? word line = some arg := by
  cases word with
  | define | undef | inclusion | ifdef | ifndef =>
    obtain ⟨x, hx, -⟩ := Option.map_eq_some_iff.mp h
    obtain ⟨arg, harg, -⟩ := Option.bind_eq_some_iff.mp hx
    exact .inr ⟨arg, harg⟩
  | otherwise =>
    cases h
    exact .inl (.inl rfl)
  | endif =>
    cases h
    exact .inl (.inr rfl)

theorem arguments?_of_parse {line : List Char} {d : Directive} (h : parse line = .ok d) :
    arguments? d.word (stripComment line) = some d := by
  unfold parse at h
  dsimp only at h
  split at h
  · cases h
  · split at h
    · cases h
    · rename_i d' hd
      cases h
      rwa [word_of_arguments? hd]

/-- A directive with arguments has its word in lower case. -/
theorem spelledWord_of_parse {rest : List Char} {d : Directive} (h : parse ('#' :: rest) = .ok d) :
    (d = .otherwise ∨ d = .endif) ∨ spelledWord ('#' :: rest) = d.word.text.toList := by
  rcases exists_argument? (arguments?_of_parse h) with hd | ⟨arg, harg⟩
  · exact .inl hd
  · have hspelled := spelledWord_of_argument? harg
    rw [spelledWord_stripComment] at hspelled
    exact .inr hspelled

/-- What is wrong with a line that cannot be read depends on its word only. -/
theorem error_of_parse {rest : List Char} {e : DirectiveError}
    (h : parse ('#' :: rest) = .error e) :
    e = (DirectiveWord.ofText? (wordOf ('#' :: rest))).elim
      (.unrecognized (wordOf ('#' :: rest))) .malformed := by
  unfold parse at h
  dsimp only at h
  rw [wordOf_stripComment] at h
  split at h
  · rename_i hword
    cases h
    rw [hword, Option.elim_none]
  · rename_i word hword
    split at h
    · cases h
      rw [hword, Option.elim_some]
    · cases h

/-- The words without arguments are read whatever their line looks like. -/
theorem parse_of_word {rest : List Char} {d : Directive} (hd : d = .otherwise ∨ d = .endif)
    (hword : DirectiveWord.ofText? (wordOf ('#' :: rest)) = some d.word) :
    parse ('#' :: rest) = .ok d := by
  unfold parse
  dsimp only
  rw [wordOf_stripComment, hword]
  rcases hd with rfl | rfl <;> rfl

/-! ### Lines that differ in the case of their word -/

/-- Two `#` lines are the same but for the case of the letters of their word. -/
def Respelled (line line' : List Char) : Prop :=
  ∃ blanks rest, (∀ c ∈ blanks, isBlank c = true) ∧
    line = '#' :: (blanks ++ (spelledWord line ++ rest)) ∧
    line' = '#' :: (blanks ++ (spelledWord line' ++ rest)) ∧
    lower (spelledWord line) = lower (spelledWord line')

namespace Respelled

variable {line line' : List Char}

theorem symm (h : Respelled line line') : Respelled line' line := by
  obtain ⟨blanks, rest, hblanks, hline, hline', hlower⟩ := h
  exact ⟨blanks, rest, hblanks, hline', hline, hlower.symm⟩

theorem wordOf_eq (h : Respelled line line') : wordOf line' = wordOf line := by
  obtain ⟨blanks, rest, -, -, -, hlower⟩ := h
  rw [wordOf, wordOf, hlower]

theorem exists_cons (h : Respelled line line') :
    ∃ tail tail', line = '#' :: tail ∧ line' = '#' :: tail' := by
  obtain ⟨blanks, rest, -, hline, hline', -⟩ := h
  exact ⟨_, _, hline, hline'⟩

theorem eq_of_spelledWord (h : Respelled line line')
    (hspelled : spelledWord line = spelledWord line') : line = line' := by
  obtain ⟨blanks, rest, -, hline, hline', -⟩ := h
  rw [hline, hspelled, ← hline']

/-- Lines that are read alike, or not at all, are told apart by nothing. -/
theorem parse_eq (h : Respelled line line')
    (hsame : (parse line).toOption = (parse line').toOption) : parse line' = parse line := by
  have hword := h.wordOf_eq
  obtain ⟨tail, tail', rfl, rfl⟩ := h.exists_cons
  cases hparse : parse ('#' :: tail) with
  | ok d =>
    cases hparse' : parse ('#' :: tail') with
    | ok d' =>
      rw [hparse, hparse'] at hsame
      cases hsame
      rfl
    | error e' =>
      rw [hparse, hparse'] at hsame
      cases hsame
  | error e =>
    cases hparse' : parse ('#' :: tail') with
    | ok d' =>
      rw [hparse, hparse'] at hsame
      cases hsame
    | error e' => rw [error_of_parse hparse, error_of_parse hparse', hword]

/-- One spelling of a directive without arguments is as good as another. -/
theorem parse_of_bare (h : Respelled line line') {d : Directive} (hd : d = .otherwise ∨ d = .endif)
    (hparse : parse line = .ok d) : parse line' = .ok d := by
  have hword := h.wordOf_eq
  obtain ⟨tail, tail', rfl, rfl⟩ := h.exists_cons
  apply parse_of_word hd
  rw [hword, word_of_parse hparse]

/-- One spelling of a directive with arguments rules all others out. -/
theorem parse_of_arguments (h : Respelled line line') (hne : line ≠ line') {d : Directive}
    (hd : ¬(d = .otherwise ∨ d = .endif)) (hparse : parse line = .ok d) :
    parse line' = .error (.malformed d.word) := by
  have hword := h.wordOf_eq
  obtain ⟨tail, tail', rfl, rfl⟩ := h.exists_cons
  have hknown : DirectiveWord.ofText? (wordOf ('#' :: tail')) = some d.word := by
    rw [hword, word_of_parse hparse]
  cases hparse' : parse ('#' :: tail') with
  | error e => rw [error_of_parse hparse', hknown, Option.elim_some]
  | ok d' =>
    have hsame : d'.word = d.word := by
      rw [word_of_parse hparse'] at hknown
      exact Option.some.inj hknown
    -- if the other line were read as well, both would have their word in lower case
    rcases spelledWord_of_parse hparse with hbare | hspelled
    · exact absurd hbare hd
    rcases spelledWord_of_parse hparse' with hbare | hspelled'
    · rw [parse_of_word hbare (hsame ▸ word_of_parse hparse)] at hparse
      cases hparse
      exact absurd hbare hd
    · rw [hsame, ← hspelled] at hspelled'
      exact absurd (h.eq_of_spelledWord hspelled'.symm) hne

end Respelled

end Directive

namespace Scan

open Directive

/-- One line may take the place of the other: wherever the first is read as a directive, in a
document or an included file, the second leads to the same. -/
def Interchangeable (line line' : List Char) : Prop :=
  ∀ (σ : Setting) (n : Nat) (src : Source) (s : State) (before after : List Char),
    σ.directives = true → (run σ src (reader? σ n) s before).lineStart = true →
    '\n' ∉ line → '\n' ∉ line' → Text.AtLineEnd after →
    State.Similar σ.files [] (text σ n src (before ++ (line ++ after)) s)
      (text σ n src (before ++ (line' ++ after)) s)

theorem interchangeable_of_parse {tail tail' : List Char}
    (hword : wordOf ('#' :: tail') = wordOf ('#' :: tail))
    (hparse : parse ('#' :: tail') = parse ('#' :: tail)) :
    Interchangeable ('#' :: tail) ('#' :: tail') := by
  intro σ n src s before after hdirectives hstart hline hline' hafter
  have hread := reader?_respects σ n
  have htake : State.Similar σ.files []
      ((run σ src (reader? σ n) s before).take σ src (reader? σ n) (.directive ('#' :: tail)))
      ((run σ src (reader? σ n) s before).take σ src (reader? σ n) (.directive ('#' :: tail'))) :=
    (State.Similar.refl σ.files _).directiveLine σ src src _ _ hword hparse
      fun d _ _ r r' t t' _ hr => hr.carryOut_of_respects σ hread t t' d
  have hnext : ∀ l, '\n' ∉ '#' :: l → run σ src (reader? σ n) s (before ++ ('#' :: l ++ after)) =
      run σ src (reader? σ n)
        ((run σ src (reader? σ n) s before).take σ src (reader? σ n) (.directive ('#' :: l)))
        after := by
    intro l hl
    rw [run_append_of_lineStart hstart]
    exact run_of_next σ src _
      (.directive hdirectives hstart (fun hmem => hl (List.mem_cons_of_mem _ hmem)) hafter)
  rw [text_eq_run, text_eq_run, hnext tail hline, hnext tail' hline']
  exact (run_similar σ src _ hread after htake).finish src.uri src.uri

/-- A directive that is spelled in another case is read alike, and does the same in every text, if
and only if it has no arguments: the arguments of a directive are found only if its word is in lower
case. -/
theorem respelled_directive {line line' : List Char} (h : Respelled line line')
    (hne : line ≠ line') :
    ((parse line).toOption = (parse line').toOption ↔
      ∀ d, parse line = .ok d ∨ parse line' = .ok d → d = .otherwise ∨ d = .endif) ∧
    ((parse line).toOption = (parse line').toOption → Interchangeable line line') ∧
    ∀ d, parse line = .ok d → (d = .otherwise ∨ d = .endif) ∨
      parse line' = .error (.malformed d.word) := by
  refine ⟨⟨?_, ?_⟩, ?_, ?_⟩
  · rintro hsame d (hd | hd)
    · by_contra hbare
      rw [hd, h.parse_of_arguments hne hbare hd] at hsame
      cases hsame
    · by_contra hbare
      rw [hd, h.symm.parse_of_arguments hne.symm hbare hd] at hsame
      cases hsame
  · intro hbare
    cases hparse : parse line with
    | ok d => rw [h.parse_of_bare (hbare d (.inl hparse)) hparse]
    | error e =>
      cases hparse' : parse line' with
      | ok d =>
        rw [h.symm.parse_of_bare (hbare d (.inr hparse')) hparse'] at hparse
        cases hparse
      | error e' => rfl
  · intro hsame
    have hparse := h.parse_eq hsame
    have hword := h.wordOf_eq
    obtain ⟨tail, tail', rfl, rfl⟩ := h.exists_cons
    exact interchangeable_of_parse hword hparse
  · intro d hd
    by_cases hbare : d = .otherwise ∨ d = .endif
    · exact .inl hbare
    · exact .inr (h.parse_of_arguments hne hbare hd)

/-- The two words without arguments may be in any case. -/
theorem respelled_directive_bare :
    let line := "# else ! the \"other".toList
    let line' := "# eLSe ! the \"other".toList
    Respelled line line' ∧ line ≠ line' ∧ parse line' = .ok .otherwise ∧
      Interchangeable line line' := by
  intro line line'
  have h : Respelled line line' :=
    ⟨[' '], " ! the \"other".toList, List.all_eq_true.mp (by decide), by decide +kernel,
      by decide +kernel, by decide +kernel⟩
  have hne : line ≠ line' := by decide +kernel
  have hsame : (parse line).toOption = (parse line').toOption := by decide +kernel
  exact ⟨h, hne, by decide +kernel, (respelled_directive h hne).2.1 hsame⟩

/-- A definition in capitals is refused, and the macro stays undefined. -/
theorem respelled_definition_refused :
    let line := "#define X 1".toList
    let line' := "#DEFINE X 1".toList
    let σ : Setting := { files := { cwd := Path.ofString "/ws" } }
    let src : Source := ⟨"<input>", none, []⟩
    Respelled line line' ∧ parse line = .ok (.define "X" "1") ∧
      parse line' = .error (.malformed .define) ∧
      (document σ src {} .problem line).macros.contains "X" = true ∧
      (document σ src {} .problem line').macros.contains "X" = false := by
  refine ⟨⟨[], " X 1".toList, by simp, ?_, ?_, ?_⟩, ?_, ?_, ?_, ?_⟩ <;> decide +kernel

end Scan

end Pearl
