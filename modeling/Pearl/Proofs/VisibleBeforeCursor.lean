import Pearl.Proofs.IncludeInlining
import Pearl.Proofs.LayoutIndependence

namespace Pearl

/-! ### Comments over the end of a text -/

namespace Lexeme

/-- A comment that is not closed in a text is not closed within it where the text goes on. -/
theorem length_le_commentExtent_append {cs : List Char} (h : (commentExtent cs).2 = false)
    (rest : List Char) : cs.length ≤ (commentExtent (cs ++ rest)).1 := by
  fun_induction commentExtent cs with
  | case1 => exact Nat.zero_le _
  | case2 => cases h
  | case3 c cs hclose r ih =>
    by_cases hends : c = '*' ∧ (cs ++ rest).head? = some '/'
    · obtain ⟨rfl, hslash⟩ := hends
      cases cs with
      | nil => exact commentExtent_pos '*' rest
      | cons d ds => exact absurd (by rw [Option.some.inj hslash]) (hclose ds rfl)
    · rw [List.cons_append, commentExtent_cons fun hc hd => hends ⟨hc, hd⟩]
      exact Nat.succ_le_succ (ih h)

theorem head_append_of_open {part : Part} {c : Char} {cs : List Char}
    (h : (head part c cs).fault = some .unterminatedComment) (rest : List Char) :
    (head part c (cs ++ rest)).kind = .comment ∧ (head part c (cs ++ rest)).isWord = false ∧
      (c :: cs).length ≤ (head part c (cs ++ rest)).text.length := by
  obtain ⟨rfl, ds, rfl⟩ := eq_of_startsComment (startsComment_of_fault h)
  have hopen : (commentExtent ds).2 = false := by
    change (extent part '/' ('*' :: ds)).fault = _ at h
    rw [extent_comment] at h
    by_contra hclosed
    simp [hclosed] at h
  have hle := length_le_commentExtent_append hopen rest
  rw [List.cons_append, head, extent_comment]
  refine ⟨rfl, rfl, ?_⟩
  simp only [List.length_cons, List.take_succ_cons, List.length_take, List.length_append]
  omega

theorem getLast?_take_commentExtent {cs : List Char} (h : (commentExtent cs).2 = true) :
    (cs.take (commentExtent cs).1).getLast? = some '/' := by
  fun_induction commentExtent cs with
  | case1 => cases h
  | case2 => rfl
  | case3 c cs hclose r ih =>
    change (c :: cs.take r.1).getLast? = some '/'
    rw [List.getLast?_cons, ih h]
    rfl

/-- No element ends in a line feed, but for a comment that is not closed. -/
theorem getLast?_head_ne {part : Part} {c : Char} {cs : List Char} (hn : c ≠ '\n')
    (hfault : (head part c cs).fault ≠ some .unterminatedComment) :
    (head part c cs).text.getLast? ≠ some '\n' := by
  cases hc : startsComment c cs with
  | true =>
    obtain ⟨rfl, ds, rfl⟩ := eq_of_startsComment hc
    change (extent part '/' ('*' :: ds)).fault ≠ _ at hfault
    rw [extent_comment] at hfault
    have hclosed : (commentExtent ds).2 = true := by
      by_contra hopen
      simp [hopen] at hfault
    rw [head, extent_comment]
    dsimp only
    rw [List.take_succ_cons, List.getLast?_cons_cons, List.getLast?_cons,
      getLast?_take_commentExtent hclosed]
    decide
  | false =>
    have hend := Text.atLineEnd_splitLine cs
    have hfirst : startsComment c (Text.splitLine cs).1 = false := by
      rw [← startsComment_append hend, Text.splitLine_append_self, hc]
    have hextent := extent_append hend part c _ hfirst
    rw [Text.splitLine_append_self] at hextent
    have hle := extent_extra_le part c _ hfirst
    have htext : (head part c cs).text =
        c :: (Text.splitLine cs).1.take (extent part c cs).extra := by
      have htake : cs.take (extent part c cs).extra =
          ((Text.splitLine cs).1 ++ (Text.splitLine cs).2).take (extent part c cs).extra := by
        rw [Text.splitLine_append_self]
      rw [head]
      dsimp only
      rw [htake, List.take_append_of_le_length (hextent ▸ hle)]
    intro hlast
    have hmem := List.mem_of_getLast? hlast
    rw [htext, List.mem_cons] at hmem
    rcases hmem with rfl | hmem
    · exact hn rfl
    · exact Text.not_mem_splitLine cs (List.mem_of_mem_take hmem)

end Lexeme

namespace Scan

variable {directives : Bool} {s : State} {text rest : List Char} {p : Piece}

theorem State.significant_element_comment (s : State) (uri : String) {l : Lexeme}
    (hkind : l.kind = .comment) (hword : l.isWord = false) :
    Word.significant (s.element uri l).tokens.toList = Word.significant s.tokens.toList := by
  have hnone : Expansion.reference? s.macros [] l = none := by
    rw [Expansion.reference?, hword, if_neg Bool.false_ne_true]
  have htokens : (s.element uri l).tokens.toList =
      s.tokens.toList ++ [s.tokenHere uri .comment l.text] := by
    rw [element, hnone]
    dsimp only
    rw [(agrees_plain s uri l).tokens, hkind]
    simp [emit, advance]
  rw [htokens, Word.significant, List.filter_append]
  exact List.append_nil _

theorem Next.getLast?_rest (h : Next directives s text p rest)
    (hlines : ∀ c ∈ text.getLast?, c = '\n') : ∀ c ∈ rest.getLast?, c = '\n' := by
  intro c hc
  apply hlines c
  rw [← h.chars_append, List.getLast?_append, hc]
  rfl

/-- A piece of a text of whole lines stays as it is, but for a comment that is not closed. -/
theorem Next.append_of_lines (h : Next directives s text p rest)
    (hp : ∀ l, p = .element l → l.fault ≠ some .unterminatedComment)
    (hlines : ∀ c ∈ text.getLast?, c = '\n') (after : List Char) :
    Next directives s (text ++ after) p (rest ++ after) := by
  have hline : p.chars.getLast? ≠ some '\n' →
      (Text.splitLine (rest ++ after)).1 = (Text.splitLine rest).1 := by
    intro hchars
    apply Text.splitLine_append_of_mem
    cases hlast : rest.getLast? with
    | some c =>
      rw [h.getLast?_rest hlines c hlast] at hlast
      exact List.mem_of_getLast? hlast
    | none =>
      have hall := h.chars_append
      rw [List.getLast?_eq_none_iff.mp hlast, List.append_nil] at hall
      obtain ⟨c, hend⟩ : ∃ c, p.chars.getLast? = some c :=
        ⟨_, List.getLast?_eq_some_getLast h.chars_ne_nil⟩
      rw [hlines c (hall ▸ hend)] at hend
      exact absurd hend hchars
  cases h with
  | newline rest => exact .newline (rest ++ after)
  | space rest hc => exact .space (rest ++ after) hc
  | @directive line rest hd hs hl hrest =>
    refine (Next.directive hd hs hl hrest).append hp (hline fun hlast => ?_)
    rcases List.mem_cons.mp (List.mem_of_getLast? hlast) with hc | hmem
    · exact absurd hc (by decide)
    · exact hl hmem
  | @inactive c line rest hn hc hs hd ha hl hrest =>
    refine (Next.inactive hn hc hs hd ha hl hrest).append hp (hline fun hlast => ?_)
    rcases List.mem_cons.mp (List.mem_of_getLast? hlast) with hc | hmem
    · exact hn hc.symm
    · exact hl hmem
  | element hn hc hs =>
    exact (Next.element hn hc hs).append hp (hline (Lexeme.getLast?_head_ne hn (hp _ rfl)))

/-! ### Tokens behind a place -/

theorem Piece.Gives.start_eq {s : State} {uri : String} {p : Piece} {own : List Token}
    (h : p.Gives s uri own) : ∀ t ∈ own, t.start = s.position := by
  intro t ht
  cases h with
  | newline | space => cases ht
  | directive | idle | inactive | plain =>
    rw [List.mem_singleton.mp ht]
    rfl
  | reference l m =>
    rcases List.mem_cons.mp ht with rfl | ht
    · rfl
    · obtain ⟨l', _, rfl⟩ := List.mem_map.mp ht
      rfl

/-- The token stands in another text, or at the offset or behind it. -/
def IsBehind (uri : String) (offset : Nat) (t : Token) : Prop :=
  t.uri = uri → offset ≤ t.start.offset

variable {σ : Setting} {src : Source} {nested : Option Reader}

theorem run_adds_behind (hread : ∀ read ∈ nested, Reader.Gives (·.uri ≠ src.uri) src read)
    (s : State) (cs : List Char) {offset : Nat} (hoffset : offset ≤ s.position.offset) :
    State.Adds (IsBehind src.uri offset) s (run σ src nested s cs) := by
  induction s, cs using run_induction σ src nested with
  | nil s =>
    rw [run_nil]
    exact (State.Agrees.refl s).adds
  | next s text p rest hnext ih =>
    rw [run_of_next σ src nested hnext]
    obtain ⟨own, foreign, htokens, hown, hforeign⟩ := State.tokens_take σ src nested hread s p
    have htake : State.Adds (IsBehind src.uri offset) s (s.take σ src nested p) := by
      refine ⟨own ++ foreign, htokens, List.forall_mem_append.mpr ⟨?_, ?_⟩⟩
      · intro t ht _
        rwa [hown.start_eq t ht]
      · exact fun t ht huri => absurd huri (hforeign t ht)
    refine htake.trans (ih ?_)
    rw [State.position_take, Position.offset_advance]
    omega

/-- The tokens of the one state that count are the first ones of the other that count; those that
follow stand in other texts, or at the offset or behind it. -/
def State.Extends (uri : String) (offset : Nat) (s s' : State) : Prop :=
  ∃ ts, Word.significant s'.tokens.toList = Word.significant s.tokens.toList ++ ts ∧
    ∀ t ∈ ts, IsBehind uri offset t

theorem State.Adds.extends {uri : String} {offset : Nat} {s s' : State}
    (h : State.Adds (IsBehind uri offset) s s') : State.Extends uri offset s s' := by
  obtain ⟨ts, hts, hbehind⟩ := h
  refine ⟨Word.significant ts, ?_, fun t ht => hbehind t (List.mem_filter.mp ht).1⟩
  rw [hts, Word.significant, List.filter_append]
  rfl

/-- A comment that a text leaves open may take more where the text goes on, but it does not
count. -/
theorem run_extends_of_open
    (hread : ∀ read ∈ nested, Reader.Gives (·.uri ≠ src.uri) src read) {s : State} {c : Char}
    {cs : List Char} (hnext : Next σ.directives s (c :: cs) (.element (Lexeme.head s.part c cs))
      (Lexeme.tail s.part c cs))
    (hfault : (Lexeme.head s.part c cs).fault = some .unterminatedComment) (after : List Char) :
    State.Extends src.uri (s.position.offset + (c :: cs).length) (run σ src nested s (c :: cs))
      (run σ src nested s (c :: cs ++ after)) := by
  have hlonger : Next σ.directives s (c :: (cs ++ after))
      (.element (Lexeme.head s.part c (cs ++ after))) (Lexeme.tail s.part c (cs ++ after)) := by
    cases hnext with
    | element hn hc hs => exact .element hn hc hs
  obtain ⟨hkind, hword, hlength⟩ := Lexeme.head_append_of_open hfault after
  obtain ⟨hkind', hword', -⟩ := Lexeme.head_append_of_open hfault []
  rw [List.append_nil] at hkind' hword'
  have hadds : State.Adds (IsBehind src.uri (s.position.offset + (c :: cs).length))
      (s.element src.uri (Lexeme.head s.part c (cs ++ after)))
      (run σ src nested s (c :: cs ++ after)) := by
    rw [List.cons_append, run_of_next σ src nested hlonger]
    refine run_adds_behind hread _ _ ?_
    change _ ≤ (s.take σ src nested (.element _)).position.offset
    rw [State.position_take, Position.offset_advance]
    exact Nat.add_le_add_left hlength _
  obtain ⟨ts, hts, hbehind⟩ := hadds.extends
  refine ⟨ts, ?_, hbehind⟩
  rw [hts, run_of_next σ src nested hnext, Lexeme.tail_eq_nil hfault, run_nil,
    State.significant_element_comment _ _ hkind hword]
  exact congrArg (· ++ ts) (s.significant_element_comment src.uri hkind' hword').symm

/-- Whatever follows a text of whole lines, the tokens of these lines that count stay as they are,
and of those that follow the ones of the document itself stand behind these lines. -/
theorem run_extends (hread : ∀ read ∈ nested, Reader.Gives (·.uri ≠ src.uri) src read) (s : State)
    {before : List Char} (hlines : ∀ c ∈ before.getLast?, c = '\n') (after : List Char) :
    State.Extends src.uri (s.position.offset + before.length) (run σ src nested s before)
      (run σ src nested s (before ++ after)) := by
  induction s, before using run_induction σ src nested with
  | nil s =>
    rw [run_nil, List.nil_append]
    exact (run_adds_behind hread s after (Nat.le_refl _)).extends
  | next s text p rest hnext ih =>
    by_cases hopen : ∃ l, p = .element l ∧ l.fault = some .unterminatedComment
    · obtain ⟨l, rfl, hfault⟩ := hopen
      cases hnext with
      | element hn hc hs => exact run_extends_of_open hread (.element hn hc hs) hfault after
    · have hclosed : ∀ l, p = .element l → l.fault ≠ some .unterminatedComment :=
        fun l hl hfault => hopen ⟨l, hl, hfault⟩
      have hrest := ih (hnext.getLast?_rest hlines)
      rw [State.position_take, Position.offset_advance, Nat.add_assoc, ← List.length_append,
        hnext.chars_append] at hrest
      rw [run_of_next σ src nested (hnext.append_of_lines hclosed hlines after),
        run_of_next σ src nested hnext]
      exact hrest

end Scan

namespace Analysis

/-! ### Up to the cursor -/

def isPast (uri : String) (cursor : Int) (t : Token) : Bool :=
  t.uri = uri && cursor < t.start.offset

/-- The tokens of other texts that come between the tokens before them and the next one of the
document itself, where none of the tokens before them stands behind the cursor. -/
def intruders (uri : String) (cursor : Int) (before tokens : List Token) : List Token :=
  if before.any (isPast uri cursor) then []
  else (tokens.drop before.length).takeWhile (·.uri ≠ uri)

theorem cutOff_eq (uri : String) (cursor : Int) (tokens : List Token) :
    cutOff (some uri) cursor tokens = tokens.takeWhile (!isPast uri cursor ·) := by
  simp [cutOff, isPast, eq_comm]

/-- Of tokens behind the cursor or in other texts, those in other texts are kept. -/
theorem takeWhile_not_isPast {uri : String} {cursor : Int} {tokens : List Token}
    (h : ∀ t ∈ tokens, t.uri = uri → cursor < t.start.offset) :
    tokens.takeWhile (!isPast uri cursor ·) = tokens.takeWhile (·.uri ≠ uri) := by
  induction tokens with
  | nil => rfl
  | cons t tokens ih =>
    obtain ⟨ht, htokens⟩ := List.forall_mem_cons.mp h
    have hkept : (!isPast uri cursor t) = decide (t.uri ≠ uri) := by
      by_cases huri : t.uri = uri
      · simp [isPast, huri, ht huri]
      · simp [isPast, huri]
    rw [List.takeWhile_cons, List.takeWhile_cons, hkept, ih htokens]

/-- The tokens of the document itself that come later are cut off, and all that follows the first
of them. -/
theorem cutOff_append {uri : String} {cursor : Int} (before : List Token) {further : List Token}
    (h : ∀ t ∈ further, t.uri = uri → cursor < t.start.offset) :
    cutOff (some uri) cursor (before ++ further) =
      cutOff (some uri) cursor before ++ intruders uri cursor before (before ++ further) := by
  rw [cutOff_eq, cutOff_eq, intruders, List.drop_left]
  split
  · rename_i hpast
    obtain ⟨t, ht, hpast⟩ := List.any_eq_true.mp hpast
    rw [List.takeWhile_append, if_neg, List.append_nil]
    intro hlength
    have hall := (List.takeWhile_sublist _).eq_of_length hlength
    have hnot := List.takeWhile_eq_self_iff.mp hall t ht
    simp [hpast] at hnot
  · rename_i hnone
    have hall : ∀ t ∈ before, (!isPast uri cursor t) = true := by
      intro t ht
      simpa using fun hpast => hnone (List.any_eq_true.mpr ⟨t, ht, hpast⟩)
    rw [List.takeWhile_append_of_pos hall, List.takeWhile_eq_self_iff.mpr hall,
      takeWhile_not_isPast h]

/-- What is visible at the cursor is settled by the lines up to it, but for the tokens of files
included behind them: the tokens that count on these lines are the first ones of every document
that starts with them, and of those that follow no token of the document itself is looked at. The
tokens of included files that come before the next token of the document are looked at, unless the
lines have a token behind the cursor. Documents in which these spell the same, or in which there
are none, have the same names with the same meaning. -/
theorem visible_settled_before_cursor {σ : Scan.Setting} {uri : String} {src : Scan.Source}
    (hsrc : Scan.Source.ofUri σ.files uri = .ok src) (cache : IncludeCache) (part : Part)
    {before : List Char} (hnewline : before.getLast? = some '\n') {cursor : Int}
    (hcursor : cursor < before.length) :
    let counted := fun after =>
      Word.significant (Scan.document σ src cache part (before ++ after)).tokens.toList
    let seen := fun after => cutOff (some uri) cursor (counted after)
    let strangers := fun after => intruders uri cursor (counted []) (counted after)
    let visible := fun after =>
      Resolution.byName (Resolution.ofWords (Word.ofTokens (seen after))).visible
    (∀ after, counted [] <+: counted after ∧ seen after = seen [] ++ strangers after) ∧
    ∀ after after', (strangers after).map Token.spelling = (strangers after').map Token.spelling →
      visible after = visible after' := by
  intro counted seen strangers visible
  obtain ⟨rfl, hbars⟩ := Scan.bars_ofUri hsrc
  obtain ⟨nested, htext, -, hread⟩ := Scan.exists_nested σ (Scan.levels σ.options)
  have hfurther : ∀ after, ∃ ts, counted after = counted [] ++ ts ∧
      ∀ t ∈ ts, t.uri = src.uri → cursor < t.start.offset := by
    intro after
    have hdocument : ∀ cs, (Scan.document σ src cache part cs).tokens =
        (Scan.run σ src nested (Scan.initial σ cache part) cs).tokens := by
      intro cs
      rw [Scan.document, htext, (Scan.State.agrees_finish _ _).tokens]
    obtain ⟨ts, hts, hbehind⟩ := Scan.run_extends (hread src src.uri hbars)
      (Scan.initial σ cache part) (fun c hc => Option.some.inj (hc.symm.trans hnewline)) after
    refine ⟨ts, ?_, ?_⟩
    · simp only [counted, hdocument, List.append_nil]
      exact hts
    · intro t ht huri
      have hoffset := hbehind t ht huri
      rw [show (Scan.initial σ cache part).position.offset = 0 from rfl] at hoffset
      omega
  have hseen : ∀ after, counted [] <+: counted after ∧ seen after = seen [] ++ strangers after := by
    intro after
    obtain ⟨ts, hts, hbehind⟩ := hfurther after
    refine ⟨⟨ts, hts.symm⟩, ?_⟩
    simp only [seen, strangers]
    rw [hts]
    exact cutOff_append _ hbehind
  refine ⟨hseen, ?_⟩
  intro after after' hsame
  have hwords : Word.ofTokens (seen after) = Word.ofTokens (seen after') := by
    rw [Word.ofTokens_eq, Word.ofTokens_eq, (hseen after).2, (hseen after').2, List.map_append,
      List.map_append, hsame]
  simp only [visible, hwords]

/-- A cursor on the first of two lines with a declaration each. What is included behind them adds
no name. -/
theorem visible_settled_before_cursor_next_line :
    let σ : Scan.Setting :=
      { files := {
          entries := [(Path.ofString "/ws/f", { content := .text "DCL X FIXED;" })]
          cwd := Path.ofString "/ws" } }
    let src : Scan.Source :=
      ⟨"file:///ws/a", some (Path.ofString "/ws/a"), [Path.ofString "/ws/a"]⟩
    let before := "DCL A FIXED;\nDCL B BIT;\n".toList
    let after := "#include \"f\"".toList
    let visible := fun after => Resolution.byName (Resolution.ofWords (Word.ofTokens
      (cutOff (some "file:///ws/a") 11 (Word.significant
        (Scan.document σ src {} .problem (before ++ after)).tokens.toList)))).visible
    Scan.Source.ofUri σ.files "file:///ws/a" = .ok src ∧ before.getLast? = some '\n' ∧
      (11 : Int) < before.length ∧ visible after = visible [] ∧
      (visible []).map (·.1) = ["A"] := by
  intro σ src before after visible
  have hsrc : Scan.Source.ofUri σ.files "file:///ws/a" = .ok src := by decide +kernel
  have hnewline : before.getLast? = some '\n' := by decide
  have hcursor : (11 : Int) < before.length := by decide
  have hsettled := visible_settled_before_cursor hsrc {} .problem hnewline hcursor
  exact ⟨hsrc, hnewline, hcursor, hsettled.2 after [] (by decide +kernel), by decide +kernel⟩

/-- A cursor on an empty line, and a file that is included on the next: its names are visible. -/
theorem visible_changed_behind_cursor :
    let σ : Scan.Setting :=
      { files := {
          entries := [(Path.ofString "/ws/f", { content := .text "DCL X FIXED;" })]
          cwd := Path.ofString "/ws" } }
    let src : Scan.Source :=
      ⟨"file:///ws/a", some (Path.ofString "/ws/a"), [Path.ofString "/ws/a"]⟩
    let before := ['\n']
    let visible := fun after => Resolution.byName (Resolution.ofWords (Word.ofTokens
      (cutOff (some "file:///ws/a") 0 (Word.significant
        (Scan.document σ src {} .problem (before ++ after)).tokens.toList)))).visible
    Scan.Source.ofUri σ.files "file:///ws/a" = .ok src ∧ before.getLast? = some '\n' ∧
      (0 : Int) < before.length ∧ (visible []).map (·.1) = [] ∧
      (visible "#include \"f\"\n".toList).map (·.1) = ["X"] := by
  refine ⟨?_, ?_, ?_, ?_, ?_⟩
  all_goals decide +kernel

end Analysis

end Pearl
