import Pearl.Proofs.InactiveHints
import Pearl.Proofs.TokenLookup

namespace Pearl

/-! ### Ranges of a text -/

/-- A text of these lines has the column on the line, behind the last character at the most. -/
def Text.hasPlace (lines : List (List Char)) (line column : Nat) : Bool :=
  (lines[line]?).any (column ≤ ·.length)

/-- A finding is on a range of a text of these lines that is not empty. -/
structure Diagnostic.IsRange (lines : List (List Char)) (d : Diagnostic) : Prop where
  start : Text.hasPlace lines d.line d.column = true
  stop : Text.hasPlace lines d.endLine d.endColumn = true
  nonempty : d.start < d.stop

theorem Text.length_le_splitLine_append_iff (line after : List Char) :
    line.length ≤ (splitLine (line ++ after)).1.length ↔ '\n' ∉ line := by
  have hpos : ∀ cs : List Char, '\n' ∉ cs → ∀ c ∈ cs, decide (c ≠ '\n') = true := by
    intro cs hcs c hc
    exact decide_eq_true fun he => hcs (he ▸ hc)
  constructor
  · intro hle hmem
    obtain ⟨front, back, rfl, hfront⟩ := List.eq_append_cons_of_mem hmem
    rw [splitLine, List.append_assoc, List.takeWhile_append_of_pos (hpos front hfront)] at hle
    simp at hle
  · intro hline
    rw [splitLine, List.takeWhile_append_of_pos (hpos line hline), List.length_append]
    omega

namespace Tiling

variable {cs : List Char} {ts : List Token} {t : Token} {d : Diagnostic}

/-- The line of a token goes on to its end at the least. -/
theorem hasPlace_iff (h : Tiling .zero cs ts) (ht : t ∈ ts) :
    Text.hasPlace (Text.splitOn '\n' cs) t.start.line t.start.column = true ∧
    (Text.hasPlace (Text.splitOn '\n' cs) t.start.line (t.start.column + t.length) = true ↔
      '\n' ∉ t.text.toList) := by
  obtain ⟨-, hlength, before, after, hcs, hstart⟩ := h.written t ht
  obtain ⟨line, hget, hfull⟩ := Text.getElem?_splitOn_append [] before
    (t.text.toList ++ after) (by simp) .zero rfl
  have hline : (Text.splitOn '\n' cs)[t.start.line]? = some line := by
    rw [hstart, Position.line_advance, hcs]
    simpa [Position.zero] using hget
  have hcolumn : line.length =
      t.start.column + (Text.splitLine (t.text.toList ++ after)).1.length := by
    rw [hstart]
    exact hfull
  have hwithin := Text.length_le_splitLine_append_iff t.text.toList after
  simp only [Text.hasPlace, hline, Option.any_some, decide_eq_true_eq]
  refine ⟨by omega, ?_⟩
  rw [← hwithin, hlength]
  omega

/-- A finding on a token is a range unless the token runs over several lines. -/
theorem isRange_iff (h : Tiling .zero cs ts) (ht : t ∈ ts) (hd : d.IsAt t) :
    d.IsRange (Text.splitOn '\n' cs) ↔ '\n' ∉ t.text.toList := by
  obtain ⟨hpos, -⟩ := h.places ht
  obtain ⟨hstart, hstop⟩ := h.hasPlace_iff ht
  have hmax : max t.length 1 = t.length := by omega
  constructor
  · intro hrange
    have hend := hrange.stop
    rw [hd.endLine, hd.endColumn, hmax] at hend
    exact hstop.mp hend
  · intro hline
    refine ⟨?_, ?_, ?_⟩
    · rw [hd.line, hd.column]
      exact hstart
    · rw [hd.endLine, hd.endColumn, hmax]
      exact hstop.mpr hline
    · rw [Diagnostic.start, Diagnostic.stop, hd.line, hd.column, hd.endLine, hd.endColumn,
        Prod.Lex.toLex_lt_toLex]
      right
      refine ⟨rfl, ?_⟩
      simp only
      omega

/-- A hint from one token to a later one is a range, if both are on one line. -/
theorem isRange_inactiveCode (h : Tiling .zero cs ts) (uri : String) {first last : Token}
    (hfirst : first ∈ ts) (hlast : last ∈ ts) (hline : '\n' ∉ last.text.toList)
    (hle : first.start.offset ≤ last.start.offset) :
    (Diagnostic.inactiveCode uri first last).IsRange (Text.splitOn '\n' cs) := by
  obtain ⟨-, -, hbound, hstart, -⟩ := h.places hfirst
  obtain ⟨hpos, -, hbound', -, hstop⟩ := h.places hlast
  refine ⟨(h.hasPlace_iff hfirst).1, (h.hasPlace_iff hlast).2.mpr hline, ?_⟩
  rw [h.stop_inactiveCode uri first hlast hline, start_inactiveCode, hstart, hstop,
    Position.place_lt_iff (by omega) (by omega)]
  omega

/-- Tokens at the same place are the same. -/
theorem eq_of_place (h : Tiling .zero cs ts) {t' : Token} (ht : t ∈ ts) (ht' : t' ∈ ts)
    (heq : t.start.place = t'.start.place) : t = t' := by
  obtain ⟨hpos, -, hbound, hstart, -⟩ := h.places ht
  obtain ⟨hpos', -, hbound', hstart', -⟩ := h.places ht'
  rw [hstart, hstart'] at heq
  have hle := (Position.place_le_iff (by omega) (by omega)).mp (le_of_eq heq)
  have hge := (Position.place_le_iff (by omega) (by omega)).mp (le_of_eq heq.symm)
  rcases h.eq_or_before ht ht' with heq | hbefore | hbefore
  · exact heq
  · omega
  · omega

end Tiling

/-! ### Findings of a document -/

namespace Scan

variable {σ : Setting} {src : Source} {cache : IncludeCache} {part : Part} {cs : List Char}

/-- The finding is a hint from one own token to a later one, both on one line, or it is on one own
token. -/
inductive IsPlaced (own : List Token) (uri : String) (d : Diagnostic) : Prop where
  | hint {first last : Token} (hfirst : first ∈ own) (hlast : last ∈ own)
      (hline : '\n' ∉ first.text.toList) (hline' : '\n' ∉ last.text.toList)
      (hle : first.start.offset ≤ last.start.offset) (h : d = .inactiveCode uri first last)
  | token {t : Token} (ht : t ∈ own) (h : d.IsAt t)
      (hline : '\n' ∈ t.text.toList → d.code = "unterminated-comment")

theorem isPlaced_of_mem_diagnostics (hbars : src.Bars src.uri) {d : Diagnostic}
    (hd : d ∈ (document σ src cache part cs).diagnostics.toList) (huri : d.uri = src.uri) :
    IsPlaced ((document σ src cache part cs).tokens.toList.filter (isOwnIn src.uri)) src.uri d := by
  obtain ⟨ms, runs, h⟩ := exists_summary σ hbars cache part cs
  rw [h.own]
  cases hhint : isHintIn src.uri d with
  | true =>
    have hmem : d ∈ runs.map fun r => Diagnostic.inactiveCode src.uri r.1 r.2 := by
      rw [← h.hints]
      exact List.mem_filter.mpr ⟨hd, hhint⟩
    obtain ⟨r, hr, rfl⟩ := List.mem_map.mp hmem
    obtain ⟨hfirst, hlast⟩ := h.ends r hr
    exact .hint (List.mem_map_of_mem hfirst) (List.mem_map_of_mem hlast)
      ((h.switchedOff _).mpr hfirst).inactive.2 ((h.switchedOff _).mpr hlast).inactive.2
      ((h.shades.ordered h.inOrder).2 r hr) rfl
  | false =>
    obtain ⟨t, ht, hconcerns⟩ := h.others d hd huri hhint
    exact .token ht hconcerns.isAt hconcerns.lines

/-- A token that counts stands where one of the document's own does, which is on one line. -/
theorem exists_own_of_significant (hbars : src.Bars src.uri) {t : Token}
    (ht : t ∈ (document σ src cache part cs).tokens.toList) (huri : t.uri = src.uri)
    (hkind : t.kind.isSignificant = true) :
    ∃ u ∈ (document σ src cache part cs).tokens.toList.filter (isOwnIn src.uri),
      '\n' ∉ u.text.toList ∧ u.uri = t.uri ∧ u.start = t.start ∧ u.length = t.length := by
  have htrivia : t.kind.isTrivia = false := by
    simp only [TokenKind.isSignificant, Bool.and_eq_true, Bool.not_eq_true'] at hkind
    exact hkind.1
  cases hexpanded : t.expanded with
  | none =>
    refine ⟨t, List.mem_filter.mpr ⟨ht, by simp [isOwnIn, Token.isOwn, huri, hexpanded]⟩, ?_, rfl,
      rfl, rfl⟩
    exact document_onOneLine σ src hbars cache part cs t ht huri hexpanded htrivia
  | some x =>
    have hown : t.isOwn = false := by
      have hreference : t.kind ≠ .reference := by
        intro hk
        simp [hk, TokenKind.isTrivia] at htrivia
      simp [Token.isOwn, hexpanded, hreference]
    obtain ⟨ts, ds, hts, hgrouped, -⟩ :=
      Moment.yields_outcome σ (.first σ src cache part cs)
    have htokens : (document σ src cache part cs).tokens.toList = ts := hts
    obtain ⟨before, after, hsplit⟩ := List.append_of_mem (htokens ▸ ht)
    obtain ⟨front, marker, between, hbefore, hk, ⟨⟨_, _, s, text⟩, l, y, -, ⟨hrefers, rest, hnext⟩,
      hmarker⟩, hreplaces⟩ := hgrouped.exists_marker hsplit hown
    have hsame := hreplaces t (by simp)
    have hmem : marker ∈ (document σ src cache part cs).tokens.toList := by
      rw [htokens, hsplit, hbefore]
      simp
    refine ⟨marker, List.mem_filter.mpr ⟨hmem, ?_⟩, ?_, hsame.uri.symm, hsame.start.symm,
      hsame.length.symm⟩
    · simp [isOwnIn, Token.isOwn, ← hsame.uri, huri, hk]
    · rw [hmarker]
      cases hnext with
      | @element c cs hn hc hs =>
        have hword := Lexeme.kind_head_ne_comment (Expansion.reference?_eq_some hrefers).1
        simpa [State.markerHere, State.tokenHere] using Lexeme.not_mem_text_head hn hword

end Scan

namespace Analysis

variable {files : FileTree} {a : Analysis}

/-- Every finding in a document has its place there. -/
theorem IsOf.isPlaced (h : a.IsOf files) {d : Diagnostic} (hd : d ∈ a.diagnostics)
    (huri : d.uri = a.uri) : Scan.IsPlaced a.own a.uri d := by
  obtain ⟨options, cache, src, version, hbars, ha⟩ := h.exists_run
  generalize a.text = text at ha
  subst ha
  rw [own_eq_filter]
  have htokens : (run files options cache src text version).1.tokens.map (·.token) =
      (Scan.document { files, options } src cache .problem text.toList).tokens.toList :=
    LinkedToken.map_token_attach ..
  rw [htokens]
  rcases List.mem_append.mp hd with hd | hd
  · exact Scan.isPlaced_of_mem_diagnostics hbars hd huri
  · obtain ⟨f, hf, hfinding⟩ := List.mem_filterMap.mp hd
    have hplace := (Resolution.within_ofTokens _ _).findings f (Array.mem_toList_iff.mp hf)
    rw [f.toDiagnostic?_of_lt hplace] at hfinding
    cases hfinding
    have hcounted := List.getElem_mem hplace
    obtain ⟨hmem, hkind⟩ := List.mem_filter.mp hcounted
    obtain ⟨u, hu, hline, huri', hstart, hlength⟩ :=
      Scan.exists_own_of_significant hbars hmem huri hkind
    exact .token hu ⟨huri'.symm, by simp [Diagnostic.atToken, hstart],
      by simp [Diagnostic.atToken, hstart], by simp [Diagnostic.atToken, hstart],
      by simp [Diagnostic.atToken, hstart, hlength]⟩ fun hmem => absurd hmem hline

/-- The findings in a document are on ranges of its text that are not empty, but for one kind. A
comment that runs over several lines and has no end is told as if it stood on its first line
alone. -/
theorem isRange_iff_of_mem_diagnosticsFor (h : a.IsOf files) {d : Diagnostic}
    (hd : d ∈ a.diagnosticsFor none) :
    let lines := Text.splitOn '\n' a.text.toList
    Text.hasPlace lines d.line d.column = true ∧
    (d.IsRange lines ↔ ¬∃ t ∈ a.documentTokens, t.token.isOwn = true ∧
      '\n' ∈ t.token.text.toList ∧ t.token.start.place = d.start) ∧
    (¬d.IsRange lines → d.code = "unterminated-comment") := by
  intro lines
  obtain ⟨hmem, huri⟩ := List.mem_filter.mp hd
  have htiling := h.tiling
  -- Whatever token runs over several lines at the place of a finding is the one it is on.
  have hnone : ∀ u ∈ a.own, u.start.place = d.start → '\n' ∉ u.text.toList →
      ¬∃ t ∈ a.documentTokens, t.token.isOwn = true ∧ '\n' ∈ t.token.text.toList ∧
        t.token.start.place = d.start := by
    rintro u hu hplace hline ⟨t, ht, hown, hlines, hstart⟩
    have heq := htiling.eq_of_place (mem_own ht hown) hu (hstart.trans hplace.symm)
    rw [heq] at hlines
    exact hline hlines
  cases h.isPlaced hmem (of_decide_eq_true huri) with
  | @hint first last hfirst hlast hline hline' hle heq =>
    subst heq
    have hrange := htiling.isRange_inactiveCode a.uri hfirst hlast hline' hle
    exact ⟨hrange.start, iff_of_true hrange (hnone first hfirst rfl hline),
      fun hnot => absurd hrange hnot⟩
  | @token t ht hat hcode =>
    have hrange := htiling.isRange_iff ht hat
    have hplace : t.start.place = d.start := by
      rw [Diagnostic.start, hat.line, hat.column]
      rfl
    refine ⟨?_, ?_, ?_⟩
    · rw [hat.line, hat.column]
      exact (htiling.hasPlace_iff ht).1
    · by_cases hline : '\n' ∈ t.text.toList
      · apply iff_of_false
        · exact fun h => hrange.mp h hline
        · obtain ⟨hdocument, hown⟩ := List.mem_filter.mp ht
          obtain ⟨x, hx, rfl⟩ := List.mem_map.mp hdocument
          exact not_not_intro ⟨x, hx, hown, hline, hplace⟩
      · exact iff_of_true (hrange.mpr hline) (hnone t ht hplace hline)
    · intro hnot
      apply hcode
      by_contra hline
      exact hnot (hrange.mpr hline)

/-- An illegal character before a comment without an end. -/
theorem isRange_iff_of_mem_diagnosticsFor_character :
    let files : FileTree := { cwd := Path.ofString "/ws" }
    let src : Scan.Source := ⟨"untitled:a", none, []⟩
    let a := (run files {} {} src "X @\n/* a\nb" none).1
    let d : Diagnostic :=
      ⟨.error, "illegal-character", "illegal character '@'", "untitled:a", 0, 2, 0, 3, false⟩
    a.IsOf files ∧ d ∈ a.diagnosticsFor none ∧
    d.IsRange [['X', ' ', '@'], ['/', '*', ' ', 'a'], ['b']] := by
  intro files src a d
  have hsrc : Scan.Source.ofUri files "untitled:a" = .ok src := by decide +kernel
  have ha : a.IsOf files := .text hsrc {} {} _ none
  have hd : d ∈ a.diagnosticsFor none := by decide +kernel
  have hlines : Text.splitOn '\n' a.text.toList =
      [['X', ' ', '@'], ['/', '*', ' ', 'a'], ['b']] := by decide +kernel
  obtain ⟨-, hrange, -⟩ := isRange_iff_of_mem_diagnosticsFor ha hd
  rw [hlines] at hrange
  exact ⟨ha, hd, hrange.mpr (by decide +kernel)⟩

/-- A comment over two lines without an end: the range on its first line goes on behind the end of
that line. -/
theorem not_isRange_of_open_comment :
    let files : FileTree := { cwd := Path.ofString "/ws" }
    let src : Scan.Source := ⟨"<input>", none, []⟩
    let a := (run files {} {} src "/* a\nb" none).1
    Scan.Source.ofUri files "<input>" = .ok src ∧
    (a.diagnosticsFor none).map (fun d => (d.code, d.line, d.column, d.endLine, d.endColumn)) =
      [("unterminated-comment", 0, 0, 0, 6)] ∧
    Text.splitOn '\n' a.text.toList = [['/', '*', ' ', 'a'], ['b']] ∧
    ∀ d ∈ a.diagnosticsFor none, ¬d.IsRange (Text.splitOn '\n' a.text.toList) := by
  intro files src a
  have hstop : ∀ d ∈ a.diagnosticsFor none,
      Text.hasPlace (Text.splitOn '\n' a.text.toList) d.endLine d.endColumn = false := by
    decide +kernel
  refine ⟨by decide +kernel, by decide +kernel, by decide +kernel, ?_⟩
  intro d hd hrange
  have hend := hrange.stop
  rw [hstop d hd] at hend
  cases hend

end Analysis

end Pearl
