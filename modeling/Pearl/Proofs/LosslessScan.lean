import Pearl.Proofs.IncludeChain

namespace Pearl

/-! ### Places in a text -/

namespace Position

theorem advance_append (p : Position) (a b : List Char) :
    p.advance (a ++ b) = (p.advance a).advance b := List.foldl_append

theorem offset_next (p : Position) (c : Char) : (p.next c).offset = p.offset + 1 := by
  unfold next
  split <;> rfl

theorem offset_advance (p : Position) (cs : List Char) :
    (p.advance cs).offset = p.offset + cs.length := by
  induction cs generalizing p with
  | nil => rfl
  | cons c cs ih =>
    change ((p.next c).advance cs).offset = _
    rw [ih, offset_next, List.length_cons]
    omega

theorem line_advance (p : Position) (cs : List Char) :
    (p.advance cs).line = p.line + cs.count '\n' := by
  induction cs generalizing p with
  | nil => rfl
  | cons c cs ih =>
    change ((p.next c).advance cs).line = _
    rw [ih, List.count_cons]
    by_cases hc : c = '\n'
    · simp [next, hc]
      omega
    · simp [next, hc]

/-- Characters of one line take the place on by their number, whatever they are. -/
theorem advance_of_not_mem (p : Position) (cs : List Char) (h : '\n' ∉ cs) :
    p.advance cs = ⟨p.line, p.column + cs.length, p.offset + cs.length⟩ := by
  induction cs generalizing p with
  | nil => rfl
  | cons c cs ih =>
    simp only [List.mem_cons, not_or] at h
    change (p.next c).advance cs = _
    rw [ih _ h.2, next, if_neg (Ne.symm h.1), List.length_cons, Nat.add_assoc,
      Nat.add_assoc, Nat.add_comm 1]

/-- Going on from a place on a line that starts at `start`, the line one arrives on starts where
the list of line starts says, and the column is the distance from there. -/
theorem column_advance (p : Position) (start : Nat) (hp : p.offset = start + p.column)
    (before after : List Char) :
    ∃ start', (start :: Text.lineStartsFrom p.offset (before ++ after))[before.count '\n']? =
        some start' ∧ (p.advance before).offset = start' + (p.advance before).column := by
  induction before generalizing p start with
  | nil => exact ⟨start, rfl, hp⟩
  | cons c before ih =>
    by_cases hc : c = '\n'
    · subst hc
      obtain ⟨start', hstart, hoffset⟩ := ih (p.next '\n') (p.offset + 1) (by simp [next])
      refine ⟨start', ?_, hoffset⟩
      rw [offset_next] at hstart
      rw [List.cons_append, Text.lineStartsFrom, if_pos rfl, List.count_cons_self]
      exact hstart
    · have hcol : (p.next c).offset = start + (p.next c).column := by
        simp [next, hc]
        omega
      obtain ⟨start', hstart, hoffset⟩ := ih (p.next c) start hcol
      refine ⟨start', ?_, hoffset⟩
      rw [offset_next] at hstart
      rw [List.cons_append, Text.lineStartsFrom, if_neg hc, List.count_cons_of_ne hc]
      exact hstart

end Position

theorem Text.lineStartsFrom_eq (offset : Nat) (cs : List Char) :
    lineStartsFrom offset cs =
      ((List.range cs.length).filter (cs[·]? = some '\n')).map (offset + · + 1) := by
  induction cs generalizing offset with
  | nil => rfl
  | cons c cs ih =>
    have hshift : ∀ ns : List Nat, ns.map (offset + 1 + · + 1) =
        (ns.map Nat.succ).map (offset + · + 1) := by
      intro ns
      simp [Nat.add_assoc, Nat.add_comm 1]
    have hfilter : ((List.range cs.length).map Nat.succ).filter ((c :: cs)[·]? = some '\n') =
        ((List.range cs.length).filter (cs[·]? = some '\n')).map Nat.succ := by
      rw [List.filter_map]
      rfl
    rw [lineStartsFrom, ih, hshift, List.length_cons, List.range_succ_eq_map, List.filter_cons,
      hfilter]
    by_cases hc : c = '\n'
    · simp [hc]
    · simp [hc]

/-! ### Texts laid out in tokens -/

/-- A text, whose first character has the position, is written by tokens in a row, with nothing
but blanks between them. -/
inductive Tiling : Position → List Char → List Token → Prop where
  | nil (p : Position) : Tiling p [] []
  | blank {p : Position} {c : Char} {cs : List Char} {ts : List Token}
      (hc : Lexeme.isSpace c = true ∨ c = '\n') (h : Tiling (p.next c) cs ts) :
      Tiling p (c :: cs) ts
  | token {p : Position} {t : Token} {cs : List Char} {ts : List Token}
      (hstart : t.start = p) (hpos : 0 < t.length) (hlength : t.length = t.text.toList.length)
      (h : Tiling (p.advance t.text.toList) cs ts) :
      Tiling p (t.text.toList ++ cs) (t :: ts)

namespace Tiling

variable {p : Position} {cs : List Char} {ts : List Token}

theorem bounds (h : Tiling p cs ts) :
    ∀ t ∈ ts, p.offset ≤ t.start.offset ∧ t.start.offset + t.length ≤ p.offset + cs.length := by
  induction h with
  | nil => simp
  | @blank p c cs ts hc h ih =>
    intro t ht
    have hb := ih t ht
    rw [Position.offset_next] at hb
    rw [List.length_cons]
    omega
  | @token p t cs ts hstart hpos hlength h ih =>
    intro t' ht'
    rw [List.length_append]
    rcases List.mem_cons.mp ht' with rfl | ht'
    · rw [hstart]
      omega
    · have hb := ih t' ht'
      rw [Position.offset_advance] at hb
      omega

/-- Tokens follow one another. -/
theorem pairwise (h : Tiling p cs ts) :
    ts.Pairwise fun t t' =>
      t.start.offset < t'.start.offset ∧ t.start.offset + t.length ≤ t'.start.offset := by
  induction h with
  | nil => exact .nil
  | blank hc h ih => exact ih
  | @token p t cs ts hstart hpos hlength h ih =>
    refine List.pairwise_cons.mpr ⟨?_, ih⟩
    intro t' ht'
    have hb := (h.bounds t' ht').1
    rw [Position.offset_advance] at hb
    rw [hstart]
    omega

/-- Every token stands where the characters before it lead to, and it is what is written there. -/
theorem written (h : Tiling p cs ts) : ∀ t ∈ ts, 0 < t.length ∧ t.length = t.text.toList.length ∧
    ∃ before after, cs = before ++ (t.text.toList ++ after) ∧ t.start = p.advance before := by
  induction h with
  | nil => simp
  | @blank p c cs ts hc h ih =>
    intro t ht
    obtain ⟨hpos, hlength, before, after, hcs, hstart⟩ := ih t ht
    exact ⟨hpos, hlength, c :: before, after, by rw [hcs]; rfl, hstart⟩
  | @token p t cs ts hstart hpos hlength h ih =>
    intro t' ht'
    rcases List.mem_cons.mp ht' with rfl | ht'
    · exact ⟨hpos, hlength, [], cs, rfl, hstart⟩
    · obtain ⟨hpos', hlength', before, after, hcs, hstart'⟩ := ih t' ht'
      refine ⟨hpos', hlength', t.text.toList ++ before, after, ?_, ?_⟩
      · rw [hcs, List.append_assoc]
      · rw [hstart', Position.advance_append]

/-- What lies outside of all tokens is blank. -/
theorem blank_of_uncovered (h : Tiling p cs ts) : ∀ i c, cs[i]? = some c →
    (∀ t ∈ ts, ¬(t.start.offset ≤ p.offset + i ∧ p.offset + i < t.start.offset + t.length)) →
    Lexeme.isSpace c = true ∨ c = '\n' := by
  induction h with
  | nil => simp
  | @blank p c cs ts hc h ih =>
    intro i d hd hout
    cases i with
    | zero => exact Option.some.inj hd ▸ hc
    | succ i =>
      apply ih i d hd
      intro t ht
      rw [Position.offset_next, Nat.add_assoc, Nat.add_comm 1]
      exact hout t ht
  | @token p t cs ts hstart hpos hlength h ih =>
    intro i d hd hout
    have ht := hout t List.mem_cons_self
    rw [hstart] at ht
    obtain ⟨j, rfl⟩ : ∃ j, i = t.length + j := ⟨i - t.length, by omega⟩
    refine ih j d ?_ ?_
    · rw [List.getElem?_append_right (by omega)] at hd
      rwa [← hlength, Nat.add_sub_cancel_left] at hd
    · intro t' ht'
      rw [Position.offset_advance, ← hlength, Nat.add_assoc]
      exact hout t' (List.mem_cons_of_mem t ht')

end Tiling

namespace Scan

/-! ### Places of pieces -/

namespace State

variable {s s' : State}

/-- Two states stand at the same place. -/
def SamePlace (s s' : State) : Prop := s'.position = s.position ∧ s'.lineStart = s.lineStart

theorem Agrees.samePlace (h : Agrees s s') : SamePlace s s' := ⟨h.position, h.lineStart⟩

/-- A directive is carried out on the spot, the reading of an included file among them. -/
theorem samePlace_carryOut (σ : Setting) (src : Source) (nested : Option Reader) (s : State)
    (t : Token) (d : Directive) : SamePlace s (s.carryOut σ src nested t d) := by
  cases d with
  | define name value =>
    simp only [carryOut, define]
    split <;> exact ⟨rfl, rfl⟩
  | undef name =>
    simp only [carryOut, undefine]
    split <;> exact ⟨rfl, rfl⟩
  | inclusion name =>
    rw [carryOut, ← leave_includeFile]
    exact ⟨rfl, rfl⟩
  | condition name negated =>
    exact (agrees_carryOut σ src nested s t (.condition name negated)
      (by cases negated <;> rfl)).samePlace
  | otherwise => exact (agrees_carryOut σ src nested s t .otherwise rfl).samePlace
  | endif => exact (agrees_carryOut σ src nested s t .endif rfl).samePlace

theorem samePlace_directiveLine (σ : Setting) (src : Source) (nested : Option Reader) (s : State)
    (line : List Char) : SamePlace (s.advance line) (s.directiveLine σ src nested line) := by
  unfold directiveLine
  dsimp only
  split
  · exact ⟨rfl, rfl⟩
  · unfold activeDirective
    cases Directive.parse line with
    | error e => exact (agrees_refuse ((s.emit _).advance line) _ _ e).samePlace
    | ok d => exact samePlace_carryOut σ src nested ((s.emit _).advance line) _ d

theorem samePlace_element (s : State) (uri : String) (l : Lexeme) :
    SamePlace (s.advance l.text) (s.element uri l) := by
  unfold element
  split
  · exact ⟨rfl, rfl⟩
  · exact (agrees_plain s uri l).samePlace

/-- Every piece takes the place on by its own characters. -/
theorem position_take (σ : Setting) (src : Source) (nested : Option Reader) (s : State)
    (p : Piece) : (s.take σ src nested p).position = s.position.advance p.chars := by
  cases p with
  | newline => rfl
  | space c => rfl
  | directive line => exact (samePlace_directiveLine σ src nested s line).1
  | inactive line => rfl
  | element l => exact (samePlace_element s src.uri l).1

/-- Nothing but blanks stands before a place after a line feed, and still after a blank. -/
theorem lineStart_take (σ : Setting) (src : Source) (nested : Option Reader) (s : State)
    (p : Piece) :
    (s.take σ src nested p).lineStart = match p with
      | .newline => true
      | .space _ => s.lineStart
      | _ => false := by
  cases p with
  | newline => rfl
  | space c => rfl
  | directive line => exact (samePlace_directiveLine σ src nested s line).2
  | inactive line => rfl
  | element l => exact (samePlace_element s src.uri l).2

end State

/-! ### Tokens of the document itself -/

/-- The token stands in the document itself and is no part of a replacement text. -/
def isOwnIn (uri : String) (t : Token) : Bool := t.uri = uri && t.isOwn

theorem isOwnIn_tokenHere (s : State) (uri : String) (kind : TokenKind) (cs : List Char) :
    isOwnIn uri (s.tokenHere uri kind cs) = true := by simp [isOwnIn, State.tokenHere, Token.isOwn]

theorem filter_isOwnIn_expanded (uri : String) (marker : Token) (ls : List Lexeme)
    (hm : marker.expanded.isSome = true) (hls : ∀ l ∈ ls, l.kind.isTrivia = false) :
    (ls.map (State.expandedToken marker)).filter (isOwnIn uri) = [] := by
  rw [List.filter_eq_nil_iff]
  intro t ht hown
  obtain ⟨l, hl, rfl⟩ := List.mem_map.mp ht
  have hnone : marker.expanded.isNone = false := by simp [← Option.not_isSome, hm]
  have hk : l.kind = .reference := by
    simp only [isOwnIn, State.expandedToken, Token.isOwn, hnone, Bool.false_or,
      Bool.and_eq_true] at hown
    exact of_decide_eq_true hown.2
  exact absurd (hls l hl) (by rw [hk]; decide)

/-- The own tokens of a piece write it, and the tokens of what follows write the rest. -/
theorem Piece.Gives.tiling {directives : Bool} {s : State} {text rest : List Char} {p : Piece}
    {uri : String} {own ts : List Token} (hown : p.Gives s uri own)
    (hnext : Next directives s text p rest) (hrest : Tiling (s.position.advance p.chars) rest ts) :
    Tiling s.position text (own.filter (isOwnIn uri) ++ ts) := by
  have hpos : 0 < p.chars.length := List.length_pos_iff.mpr hnext.chars_ne_nil
  rw [← hnext.chars_append]
  have hone : ∀ t : Token, isOwnIn uri t = true → t.start = s.position →
      t.text = String.ofList p.chars → t.length = p.chars.length →
      Tiling s.position (p.chars ++ rest) ([t].filter (isOwnIn uri) ++ ts) := by
    intro t ht hstart htext hlength
    have hchars : t.text.toList = p.chars := by rw [htext, String.toList_ofList]
    rw [List.filter_cons_of_pos ht, ← hchars]
    exact .token hstart (by omega) (by rw [hchars, hlength]) (by rw [hchars]; exact hrest)
  cases hown with
  | newline => exact .blank (Or.inr rfl) hrest
  | space c =>
    cases hnext with
    | space rest hc => exact .blank (Or.inl hc) hrest
  | directive | idle | inactive | plain =>
    exact hone _ (isOwnIn_tokenHere ..) rfl rfl rfl
  | reference l m =>
    have hmarker : isOwnIn uri (s.markerHere uri m l.text) = true := by
      simp [isOwnIn, State.markerHere, State.tokenHere, Token.isOwn]
    have hexpanded := filter_isOwnIn_expanded uri (s.markerHere uri m l.text)
      (Expansion.ofMacro s.macros s.part m).lexemes rfl
      (Expansion.isTrivia_of_mem_ofText s.macros [m.name] s.part m.value.toList)
    have h := hone (s.markerHere uri m l.text) hmarker rfl rfl rfl
    rw [List.filter_cons_of_pos hmarker] at h ⊢
    rw [hexpanded]
    exact h

/-- Reading a text adds tokens, of which those of the document itself write the text. -/
theorem run_tiling (σ : Setting) (src : Source) (nested : Option Reader)
    (hread : ∀ read ∈ nested, Reader.Gives (·.uri ≠ src.uri) src read)
    (s : State) (cs : List Char) :
    ∃ ts, (run σ src nested s cs).tokens.toList = s.tokens.toList ++ ts ∧
      Tiling s.position cs (ts.filter (isOwnIn src.uri)) := by
  induction s, cs using run_induction σ src nested with
  | nil s => exact ⟨[], by rw [run_nil, List.append_nil], .nil _⟩
  | next s text p rest h ih =>
    obtain ⟨ts, htokens, htiling⟩ := ih
    obtain ⟨own, foreign, htake, hown, hforeign⟩ := State.tokens_take σ src nested hread s p
    refine ⟨own ++ foreign ++ ts, ?_, ?_⟩
    · rw [run_of_next σ src nested h, htokens, htake, List.append_assoc]
    · have hnone : foreign.filter (isOwnIn src.uri) = [] := by
        rw [List.filter_eq_nil_iff]
        intro t ht
        simp [isOwnIn, hforeign t ht]
      rw [State.position_take] at htiling
      rw [List.filter_append, List.filter_append, hnone, List.append_nil]
      exact hown.tiling h htiling

/-- The tokens of a document write its text. -/
theorem document_tiling (σ : Setting) (src : Source) (hbars : src.Bars src.uri)
    (cache : IncludeCache) (part : Part) (cs : List Char) :
    Tiling .zero cs ((document σ src cache part cs).tokens.toList.filter (isOwnIn src.uri)) := by
  obtain ⟨nested, htext, -, hread⟩ := exists_nested σ (levels σ.options)
  obtain ⟨ts, htokens, htiling⟩ :=
    run_tiling σ src nested (hread src src.uri hbars) (initial σ cache part) cs
  rw [document, htext, (State.agrees_finish _ _).tokens, htokens]
  exact htiling

/-- The tokens tell a text apart without loss. They follow one another without overlap; each is
the part of the text at its offset, and not empty; its line is the number of line feeds before it,
and its column the distance from the start of that line; all characters outside are blanks. -/
structure Lossless (cs : List Char) (own : List Token) : Prop where
  ordered : own.Pairwise fun t t' =>
    t.start.offset < t'.start.offset ∧ t.start.offset + t.length ≤ t'.start.offset
  nonempty : ∀ t ∈ own, 1 ≤ t.length ∧ t.start.offset + t.length ≤ cs.length
  written : ∀ t ∈ own, t.text = String.ofList ((cs.drop t.start.offset).take t.length)
  line : ∀ t ∈ own, t.start.line = (cs.take t.start.offset).count '\n'
  column : ∀ t ∈ own, ∃ start, (Text.lineStarts cs)[t.start.line]? = some start ∧
    t.start.offset = start + t.start.column
  blank : ∀ i c, cs[i]? = some c →
    (∀ t ∈ own, ¬(t.start.offset ≤ i ∧ i < t.start.offset + t.length)) →
    c ∈ [' ', '\t', '\r', '\x0c', '\x0b', '\n']

theorem lossless_of_tiling {cs : List Char} {own : List Token} (h : Tiling .zero cs own) :
    Lossless cs own := by
  have hplace : ∀ t ∈ own, ∃ before after, cs = before ++ (t.text.toList ++ after) ∧
      t.start = Position.zero.advance before ∧ t.start.offset = before.length ∧
      t.start.line = before.count '\n' := by
    intro t ht
    obtain ⟨-, -, before, after, hcs, hstart⟩ := h.written t ht
    refine ⟨before, after, hcs, hstart, ?_, ?_⟩
    · rw [hstart, Position.offset_advance]
      exact Nat.zero_add _
    · rw [hstart, Position.line_advance]
      exact Nat.zero_add _
  refine ⟨h.pairwise, ?_, ?_, ?_, ?_, ?_⟩
  · intro t ht
    have hb := (h.bounds t ht).2
    exact ⟨(h.written t ht).1, by simpa [Position.zero] using hb⟩
  · intro t ht
    obtain ⟨before, after, hcs, -, hoffset, -⟩ := hplace t ht
    rw [hcs, hoffset, (h.written t ht).2.1]
    simp
  · intro t ht
    obtain ⟨before, after, hcs, -, hoffset, hline⟩ := hplace t ht
    rw [hcs, hoffset, hline]
    simp
  · intro t ht
    obtain ⟨before, after, hcs, hstart, -, hline⟩ := hplace t ht
    obtain ⟨start, hget, hcolumn⟩ :=
      Position.column_advance .zero 0 rfl before (t.text.toList ++ after)
    refine ⟨start, ?_, ?_⟩
    · rw [Text.lineStarts, hline, hcs]
      exact hget
    · rw [hstart]
      exact hcolumn
  · intro i c hc hout
    have hblank := h.blank_of_uncovered i c hc
      (by simpa only [Position.zero, Nat.zero_add] using hout)
    rcases hblank with hspace | rfl
    · simp only [Lexeme.isSpace, Bool.or_eq_true, decide_eq_true_eq] at hspace
      simp only [List.mem_cons, List.not_mem_nil, or_false]
      tauto
    · simp

/-- Nothing of a document is lost and nothing is moved, whatever it includes and expands. -/
theorem document_lossless (σ : Setting) (uri : String) (src : Source)
    (hsrc : Source.ofUri σ.files uri = .ok src) (cache : IncludeCache) (part : Part)
    (cs : List Char) :
    Lossless cs ((document σ src cache part cs).tokens.toList.filter (isOwnIn uri)) ∧
    Text.lineStarts cs =
      0 :: ((List.range cs.length).filter (cs[·]? = some '\n')).map (· + 1) := by
  obtain ⟨rfl, hbars⟩ := bars_ofUri hsrc
  refine ⟨lossless_of_tiling (document_tiling σ src hbars cache part cs), ?_⟩
  rw [Text.lineStarts, Text.lineStartsFrom_eq]
  simp

/-- A document with a macro, a file that includes the document again, and a comment over two
lines. -/
theorem document_lossless_mutual_inclusion :
    let σ : Setting :=
      { files := {
          entries := [(Path.ofString "/ws/b", { content := .text "#include \"a\"\nX := N;" })]
          cwd := Path.ofString "/ws" } }
    let src : Source :=
      ⟨"file:///ws/a", some (Path.ofString "/ws/a"), [Path.ofString "/ws/a"]⟩
    let cs := "#define N 2\n#include \"b\"\n/* c\n*/ N@'x".toList
    Source.ofUri σ.files "file:///ws/a" = .ok src ∧
    Lossless cs ((document σ src {} .problem cs).tokens.toList.filter (isOwnIn "file:///ws/a")) ∧
    Text.lineStarts cs = [0, 12, 25, 30] := by
  intro σ src cs
  have hsrc : Source.ofUri σ.files "file:///ws/a" = .ok src := by decide +kernel
  exact ⟨hsrc, (document_lossless σ "file:///ws/a" src hsrc {} .problem cs).1, by decide +kernel⟩

end Scan

end Pearl
