import Pearl.Proofs.BlankedText
import Pearl.Proofs.LineLocality

namespace Pearl

namespace Scan

/-! ### Two runs side by side -/

namespace State

/-- `s'` knows what `s` knows, has its tokens without the erasable ones of a document, and lies
within no condition that fails. -/
structure Mirrors (uri : String) (s s' : State) : Prop where
  macros : s'.macros = s.macros
  cache : s'.cache = s.cache
  asked : s'.asked = s.asked
  failure : s'.failure = s.failure
  part : s'.part = s.part
  position : s'.position = s.position
  tokens : s'.tokens.toList = s.tokens.toList.filter (!isErasableIn uri ·)
  active : s'.conditions.active = true

variable {uri : String} {s s' r : State}

/-- What only touches conditions and findings goes unnoticed. -/
theorem Mirrors.agrees (h : Mirrors uri s s') (hr : Agrees s r) : Mirrors uri r s' :=
  ⟨h.macros.trans hr.macros.symm, h.cache.trans hr.cache.symm, h.asked.trans hr.asked.symm,
    h.failure.trans hr.failure.symm, h.part.trans hr.part.symm,
    h.position.trans hr.position.symm, by rw [h.tokens, hr.tokens], h.active⟩

theorem Mirrors.report (h : Mirrors uri s s') (d d' : Diagnostic) :
    Mirrors uri (s.report d) (s'.report d') :=
  ⟨h.macros, h.cache, h.asked, h.failure, h.part, h.position, h.tokens, h.active⟩

theorem Mirrors.tokenHere (h : Mirrors uri s s') (kind : TokenKind) (cs : List Char) :
    s'.tokenHere uri kind cs = s.tokenHere uri kind cs := by
  simp only [State.tokenHere, h.position]

/-- A token that stays is added on both sides. -/
theorem Mirrors.emit_advance (h : Mirrors uri s s') {t : Token}
    (ht : isErasableIn uri t = false) (cs : List Char) :
    Mirrors uri ((s.emit t).advance cs) ((s'.emit t).advance cs) := by
  refine ⟨h.macros, h.cache, h.asked, h.failure, h.part, ?_, ?_, h.active⟩
  · simp only [advance, emit, h.position]
  · simp [advance, emit, h.tokens, ht]

/-! Lexical elements -/

theorem conditions_plain (s : State) (uri : String) (l : Lexeme) :
    (s.plain uri l).conditions = s.conditions := by
  unfold plain foldLines
  dsimp only
  split <;> cases l.fault <;> rfl

theorem Mirrors.plain (h : Mirrors uri s s') {l : Lexeme} (hl : l.kind.isElement = true) :
    Mirrors uri (s.plain uri l) (s'.plain uri l) := by
  have ht : isErasableIn uri (s.tokenHere uri l.kind l.text) = false :=
    isErasableIn_of_isElement uri hl
  have hemit := h.emit_advance ht l.text
  have hs' := agrees_plain s' uri l
  rw [h.tokenHere, h.part] at hs'
  refine Mirrors.agrees ?_ (agrees_plain s uri l)
  exact ⟨hs'.macros.trans hemit.macros, hs'.cache.trans hemit.cache, hs'.asked.trans hemit.asked,
    hs'.failure.trans hemit.failure, hs'.part, hs'.position.trans hemit.position,
    by rw [hs'.tokens]; exact hemit.tokens, by rw [conditions_plain, h.active]⟩

theorem Mirrors.expand (h : Mirrors uri s s') (m : Macro) (word : List Char) :
    Mirrors uri (s.expand uri m word) (s'.expand uri m word) := by
  have hmarker := isErasableIn_marker s uri m word
  have hexpanded := isErasableIn_expanded uri s.macros s.part m (s.markerHere uri m word)
  have hfilter : ((Expansion.ofMacro s.macros s.part m).lexemes.map
      (expandedToken (s.markerHere uri m word))).filter (!isErasableIn uri ·) =
      (Expansion.ofMacro s.macros s.part m).lexemes.map
        (expandedToken (s.markerHere uri m word)) := by
    rw [List.filter_eq_self]
    intro e he
    rw [hexpanded e he]
    rfl
  unfold State.expand
  dsimp only
  rw [h.tokenHere, h.macros, h.part]
  refine ⟨h.macros, h.cache, h.asked, h.failure, rfl, ?_, ?_, h.active⟩
  · simp only [advance, h.position]
  · simp only [markerHere] at hmarker hfilter
    simp only [Array.toList_append, Array.toList_push, List.filter_append, h.tokens, hfilter,
      List.filter_cons, hmarker, Bool.not_false, if_true, List.filter_nil]

theorem Mirrors.element (h : Mirrors uri s s') {l : Lexeme} (hl : l.kind.isElement = true) :
    Mirrors uri (s.element uri l) (s'.element uri l) := by
  unfold State.element
  rw [h.macros]
  cases Expansion.reference? s.macros [] l with
  | none => exact h.plain hl
  | some m => exact h.expand m l.text

/-! Directives -/

/-- An included file is read alike, and none of its tokens belongs to the document. -/
theorem Mirrors.read {src : Source} {read : Reader} (hadd : Additive read)
    (hgives : Reader.Gives (·.uri ≠ src.uri) src read) {path : Path} (hpath : path.IsResolved)
    (hmem : path ∉ src.chain) (cs : List Char) (h : Mirrors src.uri s s') :
    Mirrors src.uri (s.leave (read (src.included path) cs s.enter))
      (s'.leave (read (src.included path) cs s'.enter)) := by
  have hbare : s'.enter.bare = s.enter.bare := by
    simp only [enter, bare, h.macros, h.cache, h.asked, h.failure, h.part]
  have hs := hadd s.enter.output (src.included path) cs s.enter.bare
  have hs' := hadd s'.enter.output (src.included path) cs s'.enter.bare
  rw [prepend_output_bare] at hs hs'
  rw [hs, hs', hbare]
  obtain ⟨ts, htokens, hforeign⟩ := hgives path hpath hmem cs s.enter.bare
  generalize read (src.included path) cs s.enter.bare = inner at htokens
  refine ⟨rfl, rfl, rfl, rfl, rfl, h.position, ?_, h.active⟩
  have hinner : inner.tokens.toList = ts := htokens
  have hfilter : ts.filter (!isErasableIn src.uri ·) = ts := by
    rw [List.filter_eq_self]
    intro t ht
    simp [isErasableIn, hforeign t ht]
  simp only [leave, prepend, output, enter, Array.toList_append, List.filter_append, h.tokens,
    hinner, hfilter]

theorem Mirrors.includePath (σ : Setting) {src : Source} {nested : Option Reader}
    (hadd : ∀ read ∈ nested, Additive read)
    (hgives : ∀ read ∈ nested, Reader.Gives (·.uri ≠ src.uri) src read)
    (h : Mirrors src.uri s s') (t : Token) (name : String) {path : Path}
    (hpath : path.IsResolved) :
    Mirrors src.uri (s.includePath σ src nested t name path)
      (s'.includePath σ src nested t name path) := by
  unfold State.includePath
  rw [h.cache, h.asked]
  split
  · exact h.report _ _
  · rename_i hc
    have hmem : _ ∉ src.chain := fun hm => hc (List.contains_iff_mem.mpr hm)
    cases nested with
    | none => exact h.report _ _
    | some read =>
      dsimp only
      split
      · exact ⟨h.macros, rfl, rfl, h.failure, h.part, h.position, h.tokens, h.active⟩
      · refine Mirrors.read (hadd read rfl) (hgives read rfl) hpath hmem _ ?_
        exact ⟨h.macros, rfl, rfl, h.failure, h.part, h.position, h.tokens, h.active⟩

theorem Mirrors.includeFile (σ : Setting) {src : Source} {nested : Option Reader}
    (hadd : ∀ read ∈ nested, Additive read)
    (hgives : ∀ read ∈ nested, Reader.Gives (·.uri ≠ src.uri) src read)
    (h : Mirrors src.uri s s') (t : Token) (name : String) :
    Mirrors src.uri (s.includeFile σ src nested t name) (s'.includeFile σ src nested t name) := by
  unfold State.includeFile
  rw [h.macros, h.failure]
  cases s.failure with
  | some e => exact h
  | none =>
    cases hlocate : σ.locate src (s.macros.substitute name) with
    | error e =>
      dsimp only
      exact ⟨rfl, h.cache, h.asked, rfl, h.part, h.position, h.tokens, h.active⟩
    | ok path => exact h.includePath σ hadd hgives t _ (σ.isResolved_of_locate hlocate)

theorem Mirrors.carryOut (σ : Setting) {src : Source} {nested : Option Reader}
    (hadd : ∀ read ∈ nested, Additive read)
    (hgives : ∀ read ∈ nested, Reader.Gives (·.uri ≠ src.uri) src read)
    (h : Mirrors src.uri s s') (t : Token) (d : Directive) (hd : d.word.isConditional = false) :
    Mirrors src.uri (s.carryOut σ src nested t d) (s'.carryOut σ src nested t d) := by
  cases d with
  | define name value =>
    simp only [State.carryOut, State.define, h.macros]
    split
    · exact h.report _ _
    · exact ⟨rfl, h.cache, h.asked, h.failure, h.part, h.position, h.tokens, h.active⟩
  | undef name =>
    simp only [State.carryOut, State.undefine, h.macros]
    split
    · exact ⟨rfl, h.cache, h.asked, h.failure, h.part, h.position, h.tokens, h.active⟩
    · exact h.report _ _
  | inclusion path => exact h.includeFile σ hadd hgives t path
  | condition name negated => cases negated <;> cases hd
  | otherwise | endif => cases hd

/-- A directive that counts and is not about conditions does the same on both sides. -/
theorem Mirrors.directiveLine (σ : Setting) {src : Source} {nested : Option Reader}
    (hadd : ∀ read ∈ nested, Additive read)
    (hgives : ∀ read ∈ nested, Reader.Gives (·.uri ≠ src.uri) src read)
    (h : Mirrors src.uri s s') (line : List Char)
    (hkept : Piece.isErased s (.directive ('#' :: line)) = false) :
    Mirrors src.uri (s.directiveLine σ src nested ('#' :: line))
      (s'.directiveLine σ src nested ('#' :: line)) := by
  simp only [Piece.isErased, Bool.not_eq_false', Bool.and_eq_true] at hkept
  obtain ⟨hactive, hword⟩ := hkept
  obtain ⟨word, hw, hc⟩ : ∃ word, wordOf? ('#' :: line) = some word ∧
      word.isConditional = false := by
    simpa [Option.any_eq_true] using hword
  have hopener : word.isOpener = false := by
    cases word <;> first | rfl | cases hc
  have hcount : ∀ r : State, r.conditions.active = true →
      r.directiveLine σ src nested ('#' :: line) =
        r.activeDirective σ src nested ('#' :: line) (some word) := by
    intro r hr
    rw [State.directiveLine,
      show DirectiveWord.ofText? (Directive.wordOf ('#' :: line)) = some word from hw,
      if_neg (by simp [hr])]
  have ht : isErasableIn src.uri (s.tokenHere src.uri .directive ('#' :: line)) = false := by
    simp [isErasableIn, Token.isErasable, State.tokenHere, hw, hc]
  rw [hcount s hactive, hcount s' h.active]
  have hemit := h.emit_advance ht ('#' :: line)
  unfold State.activeDirective
  simp only [Option.isSome_some, if_true, h.tokenHere]
  cases hparse : Directive.parse ('#' :: line) with
  | error e =>
    simp only [State.refuse, Option.any_some, hopener, Bool.false_eq_true, if_false]
    exact hemit.report _ _
  | ok d =>
    have hd : d.word = word := by
      have hp := Directive.word_of_parse hparse
      rw [show DirectiveWord.ofText? (Directive.wordOf ('#' :: line)) = some word from hw] at hp
      exact (Option.some.inj hp).symm
    exact hemit.carryOut σ hadd hgives _ d (by rw [hd, hc])

/-- An erased piece does nothing but to add its token and to pass on. -/
theorem agrees_take_erased {directives : Bool} {text rest : List Char} {p : Piece} (σ : Setting)
    (src : Source) (nested : Option Reader) (hnext : Next directives s text p rest)
    (hp : p.isErased s = true) :
    ∃ t, isErasableIn src.uri t = true ∧
      Agrees ((s.emit t).advance p.chars) (s.take σ src nested p) := by
  cases hnext with
  | newline | space | element => cases hp
  | @inactive c line rest hn hc hs hd ha hline hrest =>
    exact ⟨s.tokenHere src.uri .inactive (c :: line),
      by simp [isErasableIn, Token.isErasable, State.tokenHere],
      ⟨rfl, rfl, rfl, rfl, rfl, rfl, rfl, rfl⟩⟩
  | @directive line rest hd hs hline hrest =>
    change ∃ t, _ ∧ Agrees _ (s.directiveLine σ src nested ('#' :: line))
    unfold State.directiveLine
    dsimp only
    split
    · exact ⟨s.tokenHere src.uri .inactive ('#' :: line),
        by simp [isErasableIn, Token.isErasable, State.tokenHere],
        ⟨rfl, rfl, rfl, rfl, rfl, rfl, rfl, rfl⟩⟩
    · rename_i hcount
      change ¬(!s.conditions.active && !(wordOf? ('#' :: line)).any (·.isConditional)) = true
        at hcount
      change ∃ t, _ ∧ Agrees _ (s.activeDirective σ src nested ('#' :: line) (wordOf? ('#' :: line)))
      have hcond : ∀ word, wordOf? ('#' :: line) = some word → word.isConditional = true := by
        intro word hw
        rw [hw] at hcount
        rw [Piece.isErased, hw] at hp
        cases hc : word.isConditional with
        | true => rfl
        | false =>
          -- The line counts because it is not about conditions, so that it is not erased.
          have hactive : s.conditions.active = true := by simpa [hc] using hcount
          simp [hactive, hc] at hp
      refine ⟨s.tokenHere src.uri
        (if (wordOf? ('#' :: line)).isSome then .directive else .inactive) ('#' :: line), ?_, ?_⟩
      · cases hw : wordOf? ('#' :: line) with
        | none => simp [isErasableIn, Token.isErasable, State.tokenHere]
        | some word =>
          simp [isErasableIn, Token.isErasable, State.tokenHere, hw, hcond word hw]
      · unfold State.activeDirective
        cases hparse : Directive.parse ('#' :: line) with
        | error e => exact agrees_refuse _ _ _ _
        | ok d => exact agrees_carryOut σ src nested _ _ d (hcond _ (Directive.word_of_parse hparse))

/-- Where one side has an erased piece, the other passes over as many blanks. -/
theorem Mirrors.take_erased {directives : Bool} {text rest : List Char} {p : Piece} (σ : Setting)
    {src : Source} (nested : Option Reader) (h : Mirrors src.uri s s')
    (hnext : Next directives s text p rest) (hp : p.isErased s = true) :
    Mirrors src.uri (s.take σ src nested p)
      { s' with position := s'.position.advance (List.replicate p.chars.length ' ') } := by
  obtain ⟨t, ht, hagrees⟩ := agrees_take_erased σ src nested hnext hp
  have hline := (hnext.not_mem_of_isErased hp).1
  refine Mirrors.agrees ?_ hagrees
  refine ⟨h.macros, h.cache, h.asked, h.failure, h.part, ?_, ?_, h.active⟩
  · change _ = s.position.advance p.chars
    rw [Position.advance_of_not_mem _ _ hline, Position.advance_of_not_mem _ _ (by simp [List.mem_replicate]),
      h.position, List.length_replicate]
  · simp [advance, emit, h.tokens, ht]

/-- Any other piece is taken by both sides. -/
theorem Mirrors.take_kept {directives : Bool} {text rest : List Char} {p : Piece} (σ : Setting)
    {src : Source} {nested : Option Reader} (hadd : ∀ read ∈ nested, Additive read)
    (hgives : ∀ read ∈ nested, Reader.Gives (·.uri ≠ src.uri) src read)
    (h : Mirrors src.uri s s') (hnext : Next directives s text p rest)
    (hp : p.isErased s = false) :
    Mirrors src.uri (s.take σ src nested p) (s'.take σ src nested p) := by
  cases hnext with
  | newline rest =>
    exact ⟨h.macros, h.cache, h.asked, h.failure, h.part, by simp [take, newline, h.position], h.tokens,
      h.active⟩
  | space rest hc =>
    exact ⟨h.macros, h.cache, h.asked, h.failure, h.part, by simp [take, space, h.position], h.tokens,
      h.active⟩
  | @directive line rest hd hs hline hrest => exact h.directiveLine σ hadd hgives line hp
  | inactive => cases hp
  | element hn hc hs => exact h.element (isElement_head ..)

end State

/-! ### Whole texts -/

theorem run_spaces (σ : Setting) (src : Source) (nested : Option Reader) (n : Nat) (s : State)
    (rest : List Char) :
    run σ src nested s (List.replicate n ' ' ++ rest) =
      run σ src nested
        { s with position := s.position.advance (List.replicate n ' ') } rest := by
  induction n generalizing s with
  | zero => rfl
  | succ n ih =>
    rw [List.replicate_succ, List.cons_append,
      run_of_next σ src nested (.space (List.replicate n ' ' ++ rest) (by decide))]
    exact ih (s.space ' ')

/-- The other side has the same piece before it. -/
theorem Next.mirror {directives : Bool} {s s' : State} {text rest rest' : List Char} {p : Piece}
    (hnext : Next directives s text p rest) (hp : p.isErased s = false)
    (hpart : s'.part = s.part) (hactive : s'.conditions.active = true)
    (hstart : s'.lineStart = s.lineStart ∨ Text.AtLineEnd text)
    (hlength : rest'.length = rest.length) (hend : Text.AtLineEnd rest → Text.AtLineEnd rest')
    (hline : ∀ l, p = .element l → (Text.splitLine rest').1 = (Text.splitLine rest).1) :
    Next directives s' (p.chars ++ rest') p rest' := by
  have hsame : ∀ c cs, c ≠ '\n' → text = c :: cs → s'.lineStart = s.lineStart := by
    intro c cs hc htext
    refine hstart.resolve_right fun h => hc (h c ?_)
    rw [htext]
    rfl
  cases hnext with
  | newline => exact .newline rest'
  | space rest hc => exact .space rest' hc
  | directive hd hs hl hrest =>
    exact .directive hd ((hsame _ _ (by decide) rfl).trans hs) hl (hend hrest)
  | inactive => cases hp
  | @element c cs hn hc hs =>
    obtain ⟨hhead, htail⟩ := Lexeme.head_take s.part c cs rest' (hline _ rfl) hlength
    have hnext' : Next directives s'
        (c :: (cs.take (Lexeme.extent s.part c cs).extra ++ rest'))
        (.element (Lexeme.head s'.part c (cs.take (Lexeme.extent s.part c cs).extra ++ rest')))
        (Lexeme.tail s'.part c (cs.take (Lexeme.extent s.part c cs).extra ++ rest')) := by
      refine .element hn hc fun hs' => ⟨(hs ?_).1, hactive⟩
      rw [← hsame c cs hn rfl]
      exact hs'
    rw [hpart, hhead, htail] at hnext'
    exact hnext'

/-- What holds of a text whose run adds the tokens: those erasable lie within it, blanks in their
place leave the ends of lines and the rest of a started line alone, and the text with these blanks
is read side by side with it. -/
structure Erases (σ : Setting) (src : Source) (nested : Option Reader) (s : State)
    (text text' : List Char) (ts : List Token) : Prop where
  tokens : (run σ src nested s text).tokens.toList = s.tokens.toList ++ ts
  blanks : text' = blanked s.position.offset (ts.filter (isErasableIn src.uri)) text
  later : ∀ t ∈ ts.filter (isErasableIn src.uri), s.position.offset ≤ t.start.offset
  lineEnd : Text.AtLineEnd text → Text.AtLineEnd text'
  line : s.lineStart = false → (Text.splitLine text').1 = (Text.splitLine text).1
  mirrors : ∀ s', State.Mirrors src.uri s s' →
    (s'.lineStart = s.lineStart ∨ Text.AtLineEnd text) →
    State.Mirrors src.uri (run σ src nested s text) (run σ src nested s' text')

variable {σ : Setting} {src : Source} {nested : Option Reader} {s : State}
  {text rest rest' : List Char} {p : Piece} {own foreign ts : List Token}

/-- What a piece and the rest of the text make of a whole text: its tokens, and the blanks for
those that are erasable. -/
theorem Erases.cons_blanks (hnext : Next σ.directives s text p rest)
    (hforeign : ∀ t ∈ foreign, t.uri ≠ src.uri)
    (htake : (s.take σ src nested p).tokens.toList = s.tokens.toList ++ (own ++ foreign))
    (hown : ∀ t ∈ own.filter (isErasableIn src.uri),
      t.start = s.position ∧ t.length = p.chars.length)
    (h : Erases σ src nested (s.take σ src nested p) rest rest' ts) :
    (run σ src nested s text).tokens.toList = s.tokens.toList ++ (own ++ foreign ++ ts) ∧
    blanked s.position.offset (own.filter (isErasableIn src.uri)) p.chars ++ rest' =
      blanked s.position.offset ((own ++ foreign ++ ts).filter (isErasableIn src.uri)) text ∧
    ∀ t ∈ (own ++ foreign ++ ts).filter (isErasableIn src.uri),
      s.position.offset ≤ t.start.offset := by
  have hoffset : (s.take σ src nested p).position.offset = s.position.offset + p.chars.length := by
    rw [State.position_take, Position.offset_advance]
  have hnone : foreign.filter (isErasableIn src.uri) = [] := by
    rw [List.filter_eq_nil_iff]
    intro t ht
    simp [isErasableIn, hforeign t ht]
  have hlater := h.later
  rw [hoffset] at hlater
  rw [List.filter_append, List.filter_append, hnone, List.append_nil]
  refine ⟨?_, ?_, ?_⟩
  · rw [run_of_next σ src nested hnext, h.tokens, htake, List.append_assoc]
  · rw [← hnext.chars_append, blanked_append _ _ _ _ _ _ hlater, h.blanks, hoffset]
    intro t ht
    obtain ⟨hstart, hlength⟩ := hown t ht
    rw [hstart, hlength]
  · intro t ht
    rcases List.mem_append.mp ht with ht | ht
    · rw [(hown t ht).1]
    · have hle := hlater t ht
      omega

theorem Erases.cons_erased (hnext : Next σ.directives s text p rest) (hp : p.isErased s = true)
    (hown : p.Gives s src.uri own) (hforeign : ∀ t ∈ foreign, t.uri ≠ src.uri)
    (htake : (s.take σ src nested p).tokens.toList = s.tokens.toList ++ (own ++ foreign))
    (h : Erases σ src nested (s.take σ src nested p) rest rest' ts) :
    Erases σ src nested s text (List.replicate p.chars.length ' ' ++ rest')
      (own ++ foreign ++ ts) := by
  obtain ⟨t, rfl, ht, hstart, hlength⟩ := hown.erased hp
  obtain ⟨hchars, hend⟩ := hnext.not_mem_of_isErased hp
  have hfilter : [t].filter (isErasableIn src.uri) = [t] := by simp [ht]
  obtain ⟨htokens, hblanks, hlater⟩ := h.cons_blanks hnext hforeign htake (by
    rw [hfilter]
    intro t' ht'
    rw [List.mem_singleton.mp ht']
    exact ⟨hstart, hlength⟩)
  rw [hfilter, ← hstart, blanked_singleton t p.chars hlength, hstart] at hblanks
  refine ⟨htokens, hblanks, hlater, ?_, ?_, ?_⟩
  · intro htext
    cases hc : p.chars with
    | nil => exact absurd hc hnext.chars_ne_nil
    | cons c cs =>
      have hn : c = '\n' := htext c (by rw [← hnext.chars_append, hc]; rfl)
      exact absurd (hn ▸ hc ▸ List.mem_cons_self) hchars
  · intro hs
    cases hnext with
    | newline | space | element => cases hp
    | directive hd hs' => simp [hs'] at hs
    | inactive hn hc hs' => simp [hs'] at hs
  · intro s' hs' _
    rw [run_of_next σ src nested hnext, run_spaces]
    exact h.mirrors _ (hs'.take_erased σ nested hnext hp) (Or.inr hend)

theorem Erases.cons_kept (hadd : ∀ read ∈ nested, State.Additive read)
    (hgives : ∀ read ∈ nested, Reader.Gives (·.uri ≠ src.uri) src read)
    (hnext : Next σ.directives s text p rest) (hp : p.isErased s = false)
    (hown : p.Gives s src.uri own) (hforeign : ∀ t ∈ foreign, t.uri ≠ src.uri)
    (htake : (s.take σ src nested p).tokens.toList = s.tokens.toList ++ (own ++ foreign))
    (h : Erases σ src nested (s.take σ src nested p) rest rest' ts) :
    Erases σ src nested s text (p.chars ++ rest') (own ++ foreign ++ ts) := by
  have hfilter : own.filter (isErasableIn src.uri) = [] := by
    rw [List.filter_eq_nil_iff]
    intro t ht
    rw [hown.kept hnext hp t ht]
    exact Bool.false_ne_true
  obtain ⟨htokens, hblanks, hlater⟩ := h.cons_blanks hnext hforeign htake (by simp [hfilter])
  rw [hfilter, blanked_nil] at hblanks
  have hstart := State.lineStart_take σ src nested s p
  have hlength : rest'.length = rest.length := by rw [h.blanks, length_blanked]
  refine ⟨htokens, hblanks, hlater, ?_, ?_, ?_⟩
  · intro htext c hc
    apply htext
    rw [← hnext.chars_append]
    cases hcs : p.chars with
    | nil => exact absurd hcs hnext.chars_ne_nil
    | cons d ds =>
      rw [hcs] at hc
      exact hc
  · intro hs
    rw [← hnext.chars_append]
    cases hnext with
    | newline => rfl
    | space | element => exact Lexeme.splitLine_append_congr (h.line (by simp [hstart, hs])) _
    | directive hd hs' => simp [hs'] at hs
    | inactive => cases hp
  · intro s' hs' hline
    have hnext' := hnext.mirror hp hs'.part hs'.active hline hlength h.lineEnd (by
      rintro l rfl
      exact h.line hstart)
    rw [run_of_next σ src nested hnext, run_of_next σ src nested hnext']
    refine h.mirrors _ (hs'.take_kept σ hadd hgives hnext hp) (Or.inl ?_)
    rw [hstart, State.lineStart_take σ src nested s' p]
    cases hnext with
    | newline | directive | inactive | element => rfl
    | @space c rest hc =>
      apply hline.resolve_right
      intro hend
      rw [hend c rfl] at hc
      cases hc

theorem exists_erases (σ : Setting) (src : Source) (nested : Option Reader)
    (hadd : ∀ read ∈ nested, State.Additive read)
    (hgives : ∀ read ∈ nested, Reader.Gives (·.uri ≠ src.uri) src read)
    (s : State) (text : List Char) : ∃ text' ts, Erases σ src nested s text text' ts := by
  induction s, text using run_induction σ src nested with
  | nil s =>
    refine ⟨[], [], ?_, rfl, by simp, fun h => h, fun _ => rfl, ?_⟩
    · rw [run_nil, List.append_nil]
    · intro s' hs' _
      rw [run_nil, run_nil]
      exact hs'
  | next s text p rest hnext ih =>
    obtain ⟨rest', ts, h⟩ := ih
    obtain ⟨own, foreign, htake, hown, hforeign⟩ := State.tokens_take σ src nested hgives s p
    cases hp : p.isErased s with
    | true => exact ⟨_, _, h.cons_erased hnext hp hown hforeign htake⟩
    | false => exact ⟨_, _, h.cons_kept hadd hgives hnext hp hown hforeign htake⟩

/-- Conditions are as good as erased: a document with blanks in place of the lines that do not count
and of the directives on conditions has the same tokens but for these, whatever files it includes,
and leaves the same macros behind; if the one is given up, so is the other. -/
theorem document_blanked (σ : Setting) (uri : String) (src : Source)
    (hsrc : Source.ofUri σ.files uri = .ok src) (cache : IncludeCache) (part : Part)
    (cs : List Char) :
    let full := document σ src cache part cs
    let cut := document σ src cache part
      (blanked 0 (full.tokens.toList.filter (isErasableIn uri)) cs)
    cut.tokens.toList = full.tokens.toList.filter (!isErasableIn uri ·) ∧
      cut.macros = full.macros ∧ cut.part = full.part ∧ cut.asked = full.asked ∧
      cut.cache = full.cache ∧ cut.failure = full.failure := by
  intro full cut
  obtain ⟨rfl, hbars⟩ := bars_ofUri hsrc
  obtain ⟨nested, htext, hadd, hread⟩ := exists_nested σ (levels σ.options)
  have hdocument : ∀ cs, State.Agrees (run σ src nested (initial σ cache part) cs)
      (document σ src cache part cs) := by
    intro cs
    rw [document, htext]
    exact State.agrees_finish _ src.uri
  obtain ⟨text', ts, h⟩ :=
    exists_erases σ src nested hadd (hread src src.uri hbars) (initial σ cache part) cs
  have hfull : full.tokens.toList = ts := by
    rw [(hdocument cs).tokens, h.tokens]
    rfl
  have hself : State.Mirrors src.uri (initial σ cache part) (initial σ cache part) :=
    ⟨rfl, rfl, rfl, rfl, rfl, rfl, rfl, rfl⟩
  have hmirrors := (h.mirrors _ hself (Or.inl rfl)).agrees (hdocument cs)
  have hcut : State.Agrees (run σ src nested (initial σ cache part) text') cut := by
    rw [h.blanks, ← hfull]
    exact hdocument _
  exact ⟨by rw [hcut.tokens]; exact hmirrors.tokens, hcut.macros.trans hmirrors.macros,
    hcut.part.trans hmirrors.part, hcut.asked.trans hmirrors.asked,
    hcut.cache.trans hmirrors.cache, hcut.failure.trans hmirrors.failure⟩

/-- A document whose conditions depend on a file that is included where one of them fails. -/
theorem document_blanked_nested_conditions :
    let σ : Setting :=
      { files := {
          entries := [(Path.ofString "/ws/b", { content := .text "#define N 2\n#ifdef M" })]
          cwd := Path.ofString "/ws" } }
    let src : Source :=
      ⟨"file:///ws/a", some (Path.ofString "/ws/a"), [Path.ofString "/ws/a"]⟩
    let cs :=
      "#ifdef N\n'x\n#ifdef\n#else\n#endif\n#else\n#include \"b\"\n#endif\n#ifndef N\n1".toList
    let full := document σ src {} .problem cs
    let cut := document σ src {} .problem
      (blanked 0 (full.tokens.toList.filter (isErasableIn "file:///ws/a")) cs)
    Source.ofUri σ.files "file:///ws/a" = .ok src ∧
    cut.tokens.toList = full.tokens.toList.filter (!isErasableIn "file:///ws/a" ·) ∧
    cut.macros = full.macros := by
  intro σ src cs full cut
  have hsrc : Source.ofUri σ.files "file:///ws/a" = .ok src := by decide +kernel
  have h := document_blanked σ "file:///ws/a" src hsrc {} .problem cs
  exact ⟨hsrc, h.1, h.2.1⟩

end Scan

end Pearl
