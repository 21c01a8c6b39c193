import Pearl.Proofs.ExpandedTokens
import Pearl.Proofs.MacroReach

namespace Pearl

theorem Lexeme.extra_of_isAlpha {c : Char} (hc : c.isAlpha = true) (part : Part)
    (cs : List Char) : (extent part c cs).extra = run isNameChar cs := by
  have hline : c ≠ '!' := by
    rintro rfl
    exact absurd hc (by decide)
  have hslash : c ≠ '/' := by
    rintro rfl
    exact absurd hc (by decide)
  simp [extent, hline, hslash, hc]

theorem Lexeme.head_drop_run {p : Char → Bool} {cs rest : List Char} {d : Char}
    (h : cs.drop (run p cs) = d :: rest) : p d = false := by
  have hdrop : (cs.takeWhile p ++ cs.dropWhile p).drop (cs.takeWhile p).length = cs.dropWhile p :=
    List.drop_left
  rw [List.takeWhile_append_dropWhile, show cs.drop (cs.takeWhile p).length = _ from h] at hdrop
  have hhead := List.head?_dropWhile_not p cs
  rw [← hdrop] at hhead
  simpa using hhead

namespace Scan

variable {σ : Setting} {src : Source} {nested : Option Reader} {s s' s'' : State}

/-! ### The text before a reference -/

/-- A text is read to its end piece by piece, with another one behind it. -/
inductive ReadsTo (σ : Setting) (src : Source) (nested : Option Reader) (after : List Char) :
    State → List Char → State → Prop where
  | nil {s : State} : ReadsTo σ src nested after s [] s
  | next {s s' : State} {text before : List Char} {p : Piece}
      (hnext : Next σ.directives s text p (before ++ after))
      (h : ReadsTo σ src nested after (s.take σ src nested p) before s') :
      ReadsTo σ src nested after s (p.chars ++ before) s'

theorem ReadsTo.run_eq {after before : List Char} (h : ReadsTo σ src nested after s before s') :
    run σ src nested s (before ++ after) = run σ src nested s' after := by
  induction h with
  | nil => rfl
  | next hnext _ ih =>
    have htext := hnext.chars_append
    rw [← List.append_assoc] at htext
    rw [htext, run_of_next σ src nested hnext, ih]

namespace Moment

theorem levels_le {m m' : Moment} (h : Relation.ReflTransGen (Step σ) m m') :
    m'.levels ≤ m.levels := by
  induction h with
  | refl => exact Nat.le_refl _
  | tail _ hstep ih =>
    cases hstep with
    | piece => exact ih
    | enter => exact (Nat.le_succ _).trans ih

/-- Between two moments of one text, what stands between them is read. -/
theorem exists_readsTo {m m' : Moment} (h : Relation.ReflTransGen (Step σ) m m')
    (hlevels : m.levels = m'.levels) :
    m.src = m'.src ∧ ∃ before, m.text = before ++ m'.text ∧
      ReadsTo σ m'.src (reader? σ m'.levels) m'.text m.state before m'.state := by
  induction h using Relation.ReflTransGen.head_induction_on with
  | refl => exact ⟨rfl, [], rfl, .nil⟩
  | head hstep hsteps ih =>
    cases hstep with
    | piece hnext =>
      obtain ⟨hsrc, before, htext, hreads⟩ := ih hlevels
      dsimp only at hsrc hlevels htext hreads ⊢
      subst hsrc hlevels
      rw [htext] at hnext
      refine ⟨rfl, _, ?_, .next hnext hreads⟩
      rw [List.append_assoc, hnext.chars_append]
    | enter =>
      -- a file that was entered is not left by a step
      have hle := levels_le hsteps
      dsimp only at hlevels hle
      omega

end Moment

/-- A text that is read up to a letter does not end with letters of the same word. -/
theorem ReadsTo.exists_not_isNameChar {x a : Char} (hx : x.isAlpha = true) {r before : List Char}
    (h : ReadsTo σ src nested (x :: r) s before s') (ha : before.head? = some a)
    (halpha : a.isAlpha = true) : ∃ e ∈ before, Lexeme.isNameChar e = false := by
  cases h with
  | nil => cases ha
  | @next _ _ text before p hnext h =>
    -- what stands behind the piece starts with no character of a name, or the piece is no word
    have hends : ∀ rest, rest = before ++ x :: r → (∀ d ∈ rest.head?, Lexeme.isNameChar d = false) →
        ∃ e ∈ p.chars ++ before, Lexeme.isNameChar e = false := by
      rintro rest rfl hhead
      cases before with
      | nil =>
        have hname := hhead x rfl
        rw [Lexeme.isNameChar_of_isAlpha hx] at hname
        cases hname
      | cons b before => exact ⟨b, by simp, hhead b rfl⟩
    have hlineEnd : Text.AtLineEnd (before ++ x :: r) →
        ∀ d ∈ (before ++ x :: r).head?, Lexeme.isNameChar d = false := by
      intro hend d hd
      rw [hend d hd]
      decide
    generalize hrest : before ++ x :: r = rest at hnext
    cases hnext with
    | newline =>
      cases ha
      exact absurd halpha (by decide)
    | space _ hc =>
      cases ha
      simp only [Lexeme.isSpace, Bool.or_eq_true, decide_eq_true_eq] at hc
      rcases hc with (((rfl | rfl) | rfl) | rfl) | rfl <;> exact absurd halpha (by decide)
    | directive =>
      cases ha
      exact absurd halpha (by decide)
    | inactive _ _ _ _ _ _ hatEnd =>
      exact hends _ rfl (hlineEnd (hrest ▸ hatEnd))
    | @element c cs hn hc hs =>
      cases ha
      refine hends _ hrest.symm ?_
      rintro d hd
      have htail : cs.drop (Lexeme.run Lexeme.isNameChar cs) = before ++ x :: r := by
        rw [← Lexeme.extra_of_isAlpha halpha s.part cs]
        exact hrest.symm
      rw [← hrest] at hd
      cases hcons : before ++ x :: r with
      | nil => simp at hcons
      | cons d' rest' =>
        rw [hcons] at hd htail
        cases hd
        exact Lexeme.head_drop_run htail

/-- The piece in front of a letter stays as it is if a blank is put in the place of the letter. -/
theorem Next.respaced {directives : Bool} {x : Char} (hx : x.isAlpha = true)
    {text rest r before : List Char} {p : Piece} (h : Next directives s text p rest)
    (hrest : rest = before ++ x :: r)
    (hfree : before.head? = some 'B' → ∃ e ∈ before, Lexeme.isNameChar e = false)
    (r' : List Char) :
    Next directives s (p.chars ++ (before ++ ' ' :: r')) p (before ++ ' ' :: r') := by
  have hend : Text.AtLineEnd rest → Text.AtLineEnd (before ++ ' ' :: r') := by
    intro hend c hc
    cases before with
    | nil =>
      rw [hrest] at hend
      rw [hend x rfl] at hx
      exact absurd hx (by decide)
    | cons b before =>
      rw [hrest] at hend
      exact hend c hc
  cases h with
  | newline => exact .newline _
  | space _ hc => exact .space _ hc
  | directive hd hs hline hatEnd => exact .directive hd hs hline (hend hatEnd)
  | inactive hn hc hs hd ha hline hatEnd => exact .inactive hn hc hs hd ha hline (hend hatEnd)
  | @element c cs hn hc hs =>
    obtain ⟨e, he⟩ : ∃ e, (Lexeme.extent s.part c cs).extra = e := ⟨_, rfl⟩
    have htail : cs.drop e = before ++ x :: r := by
      rw [← he]
      exact hrest
    have hlength : (cs.take e).length = e := by
      apply List.length_take_of_le
      by_contra hlt
      rw [List.drop_eq_nil_of_le (by omega)] at htail
      simp at htail
    have hcs : cs = cs.take e ++ before ++ x :: r := by
      rw [List.append_assoc, ← htail, List.take_append_drop]
    have hdrop : (cs.take e ++ before).drop e = before := List.drop_left' hlength
    have hspaced := @Lexeme.head_spaced s.part c (cs.take e ++ before) x hx r
      (by rw [← hcs, he]; simp [hlength]) (by rw [← hcs, he, hdrop]; exact hfree) r'
    rw [← hcs, he, hdrop] at hspaced
    have hnext : Next directives s (c :: (cs.take e ++ before ++ ' ' :: r')) _ _ :=
      .element hn hc hs
    rw [hspaced.1, hspaced.2] at hnext
    rw [← hnext.chars_append] at hnext
    exact hnext

/-- A text in front of a word is read alike in front of a blank. -/
theorem ReadsTo.run_respaced {x : Char} (hx : x.isAlpha = true) {r before : List Char}
    (h : ReadsTo σ src nested (x :: r) s before s') (r' : List Char) :
    run σ src nested s (before ++ ' ' :: r') = run σ src nested s' (' ' :: r') := by
  induction h with
  | nil => rfl
  | @next s s' text before p hnext h ih =>
    have hfree : before.head? = some 'B' → ∃ e ∈ before, Lexeme.isNameChar e = false :=
      fun hhead => h.exists_not_isNameChar hx hhead (by decide)
    rw [List.append_assoc, run_of_next σ src nested (hnext.respaced hx rfl hfree r'), ih]

/-! ### The replacement text -/

namespace State

/-- One state is what has come of another after a text that amounts to an expansion, as far as it
matters to what follows. -/
structure Gains (s : State) (e : Expansion) (s' : State) : Prop where
  macros : s'.macros = s.macros
  cache : s'.cache = s.cache
  failure : s'.failure = s.failure
  conditions : s'.conditions = s.conditions
  part : s'.part = e.part
  meaningful : s'.meaningful = s.meaningful ++ e.lexemes.map fun l => (l.kind, String.ofList l.text)

theorem Gains.trans {e e' : Expansion} (h : s.Gains e s') (h' : s'.Gains e' s'') :
    s.Gains (e'.after e.lexemes e.faults) s'' := by
  refine ⟨h'.macros.trans h.macros, h'.cache.trans h.cache, h'.failure.trans h.failure,
    h'.conditions.trans h.conditions, h'.part, ?_⟩
  rw [h'.meaningful, h.meaningful, Expansion.after, List.map_append, List.append_assoc]

theorem gains_space (s : State) (c : Char) : s.Gains ⟨[], s.part, []⟩ (s.space c) :=
  ⟨rfl, rfl, rfl, rfl, rfl, (List.append_nil _).symm⟩

theorem gains_plain (s : State) (uri : String) (l : Lexeme) :
    s.Gains ⟨if l.kind.isTrivia then [] else [l], Expansion.partAfter s.part l,
      l.fault.toList.map .lexical⟩ (s.plain uri l) := by
  have h := agrees_plain s uri l
  refine ⟨h.macros, h.cache, h.failure, conditions_plain s uri l, h.part, ?_⟩
  rw [meaningful_of_tokens h.tokens]
  change (s.emit (s.tokenHere uri l.kind l.text)).meaningful = _
  rw [meaningful_emit]
  cases hk : l.kind.isTrivia <;> simp [tokenHere, hk]

theorem gains_expand (s : State) (uri : String) (m : Macro) (word : List Char) :
    s.Gains (Expansion.ofMacro s.macros s.part m) (s.expand uri m word) := by
  refine ⟨rfl, rfl, rfl, rfl, rfl, ?_⟩
  rw [meaningful_expand, List.filter_eq_self.mpr]
  intro l hl
  simp [Expansion.isTrivia_of_mem_ofText _ _ _ _ l hl]

end State

theorem State.Gains.congr {e e' : Expansion} (h : s.Gains e s') (hlexemes : e'.lexemes = e.lexemes)
    (hpart : e'.part = e.part) : s.Gains e' s' :=
  ⟨h.macros, h.cache, h.failure, h.conditions, h.part.trans hpart.symm,
    by rw [h.meaningful, hlexemes]⟩

/-- A closed element in front of a blank is read as it would be at the end of the text. -/
theorem Next.element_spaced (directives : Bool) {c : Char} {cs : List Char}
    (hc : ¬(Lexeme.isSpace c || c = '\n') = true) (hclosed : (Lexeme.head s.part c cs).IsClosed)
    (hhash : c ≠ '#') (hstart : s.lineStart = true → s.conditions.active = true) (r : List Char) :
    Next directives s (c :: (cs ++ ' ' :: r)) (.element (Lexeme.head s.part c cs))
      (Lexeme.tail s.part c cs ++ ' ' :: r) := by
  obtain ⟨hhead, htail⟩ := Lexeme.head_append_space hclosed r
  simp only [Bool.or_eq_true, decide_eq_true_eq, not_or, Bool.not_eq_true] at hc
  rw [← hhead, ← htail]
  exact .element hc.2 hc.1 fun hs => ⟨fun h => hhash h.2, hstart hs⟩

/-- In front of a blank the text is read in place to its end, and it amounts to an expansion. -/
def ReadsInPlace (σ : Setting) (src : Source) (nested : Option Reader) (r : List Char) (s : State)
    (cs : List Char) (e : Expansion) : Prop :=
  ∃ s', run σ src nested s (cs ++ ' ' :: r) = run σ src nested s' (' ' :: r) ∧ s.Gains e s' ∧
    (s.lineStart = false ∨ (∃ c ∈ cs, Lexeme.isSpace c = false) → s'.lineStart = false)

/-- What can be read on its own where `s` has come to: a text on one line, all of whose elements are
closed, and from which no macro that is being expanded can be reached. -/
structure Readable (s : State) (active : List String) (cs : List Char) : Prop where
  bypasses : s.macros.Bypasses active cs
  closed : ∀ l ∈ Lexeme.elements cs, l.IsClosed
  line : '\n' ∉ cs
  hash : '#' ∉ cs
  start : s.lineStart = true → s.conditions.active = true

section Element

variable {active : List String} {c : Char} {cs r : List Char}

theorem Readable.space (h : Readable s active (c :: cs))
    (hc : (Lexeme.isSpace c || c = '\n') = true) : Readable (s.space c) active cs := by
  refine ⟨h.bypasses.mono (Lexeme.words_blank_subset hc cs), ?_, ?_, ?_, h.start⟩
  · have hclosed := h.closed
    rwa [Lexeme.elements_blank hc] at hclosed
  · exact fun hmem => h.line (List.mem_cons_of_mem _ hmem)
  · exact fun hmem => h.hash (List.mem_cons_of_mem _ hmem)

/-- What follows an element can be read if the element can. -/
theorem Readable.tail (h : Readable s active (c :: cs))
    (hc : ¬(Lexeme.isSpace c || c = '\n') = true) (hmacros : s'.macros = s.macros)
    (hline : s'.lineStart = false) : Readable s' active (Lexeme.tail s.part c cs) := by
  have htail := List.drop_subset (Lexeme.extent s.part c cs).extra cs
  refine ⟨?_, ?_, ?_, ?_, ?_⟩
  · rw [hmacros]
    exact h.bypasses.mono (Lexeme.words_tail_subset hc s.part cs)
  · exact fun l hl => h.closed l (Lexeme.elements_tail_subset hc hl)
  · exact fun hmem => h.line (List.mem_cons_of_mem _ (htail hmem))
  · exact fun hmem => h.hash (List.mem_cons_of_mem _ (htail hmem))
  · intro hstart
    rw [hline] at hstart
    cases hstart

theorem ReadsInPlace.element {e rest : Expansion} (h : Readable s active (c :: cs))
    (hc : ¬(Lexeme.isSpace c || c = '\n') = true)
    (htake : s.take σ src nested (.element (Lexeme.head s.part c cs)) = s')
    (hgains : s.Gains e s') (hline : s'.lineStart = false)
    (hrest : ReadsInPlace σ src nested r s' (Lexeme.tail s.part c cs) rest) :
    ReadsInPlace σ src nested r s (c :: cs) (rest.after e.lexemes e.faults) := by
  obtain ⟨s'', hrun, hgains', hline'⟩ := hrest
  have hhash : c ≠ '#' := fun hc => h.hash (hc ▸ List.mem_cons_self)
  have hnext := Next.element_spaced σ.directives hc (Lexeme.isClosed_head hc h.closed s.part) hhash
    h.start r
  refine ⟨s'', ?_, hgains.trans hgains', fun _ => hline' (.inl hline)⟩
  rw [List.cons_append, run_of_next σ src nested hnext, htake, hrun]

end Element

/-- A text in front of a blank is read in place as it is read as a replacement text. -/
theorem readsInPlace_ofText {t : MacroTable} (hsize : t.size ≤ 32) (hacyclic : t.IsAcyclic)
    (active : List String) (part : Part) (cs r : List Char) :
    ∀ s : State, s.macros = t → s.part = part → Readable s active cs →
      ReadsInPlace σ src nested r s cs (Expansion.ofText t active part cs) := by
  fun_induction Expansion.ofText t active part cs with
  | case1 active part =>
    rintro s rfl rfl -
    refine ⟨s, rfl, ⟨rfl, rfl, rfl, rfl, rfl, (List.append_nil _).symm⟩, ?_⟩
    rintro (hs | ⟨c, hc, -⟩)
    · exact hs
    · cases hc
  | case2 active part c cs hc ih =>
    rintro s rfl rfl h
    have hspace : Lexeme.isSpace c = true := by
      have hn : c ≠ '\n' := fun hn => h.line (hn ▸ List.mem_cons_self)
      simpa [hn] using hc
    have hnext : Next σ.directives s (c :: (cs ++ ' ' :: r)) (.space c) (cs ++ ' ' :: r) :=
      .space _ hspace
    obtain ⟨s', hrun, hgains, hline⟩ := ih (s.space c) rfl rfl (h.space hc)
    refine ⟨s', ?_, (s.gains_space c).trans hgains, ?_⟩
    · rw [List.cons_append, run_of_next σ src nested hnext]
      exact hrun
    · rintro (hs | ⟨e, he, hblank⟩)
      · exact hline (.inl hs)
      · rcases List.mem_cons.mp he with rfl | he
        · rw [hspace] at hblank
          cases hblank
        · exact hline (.inr ⟨e, he, hblank⟩)
  | case3 active part c cs hc l hlen m hm inner ihinner ihrest =>
    rintro s rfl rfl h
    have hm' : Expansion.reference? s.macros [] l = some m := by
      rw [← Expansion.reference?_bypassed h.bypasses hc]
      exact hm
    have htake : s.take σ src nested (.element l) = s.expand src.uri m l.text := by
      simp only [State.take, State.element, hm']
    obtain ⟨hget, hmem⟩ := Expansion.get?_of_reference? hc hm
    have hinner : inner = _ := dif_pos (h.bypasses.length_lt hsize hget hmem)
    -- the macro is expanded by itself here, and within those that are being expanded there
    have hsame := Expansion.ofText_bypassed hsize hacyclic [m.name] s.part m.value.toList
      (m.name :: active) (MacroTable.bypasses_self hacyclic hget)
      (h.bypasses.enter hacyclic hget hmem)
    have hgains : s.Gains inner (s.expand src.uri m l.text) := by
      rw [hinner]
      exact (s.gains_expand src.uri m l.text).congr hsame.1 hsame.2
    exact .element h hc htake hgains rfl (ihrest _ rfl hgains.part (h.tail hc rfl rfl))
  | case4 active part c cs hc l hlen hm ih =>
    rintro s rfl rfl h
    have hm' : Expansion.reference? s.macros [] l = none := by
      rw [← Expansion.reference?_bypassed h.bypasses hc]
      exact hm
    have htake : s.take σ src nested (.element l) = s.plain src.uri l := by
      simp only [State.take, State.element, hm']
    have hgains := s.gains_plain src.uri l
    have hline : (s.plain src.uri l).lineStart = false :=
      (State.agrees_plain s src.uri l).lineStart
    exact .element h hc htake hgains hline
      (ih _ hgains.macros hgains.part (h.tail hc hgains.macros hline))

/-! ### Whole documents -/

theorem State.Gains.similar {e : Expansion} (files : FileTree) (h : s.Gains e s')
    (h' : s.Gains e s'') (hline : s''.lineStart = s'.lineStart) :
    State.Similar files [] s' s'' := by
  refine ⟨?_, ?_, ?_, ?_, ?_, ?_, hline, by simp⟩
  · rw [h'.macros, h.macros]
  · rw [h'.cache, h.cache]
    exact fun _ => rfl
  · rw [h'.failure, h.failure]
  · rw [h'.part, h.part]
  · rw [h'.meaningful, h.meaningful]
  · rw [h'.conditions, h.conditions, List.append_nil]

/-- Elements are read where lines count. -/
theorem Next.active_of_element {directives : Bool} {text rest : List Char} {l : Lexeme}
    (h : Next directives s text (.element l) rest) :
    s.lineStart = true → s.conditions.active = true := by
  cases h with
  | element _ _ hs => exact fun hline => (hs hline).2

theorem reader?_respects (σ : Setting) (n : Nat) :
    ∀ read ∈ reader? σ n, State.Respects σ.files read := by
  cases n with
  | zero =>
    intro read hread
    cases hread
  | succ n =>
    rintro read ⟨⟩
    exact text_respects σ n

/-- A reference to a macro stands for the replacement text between two blanks: where all macros can
be expanded to their ends and the replacement text can be read on its own, pasting it in place of
the reference makes no difference to the tokens that mean something, to the macros and to the part
at the end of the document. -/
theorem document_pasted {cache : IncludeCache} {part : Part} {before after : List Char}
    {l : Lexeme} {m : Macro}
    (hreach : Relation.ReflTransGen (Moment.Step σ)
      (.first σ src cache part (before ++ (l.text ++ after)))
      ⟨levels σ.options, src, s, l.text ++ after⟩)
    (hrefers : Moment.Refers σ ⟨levels σ.options, src, s, l.text ++ after⟩ l m)
    (hsize : s.macros.size ≤ 32) (hacyclic : s.macros.IsAcyclic)
    (hblank : ∃ c ∈ m.value.toList, Lexeme.isSpace c = false) (hline : '\n' ∉ m.value.toList)
    (hhash : '#' ∉ m.value.toList)
    (hclosed : ∀ e ∈ Lexeme.elements m.value.toList, e.IsClosed) :
    let full := document σ src cache part (before ++ (l.text ++ after))
    let pasted := document σ src cache part
      (before ++ ' ' :: (m.value.toList ++ ' ' :: after))
    pasted.meaningful = full.meaningful ∧ pasted.macros.meanings = full.macros.meanings ∧
      pasted.part = full.part ∧ pasted.failure = full.failure := by
  intro full pasted
  obtain ⟨href, rest, hnext⟩ := hrefers
  dsimp only at href hnext
  obtain rfl : rest = after := List.append_cancel_left hnext.chars_append
  obtain ⟨-, before', htext, hreads⟩ := Moment.exists_readsTo hreach rfl
  obtain rfl : before = before' := List.append_cancel_right htext
  dsimp only at hreads
  obtain ⟨hword, hget, -⟩ := Expansion.reference?_eq_some href
  have hget' : s.macros.get? m.name = some m := MacroTable.name_of_get? hget ▸ hget
  obtain ⟨x, word, hx, hlword⟩ : ∃ x word, x.isAlpha = true ∧ l.text = x :: word := by
    cases hl : l.text with
    | nil => simp [Lexeme.isWord, hl] at hword
    | cons x word => exact ⟨x, word, by simpa [Lexeme.isWord, hl] using hword, rfl⟩
  -- up to the reference both texts are read alike
  have hfull : full = (run σ src (reader? σ (levels σ.options))
      (s.expand src.uri m l.text) rest).finish src.uri := by
    have htake : s.take σ src (reader? σ (levels σ.options)) (.element l) =
        s.expand src.uri m l.text := by
      simp only [State.take, State.element, href]
    change text σ _ _ _ _ = _
    rw [text_eq_run, ← htake, ← run_of_next σ src _ hnext, ← hreads.run_eq]
    rfl
  have hspace : ∀ (r : State) (cs : List Char), Next σ.directives r (' ' :: cs) (.space ' ') cs :=
    fun r cs => .space cs (by decide)
  have hpasted : pasted = (run σ src (reader? σ (levels σ.options)) (s.space ' ')
      (m.value.toList ++ ' ' :: rest)).finish src.uri := by
    rw [hlword, List.cons_append] at hreads
    have hrun := hreads.run_respaced hx (m.value.toList ++ ' ' :: rest)
    rw [run_of_next σ src _ (hspace s _)] at hrun
    change text σ _ _ _ _ = _
    rw [text_eq_run]
    exact congrArg (State.finish · src.uri) hrun
  have hreadable : Readable (s.space ' ') [m.name] m.value.toList :=
    ⟨MacroTable.bypasses_self hacyclic hget', hclosed, hline, hhash, hnext.active_of_element⟩
  obtain ⟨s', hrun, hgains, hstarted⟩ : ReadsInPlace σ src (reader? σ (levels σ.options)) rest
      (s.space ' ') m.value.toList (Expansion.ofText s.macros [m.name] s.part m.value.toList) :=
    readsInPlace_ofText hsize hacyclic _ _ _ _ _ rfl rfl hreadable
  -- the reference and the pasted text lead to states that go on alike
  have hinPlace : s.Gains (Expansion.ofMacro s.macros s.part m) (s'.space ' ') := by
    have h := ((s.gains_space ' ').trans hgains).trans (s'.gains_space ' ')
    exact h.congr (List.append_nil _).symm hgains.part.symm
  have hsimilar := (s.gains_expand src.uri m l.text).similar σ.files hinPlace
    (hstarted (.inr hblank))
  have h := (run_similar σ src _ (reader?_respects σ (levels σ.options)) rest hsimilar).finish
    src.uri src.uri
  rw [hfull, hpasted, hrun, run_of_next σ src _ (hspace s' _)]
  exact ⟨h.meaningful, h.macros, h.part, h.failure⟩

/-- A macro that leads to another, referred to between brackets. -/
theorem document_pasted_nested :
    let σ : Setting := { files := { cwd := Path.ofString "/ws" }
                         options := { predefined := [("A", "B+1"), ("B", "2/*3*/")] } }
    let src : Source := ⟨"untitled:a", none, []⟩
    let full := document σ src {} .problem ['(', 'A', ')']
    let pasted := document σ src {} .problem ['(', ' ', 'B', '+', '1', ' ', ')']
    (MacroTable.ofPredefined σ.options.predefined).IsAcyclic ∧
    pasted.meaningful = full.meaningful ∧ pasted.macros.meanings = full.macros.meanings ∧
      pasted.part = full.part ∧ pasted.failure = full.failure := by
  intro σ src full pasted
  have hacyclic : (MacroTable.ofPredefined σ.options.predefined).IsAcyclic := by
    have hmentions : ∀ a b, (MacroTable.ofPredefined σ.options.predefined).Mentions a b →
        a = "A" ∧ b = "B" := by
      rintro a b ⟨m, hget, hb⟩
      have hm := List.mem_of_find?_eq_some hget
      obtain rfl := MacroTable.name_of_get? hget
      rw [show (MacroTable.ofPredefined σ.options.predefined).macros =
        [⟨"A", "B+1", none⟩, ⟨"B", "2/*3*/", none⟩] by decide +kernel] at hm
      simp only [List.mem_cons, List.not_mem_nil, or_false] at hm
      rcases hm with rfl | rfl
      · rw [show Lexeme.words "B+1".toList = ["B"] by decide +kernel] at hb
        exact ⟨rfl, List.mem_singleton.mp hb⟩
      · rw [show Lexeme.words "2/*3*/".toList = [] by decide +kernel] at hb
        cases hb
    intro a h
    obtain ⟨b, hfirst, -⟩ := Relation.TransGen.head'_iff.mp h
    obtain ⟨c, -, hlast⟩ := Relation.TransGen.tail'_iff.mp h
    exact absurd ((hmentions a b hfirst).1.symm.trans (hmentions c a hlast).2) (by decide)
  let s := (initial σ {} .problem).take σ src (reader? σ (levels σ.options))
    (.element ⟨.symbol, ['('], none⟩)
  have hmacros : s.macros = .ofPredefined σ.options.predefined := by decide +kernel
  have hreach : Relation.ReflTransGen (Moment.Step σ)
      (.first σ src {} .problem (['('] ++ (['A'] ++ [')'])))
      ⟨levels σ.options, src, s, ['A'] ++ [')']⟩ := by
    have hnext : Next σ.directives (initial σ {} .problem) ['(', 'A', ')']
        (.element ⟨.symbol, ['('], none⟩) ['A', ')'] :=
      .element (by decide) (by decide) fun _ => ⟨by decide, rfl⟩
    exact .single (.piece hnext)
  have hrefers : Moment.Refers σ ⟨levels σ.options, src, s, ['A'] ++ [')']⟩
      ⟨.identifier, ['A'], none⟩ ⟨"A", "B+1", none⟩ := by
    have hnext : Next σ.directives s ['A', ')'] (.element ⟨.identifier, ['A'], none⟩) [')'] :=
      .element (by decide) (by decide) fun _ => ⟨by decide, rfl⟩
    exact ⟨by decide +kernel, _, hnext⟩
  refine ⟨hacyclic, ?_⟩
  have hvalue : "B+1".toList = ['B', '+', '1'] := by decide +kernel
  have h := document_pasted hreach hrefers (by decide +kernel) (hmacros ▸ hacyclic)
    ⟨'B', by decide +kernel⟩ (by decide +kernel) (by decide +kernel) (by decide +kernel)
  rw [hvalue] at h
  exact h

end Scan

end Pearl
