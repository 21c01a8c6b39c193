import Mathlib.Data.List.Basic
import Pearl.Feature.SemanticTokens
import Pearl.Proofs.LineLocality
import Pearl.Proofs.LosslessScan

namespace Pearl

/-! ### Numbers and spans -/

namespace Highlight

theorem decodeFrom_encodeFrom (line column : Int) (spans : List Span) :
    decodeFrom line column (encodeFrom line column spans) = spans := by
  induction spans generalizing line column with
  | nil => rfl
  | cons s rest ih =>
    have hline : line + (s.line - line) = s.line := by omega
    have hcolumn : (if s.line - line = 0 then
        column + (if s.line = line then s.column - column else s.column)
        else (if s.line = line then s.column - column else s.column)) = s.column := by
      by_cases h : s.line = line
      · rw [if_pos (by omega), if_pos h]
        omega
      · rw [if_neg (by omega), if_neg h]
    change _ :: decodeFrom _ _ (encodeFrom s.line s.column rest) = s :: rest
    rw [hline, hcolumn, ih]
    rfl

/-- One span ends before the other one starts. -/
def Span.Before (s s' : Span) : Prop :=
  s.line < s'.line ∨ s.line = s'.line ∧ s.column + s.length ≤ s'.column

theorem nonneg_encodeFrom {line column : Int} {spans : List Span}
    (hfirst : ∀ s ∈ spans, 0 ≤ s.column ∧ (line < s.line ∨ line = s.line ∧ column ≤ s.column))
    (hspans : spans.Pairwise Span.Before) : ∀ n ∈ encodeFrom line column spans, 0 ≤ n := by
  induction spans generalizing line column with
  | nil => simp [encodeFrom]
  | cons s rest ih =>
    obtain ⟨hbefore, hrest⟩ := List.pairwise_cons.mp hspans
    obtain ⟨hcolumn, hplace⟩ := hfirst s List.mem_cons_self
    have hlater : ∀ s' ∈ rest, 0 ≤ s'.column ∧
        (s.line < s'.line ∨ s.line = s'.line ∧ s.column ≤ s'.column) := by
      intro s' hs'
      have h := hbefore s' hs'
      unfold Span.Before at h
      exact ⟨(hfirst s' (List.mem_cons_of_mem s hs')).1, by omega⟩
    intro n hn
    rcases List.mem_append.mp hn with hn | hn
    · simp only [List.mem_cons, List.not_mem_nil, or_false] at hn
      rcases hn with rfl | rfl | rfl | rfl | rfl
      · omega
      · split <;> omega
      · exact Int.natCast_nonneg _
      · exact Int.natCast_nonneg _
      · exact Int.natCast_nonneg _
    · exact ih hlater hrest n hn

end Highlight

/-! ### Lines -/

/-- Behind some characters one is on a line that goes on to the end of the line of what follows. -/
theorem Text.getElem?_splitOn_append (first before after : List Char) (hfirst : '\n' ∉ first)
    (p : Position) (hp : p.column = first.length) :
    ∃ line, (splitOn '\n' (first ++ (before ++ after)))[before.count '\n']? = some line ∧
      line.length = (p.advance before).column + (splitLine after).1.length := by
  induction before generalizing first p with
  | nil =>
    have hline := not_mem_splitLine after
    have hrest := atLineEnd_splitLine after
    refine ⟨first ++ (splitLine after).1, ?_, ?_⟩
    · have hmem : '\n' ∉ first ++ (splitLine after).1 := by simp [hfirst, hline]
      have hsplit : first ++ after = first ++ (splitLine after).1 ++ (splitLine after).2 := by
        rw [List.append_assoc, splitLine_append_self]
      rw [List.nil_append, hsplit]
      cases hafter : (splitLine after).2 with
      | nil => simp [splitOn_of_not_mem hmem]
      | cons c rest =>
        have hc : c = '\n' := hrest c (by rw [hafter]; rfl)
        rw [hc, splitOn_append_cons hmem]
        rfl
    · rw [List.length_append, ← hp]
      rfl
  | cons c before ih =>
    by_cases hc : c = '\n'
    · subst hc
      obtain ⟨line, hget, hlength⟩ := ih [] (by simp) (p.next '\n') (by simp [Position.next])
      refine ⟨line, ?_, hlength⟩
      rw [List.cons_append, splitOn_append_cons hfirst, List.count_cons_self]
      exact hget
    · obtain ⟨line, hget, hlength⟩ := ih (first ++ [c]) (by simp [hfirst, Ne.symm hc])
        (p.next c) (by simp [Position.next, hc, hp])
      refine ⟨line, ?_, hlength⟩
      rw [List.count_cons_of_ne hc]
      simpa using hget

namespace Scan

variable {uri : String}

/-- A token of the document that is no trivia and no part of a replacement text is on one line. -/
def OnOneLine (uri : String) (t : Token) : Prop :=
  t.uri = uri → t.expanded = none → t.kind.isTrivia = false → '\n' ∉ t.text.toList

theorem Piece.Gives.onOneLine {directives : Bool} {s : State} {text rest : List Char} {p : Piece}
    {own : List Token} (hown : p.Gives s uri own) (hnext : Next directives s text p rest) :
    ∀ t ∈ own, OnOneLine uri t := by
  intro t ht _ hexpanded hkind
  cases hown with
  | newline | space => cases ht
  | directive | idle | inactive =>
    rw [List.mem_singleton.mp ht] at hkind
    cases hkind
  | plain l =>
    rw [List.mem_singleton.mp ht] at hkind ⊢
    cases hnext with
    | @element c cs hn hc hs =>
      have hcomment : (Lexeme.head s.part c cs).kind ≠ .comment := by
        intro hk
        rw [State.tokenHere, hk] at hkind
        cases hkind
      rw [State.tokenHere, String.toList_ofList]
      exact Lexeme.not_mem_text_head hn hcomment
  | reference l m =>
    rcases List.mem_cons.mp ht with rfl | ht
    · cases hexpanded
    · obtain ⟨l', -, rfl⟩ := List.mem_map.mp ht
      cases hexpanded

theorem run_adds_onOneLine (σ : Setting) (src : Source) (nested : Option Reader)
    (hread : ∀ read ∈ nested, Reader.Gives (·.uri ≠ src.uri) src read)
    (s : State) (cs : List Char) :
    State.Adds (OnOneLine src.uri) s (run σ src nested s cs) := by
  induction s, cs using run_induction σ src nested with
  | nil s =>
    rw [run_nil]
    exact (State.Agrees.refl s).adds
  | next s text p rest h ih =>
    rw [run_of_next σ src nested h]
    refine State.Adds.trans ?_ ih
    obtain ⟨own, foreign, htokens, hown, hforeign⟩ := State.tokens_take σ src nested hread s p
    refine ⟨own ++ foreign, htokens, ?_⟩
    intro t ht
    rcases List.mem_append.mp ht with ht | ht
    · exact hown.onOneLine h t ht
    · exact fun huri => absurd huri (hforeign t ht)

theorem document_onOneLine (σ : Setting) (src : Source) (hbars : src.Bars src.uri)
    (cache : IncludeCache) (part : Part) (cs : List Char) :
    ∀ t ∈ (document σ src cache part cs).tokens.toList, OnOneLine src.uri t := by
  obtain ⟨nested, htext, -, hread⟩ := exists_nested σ (levels σ.options)
  obtain ⟨ts, htokens, hts⟩ :=
    run_adds_onOneLine σ src nested (hread src src.uri hbars) (initial σ cache part) cs
  rw [document, htext, (State.agrees_finish _ _).tokens, htokens]
  exact hts

/-- Tokens that tell a text apart without loss are in the order of lines and columns. -/
theorem Lossless.before {cs : List Char} {own : List Token} (h : Lossless cs own) :
    own.Pairwise fun t t' =>
    t.start.line < t'.start.line ∨
      t.start.line = t'.start.line ∧ t.start.column + t.length ≤ t'.start.column := by
  refine List.Pairwise.imp_of_mem ?_ h.ordered
  intro t t' ht ht' hoffset
  have hline : t.start.line ≤ t'.start.line := by
    rw [h.line t ht, h.line t' ht']
    have hle : t.start.offset ≤ t'.start.offset := by omega
    exact (List.take_sublist_take_left hle).count_le '\n'
  obtain ⟨start, hstart, hcolumn⟩ := h.column t ht
  obtain ⟨start', hstart', hcolumn'⟩ := h.column t' ht'
  rcases Nat.lt_or_eq_of_le hline with hlt | heq
  · exact Or.inl hlt
  · rw [heq, hstart'] at hstart
    have hsame : start' = start := Option.some.inj hstart
    exact Or.inr ⟨heq, by omega⟩

end Scan

/-! ### Tokens with their links -/

namespace LinkedToken

theorem map_token_attach (definitions : Array (Option Nat)) (builtins : Array (Option Builtin))
    (place : Nat) (tokens : List Token) :
    (attach definitions builtins place tokens).map (·.token) = tokens := by
  induction tokens generalizing place with
  | nil => rfl
  | cons t rest ih =>
    rw [attach]
    split
    · rw [List.map_cons, ih]
    · rw [List.map_cons, ih]

end LinkedToken

namespace Highlight

variable {symbols : Array Symbol} {t : LinkedToken}

def span? (symbols : Array Symbol) (t : LinkedToken) : Option Span :=
  (ofToken? symbols t).map fun h =>
    ⟨t.token.start.line, t.token.start.column, t.token.length, h.cls.index, h.bits⟩

theorem place_of_span? {s : Span} (h : span? symbols t = some s) :
    s.line = t.token.start.line ∧ s.column = t.token.start.column ∧ s.length = t.token.length := by
  obtain ⟨h, -, rfl⟩ := Option.map_eq_some_iff.mp h
  exact ⟨rfl, rfl, rfl⟩

/-- Tokens with a class are no trivia and stem from no macro. -/
theorem significant_of_span? {s : Span} (h : span? symbols t = some s) :
    t.token.expanded = none ∧ t.token.kind.isTrivia = false := by
  obtain ⟨h, hh, -⟩ := Option.map_eq_some_iff.mp h
  unfold ofToken? at hh
  split at hh
  · cases hh
  · rename_i hnone
    refine ⟨by simpa using hnone, ?_⟩
    cases hk : t.token.kind with
    | comment | inactive | reference | directive => simp [hk] at hh
    | _ => rfl

theorem filterMap_span? (tokens : List LinkedToken) : tokens.filterMap (span? symbols) =
    (tokens.filter fun t => (span? symbols t).isSome).filterMap (span? symbols) := by
  rw [List.filterMap_filter]
  apply List.filterMap_congr
  intro t _
  cases span? symbols t <;> rfl

theorem filter_mergeSort {α : Type} {le : α → α → Bool}
    (trans : ∀ a b c, le a b → le b c → le a c) (total : ∀ a b, le a b || le b a)
    (p : α → Bool) {xs : List α} (h : (xs.filter p).Pairwise fun a b => le a b) :
    (xs.mergeSort le).filter p = xs.filter p := by
  have hkept := List.sublist_mergeSort trans total h List.filter_sublist
  have hsub := hkept.filter p
  simp only [List.filter_filter, Bool.and_self] at hsub
  have hlength := ((List.mergeSort_perm xs le).filter p).length_eq
  exact (hsub.eq_of_length hlength.symm).symm

/-- Where the tokens with a class are in order already, nothing is moved. -/
theorem spans_eq_filterMap {tokens : List LinkedToken}
    (hlength : ∀ t ∈ tokens, (span? symbols t).isSome → 0 < t.token.length)
    (hbefore : (tokens.filter fun t => (span? symbols t).isSome).Pairwise fun t t' =>
      t.token.start.line < t'.token.start.line ∨ t.token.start.line = t'.token.start.line ∧
        t.token.start.column + t.token.length ≤ t'.token.start.column) :
    spans symbols tokens = tokens.filterMap (span? symbols) := by
  unfold spans
  dsimp only
  generalize hle : (fun a b : LinkedToken =>
    decide (a.token.start.line < b.token.start.line ∨
      a.token.start.line = b.token.start.line ∧ a.token.start.column ≤ b.token.start.column)) = le
  have hspan : ∀ t ∈ tokens.mergeSort le,
      (if t.token.length = 0 then none
        else (ofToken? symbols t).map fun h =>
          (⟨t.token.start.line, t.token.start.column, t.token.length, h.cls.index,
            h.bits⟩ : Span)) =
      span? symbols t := by
    intro t ht
    have hmem := (List.mergeSort_perm tokens le).mem_iff.mp ht
    split
    · rename_i hzero
      cases hs : span? symbols t with
      | none => rfl
      | some s =>
        have hpos := hlength t hmem (by rw [hs]; rfl)
        omega
    · rfl
  have hsort : (tokens.mergeSort le).filter (fun t => (span? symbols t).isSome) =
      tokens.filter fun t => (span? symbols t).isSome := by
    apply filter_mergeSort
    · intro a b c hab hbc
      subst hle
      simp only [decide_eq_true_eq] at hab hbc ⊢
      omega
    · intro a b
      subst hle
      simp only [Bool.or_eq_true, decide_eq_true_eq]
      omega
    · refine hbefore.imp ?_
      intro a b hab
      subst hle
      simp only [decide_eq_true_eq]
      omega
  rw [List.filterMap_congr hspan]
  rw [filterMap_span?, hsort, ← filterMap_span?]

end Highlight

/-! ### Documents -/

namespace Analysis

/-- The analysis of a document: of a text under a URI, or of a file. -/
inductive IsOf (files : FileTree) : Analysis → Prop where
  | text {uri : String} {src : Scan.Source} (hsrc : Scan.Source.ofUri files uri = .ok src)
      (options : Options) (cache : IncludeCache) (text : String) (version : Option Int) :
      IsOf files (run files options cache src text version).1
  | file {options : Options} {cache : IncludeCache} {path : String} {r : Attempt} {a : Analysis}
      (hrun : runFile files options cache path = .ok r) (h : r.result = .ok a) : IsOf files a

theorem bars_ofPath {path : Path} (hpath : path.IsResolved) :
    (⟨Uri.ofPath path, some path, [path]⟩ : Scan.Source).Bars (Uri.ofPath path) := by
  intro other hother hmem heq
  have hround := Uri.toPath_ofPath other hother.1
  rw [heq, Uri.toPath_ofPath path hpath.1] at hround
  cases hround
  exact hmem List.mem_cons_self

variable {files : FileTree} {a : Analysis}

/-- A document is analysed under a name under which it is never included in itself. -/
theorem IsOf.exists_run (h : a.IsOf files) :
    ∃ options cache src version, src.Bars src.uri ∧
      a = (run files options cache src a.text version).1 := by
  cases h with
  | @text uri src hsrc options cache text version =>
    obtain ⟨rfl, hbars⟩ := Scan.bars_ofUri hsrc
    exact ⟨options, cache, src, version, hbars, rfl⟩
  | file hfile h =>
    unfold runFile at hfile
    split at hfile
    · cases hfile
    split at hfile
    · cases hfile
      cases h
    · rename_i p hresolve
      cases hfile
      obtain rfl := eq_run_of_attempt h
      exact ⟨_, _, _, _, bars_ofPath (files.isResolved_of_resolve hresolve), rfl⟩

/-- The tokens of a document are those of a scan of its text. -/
theorem IsOf.exists_document (h : a.IsOf files) :
    ∃ σ src cache part, src.Bars src.uri ∧ src.uri = a.uri ∧
      a.tokens.map (·.token) = (Scan.document σ src cache part a.text.toList).tokens.toList := by
  obtain ⟨options, cache, src, version, hbars, ha⟩ := h.exists_run
  generalize a.text = text at ha ⊢
  subst ha
  exact ⟨{ files, options }, src, cache, .problem, hbars, rfl, LinkedToken.map_token_attach ..⟩

def classified (a : Analysis) : List LinkedToken :=
  a.documentTokens.filter fun t => (Highlight.span? a.symbols t).isSome

theorem IsOf.classified (h : a.IsOf files) :
    (a.classified.Pairwise fun t t' =>
      t.token.start.line < t'.token.start.line ∨ t.token.start.line = t'.token.start.line ∧
        t.token.start.column + t.token.length ≤ t'.token.start.column) ∧
    ∀ t ∈ a.classified, 0 < t.token.length ∧
      ∃ line, (Text.splitOn '\n' a.text.toList)[t.token.start.line]? = some line ∧
        t.token.start.column + t.token.length ≤ line.length := by
  obtain ⟨σ, src, cache, part, hbars, huri, htokens⟩ := h.exists_document
  have htiling := Scan.document_tiling σ src hbars cache part a.text.toList
  have hline := Scan.document_onOneLine σ src hbars cache part a.text.toList
  rw [← htokens, huri] at htiling hline
  rw [List.filter_map] at htiling
  have hown : ∀ t ∈ a.classified,
      t ∈ a.tokens ∧ Scan.isOwnIn a.uri t.token = true ∧ '\n' ∉ t.token.text.toList := by
    intro t ht
    obtain ⟨hdocument, hsome⟩ := List.mem_filter.mp ht
    obtain ⟨hmem, hu⟩ := List.mem_filter.mp hdocument
    obtain ⟨s, hs⟩ := Option.isSome_iff_exists.mp hsome
    obtain ⟨hexpanded, htrivia⟩ := Highlight.significant_of_span? hs
    have hu' : t.token.uri = a.uri := of_decide_eq_true hu
    refine ⟨hmem, by simp [Scan.isOwnIn, Token.isOwn, hu', hexpanded], ?_⟩
    exact hline t.token (List.mem_map_of_mem hmem) hu' hexpanded htrivia
  have hsub : a.classified.Sublist (a.tokens.filter (Scan.isOwnIn a.uri ∘ (·.token))) := by
    have hself : a.classified.filter (Scan.isOwnIn a.uri ∘ (·.token)) = a.classified :=
      List.filter_eq_self.mpr fun t ht => (hown t ht).2.1
    rw [← hself]
    exact (List.filter_sublist.trans List.filter_sublist).filter _
  refine ⟨?_, ?_⟩
  · have hbefore := (Scan.lossless_of_tiling htiling).before
    exact (List.pairwise_map.mp hbefore).sublist hsub
  · intro t ht
    obtain ⟨hpos, hlength, before, after, hcs, hstart⟩ :=
      htiling.written t.token (List.mem_map_of_mem (hsub.subset ht))
    obtain ⟨line, hget, hfull⟩ := Text.getElem?_splitOn_append [] before
      (t.token.text.toList ++ after) (by simp) .zero rfl
    refine ⟨hpos, line, ?_, ?_⟩
    · rw [hstart, Position.line_advance, hcs]
      simpa [Position.zero] using hget
    · have hwithin : t.token.length ≤ (Text.splitLine (t.token.text.toList ++ after)).1.length := by
        have hno := (hown t ht).2.2
        have hpos' : ∀ c ∈ t.token.text.toList, decide (c ≠ '\n') = true := by
          intro c hc
          exact decide_eq_true fun he => hno (he ▸ hc)
        rw [Text.splitLine, List.takeWhile_append_of_pos hpos', List.length_append]
        omega
      rw [hfull, hstart]
      omega

/-- The numbers sent for a document give back the classes of its tokens, in the order of the
document. None of them is negative; the spans follow one another without overlap, and each lies
within its line. -/
theorem decode_semanticTokens (h : a.IsOf files) :
    let decoded := Highlight.decode a.semanticTokens
    decoded = a.documentTokens.filterMap (Highlight.span? a.symbols) ∧
    (∀ n ∈ a.semanticTokens, 0 ≤ n) ∧
    (decoded.Pairwise fun s s' =>
      (s.line < s'.line ∨ s.line = s'.line ∧ s.column < s'.column) ∧ s.Before s') ∧
    ∀ s ∈ decoded, ∃ (i : Nat) (line : List Char), s.line = i ∧
      (Text.splitOn '\n' a.text.toList)[i]? = some line ∧ s.column + s.length ≤ line.length := by
  obtain ⟨hbefore, hplaces⟩ := h.classified
  intro decoded
  have hspans : Highlight.spans a.symbols a.documentTokens =
      a.documentTokens.filterMap (Highlight.span? a.symbols) := by
    apply Highlight.spans_eq_filterMap
    · intro t ht hsome
      exact (hplaces t (List.mem_filter.mpr ⟨ht, hsome⟩)).1
    · exact hbefore
  have hdecoded : decoded = a.documentTokens.filterMap (Highlight.span? a.symbols) := by
    rw [← hspans]
    exact Highlight.decodeFrom_encodeFrom 0 0 _
  have horigin : ∀ s ∈ decoded, ∃ t ∈ a.classified, Highlight.span? a.symbols t = some s := by
    intro s hs
    rw [hdecoded] at hs
    obtain ⟨t, ht, hspan⟩ := List.mem_filterMap.mp hs
    exact ⟨t, List.mem_filter.mpr ⟨ht, by rw [hspan]; rfl⟩, hspan⟩
  have hordered : decoded.Pairwise fun s s' =>
      (s.line < s'.line ∨ s.line = s'.line ∧ s.column < s'.column) ∧ s.Before s' := by
    rw [hdecoded, Highlight.filterMap_span?]
    refine List.pairwise_filterMap.mpr (hbefore.imp_of_mem ?_)
    intro t t' ht ht' hlt s hs s' hs'
    obtain ⟨hline, hcolumn, hlength⟩ := Highlight.place_of_span? hs
    obtain ⟨hline', hcolumn', -⟩ := Highlight.place_of_span? hs'
    have hpos := (hplaces t ht).1
    unfold Highlight.Span.Before
    omega
  have hnonneg : ∀ n ∈ a.semanticTokens, 0 ≤ n := by
    rw [semanticTokens, hspans, ← hdecoded]
    apply Highlight.nonneg_encodeFrom
    · intro s hs
      obtain ⟨t, -, hspan⟩ := horigin s hs
      obtain ⟨hline, hcolumn, -⟩ := Highlight.place_of_span? hspan
      omega
    · exact hordered.imp And.right
  refine ⟨hdecoded, hnonneg, hordered, ?_⟩
  intro s hs
  obtain ⟨t, ht, hspan⟩ := horigin s hs
  obtain ⟨hline, hcolumn, hlength⟩ := Highlight.place_of_span? hspan
  obtain ⟨-, line, hget, hwithin⟩ := hplaces t ht
  exact ⟨t.token.start.line, line, hline, hget, by omega⟩

/-- A document with an included file and a comment over two lines. -/
theorem decode_semanticTokens_mixed_sources :
    let files : FileTree :=
      { entries := [(Path.ofString "/ws/b", { content := .text "DCL Y FLOAT;" })]
        cwd := Path.ofString "/ws" }
    let src : Scan.Source :=
      ⟨"file:///ws/a", some (Path.ofString "/ws/a"), [Path.ofString "/ws/a"]⟩
    let a := (run files {} {} src
      "#include \"b\"\nDCL X FIXED; /* c\n*/ X := Y - 'y';" none).1
    a.IsOf files ∧
    Highlight.decode a.semanticTokens = [⟨1, 4, 1, 1, 1⟩, ⟨1, 6, 5, 0, 0⟩, ⟨2, 3, 1, 1, 0⟩,
      ⟨2, 5, 2, 7, 0⟩, ⟨2, 8, 1, 1, 0⟩, ⟨2, 10, 1, 7, 0⟩, ⟨2, 12, 3, 8, 0⟩] ∧
    ∀ n ∈ a.semanticTokens, 0 ≤ n := by
  intro files src a
  have hsrc : Scan.Source.ofUri files "file:///ws/a" = .ok src := by decide +kernel
  have ha : a.IsOf files := .text hsrc {} {} _ none
  have hspans : a.documentTokens.filterMap (Highlight.span? a.symbols) =
      [⟨1, 4, 1, 1, 1⟩, ⟨1, 6, 5, 0, 0⟩, ⟨2, 3, 1, 1, 0⟩, ⟨2, 5, 2, 7, 0⟩, ⟨2, 8, 1, 1, 0⟩,
        ⟨2, 10, 1, 7, 0⟩, ⟨2, 12, 3, 8, 0⟩] := by decide +kernel
  have h := decode_semanticTokens ha
  exact ⟨ha, h.1.trans hspans, h.2.1⟩

end Analysis

end Pearl
