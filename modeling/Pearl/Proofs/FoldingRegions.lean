import Pearl.Feature.Folding
import Pearl.Proofs.BlockSpans
import Pearl.Proofs.CompletionAgreement

namespace Pearl

namespace FoldingRegion

def lines (r : FoldingRegion) : Nat × Nat := (r.startLine, r.endLine)

/-- A region of a kind in a document, from one line to a later one. -/
structure Covers (r : FoldingRegion) (uri : String) (kind : FoldingKind) (first last : Nat) :
    Prop where
  uri_eq : r.uri = uri
  kind_eq : r.kind = kind
  lines_eq : r.lines = (first, last)
  lt : first < last

def linesOf (kind : FoldingKind) (regions : List FoldingRegion) : List (Nat × Nat) :=
  (regions.filter (·.kind = kind)).map lines

variable {r : FoldingRegion} {uri : String} {kind : FoldingKind} {first last : Nat}

theorem mem_linesOf {regions : List FoldingRegion} (hr : r ∈ regions) :
    r.lines ∈ linesOf r.kind regions :=
  List.mem_map_of_mem (List.mem_filter.mpr ⟨hr, decide_eq_true rfl⟩)

theorem Covers.proper (h : r.Covers uri kind first last) : r.startLine < r.endLine := by
  obtain ⟨hfirst, hlast⟩ := Prod.mk.inj h.lines_eq
  rw [hfirst, hlast]
  exact h.lt

theorem Covers.linesOf_append (h : r.Covers uri kind first last) (regions : List FoldingRegion) :
    linesOf kind (regions ++ [r]) = linesOf kind regions ++ [(first, last)] := by
  simp [linesOf, h.kind_eq, h.lines_eq]

theorem Covers.linesOf_append_of_ne (h : r.Covers uri kind first last) {other : FoldingKind}
    (hne : kind ≠ other) (regions : List FoldingRegion) :
    linesOf other (regions ++ [r]) = linesOf other regions := by
  simp [linesOf, h.kind_eq, hne]

end FoldingRegion

namespace Scan

open FoldingRegion

/-! ### Comments and conditions -/

/-- The lines of the conditions that are open, innermost first, and the regions of a document so
far. -/
structure Outline where
  openers : List Nat
  regions : List FoldingRegion

namespace Outline

/-- What a piece of the text of `uri`, from one line to another, may do. A comment is folded, and
so is a condition when it is closed, unless it was opened on the same line. -/
inductive Moves (uri : String) (line last : Nat) (o : Outline) : Outline → Prop where
  | stay : Moves uri line last o o
  | comment {r : FoldingRegion} (hr : r.Covers uri .comment line last) :
      Moves uri line last o { o with regions := o.regions ++ [r] }
  | push : Moves uri line last o { o with openers := line :: o.openers }
  | pop {first : Nat} {outer : List Nat} (ho : o.openers = first :: outer) :
      Moves uri line last o { o with openers := outer }
  | close {first : Nat} {outer : List Nat} {r : FoldingRegion} (ho : o.openers = first :: outer)
      (hr : r.Covers uri .preproc first line) :
      Moves uri line last o ⟨outer, o.regions ++ [r]⟩

/-- Up to a line, comments are nested and so are conditions, and no region is that of a block. -/
structure Folded (now : Nat) (o : Outline) : Prop where
  comments : Spans.Nested now ⟨[], linesOf .comment o.regions⟩
  conditions : Spans.Nested now ⟨o.openers, linesOf .preproc o.regions⟩
  kinds : ∀ r ∈ o.regions, r.kind ≠ .region
  proper : ∀ r ∈ o.regions, r.startLine < r.endLine

variable {uri : String} {line last : Nat} {o o' : Outline}

theorem Folded.moves (h : o.Folded line) (hle : line ≤ last) (hm : o.Moves uri line last o') :
    o'.Folded last := by
  have hcomments := h.comments.later hle
  have hconditions := h.conditions.later hle
  have hkinds : ∀ {r : FoldingRegion} {kind : FoldingKind} {first last : Nat},
      r.Covers uri kind first last → kind ≠ .region →
      ∀ q ∈ o.regions ++ [r], q.kind ≠ .region := by
    intro r kind first last hr hkind
    simpa [or_imp, forall_and, hr.kind_eq, hkind] using h.kinds
  have hproper : ∀ {r : FoldingRegion} {kind : FoldingKind} {first last : Nat},
      r.Covers uri kind first last → ∀ q ∈ o.regions ++ [r], q.startLine < q.endLine := by
    intro r kind first last hr
    simpa [or_imp, forall_and, hr.proper] using h.proper
  cases hm with
  | stay => exact ⟨hcomments, hconditions, h.kinds, h.proper⟩
  | @comment r hr =>
    refine ⟨?_, ?_, hkinds hr (by simp), hproper hr⟩
    · rw [hr.linesOf_append]
      exact (h.comments.push (Nat.le_refl _)).pop hle
    · rw [hr.linesOf_append_of_ne (by simp)]
      exact hconditions
  | push =>
    exact ⟨hcomments, (h.conditions.push (Nat.le_refl _)).later hle, h.kinds, h.proper⟩
  | @pop first outer ho =>
    refine ⟨hcomments, hconditions.sublist ?_ (List.Subset.refl _), h.kinds, h.proper⟩
    rw [ho]
    exact List.sublist_cons_self _ _
  | @close first outer r ho hr =>
    refine ⟨?_, ?_, hkinds hr (by simp), hproper hr⟩
    · rw [hr.linesOf_append_of_ne (by simp)]
      exact hcomments
    · have hclosed := (h.conditions.pop (Nat.le_refl _)).later hle
      rw [ho] at hclosed
      rw [hr.linesOf_append]
      exact hclosed

theorem Folded.nested (h : o.Folded last) {r : FoldingRegion} (hr : r ∈ o.regions) :
    ∃ openers, Spans.Nested last ⟨openers, linesOf r.kind o.regions⟩ := by
  cases hkind : r.kind with
  | region => exact absurd hkind (h.kinds r hr)
  | comment => exact ⟨[], h.comments⟩
  | preproc => exact ⟨o.openers, h.conditions⟩

theorem Folded.not_crosses (h : o.Folded last) {r r' : FoldingRegion} (hr : r ∈ o.regions)
    (hr' : r' ∈ o.regions) (hkind : r.kind = r'.kind) : ¬Spans.Crosses r.lines r'.lines := by
  obtain ⟨openers, hnested⟩ := h.nested hr
  have hmem' := mem_linesOf hr'
  rw [← hkind] at hmem'
  exact hnested.apart _ (mem_linesOf hr) _ hmem'

theorem Folded.endLine_le (h : o.Folded last) {r : FoldingRegion} (hr : r ∈ o.regions) :
    r.endLine ≤ last := by
  obtain ⟨openers, hnested⟩ := h.nested hr
  exact hnested.ended _ (mem_linesOf hr)

end Outline

/-! ### What a piece of a text does -/

/-- What is known in a state about the regions of a document. -/
def State.outline (s : State) (uri : String) : Outline :=
  ⟨s.conditions.conditions.map (·.opener.start.line), s.folding.toList.filter (·.uri = uri)⟩

/-- Files that may be included from a text add no region of a document. -/
def Reader.Spares (uri : String) (src : Source) (read : Reader) : Prop :=
  ∀ path : Path, path.IsResolved → path ∉ src.chain →
    ∀ cs s, ((read (src.included path) cs s).outline uri).regions = (s.outline uri).regions

variable {σ : Setting} {src : Source} {nested : Option Reader} {uri : String}

namespace State

variable {last : Nat}

theorem outline_fold (s : State) (r : FoldingRegion) :
    (s.fold r).outline uri =
      if r.uri = uri then ⟨(s.outline uri).openers, (s.outline uri).regions ++ [r]⟩
      else s.outline uri := by
  unfold outline fold
  rw [Array.toList_push, List.filter_append]
  split
  · rename_i huri
    rw [List.filter_cons_of_pos (by simp [huri])]
    rfl
  · rename_i huri
    rw [List.filter_cons_of_neg (by simp [huri]), List.filter_nil, List.append_nil]

theorem outline_settle (s : State) (doc : String) : (s.settle doc).outline uri = s.outline uri := by
  unfold settle flushInactive
  split
  · split <;> rfl
  · rfl

theorem outline_includeFile (hread : ∀ read ∈ nested, Reader.Spares uri src read) (s : State)
    (t : Token) (name : String) :
    (s.includeFile σ src nested t name).outline uri = s.outline uri := by
  cases inclusion_includeFile σ src nested s t name with
  | givenUp h | refused h =>
    rw [h]
    rfl
  | read hmem hpath hchain h =>
    rw [h]
    exact congrArg (Outline.mk _) (hread _ hmem _ hpath hchain _ _)

/-- An element folds the lines it runs over. -/
theorem moves_plain (s : State) (l : Lexeme) :
    (s.outline uri).Moves src.uri s.position.line (s.plain src.uri l).position.line
      ((s.plain src.uri l).outline uri) := by
  have hfault : ∀ (r : State) (t : Token) (f : Option LexicalFault),
      (r.reportFault t f).position = r.position ∧
      (r.reportFault t f).outline uri = r.outline uri := by
    intro r t f
    cases f <;> exact ⟨rfl, rfl⟩
  unfold plain
  dsimp only
  rw [(hfault _ _ _).1, (hfault _ _ _).2]
  unfold foldLines
  split
  · rename_i hlt
    rw [outline_fold]
    split
    · exact .comment ⟨rfl, rfl, rfl, hlt⟩
    · exact .stay
  · exact .stay

theorem moves_element (s : State) (l : Lexeme) :
    (s.outline uri).Moves src.uri s.position.line (s.element src.uri l).position.line
      ((s.element src.uri l).outline uri) := by
  unfold element
  split
  · exact .stay
  · exact moves_plain s l

theorem moves_closeCondition (s : State) (t : Token) :
    (s.outline uri).Moves src.uri t.start.line last ((s.closeCondition src t).outline uri) := by
  unfold closeCondition Conditional.pop
  cases hc : s.conditions.conditions with
  | nil => exact .stay
  | cons c outer =>
    have ho : (s.outline uri).openers =
        c.opener.start.line :: outer.map (·.opener.start.line) := by
      simp [outline, hc]
    dsimp only
    rw [outline_settle]
    split
    · rename_i hlt
      rw [outline_fold]
      split
      · exact .close ho ⟨rfl, rfl, rfl, hlt⟩
      · exact .pop ho
    · exact .pop ho

theorem moves_carryOut (hread : ∀ read ∈ nested, Reader.Spares uri src read) (s : State)
    (t : Token) (d : Directive) :
    (s.outline uri).Moves src.uri t.start.line last ((s.carryOut σ src nested t d).outline uri) := by
  cases d with
  | define name value =>
    rw [carryOut, State.define]
    split <;> exact .stay
  | undef name =>
    rw [carryOut, undefine]
    split <;> exact .stay
  | inclusion name =>
    rw [carryOut, outline_includeFile hread]
    exact .stay
  | condition name negated =>
    rw [carryOut, outline_settle]
    exact .push
  | otherwise =>
    simp only [carryOut, turnCondition, Conditional.invert]
    cases hc : s.conditions.conditions with
    | nil => exact .stay
    | cons c outer =>
      -- a condition that is turned over was opened where it was
      have hsame : s.outline uri = ⟨c.opener.start.line :: outer.map (·.opener.start.line),
          s.folding.toList.filter (·.uri = uri)⟩ := by
        simp [outline, hc]
      dsimp only
      rw [outline_settle, hsame]
      exact .stay
  | endif => exact moves_closeCondition s t

theorem moves_directiveLine (hread : ∀ read ∈ nested, Reader.Spares uri src read) (s : State)
    (cs : List Char) :
    (s.outline uri).Moves src.uri s.position.line last
      ((s.directiveLine σ src nested cs).outline uri) := by
  unfold directiveLine
  dsimp only
  split
  · exact .stay
  · generalize DirectiveWord.ofText? (Directive.wordOf cs) = word
    unfold activeDirective
    dsimp only
    generalize ht : s.tokenHere src.uri _ cs = t
    have hline : s.position.line = t.start.line := by rw [← ht]; rfl
    rw [hline]
    split
    · unfold refuse
      dsimp only
      split
      · exact .push
      · exact .stay
    · exact moves_carryOut hread ((s.emit t).advance cs) t _

/-- What a piece of a text does to the regions of a document. -/
theorem moves_take (hread : ∀ read ∈ nested, Reader.Spares uri src read) (s : State) (p : Piece) :
    (s.outline uri).Moves src.uri s.position.line (s.take σ src nested p).position.line
      ((s.take σ src nested p).outline uri) := by
  cases p with
  | newline => exact .stay
  | space c => exact .stay
  | directive line => exact moves_directiveLine hread s line
  | inactive line => exact .stay
  | element l => exact moves_element s l

theorem outline_finish (s : State) (doc : String) : (s.finish doc).outline uri = s.outline uri := by
  have hopeners : ∀ (openers : List Token) (r : State),
      (openers.foldl reportUnclosed r).outline uri = r.outline uri := by
    intro openers
    induction openers with
    | nil => exact fun r => rfl
    | cons t openers ih => exact fun r => ih _
  rw [finish, hopeners]
  unfold flushInactive
  split <;> rfl

end State

/-! ### Texts -/

/-- A text of another URI adds no region of a document. -/
theorem regions_run_of_ne (σ : Setting) (hne : src.uri ≠ uri)
    (hread : ∀ read ∈ nested, Reader.Spares uri src read) (s : State) (cs : List Char) :
    ((run σ src nested s cs).outline uri).regions = (s.outline uri).regions := by
  have hstep : ∀ (s s' : State) (line last : Nat),
      (s.outline uri).Moves src.uri line last (s'.outline uri) →
      (s'.outline uri).regions = (s.outline uri).regions := by
    intro s s' line last hm
    have huri : ∀ r ∈ (s'.outline uri).regions, r.uri = uri := by
      intro r hr
      simpa using (List.mem_filter.mp hr).2
    generalize s'.outline uri = o' at hm huri
    cases hm with
    | stay | push | pop => rfl
    | comment hr => exact absurd (hr.uri_eq.symm.trans (huri _ (by simp))) hne
    | close ho hr => exact absurd (hr.uri_eq.symm.trans (huri _ (by simp))) hne
  induction s, cs using run_induction σ src nested with
  | nil s => rw [run_nil]
  | next s text p rest hnext ih =>
    rw [run_of_next σ src nested hnext, ih]
    exact hstep _ _ _ _ (State.moves_take hread s p)

/-- Files add no region of a document that is barred, however deep they are included. -/
theorem reader?_spares (σ : Setting) (n : Nat) (src : Source) (hbars : src.Bars uri) :
    ∀ read ∈ reader? σ n, Reader.Spares uri src read := by
  induction n generalizing src with
  | zero => simp [reader?]
  | succ n ih =>
    rintro read ⟨⟩ path hpath hmem cs s
    have hrun := regions_run_of_ne σ (hbars path hpath hmem)
      (ih (src.included path) (hbars.included path)) s cs
    rw [text_eq_run, State.outline_finish, hrun]

theorem position_run (σ : Setting) (src : Source) (nested : Option Reader) (s : State)
    (cs : List Char) : (run σ src nested s cs).position = s.position.advance cs := by
  induction s, cs using run_induction σ src nested with
  | nil s =>
    rw [run_nil]
    rfl
  | next s text p rest hnext ih =>
    rw [run_of_next σ src nested hnext, ih, State.position_take, ← Position.advance_append,
      hnext.chars_append]

/-- Comments and conditions are nested after a text. -/
theorem run_folded (σ : Setting) (hread : ∀ read ∈ nested, Reader.Spares src.uri src read)
    (s : State) (cs : List Char) (h : (s.outline src.uri).Folded s.position.line) :
    ((run σ src nested s cs).outline src.uri).Folded (run σ src nested s cs).position.line := by
  induction s, cs using run_induction σ src nested with
  | nil s => rwa [run_nil]
  | next s text p rest hnext ih =>
    have hle : s.position.line ≤ (s.take σ src nested p).position.line := by
      rw [State.position_take, Position.line_advance]
      omega
    rw [run_of_next σ src nested hnext]
    exact ih (h.moves hle (State.moves_take hread s p))

/-- Comments and conditions of a document are nested, and end within its lines. -/
theorem document_folded (σ : Setting) (hbars : src.Bars src.uri) (cache : IncludeCache)
    (part : Part) (cs : List Char) :
    ((document σ src cache part cs).outline src.uri).Folded (cs.count '\n') := by
  have hinitial : ((initial σ cache part).outline src.uri).Folded 0 := by
    refine ⟨Spans.nested_nil 0, Spans.nested_nil 0, ?_, ?_⟩
    · intro r hr
      cases hr
    · intro r hr
      cases hr
  have hfolded := run_folded σ (reader?_spares σ (levels σ.options) src hbars)
    (initial σ cache part) cs hinitial
  rw [position_run, Position.line_advance] at hfolded
  rw [document, text_eq_run, State.outline_finish]
  simpa [initial, Position.zero] using hfolded

end Scan

/-! ### Blocks -/

theorem Resolution.exists_tokens_of_folding {s : State} {tokens : Array Token} {r : FoldingRegion}
    (hr : r ∈ s.folding tokens) :
    ∃ b ∈ s.closedBlocks, ∃ first last, tokens[b.openedAt]? = some first ∧
      tokens[b.closedAt]? = some last ∧ first.uri = last.uri ∧
      r.Covers last.uri .region first.start.line last.start.line := by
  obtain ⟨b, hb, hfold⟩ := List.mem_filterMap.mp hr
  refine ⟨b, Array.mem_toList_iff.mp hb, ?_⟩
  unfold foldingOf? at hfold
  split at hfold
  · rename_i first last hfirst hlast
    split at hfold
    · rename_i hcond
      cases hfold
      simp only [Bool.and_eq_true, decide_eq_true_eq] at hcond
      exact ⟨first, last, hfirst, hlast, hcond.1, rfl, rfl, rfl, hcond.2⟩
    · cases hfold
  · cases hfold

namespace Analysis

variable {files : FileTree} {a : Analysis}

/-- The later of two tokens of the document is not on an earlier line. -/
theorem IsOf.line_le (h : a.IsOf files) {i j : Nat} {t u : Token} (hi : a.counted[i]? = some t)
    (hj : a.counted[j]? = some u) (ht : t.uri = a.uri) (hu : u.uri = a.uri) (hij : i ≤ j) :
    t.start.line ≤ u.start.line := by
  rw [← Array.getElem?_toList] at hi hj
  have hoffset : t.start.offset ≤ u.start.offset := by
    rcases Nat.lt_or_eq_of_le hij with hlt | rfl
    · obtain ⟨hi', rfl⟩ := List.getElem?_eq_some_iff.mp hi
      obtain ⟨hj', rfl⟩ := List.getElem?_eq_some_iff.mp hj
      exact List.pairwise_iff_getElem.mp h.pairwise_counted i j hi' hj' hlt ht hu
    · rw [Option.some.inj (hi.symm.trans hj)]
  obtain ⟨before, after, htext, hstart⟩ := h.exists_before (List.mem_of_getElem? hi) ht
  obtain ⟨before', after', htext', hstart'⟩ := h.exists_before (List.mem_of_getElem? hj) hu
  have hlength : before.length ≤ before'.length := by
    simpa [hstart, hstart', Position.offset_advance] using hoffset
  have hshorter : before <+: before' :=
    List.prefix_of_prefix_length_le ⟨after, htext.symm⟩ ⟨after', htext'.symm⟩ hlength
  rw [hstart, hstart', Position.line_advance, Position.line_advance]
  exact Nat.add_le_add_left (hshorter.sublist.count_le '\n') _

theorem IsOf.lt_of_line_lt (h : a.IsOf files) {i j : Nat} {t u : Token}
    (hi : a.counted[i]? = some t) (hj : a.counted[j]? = some u) (ht : t.uri = a.uri)
    (hu : u.uri = a.uri) (hlt : t.start.line < u.start.line) : i < j := by
  by_contra hle
  have hline := h.line_le hj hi hu ht (Nat.le_of_not_lt hle)
  omega

/-- The regions of a document are those of its comments and conditions, and those of its blocks. -/
theorem IsOf.exists_folded (h : a.IsOf files) :
    ∃ (o : Scan.Outline) (s : Resolution.State), o.Folded (a.text.toList.count '\n') ∧
      (∀ b ∈ s.closedBlocks, ∀ b' ∈ s.closedBlocks,
        ¬Spans.Crosses (b.openedAt, b.closedAt) (b'.openedAt, b'.closedAt)) ∧
      a.foldingFor none = o.regions ++ (s.folding a.counted).filter (·.uri = a.uri) := by
  obtain ⟨options, cache, src, version, hbars, ha⟩ := h.exists_run
  generalize a.text = text at ha ⊢
  subst ha
  let scan := Scan.document { files, options } src cache .problem text.toList
  exact ⟨scan.outline src.uri, _, Scan.document_folded _ hbars cache .problem text.toList,
    Resolution.not_crosses_program (Word.significant scan.tokens.toList) options.reportUnused,
    List.filter_append _ _⟩

/-- A region of a block runs from one token of the document to a later one. -/
theorem exists_tokens {s : Resolution.State} {r : FoldingRegion}
    (hr : r ∈ (s.folding a.counted).filter (·.uri = a.uri)) :
    ∃ b ∈ s.closedBlocks, ∃ first last, a.counted[b.openedAt]? = some first ∧
      a.counted[b.closedAt]? = some last ∧ first.uri = a.uri ∧ last.uri = a.uri ∧
      r.Covers a.uri .region first.start.line last.start.line := by
  obtain ⟨hr, huri⟩ := List.mem_filter.mp hr
  obtain ⟨b, hb, first, last, hfirst, hlast, hsame, hcovers⟩ :=
    Resolution.exists_tokens_of_folding hr
  have hdoc : last.uri = a.uri := hcovers.uri_eq.symm.trans (of_decide_eq_true huri)
  exact ⟨b, hb, first, last, hfirst, hlast, hsame.trans hdoc, hdoc, hdoc ▸ hcovers⟩

/-- Regions of one kind do not cross. -/
theorem IsOf.not_crosses (h : a.IsOf files) {r r' : FoldingRegion} (hr : r ∈ a.foldingFor none)
    (hr' : r' ∈ a.foldingFor none) (hkind : r.kind = r'.kind) :
    ¬Spans.Crosses r.lines r'.lines := by
  obtain ⟨o, s, hfolded, hblocks, hregions⟩ := h.exists_folded
  rw [hregions] at hr hr'
  rcases List.mem_append.mp hr with hr | hr
  · rcases List.mem_append.mp hr' with hr' | hr'
    · exact hfolded.not_crosses hr hr' hkind
    · obtain ⟨_, -, _, _, -, -, -, -, hcovers'⟩ := exists_tokens hr'
      exact absurd (hkind.trans hcovers'.kind_eq) (hfolded.kinds r hr)
  · obtain ⟨b, hb, first, last, hfirst, hlast, hdoc, hdoc', hcovers⟩ := exists_tokens hr
    rcases List.mem_append.mp hr' with hr' | hr'
    · exact absurd (hkind.symm.trans hcovers.kind_eq) (hfolded.kinds r' hr')
    · obtain ⟨b', hb', first', last', hfirst', hlast', hdoc'', hdoc''', hcovers'⟩ :=
        exists_tokens hr'
      rw [hcovers.lines_eq, hcovers'.lines_eq]
      -- tokens on later lines are later, so that the blocks would cross
      rintro ⟨hstart, hinner, hend⟩
      exact hblocks b hb b' hb' ⟨h.lt_of_line_lt hfirst hfirst' hdoc hdoc'' hstart,
        h.lt_of_line_lt hfirst' hlast hdoc'' hdoc' hinner,
        h.lt_of_line_lt hlast hlast' hdoc' hdoc''' hend⟩

/-- A region runs from one line of the text to a later one. -/
theorem IsOf.bounds_of_mem_foldingFor (h : a.IsOf files) {r : FoldingRegion}
    (hr : r ∈ a.foldingFor none) :
    r.startLine < r.endLine ∧ r.endLine < (Text.splitOn '\n' a.text.toList).length := by
  have hlines : a.text.toList.count '\n' < (Text.splitOn '\n' a.text.toList).length := by
    obtain ⟨line, hget, -⟩ := Text.getElem?_splitOn_append [] a.text.toList [] (by simp) .zero rfl
    rw [List.append_nil, List.nil_append] at hget
    exact (List.getElem?_eq_some_iff.mp hget).1
  obtain ⟨o, s, hfolded, -, hregions⟩ := h.exists_folded
  rw [hregions] at hr
  rcases List.mem_append.mp hr with hr | hr
  · exact ⟨hfolded.proper r hr, Nat.lt_of_le_of_lt (hfolded.endLine_le hr) hlines⟩
  · obtain ⟨b, -, first, last, -, hlast, -, hdoc, hcovers⟩ := exists_tokens hr
    rw [← Array.getElem?_toList] at hlast
    obtain ⟨before, after, htext, hstart⟩ := h.exists_before (List.mem_of_getElem? hlast) hdoc
    have hend : r.endLine = before.count '\n' := by
      rw [(Prod.mk.inj hcovers.lines_eq).2, hstart, Position.line_advance]
      exact Nat.zero_add _
    have hle : before.count '\n' ≤ a.text.toList.count '\n' := by
      rw [htext, List.count_append]
      exact Nat.le_add_right _ _
    exact ⟨hcovers.proper, by omega⟩

end Analysis

/-! ### The list of regions -/

namespace FoldingRegion

theorem lines_eq_iff {q r : FoldingRegion} :
    (q.startLine = r.startLine && q.endLine = r.endLine) = true ↔ q.lines = r.lines := by
  simp [lines]

theorem mem_of_mem_assign {q r : FoldingRegion} {rs : List FoldingRegion} (h : q ∈ r.assign rs) :
    q = r ∨ q ∈ rs := by
  induction rs with
  | nil => exact Or.inl (List.mem_singleton.mp h)
  | cons p rest ih =>
    rw [assign] at h
    split at h
    · rcases List.mem_cons.mp h with h | h
      · exact Or.inl h
      · exact Or.inr (List.mem_cons_of_mem _ h)
    · rcases List.mem_cons.mp h with rfl | h
      · exact Or.inr List.mem_cons_self
      · exact (ih h).imp_right (List.mem_cons_of_mem _)

/-- Lines that are there keep their place; new ones come last. -/
theorem map_lines_assign (r : FoldingRegion) (rs : List FoldingRegion) :
    (r.assign rs).map lines =
      if r.lines ∈ rs.map lines then rs.map lines else rs.map lines ++ [r.lines] := by
  induction rs with
  | nil => rfl
  | cons q rest ih =>
    by_cases hq : q.lines = r.lines
    · rw [assign, if_pos (lines_eq_iff.mpr hq), if_pos (by simp [hq])]
      simp [hq]
    · have hne : r.lines ≠ q.lines := fun h => hq h.symm
      rw [assign, if_neg (mt lines_eq_iff.mp hq)]
      simp only [List.map_cons, List.mem_cons, hne, false_or, ih]
      split <;> rfl

theorem nodup_lines_assign {rs : List FoldingRegion} (h : (rs.map lines).Nodup)
    (r : FoldingRegion) : ((r.assign rs).map lines).Nodup := by
  rw [map_lines_assign]
  split
  · exact h
  · rename_i hnew
    exact List.nodup_append.mpr ⟨h, List.pairwise_singleton _ _, by grind⟩

theorem mem_lines_assign (r : FoldingRegion) (rs : List FoldingRegion) (b : Nat × Nat) :
    b ∈ (r.assign rs).map lines ↔ b = r.lines ∨ b ∈ rs.map lines := by
  rw [map_lines_assign]
  split <;> grind

/-- Regions that are listed one after the other: no lines are there twice, and none are lost. -/
theorem foldl_assign (regions rs : List FoldingRegion) (h : (rs.map lines).Nodup) :
    let listed := regions.foldl (fun rs r => r.assign rs) rs
    (listed.map lines).Nodup ∧ (∀ r ∈ listed, r ∈ rs ∨ r ∈ regions) ∧
      ∀ b, b ∈ listed.map lines ↔ b ∈ rs.map lines ∨ b ∈ regions.map lines := by
  intro listed
  induction regions generalizing rs with
  | nil => exact ⟨h, fun r hr => Or.inl hr, by simp [listed]⟩
  | cons q regions ih =>
    obtain ⟨hnodup, hmem, hlines⟩ := ih (q.assign rs) (nodup_lines_assign h q)
    refine ⟨hnodup, ?_, ?_⟩
    · intro r hr
      rcases hmem r hr with hr | hr
      · rcases mem_of_mem_assign hr with rfl | hr
        · exact Or.inr List.mem_cons_self
        · exact Or.inl hr
      · exact Or.inr (List.mem_cons_of_mem _ hr)
    · intro b
      have hb := hlines b
      rw [mem_lines_assign] at hb
      simp only [List.map_cons, List.mem_cons]
      grind

/-- Regions with different lines are sorted strictly. -/
theorem pairwise_mergeSort {rs : List FoldingRegion} (h : (rs.map lines).Nodup) :
    (rs.mergeSort precedes).Pairwise fun r r' =>
      r.startLine < r'.startLine ∨ r.startLine = r'.startLine ∧ r.endLine < r'.endLine := by
  have hsorted : (rs.mergeSort precedes).Pairwise fun r r' => precedes r r' = true := by
    apply List.pairwise_mergeSort
    · intro p q r hpq hqr
      simp only [precedes, Bool.or_eq_true, Bool.and_eq_true, decide_eq_true_eq] at *
      omega
    · intro p q
      simp only [precedes, Bool.or_eq_true, Bool.and_eq_true, decide_eq_true_eq]
      omega
  have hdistinct : (rs.mergeSort precedes).Pairwise fun r r' => r.lines ≠ r'.lines := by
    rw [← List.pairwise_map]
    exact ((List.mergeSort_perm rs precedes).map lines).nodup_iff.mpr h
  apply (hsorted.and hdistinct).imp
  rintro r r' ⟨hle, hne⟩
  simp only [precedes, Bool.or_eq_true, Bool.and_eq_true, decide_eq_true_eq] at hle
  simp only [lines, ne_eq, Prod.mk.injEq, not_and] at hne
  omega

end FoldingRegion

/-! ### Documents -/

namespace Analysis

variable {files : FileTree} {a : Analysis}

/-- Folding regions are nested. Of the regions of a document, be they of blocks, of conditions or of
comments, no two of one kind cross. They are listed without repetition in the order of their first
lines and then of their last ones, and each runs from one line of the document to a later one. -/
theorem folding_nested (h : a.IsOf files) :
    (∀ r ∈ a.foldingFor none, ∀ r' ∈ a.foldingFor none, r.kind = r'.kind →
      ¬(r.startLine < r'.startLine ∧ r'.startLine < r.endLine ∧ r.endLine < r'.endLine)) ∧
    (a.foldingRegions.Pairwise fun r r' =>
      r.startLine < r'.startLine ∨ r.startLine = r'.startLine ∧ r.endLine < r'.endLine) ∧
    (∀ r ∈ a.foldingRegions, r ∈ a.foldingFor none ∧ r.startLine < r.endLine ∧
      r.endLine < (Text.splitOn '\n' a.text.toList).length) ∧
    ∀ r ∈ a.foldingFor none, ∃ r' ∈ a.foldingRegions,
      r'.startLine = r.startLine ∧ r'.endLine = r.endLine := by
  obtain ⟨hnodup, hmem, hlines⟩ := FoldingRegion.foldl_assign
    ((a.foldingFor none).filter fun r => r.startLine < r.endLine) [] List.nodup_nil
  refine ⟨?_, FoldingRegion.pairwise_mergeSort hnodup, ?_, ?_⟩
  · intro r hr r' hr' hkind
    exact h.not_crosses hr hr' hkind
  · intro r hr
    rcases hmem r (List.mem_mergeSort.mp hr) with hr | hr
    · cases hr
    · have hr := (List.mem_filter.mp hr).1
      exact ⟨hr, h.bounds_of_mem_foldingFor hr⟩
  · intro r hr
    have hproper := (h.bounds_of_mem_foldingFor hr).1
    have hlisted := (hlines r.lines).mpr
      (Or.inr (List.mem_map_of_mem (List.mem_filter.mpr ⟨hr, decide_eq_true hproper⟩)))
    obtain ⟨r', hr', hsame⟩ := List.mem_map.mp hlisted
    exact ⟨r', List.mem_mergeSort.mpr hr', Prod.mk.inj hsame⟩

/-- A statement with two branches, of which the second one has the lines of a comment in it, and a
condition within another. -/
theorem folding_nested_branches :
    let files : FileTree := { cwd := Path.ofString "/ws" }
    let src : Scan.Source := ⟨"untitled:a", none, []⟩
    let a := (run files {} {} src
      "IF A\nTHEN\nELSE /*\n*/ FIN;\n#ifdef X\n#ifdef Y\n#endif\n#endif" none).1
    let region (first last : Nat) (kind : FoldingKind) (label : Option String) : FoldingRegion :=
      ⟨"untitled:a", first, last, kind, label⟩
    a.IsOf files ∧
    a.foldingFor none = [region 2 3 .comment none, region 5 6 .preproc (some "#ifdef Y"),
      region 4 7 .preproc (some "#ifdef X"), region 0 2 .region (some "IF"),
      region 2 3 .region (some "IF")] ∧
    (∀ r ∈ a.foldingFor none, ∀ r' ∈ a.foldingFor none, r.kind = r'.kind →
      ¬(r.startLine < r'.startLine ∧ r'.startLine < r.endLine ∧ r.endLine < r'.endLine)) ∧
    ∃ r ∈ a.foldingRegions, r.startLine = 2 ∧ r.endLine = 3 := by
  intro files src a region
  have hsrc : Scan.Source.ofUri files "untitled:a" = .ok src := by decide +kernel
  have ha : a.IsOf files := .text hsrc {} {} _ none
  have hregions : a.foldingFor none = [region 2 3 .comment none,
      region 5 6 .preproc (some "#ifdef Y"), region 4 7 .preproc (some "#ifdef X"),
      region 0 2 .region (some "IF"), region 2 3 .region (some "IF")] := by decide +kernel
  obtain ⟨hnested, -, -, hlisted⟩ := folding_nested ha
  refine ⟨ha, hregions, hnested, ?_⟩
  apply hlisted (region 2 3 .comment none)
  rw [hregions]
  exact List.mem_cons_self

end Analysis

end Pearl
