import Pearl.Proofs.ExpandedTokens
import Pearl.Proofs.SemanticTokenStream

namespace Pearl

/-! ### Line starts and offsets -/

namespace Text

theorem lineStartsFrom_append (offset : Nat) (a b : List Char) :
    lineStartsFrom offset (a ++ b) =
      lineStartsFrom offset a ++ lineStartsFrom (offset + a.length) b := by
  induction a generalizing offset with
  | nil => simp [lineStartsFrom]
  | cons c a ih =>
    have hlength : offset + (c :: a).length = offset + 1 + a.length := by
      simp [Nat.add_assoc, Nat.add_comm 1]
    simp only [List.cons_append, lineStartsFrom, ih, hlength]
    split <;> simp

theorem length_lineStartsFrom (offset : Nat) (cs : List Char) :
    (lineStartsFrom offset cs).length = cs.count '\n' := by
  induction cs generalizing offset with
  | nil => simp [lineStartsFrom]
  | cons c cs ih =>
    by_cases hc : c = '\n'
    · simp [lineStartsFrom, hc, ih]
    · simp [lineStartsFrom, hc, ih]

/-- Line starts lie behind the start of a text, and not behind its end. -/
theorem bounds_of_mem_lineStartsFrom {offset n : Nat} {cs : List Char}
    (h : n ∈ lineStartsFrom offset cs) : offset < n ∧ n ≤ offset + cs.length := by
  induction cs generalizing offset with
  | nil => simp [lineStartsFrom] at h
  | cons c cs ih =>
    simp only [lineStartsFrom] at h
    have hrest : n ∈ lineStartsFrom (offset + 1) cs →
        offset < n ∧ n ≤ offset + (c :: cs).length := by
      intro hn
      have hb := ih hn
      simp only [List.length_cons]
      omega
    split at h
    · rcases List.mem_cons.mp h with rfl | h
      · simp
      · exact hrest h
    · exact hrest h

end Text

namespace Analysis

variable {files : FileTree} {a : Analysis}

theorem IsOf.lineStarts_eq (h : a.IsOf files) :
    a.lineStarts = (Text.lineStarts a.text.toList).toArray := by
  obtain ⟨options, cache, src, version, -, ha⟩ := h.exists_run
  generalize a.text = text at ha ⊢
  subst ha
  rfl

/-- Whatever is asked for, the answer is an offset of the text. -/
theorem IsOf.offsetAt_le (h : a.IsOf files) (line character : Int) :
    a.offsetAt line character ≤ a.text.length := by
  cases line with
  | negSucc n => simp [offsetAt]
  | ofNat n =>
    have hnext : ∀ next, a.lineStarts[n + 1]? = some next → next ≤ a.text.length := by
      intro next hget
      rw [h.lineStarts_eq] at hget
      have hmem : next ∈ Text.lineStartsFrom 0 a.text.toList := by
        apply List.mem_of_getElem?
        simpa [Text.lineStarts] using hget
      have hb := Text.bounds_of_mem_lineStartsFrom hmem
      simpa only [Nat.zero_add, String.length_toList] using hb.2
    simp only [offsetAt]
    split
    · exact Nat.le_refl _
    · cases hget : a.lineStarts[n + 1]? with
      | none => exact Nat.min_le_right _ _
      | some next =>
        have hle := hnext next hget
        simp only
        omega

/-- The line and the column that some characters lead to are those of their number. -/
theorem IsOf.offsetAt_advance (h : a.IsOf files) {before after : List Char}
    (htext : a.text.toList = before ++ after) :
    a.offsetAt (Position.zero.advance before).line (Position.zero.advance before).column =
      before.length := by
  obtain ⟨start, hstart, hcolumn⟩ := Position.column_advance .zero 0 rfl before after
  have hline : (Position.zero.advance before).line = before.count '\n' := by
    simp [Position.line_advance, Position.zero]
  have hoffset : (Position.zero.advance before).offset = before.length := by
    simp [Position.offset_advance, Position.zero]
  have hget : a.lineStarts[before.count '\n']? = some start := by
    rw [h.lineStarts_eq, htext]
    simpa [Text.lineStarts, Position.zero] using hstart
  -- The line does not end before the place, as the next one starts behind it.
  have hnext : ∀ next, a.lineStarts[before.count '\n' + 1]? = some next →
      before.length < next := by
    intro next hget
    rw [h.lineStarts_eq, htext] at hget
    have hmem : next ∈ Text.lineStartsFrom (0 + before.length) after := by
      apply List.mem_of_getElem?
      have hcount := Text.length_lineStartsFrom 0 before
      have hlast : (Text.lineStartsFrom 0 (before ++ after))[before.count '\n']? = some next := by
        simpa [Text.lineStarts] using hget
      rw [Text.lineStartsFrom_append, List.getElem?_append_right (by omega), hcount] at hlast
      exact hlast
    have hb := Text.bounds_of_mem_lineStartsFrom hmem
    omega
  have hlength : before.length ≤ a.text.length := by
    have hall : a.text.toList.length = before.length + after.length := by simp [htext]
    simp only [String.length_toList] at hall
    omega
  rw [hline]
  simp only [offsetAt, hget]
  cases hget' : a.lineStarts[before.count '\n' + 1]? with
  | none =>
    simp only [Int.toNat_natCast]
    omega
  | some next =>
    have hlt := hnext next hget'
    simp only [Int.toNat_natCast]
    omega

end Analysis

/-! ### Tokens in the order of their spans -/

namespace Token

variable {P : Token → Prop} {ts : List Token} {marker t : Token}

theorem covers_iff (t : Token) (o : Nat) :
    t.covers o = true ↔ t.start.offset ≤ o ∧ o < t.start.offset + max t.length 1 := by
  simp only [covers, spanCovers, Bool.and_eq_true, decide_eq_true_eq]
  omega

theorem Replaces.covers_eq (h : marker.Replaces t) (o : Nat) : t.covers o = marker.covers o := by
  simp [covers, h.start, h.length]

theorem Replaces.isOwn_eq_false (h : marker.Replaces t) (hm : marker.expanded.isSome = true) :
    t.isOwn = false := by
  have hkind : t.kind ≠ .reference := by
    intro hk
    have htrivia := h.kind
    simp [hk, TokenKind.isTrivia] at htrivia
  have hsome : t.expanded.isSome = true := by
    rw [h.expanded]
    exact hm
  simp [isOwn, hkind, Option.isNone_eq_false_iff.mpr hsome]

theorem filter_isOwn_eq_nil {inner : List Token} (hm : marker.expanded.isSome = true)
    (hinner : ∀ t ∈ inner, marker.Replaces t) : inner.filter isOwn = [] := by
  apply List.filter_eq_nil_iff.mpr
  intro t ht
  simp [(hinner t ht).isOwn_eq_false hm]

/-- Tokens stay behind their references where a test holds for the ones as for the others. -/
theorem Grouped.filter (h : Grouped P ts) {p : Token → Bool}
    (hp : ∀ marker t, marker.Replaces t → p t = p marker) : Grouped P (ts.filter p) := by
  induction h with
  | nil => exact .nil
  | @own t ts ht _ ih =>
    rw [List.filter_cons]
    split
    · exact .own ht ih
    · exact ih
  | @reference marker inner ts hk hP hinner _ ih =>
    rw [List.filter_cons, List.filter_append]
    cases hm : p marker with
    | true =>
      have hall : inner.filter p = inner := by
        apply List.filter_eq_self.mpr
        intro t ht
        rw [hp marker t (hinner t ht), hm]
      rw [hall]
      exact .reference hk hP hinner ih
    | false =>
      have hnone : inner.filter p = [] := by
        apply List.filter_eq_nil_iff.mpr
        intro t ht
        simp [hp marker t (hinner t ht), hm]
      rw [hnone]
      exact ih

/-- What a token covers is covered by one of the document's own. -/
theorem Grouped.exists_isOwn (h : Grouped P ts) (ht : t ∈ ts) :
    ∃ u ∈ ts, u.isOwn = true ∧ ∀ o : Nat, t.covers o = u.covers o := by
  cases hown : t.isOwn with
  | true => exact ⟨t, ht, hown, fun _ => rfl⟩
  | false =>
    obtain ⟨before, after, hts⟩ := List.append_of_mem ht
    obtain ⟨front, marker, between, hbefore, hk, -, hreplaces⟩ := h.exists_marker hts hown
    have hmem : marker ∈ ts := by simp [hts, hbefore]
    refine ⟨marker, hmem, by simp [isOwn, hk], ?_⟩
    intro o
    exact (hreplaces t (by simp)).covers_eq o

/-- Tokens that are not empty and lie behind one another, those of replacement texts behind their
references. -/
structure Ranked (ts : List Token) : Prop where
  grouped : Grouped (·.expanded.isSome = true) ts
  ordered : (ts.filter isOwn).Pairwise fun t t' => t.start.offset + t.length ≤ t'.start.offset
  nonempty : ∀ t ∈ ts.filter isOwn, 0 < t.length

end Token

/-! ### The search for a token -/

namespace Analysis

/-- The token is one of the document's own and covers the offset. -/
def isFoundAt (offset : Nat) (t : LinkedToken) : Bool := t.token.isOwn && t.token.covers offset

theorem findCovering_append {offset : Nat} {xs : List LinkedToken}
    (h : ∀ t ∈ xs, t.token.covers offset = false ∧ ¬offset < t.token.start.offset)
    (ys : List LinkedToken) : findCovering offset (xs ++ ys) = findCovering offset ys := by
  induction xs with
  | nil => simp
  | cons t xs ih =>
    obtain ⟨hcovers, hstart⟩ := h t List.mem_cons_self
    have hrest := ih fun t' ht' => h t' (List.mem_cons_of_mem t ht')
    simp [findCovering, hcovers, hstart, hrest]

/-- Behind a token that ends behind the offset, none covers it. -/
theorem filter_isFoundAt_eq_nil {offset stop : Nat} {xs : List LinkedToken} (hstop : offset < stop)
    (h : ∀ t ∈ (xs.map (·.token)).filter Token.isOwn, stop ≤ t.start.offset) :
    xs.filter (isFoundAt offset) = [] := by
  apply List.filter_eq_nil_iff.mpr
  intro t ht hfound
  simp only [isFoundAt, Bool.and_eq_true, Token.covers_iff] at hfound
  have hmem : t.token ∈ (xs.map (·.token)).filter Token.isOwn :=
    List.mem_filter.mpr ⟨List.mem_map_of_mem ht, hfound.1⟩
  have hle := h t.token hmem
  omega

/-- One token at the head of the search, of which all that is behind it lies behind its span: either
it ends the search, or the search goes on as if it were not there. -/
theorem filter_isFoundAt_cons {offset : Nat} {t : LinkedToken} {xs : List LinkedToken}
    (ys : List LinkedToken)
    (hown : t.token.isOwn = true) (hpos : 0 < t.token.length)
    (hxs : xs.filter (isFoundAt offset) = ys.filter (isFoundAt offset))
    (hlater : ∀ u ∈ (ys.map (·.token)).filter Token.isOwn,
      t.token.start.offset + t.token.length ≤ u.start.offset)
    (hrest : t.token.covers offset = false → ¬offset < t.token.start.offset →
      ys.filter (isFoundAt offset) = (findCovering offset xs).toList) :
    (t :: xs).filter (isFoundAt offset) = (findCovering offset (t :: xs)).toList := by
  have hnone : offset < t.token.start.offset + t.token.length →
      xs.filter (isFoundAt offset) = [] := by
    intro hlt
    rw [hxs]
    exact filter_isFoundAt_eq_nil hlt hlater
  cases hcovers : t.token.covers offset with
  | true =>
    have hspan := (Token.covers_iff t.token offset).mp hcovers
    have hempty := hnone (by omega)
    have hkeep : (t :: xs).filter (isFoundAt offset) = t :: xs.filter (isFoundAt offset) := by
      simp [isFoundAt, hcovers, hown]
    rw [hkeep, hempty]
    simp [findCovering, hcovers]
  | false =>
    have hskip : (t :: xs).filter (isFoundAt offset) = xs.filter (isFoundAt offset) := by
      simp [isFoundAt, hcovers]
    by_cases hstart : offset < t.token.start.offset
    · have hempty := hnone (by omega)
      simp [findCovering, hcovers, hstart, hskip, hempty]
    · have hfound := hrest hcovers hstart
      rw [hskip, hxs, hfound]
      simp [findCovering, hcovers, hstart]

/-- The search, although it ends early, finds the one token of the document's own that covers an
offset. The induction is on the groups: the tokens of a replacement text are passed over together,
as they have the span of their reference. -/
theorem filter_isFoundAt_eq (offset : Nat) {xs : List LinkedToken}
    (h : Token.Ranked (xs.map (·.token))) :
    xs.filter (isFoundAt offset) = (findCovering offset xs).toList := by
  obtain ⟨hgrouped, hordered, hpos⟩ := h
  generalize hts : xs.map (·.token) = ts at hgrouped hordered hpos
  induction hgrouped generalizing xs with
  | nil =>
    have hnil : xs = [] := List.map_eq_nil_iff.mp hts
    simp [hnil, findCovering]
  | @own t ts ht _ ih =>
    obtain ⟨x, xs, rfl, rfl, rfl⟩ := List.map_eq_cons_iff.mp hts
    rw [List.filter_cons_of_pos ht] at hordered hpos
    obtain ⟨hlater, hordered⟩ := List.pairwise_cons.mp hordered
    apply filter_isFoundAt_cons xs ht (hpos _ List.mem_cons_self) rfl hlater
    intro _ _
    exact ih rfl hordered fun u hu => hpos u (List.mem_cons_of_mem _ hu)
  | @reference marker inner ts hk hm hinner _ ih =>
    obtain ⟨x, rest, rfl, rfl, hrest⟩ := List.map_eq_cons_iff.mp hts
    obtain ⟨is, ys, rfl, rfl, rfl⟩ := List.map_eq_append_iff.mp hrest
    have hmarker : x.token.isOwn = true := by simp [Token.isOwn, hk]
    have hreplaces : ∀ u ∈ is, x.token.Replaces u.token :=
      fun u hu => hinner u.token (List.mem_map_of_mem hu)
    have hfound : is.filter (isFoundAt offset) = [] := by
      apply List.filter_eq_nil_iff.mpr
      intro u hu
      simp [isFoundAt, (hreplaces u hu).isOwn_eq_false hm]
    rw [List.filter_cons_of_pos hmarker, List.filter_append,
      Token.filter_isOwn_eq_nil hm hinner, List.nil_append] at hordered hpos
    obtain ⟨hlater, hordered⟩ := List.pairwise_cons.mp hordered
    apply filter_isFoundAt_cons ys hmarker (hpos _ List.mem_cons_self) _ hlater
    · intro hcovers hstart
      have hpassed : findCovering offset (is ++ ys) = findCovering offset ys := by
        apply findCovering_append
        intro u hu
        have hsame := hreplaces u hu
        rw [hsame.covers_eq, hsame.start]
        exact ⟨hcovers, hstart⟩
      rw [hpassed]
      exact ih rfl hordered fun u hu => hpos u (List.mem_cons_of_mem _ hu)
    · rw [List.filter_append, hfound, List.nil_append]

variable {files : FileTree} {a : Analysis}

def own (a : Analysis) : List Token := (a.documentTokens.map (·.token)).filter Token.isOwn

theorem map_token_documentTokens (a : Analysis) :
    a.documentTokens.map (·.token) = (a.tokens.map (·.token)).filter (·.uri = a.uri) := by
  rw [documentTokens, List.filter_map]
  rfl

theorem own_eq_filter (a : Analysis) :
    a.own = (a.tokens.map (·.token)).filter (Scan.isOwnIn a.uri) := by
  rw [own, map_token_documentTokens, List.filter_filter]
  apply List.filter_congr
  intro t _
  simp [Scan.isOwnIn, Bool.and_comm]

theorem mem_own {t : LinkedToken} (ht : t ∈ a.documentTokens) (hown : t.token.isOwn = true) :
    t.token ∈ a.own := List.mem_filter.mpr ⟨List.mem_map_of_mem ht, hown⟩

/-- The own tokens of a document write its text. -/
theorem IsOf.tiling (h : a.IsOf files) : Tiling .zero a.text.toList a.own := by
  obtain ⟨σ, src, cache, part, hbars, huri, htokens⟩ := h.exists_document
  have htiling := Scan.document_tiling σ src hbars cache part a.text.toList
  rw [← htokens, huri] at htiling
  rw [own_eq_filter]
  exact htiling

theorem IsOf.ranked (h : a.IsOf files) : Token.Ranked (a.documentTokens.map (·.token)) := by
  obtain ⟨σ, src, cache, part, hbars, huri, htokens⟩ := h.exists_document
  obtain ⟨ts, ds, hts, hgrouped, -⟩ :=
    Scan.Moment.yields_outcome σ (.first σ src cache part a.text.toList)
  have hall : a.tokens.map (·.token) = ts := htokens.trans hts
  refine ⟨?_, h.tiling.pairwise.imp And.right, fun t ht => (h.tiling.written t ht).1⟩
  rw [map_token_documentTokens, hall]
  apply Token.Grouped.filter
  · apply hgrouped.mono
    intro t hmarks
    obtain ⟨m, l, x, -, -, rfl⟩ := hmarks
    simp [Scan.State.markerHere]
  · intro marker t ht
    simp [ht.uri]

/-- Whatever line and character are asked for, negative ones and those behind the end of a line or
of the text among them, they stand for an offset of the text. The token that is found is the only
one of the document's own that covers it, and none is found only where no token of the document
does. From any offset within a token its line and column lead back to the offset and to the token
itself. -/
theorem tokenAt_offsetAt (h : a.IsOf files) :
    (∀ line character : Int,
      a.offsetAt line character ≤ a.text.length ∧
      a.documentTokens.filter (fun t =>
        t.token.isOwn && t.token.covers (a.offsetAt line character)) =
        (a.tokenAt line character).toList ∧
      (a.tokenAt line character = none ↔
        ∀ t ∈ a.documentTokens, t.token.covers (a.offsetAt line character) = false)) ∧
    ∀ t ∈ a.documentTokens, t.token.isOwn = true →
      ∀ o, t.token.start.offset ≤ o → o < t.token.start.offset + t.token.length →
        let place := Position.zero.advance (a.text.toList.take o)
        place.offset = o ∧ a.offsetAt place.line place.column = o ∧
          a.tokenAt place.line place.column = some t := by
  have hranked := h.ranked
  have hfilter : ∀ o, a.documentTokens.filter (isFoundAt o) =
      (findCovering o a.documentTokens).toList := fun o => filter_isFoundAt_eq o hranked
  refine ⟨?_, ?_⟩
  · intro line character
    refine ⟨h.offsetAt_le line character, hfilter _, ?_⟩
    have hempty : a.tokenAt line character = none ↔
        a.documentTokens.filter (isFoundAt (a.offsetAt line character)) = [] := by
      rw [hfilter, tokenAt, Option.toList_eq_nil_iff]
    rw [hempty, List.filter_eq_nil_iff]
    constructor
    · intro hnone t ht
      obtain ⟨u, hu, hown, hsame⟩ := hranked.grouped.exists_isOwn (List.mem_map_of_mem ht)
      obtain ⟨x, hx, rfl⟩ := List.mem_map.mp hu
      have hx' := hnone x hx
      rw [hsame]
      simpa [isFoundAt, hown] using hx'
    · intro hnone t ht
      simp [isFoundAt, hnone t ht]
  · intro t ht hown o hstart hstop place
    have hbound : o ≤ a.text.toList.length := by
      have hb := h.tiling.bounds _ (mem_own ht hown)
      have hzero : Position.zero.offset = 0 := rfl
      omega
    have hlength : (a.text.toList.take o).length = o := List.length_take_of_le hbound
    have hoffset : a.offsetAt place.line place.column = o := by
      rw [h.offsetAt_advance (List.take_append_drop o a.text.toList).symm, hlength]
    refine ⟨?_, hoffset, ?_⟩
    · simp [place, Position.offset_advance, Position.zero, hbound]
    · have hfound : t ∈ a.documentTokens.filter (isFoundAt o) := by
        apply List.mem_filter.mpr
        refine ⟨ht, ?_⟩
        simp only [isFoundAt, hown, Bool.true_and, Token.covers_iff]
        omega
      rw [hfilter, Option.mem_toList] at hfound
      rw [tokenAt, hoffset]
      exact hfound

/-- A place on the line feed within a comment, behind a file that is included. -/
theorem tokenAt_offsetAt_comment :
    let files : FileTree :=
      { entries := [(Path.ofString "/ws/b", { content := .text "/* d */ Y" })]
        cwd := Path.ofString "/ws" }
    let src : Scan.Source :=
      ⟨"file:///ws/a", some (Path.ofString "/ws/a"), [Path.ofString "/ws/a"]⟩
    let a := (run files {} {} src "#include \"b\"\n/* c\n*/ X" none).1
    a.IsOf files ∧
    a.offsetAt 1 4 = 17 ∧
    (a.tokenAt 1 4).map (·.token) =
      some ⟨.comment, "/* c\n*/", "file:///ws/a", ⟨1, 0, 13⟩, 7, none⟩ := by
  intro files src a
  have hsrc : Scan.Source.ofUri files "file:///ws/a" = .ok src := by decide +kernel
  have ha : a.IsOf files := .text hsrc {} {} _ none
  have hmem : (⟨.comment, "/* c\n*/", "file:///ws/a", ⟨1, 0, 13⟩, 7, none⟩ : Token) ∈
      a.documentTokens.map (·.token) := by decide +kernel
  have hplace : Position.zero.advance (a.text.toList.take 17) = ⟨1, 4, 17⟩ := by decide +kernel
  obtain ⟨t, ht, htoken⟩ := List.mem_map.mp hmem
  obtain ⟨-, hoffset, hfound⟩ := (tokenAt_offsetAt ha).2 t ht (by rw [htoken]; decide) 17
    (by rw [htoken]; decide) (by rw [htoken]; decide)
  rw [hplace] at hoffset hfound
  refine ⟨ha, hoffset, ?_⟩
  have hsome : a.tokenAt 1 4 = some t := hfound
  simp [hsome, htoken]

end Analysis

end Pearl
