import Pearl.Proofs.MacroNesting

namespace Pearl

/-! ### Tokens behind their references -/

/-- A token of the replacement text that is put in place of a reference. -/
structure Token.Replaces (marker t : Token) : Prop where
  uri : t.uri = marker.uri
  start : t.start = marker.start
  length : t.length = marker.length
  expanded : t.expanded = marker.expanded
  kind : t.kind.isTrivia = false

/-- Tokens of which those of replacement texts stand right behind their references, which have a
property. -/
inductive Token.Grouped (P : Token → Prop) : List Token → Prop where
  | nil : Grouped P []
  | own {t : Token} {ts : List Token} (ht : t.isOwn = true) (h : Grouped P ts) :
      Grouped P (t :: ts)
  | reference {marker : Token} {inner ts : List Token} (hk : marker.kind = .reference)
      (hP : P marker) (hinner : ∀ t ∈ inner, marker.Replaces t) (h : Grouped P ts) :
      Grouped P (marker :: (inner ++ ts))

namespace Token

variable {P Q : Token → Prop} {ts ts' : List Token}

theorem Grouped.append (h : Grouped P ts) (h' : Grouped P ts') : Grouped P (ts ++ ts') := by
  induction h with
  | nil => exact h'
  | own ht _ ih => exact .own ht ih
  | reference hk hP hinner _ ih =>
    rw [List.cons_append, List.append_assoc]
    exact .reference hk hP hinner ih

theorem Grouped.mono (h : Grouped P ts) (hPQ : ∀ t, P t → Q t) : Grouped Q ts := by
  induction h with
  | nil => exact .nil
  | own ht _ ih => exact .own ht ih
  | reference hk hP hinner _ ih => exact .reference hk (hPQ _ hP) hinner ih

theorem grouped_of_isOwn (h : ∀ t ∈ ts, t.isOwn = true) : Grouped P ts := by
  induction ts with
  | nil => exact .nil
  | cons t ts ih =>
    exact .own (h t List.mem_cons_self) (ih fun t' ht' => h t' (List.mem_cons_of_mem _ ht'))

/-- Between a token of a replacement text and its reference there are only tokens of the same
replacement text. -/
theorem Grouped.exists_marker (h : Grouped P ts) {before after : List Token} {t : Token}
    (hts : ts = before ++ t :: after) (ht : t.isOwn = false) :
    ∃ front marker between, before = front ++ marker :: between ∧ marker.kind = .reference ∧
      P marker ∧ ∀ u ∈ between ++ [t], marker.Replaces u := by
  induction h generalizing before with
  | nil => cases before <;> cases hts
  | @own own ts hown _ ih =>
    cases before with
    | nil =>
      cases hts
      rw [hown] at ht
      cases ht
    | cons b before =>
      obtain ⟨rfl, rfl⟩ := List.cons.inj hts
      obtain ⟨front, marker, between, rfl, h⟩ := ih rfl
      exact ⟨own :: front, marker, between, rfl, h⟩
  | @reference marker inner ts hk hP hinner _ ih =>
    cases before with
    | nil =>
      cases hts
      rw [isOwn, hk] at ht
      simp at ht
    | cons b before =>
      obtain ⟨rfl, htail⟩ := List.cons.inj hts
      rcases List.append_eq_append_iff.mp htail with ⟨rest, rfl, hrest⟩ | ⟨rest, rfl, hrest⟩
      · obtain ⟨front, marker', between, rfl, h⟩ := ih hrest
        exact ⟨marker :: (inner ++ front), marker', between, by simp, h⟩
      · cases rest with
        | nil =>
          obtain ⟨front, marker', between, hfront, -⟩ := @ih [] hrest.symm
          exact absurd hfront (by simp)
        | cons r rest =>
          obtain ⟨rfl, -⟩ := List.cons.inj hrest
          refine ⟨[], marker, before, rfl, hk, hP, fun u hu => hinner u ?_⟩
          simp only [List.mem_append, List.mem_singleton] at hu
          simpa only [List.mem_append, List.mem_cons] using hu.imp_right .inl

end Token

namespace Scan

variable {σ : Setting} {src : Source} {nested : Option Reader} {s s' s'' : State}

namespace State

/-! ### Pieces without macros -/

/-- One state has left behind more than another: tokens of its own, and findings other than that
macros are nested too deeply. -/
def Continues (s s' : State) : Prop :=
  ∃ ts ds, s'.tokens.toList = s.tokens.toList ++ ts ∧ (∀ t ∈ ts, t.isOwn = true) ∧
    s'.diagnostics.toList = s.diagnostics.toList ++ ds ∧ ∀ d ∈ ds, d.code ≠ "macro-depth"

theorem Continues.trans (h : Continues s s') (h' : Continues s' s'') : Continues s s'' := by
  obtain ⟨ts, ds, hts, hown, hds, hcode⟩ := h
  obtain ⟨ts', ds', hts', hown', hds', hcode'⟩ := h'
  refine ⟨ts ++ ts', ds ++ ds', by rw [hts', hts, List.append_assoc], ?_,
    by rw [hds', hds, List.append_assoc], ?_⟩
  · intro t ht
    exact (List.mem_append.mp ht).elim (hown t) (hown' t)
  · intro d hd
    exact (List.mem_append.mp hd).elim (hcode d) (hcode' d)

theorem continues_of_eq (htokens : s'.tokens = s.tokens)
    (hdiagnostics : s'.diagnostics = s.diagnostics) : Continues s s' :=
  ⟨[], [], by simp [htokens], by simp, by simp [hdiagnostics], by simp⟩

theorem continues_report (s : State) {d : Diagnostic} (hd : d.code ≠ "macro-depth") :
    Continues s (s.report d) :=
  ⟨[], [d], by simp [report], by simp, by simp [report], by simpa using hd⟩

theorem continues_fail (s : State) (code : String) (hcode : code ≠ "macro-depth") (f : Failure)
    (t : Token) : Continues s (s.fail code f t) :=
  continues_report s hcode

theorem continues_emit (s : State) {t : Token} (ht : t.isOwn = true) : Continues s (s.emit t) :=
  ⟨[t], [], by simp [emit], by simpa using ht, by simp [emit], by simp⟩

theorem continues_flushInactive (s : State) (uri : String) :
    Continues s (s.flushInactive uri) := by
  unfold flushInactive
  split
  · exact continues_of_eq rfl rfl
  · exact (continues_report s (by simp)).trans (continues_of_eq rfl rfl)

theorem continues_settle (s : State) (uri : String) : Continues s (s.settle uri) := by
  unfold settle
  split
  · exact continues_flushInactive s uri
  · exact continues_of_eq rfl rfl

theorem continues_plain (s : State) (uri : String) (l : Lexeme) :
    Continues s (s.plain uri l) := by
  have hemit : Continues s { (s.emit (s.tokenHere uri l.kind l.text)).advance l.text with
      part := Expansion.partAfter s.part l } :=
    (continues_emit s rfl).trans (continues_of_eq rfl rfl)
  have hfold : ∀ r : State, Continues r (r.foldLines uri s.position.line) := by
    intro r
    unfold foldLines
    split
    · exact continues_of_eq rfl rfl
    · exact continues_of_eq rfl rfl
  have hfault : ∀ (r : State) (t : Token), Continues r (r.reportFault t l.fault) := by
    intro r t
    cases l.fault with
    | none => exact continues_of_eq rfl rfl
    | some f => exact continues_report r f.code_ne_macroDepth
  exact (hemit.trans (hfold _)).trans (hfault _ _)

theorem continues_inactiveLine (s : State) (uri : String) (line : List Char) :
    Continues s (s.inactiveLine uri line) :=
  (continues_emit s (t := s.tokenHere uri .inactive line) rfl).trans (continues_of_eq rfl rfl)

theorem continues_openCondition (s : State) (t : Token) (outcome : Bool) :
    Continues s (s.openCondition t outcome) := continues_of_eq rfl rfl

/-- Directives that include no file; after a run has been given up there are no others. -/
theorem continues_carryOut (σ : Setting) (src : Source) (nested : Option Reader) (s : State)
    (t : Token) {d : Directive} (hd : s.failure = none → ∀ name, d ≠ .inclusion name) :
    Continues s (s.carryOut σ src nested t d) := by
  cases d with
  | define name value =>
    simp only [carryOut, State.define]
    split
    · exact continues_fail s _ (by decide) _ t
    · exact continues_of_eq rfl rfl
  | undef name =>
    simp only [carryOut, undefine]
    split
    · exact continues_of_eq rfl rfl
    · exact continues_report s (by simp [Diagnostic.atToken])
  | inclusion name =>
    cases hfailure : s.failure with
    | none => exact absurd rfl (hd hfailure name)
    | some e =>
      simp only [carryOut, includeFile, hfailure]
      exact continues_of_eq rfl rfl
  | condition name negated =>
    exact (continues_openCondition s t _).trans (continues_settle _ src.uri)
  | otherwise =>
    simp only [carryOut, turnCondition]
    split
    · exact continues_fail s _ (by decide) _ t
    · exact (continues_of_eq rfl rfl).trans (continues_settle _ src.uri)
  | endif =>
    simp only [carryOut, closeCondition]
    split
    · exact continues_fail s _ (by decide) _ t
    · rename_i opener conditions _
      have hconditions : Continues s { s with conditions } := continues_of_eq rfl rfl
      split
      · exact (hconditions.trans (continues_of_eq rfl rfl)).trans (continues_settle _ src.uri)
      · exact hconditions.trans (continues_settle _ src.uri)

theorem continues_refuse (s : State) (t : Token) (word : Option DirectiveWord)
    (e : DirectiveError) : Continues s (s.refuse t word e) := by
  have hfail := continues_fail s "invalid-directive" (by decide)
    (e.toFailure (some t.location)) t
  unfold refuse
  dsimp only
  split
  · exact hfail.trans (continues_openCondition _ t true)
  · exact hfail

theorem continues_finish (s : State) (uri : String) : Continues s (s.finish uri) := by
  have h : ∀ (openers : List Token) s, Continues s (openers.foldl reportUnclosed s) := by
    intro openers
    induction openers with
    | nil => exact fun s => continues_of_eq rfl rfl
    | cons t openers ih =>
      exact fun s => (continues_report s (by simp [Diagnostic.atToken])).trans (ih _)
  exact (continues_flushInactive s uri).trans (h _ _)

theorem Refuses.continues {t : Token} {code : String} (h : s.Refuses t code s')
    (ht : t.isOwn = true) (hcode : code ≠ "macro-depth") : Continues s s' := by
  obtain ⟨message, hdiagnostics⟩ := h.diagnostics
  refine ⟨[t], [.atToken .error code message t], by simp [h.tokens], by simpa using ht,
    by simp [hdiagnostics], by simpa [Diagnostic.atToken] using hcode⟩

end State

/-! ### Pieces -/

/-- What a piece leaves behind: the tokens of a reference, all that a file leaves behind, or tokens
of its own. -/
inductive Leaves (σ : Setting) (levels : Nat) (src : Source) (s : State) (text : List Char) :
    Piece → State → Prop where
  | reference {l : Lexeme} {m : Macro} (hm : Expansion.reference? s.macros [] l = some m) :
      Leaves σ levels src s text (.element l) (s.expand src.uri m l.text)
  | file {n : Nat} {line : List Char} {path : Path} {file : String} {s' : State}
      (hlevels : levels = n + 1) (hincludes : Includes σ src s line path file)
      (h : s.TakesIn (s.tokenHere src.uri .directive ('#' :: line))
        (Scan.text σ n (src.included path) file.toList (s.entering σ.files path)) s') :
      Leaves σ levels src s text (.directive ('#' :: line)) s'
  | own {p : Piece} {s' : State} (h : s.Continues s') : Leaves σ levels src s text p s'

theorem leaves_directive (σ : Setting) (levels : Nat) (src : Source) {line text rest : List Char}
    (hnext : Next σ.directives s text (.directive ('#' :: line)) rest) :
    Leaves σ levels src s text (.directive ('#' :: line))
      (s.take σ src (reader? σ levels) (.directive ('#' :: line))) := by
  by_cases hinclusion : s.failure = none ∧ s.conditions.active = true ∧
      wordOf? ('#' :: line) = some .inclusion
  · obtain ⟨hfailure, hactive, hword⟩ := hinclusion
    cases inclusionOutcome σ levels src hnext hfailure hactive hword with
    | malformed _ h => exact .own (h.continues rfl (by decide))
    | unlocated _ _ h =>
      rw [h]
      exact .own ((State.continues_emit s rfl).trans (State.continues_of_eq rfl rfl))
    | refused _ _ h => exact .own (h.continues rfl (by decide))
    | included hlevels hincludes h => exact .file hlevels hincludes h
  refine .own ?_
  simp only [State.take, State.directiveLine]
  split
  · exact State.continues_inactiveLine s src.uri _
  · rename_i hcounts
    unfold State.activeDirective
    dsimp only
    have hemit : ∀ kind, State.Continues s
        ((s.emit (s.tokenHere src.uri kind ('#' :: line))).advance ('#' :: line)) := by
      intro kind
      exact (State.continues_emit s rfl).trans (State.continues_of_eq rfl rfl)
    split
    · exact (hemit _).trans (State.continues_refuse _ _ _ _)
    · rename_i d hparse
      refine (hemit _).trans (State.continues_carryOut σ src _ _ _ ?_)
      rintro hfailure name rfl
      have hword := Directive.word_of_parse hparse
      simp only [hword] at hcounts
      refine hinclusion ⟨hfailure, ?_, hword⟩
      simpa [Directive.word, DirectiveWord.isConditional] using hcounts

theorem leaves_take (σ : Setting) (levels : Nat) (src : Source) {text rest : List Char} {p : Piece}
    (hnext : Next σ.directives s text p rest) :
    Leaves σ levels src s text p (s.take σ src (reader? σ levels) p) := by
  cases hnext with
  | newline | space => exact .own (State.continues_of_eq rfl rfl)
  | directive hd hs hline hrest =>
    exact leaves_directive σ levels src (.directive hd hs hline hrest)
  | inactive => exact .own (State.continues_inactiveLine s src.uri _)
  | element =>
    simp only [State.take, State.element]
    split
    · rename_i m hm
      exact .reference hm
    · exact .own (State.continues_plain s src.uri _)

/-! ### Whole documents -/

namespace Moment

def Refers (σ : Setting) (m : Moment) (l : Lexeme) (x : Macro) : Prop :=
  Expansion.reference? m.state.macros [] l = some x ∧
    ∃ rest, Next σ.directives m.state m.text (.element l) rest

/-- The token of a reference that is read from a moment on. -/
def Marks (σ : Setting) (m : Moment) (marker : Token) : Prop :=
  ∃ m' l x, Relation.ReflTransGen (Step σ) m m' ∧ m'.Refers σ l x ∧
    marker = m'.state.markerHere m'.src.uri x l.text

/-- From a moment on, a reference is read among so many macros that they may be too deep. -/
def Deepens (σ : Setting) (m : Moment) : Prop :=
  ∃ m' l x, Relation.ReflTransGen (Step σ) m m' ∧ m'.Refers σ l x ∧ 33 ≤ m'.state.macros.size

/-- One state has left behind more than another, as is right from a moment on: tokens behind their
references, and findings on macros that are too deep only if there are enough of them. -/
def Yields (σ : Setting) (m : Moment) (s s' : State) : Prop :=
  ∃ ts ds, s'.tokens.toList = s.tokens.toList ++ ts ∧ Token.Grouped (m.Marks σ) ts ∧
    s'.diagnostics.toList = s.diagnostics.toList ++ ds ∧
    ∀ d ∈ ds, d.code = "macro-depth" → m.Deepens σ

variable {m m' : Moment}

theorem Yields.trans (h : m.Yields σ s s') (h' : m.Yields σ s' s'') : m.Yields σ s s'' := by
  obtain ⟨ts, ds, hts, hgrouped, hds, hdeep⟩ := h
  obtain ⟨ts', ds', hts', hgrouped', hds', hdeep'⟩ := h'
  refine ⟨ts ++ ts', ds ++ ds', by rw [hts', hts, List.append_assoc], hgrouped.append hgrouped',
    by rw [hds', hds, List.append_assoc], ?_⟩
  intro d hd
  exact (List.mem_append.mp hd).elim (hdeep d) (hdeep' d)

/-- What is right from a later moment on is so from an earlier one. -/
theorem Yields.of_step (h : m'.Yields σ s s') (hstep : Step σ m m') : m.Yields σ s s' := by
  obtain ⟨ts, ds, hts, hgrouped, hds, hdeep⟩ := h
  refine ⟨ts, ds, hts, hgrouped.mono ?_, hds, ?_⟩
  · rintro t ⟨m'', l, x, hsteps, h⟩
    exact ⟨m'', l, x, hsteps.head hstep, h⟩
  · intro d hd hcode
    obtain ⟨m'', l, x, hsteps, h⟩ := hdeep d hd hcode
    exact ⟨m'', l, x, hsteps.head hstep, h⟩

theorem yields_of_continues (m : Moment) (h : s.Continues s') : m.Yields σ s s' := by
  obtain ⟨ts, ds, hts, hown, hds, hcode⟩ := h
  exact ⟨ts, ds, hts, Token.grouped_of_isOwn hown, hds, fun d hd hc => absurd hc (hcode d hd)⟩

/-- A reference leaves its own token behind, and right behind it those of the replacement text. -/
theorem yields_expand {l : Lexeme} {x : Macro} (h : m.Refers σ l x) :
    m.Yields σ m.state (m.state.expand m.src.uri x l.text) := by
  let marker := m.state.markerHere m.src.uri x l.text
  let e := Expansion.ofMacro m.state.macros m.state.part x
  have hgrouped : Token.Grouped (m.Marks σ)
      (marker :: (e.lexemes.map (State.expandedToken marker) ++ [])) := by
    refine .reference rfl ⟨m, l, x, .refl, h, rfl⟩ ?_ .nil
    intro t ht
    obtain ⟨l', hl', rfl⟩ := List.mem_map.mp ht
    exact ⟨rfl, rfl, rfl, rfl, Expansion.isTrivia_of_mem_ofText _ _ _ _ l' hl'⟩
  rw [List.append_nil] at hgrouped
  refine ⟨_, e.faults.map fun f => .atToken .error f.code f.message marker, ?_, hgrouped, ?_, ?_⟩
  · simp [State.expand, State.advance, marker, State.markerHere, e]
  · simp [State.expand, State.advance, marker, State.markerHere, e]
  · intro d hd hcode
    obtain ⟨f, hf, rfl⟩ := List.mem_map.mp hd
    have hmem := List.mem_of_find?_eq_some (Expansion.reference?_eq_some h.1).2.1
    have hsound := (Expansion.Stage.isSound_first hmem m.state.part).steps
      (Expansion.Stage.steps_ofMacro m.state.macros m.state.part x)
    exact ⟨m, l, x, .refl, h, hsound.size f hf hcode⟩

/-- By induction along the steps: a piece is followed by the rest of the text, and a file that is
included has moments of its own. -/
theorem yields_outcome (σ : Setting) (m : Moment) : m.Yields σ m.state (m.outcome σ) := by
  induction m using (wellFounded_step σ).induction with
  | _ m ih =>
    obtain ⟨levels, src, s, text⟩ := m
    cases text with
    | nil =>
      have hend : outcome σ ⟨levels, src, s, []⟩ = s.finish src.uri := by
        rw [outcome, text_eq_run, run_nil]
      rw [hend]
      exact yields_of_continues _ (State.continues_finish s src.uri)
    | cons c cs =>
      obtain ⟨p, rest, hnext⟩ := exists_next σ.directives s c cs
      have hstep : Step σ ⟨levels, src, s, c :: cs⟩ _ := .piece hnext
      rw [outcome_of_next levels src hnext]
      refine Yields.trans ?_ ((ih _ hstep).of_step hstep)
      have hleaves := leaves_take σ levels src hnext
      dsimp only
      generalize s.take σ src (reader? σ levels) p = s' at hleaves
      cases hleaves with
      | reference hm => exact yields_expand (m := ⟨levels, src, s, c :: cs⟩) ⟨hm, rest, hnext⟩
      | @file n line path file _ hlevels hincludes h =>
        subst hlevels
        have henter : Step σ ⟨n + 1, src, s, c :: cs⟩ _ := .enter hnext hincludes
        obtain ⟨ts, ds, hts, hgrouped, hds, hdeep⟩ := (ih _ henter).of_step henter
        refine ⟨s.tokenHere src.uri .directive ('#' :: line) :: ts, ds, ?_, .own rfl hgrouped, ?_,
          hdeep⟩
        · rw [h.tokens]
          simpa [State.entering, outcome] using hts
        · rw [h.diagnostics]
          simpa [State.entering, outcome] using hds
      | own h => exact yields_of_continues _ h

end Moment

/-- However macros refer to one another, a document is read to its end, and so is each expansion in
it: a macro that is being expanded is not expanded within itself. Every token of a replacement text
has the place of the reference it stands behind, is no trivia and carries the macro that is named
there; and macros are nested too deeply only where there are at least 33 of them. -/
theorem document_expansions_settled (σ : Setting) (src : Source) (cache : IncludeCache)
    (part : Part) (cs : List Char) :
    document σ src cache part cs = (Moment.first σ src cache part cs).outcome σ ∧
    (WellFounded fun m' m => Moment.Step σ m m') ∧
    (∀ m, Relation.ReflTransGen (Moment.Step σ) (.first σ src cache part cs) m →
      (∃ s, Relation.ReflTransGen (Moment.Step σ) m ⟨m.levels, m.src, s, []⟩ ∧
        m.outcome σ = s.finish m.src.uri) ∧
      ∀ l x, m.Refers σ l x →
        (WellFounded fun y' y => Expansion.Stage.Step m.state.macros y y') ∧
        (∃ e, Relation.ReflTransGen (Expansion.Stage.Step m.state.macros)
            (.first m.state.part x) ⟨[], e⟩ ∧
          (m.state.take σ m.src (reader? σ m.levels) (.element l)).tokens.toList =
            m.state.tokens.toList ++ m.state.markerHere m.src.uri x l.text ::
              e.lexemes.map (State.expandedToken (m.state.markerHere m.src.uri x l.text)) ∧
          (m.state.take σ m.src (reader? σ m.levels) (.element l)).part = e.part) ∧
        ∀ y, Relation.ReflTransGen (Expansion.Stage.Step m.state.macros)
            (.first m.state.part x) y →
          y.names.Nodup ∧ y.names.length ≤ Expansion.maxDepth) ∧
    (∀ before t after, (document σ src cache part cs).tokens.toList = before ++ t :: after →
      t.isOwn = false →
      ∃ front marker between m l x, before = front ++ marker :: between ∧
        Relation.ReflTransGen (Moment.Step σ) (.first σ src cache part cs) m ∧ m.Refers σ l x ∧
        marker = m.state.markerHere m.src.uri x l.text ∧ marker.kind = .reference ∧
        ∀ u ∈ between ++ [t], u.uri = marker.uri ∧ u.start = marker.start ∧
          u.length = marker.length ∧ u.expanded = some x ∧ u.kind.isTrivia = false) ∧
    ∀ d ∈ (document σ src cache part cs).diagnostics, d.code = "macro-depth" →
      ∃ m l x, Relation.ReflTransGen (Moment.Step σ) (.first σ src cache part cs) m ∧
        m.Refers σ l x ∧ 33 ≤ m.state.macros.size := by
  obtain ⟨ts, ds, hts, hgrouped, hds, hdeep⟩ :=
    Moment.yields_outcome σ (.first σ src cache part cs)
  have htokens : (document σ src cache part cs).tokens.toList = ts := hts
  have hdiagnostics : (document σ src cache part cs).diagnostics.toList = ds := hds
  refine ⟨rfl, Moment.wellFounded_step σ, ?_, ?_, ?_⟩
  · intro m hsteps
    refine ⟨Moment.exists_end σ m, ?_⟩
    intro l x href
    have htake : m.state.take σ m.src (reader? σ m.levels) (.element l) =
        m.state.expand m.src.uri x l.text := by
      simp only [State.take, State.element, href.1]
    have hmem := List.mem_of_find?_eq_some (Expansion.reference?_eq_some href.1).2.1
    refine ⟨Expansion.Stage.wellFounded_step _,
      ⟨_, Expansion.Stage.steps_ofMacro m.state.macros m.state.part x, ?_, ?_⟩, ?_⟩
    · rw [htake]
      simp [State.expand, State.advance, State.markerHere]
    · rw [htake]
      rfl
    · intro y hy
      have hsound := (Expansion.Stage.isSound_first hmem m.state.part).steps hy
      exact ⟨hsound.nodup, hsound.length_le⟩
  · intro before t after ht hown
    rw [htokens] at ht
    obtain ⟨front, marker, between, hbefore, -, ⟨m, l, x, hsteps, href, rfl⟩, hreplaces⟩ :=
      hgrouped.exists_marker ht hown
    refine ⟨front, _, between, m, l, x, hbefore, hsteps, href, rfl, rfl, ?_⟩
    intro u hu
    have h := hreplaces u hu
    exact ⟨h.uri, h.start, h.length, h.expanded, h.kind⟩
  · intro d hd hcode
    rw [← Array.mem_toList_iff, hdiagnostics] at hd
    exact hdeep d hd hcode

/-- Two macros that refer to each other, read by the name of the first. -/
theorem document_expansions_settled_mutual :
    let σ : Setting := { files := { cwd := Path.ofString "/ws" }
                         options := { predefined := [("A", "B"), ("B", "1 A")] } }
    let m := Moment.first σ ⟨"untitled:a", none, []⟩ {} .problem ['A']
    let l : Lexeme := ⟨.identifier, ['A'], none⟩
    let x : Macro := ⟨"A", "B", none⟩
    let marker := m.state.markerHere "untitled:a" x ['A']
    m.Refers σ l x ∧
    (∃ e : Expansion, e.lexemes = [⟨.number, ['1'], none⟩, l] ∧
      Relation.ReflTransGen (Expansion.Stage.Step m.state.macros) (.first .problem x) ⟨[], e⟩ ∧
      (m.state.take σ m.src (reader? σ m.levels) (.element l)).tokens.toList =
        [marker, State.expandedToken marker ⟨.number, ['1'], none⟩,
          State.expandedToken marker l]) := by
  intro σ m l x marker
  have hrefers : m.Refers σ l x := by
    have hnext : Next σ.directives m.state ['A'] (.element l) [] :=
      .element (by decide) (by decide) fun _ => ⟨by decide, rfl⟩
    exact ⟨by decide +kernel, [], hnext⟩
  obtain ⟨-, -, hmoments, -⟩ :=
    document_expansions_settled σ ⟨"untitled:a", none, []⟩ {} .problem ['A']
  obtain ⟨-, ⟨e, hsteps, htokens, -⟩, -⟩ := (hmoments m .refl).2 l x hrefers
  have hend : Relation.ReflTransGen (Expansion.Stage.Step m.state.macros) (.first .problem x)
      ⟨[], ⟨[⟨.number, ['1'], none⟩, l], .problem, []⟩⟩ := by
    refine .head (b := ⟨[⟨"B", ['1', ' ', 'A']⟩, ⟨"A", []⟩], ⟨[], .problem, []⟩⟩)
      (by decide +kernel) ?_
    refine .head (b := ⟨[⟨"B", [' ', 'A']⟩, ⟨"A", []⟩], ⟨[⟨.number, ['1'], none⟩], .problem, []⟩⟩)
      (by decide +kernel) ?_
    refine .head (b := ⟨[⟨"B", ['A']⟩, ⟨"A", []⟩], ⟨[⟨.number, ['1'], none⟩], .problem, []⟩⟩)
      (by decide +kernel) ?_
    refine .head (b := ⟨[⟨"B", []⟩, ⟨"A", []⟩], ⟨[⟨.number, ['1'], none⟩, l], .problem, []⟩⟩)
      (by decide +kernel) ?_
    refine .head (b := ⟨[⟨"A", []⟩], ⟨[⟨.number, ['1'], none⟩, l], .problem, []⟩⟩)
      (by decide +kernel) ?_
    exact .single (by decide +kernel)
  obtain rfl := Expansion.Stage.end_unique hsteps hend
  exact ⟨hrefers, _, rfl, hsteps, htokens⟩

end Scan

end Pearl
