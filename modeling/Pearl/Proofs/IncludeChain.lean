import Pearl.Proofs.ScanOutput

namespace Pearl

/-! ### Resolved paths -/

namespace Path

def IsResolved (p : Path) : Prop := p.anchor = .root ∧ ".." ∉ p.parts

theorem foldl_descend_of_not_mem (parts stack : List String) (h : ".." ∉ parts) :
    parts.foldl descend stack = parts.reverse ++ stack := by
  induction parts generalizing stack with
  | nil => rfl
  | cons part parts ih =>
    simp only [List.mem_cons, not_or] at h
    have hd : descend stack part = part :: stack := by rw [descend, if_neg (Ne.symm h.1)]
    rw [List.foldl_cons, hd, ih _ h.2]
    simp

theorem normalizeParts_of_not_mem (parts : List String) (h : ".." ∉ parts) :
    normalizeParts parts = parts := by
  rw [normalizeParts, foldl_descend_of_not_mem parts [] h]
  simp

theorem not_mem_foldl_descend (parts stack : List String) (h : ".." ∉ stack) :
    ".." ∉ parts.foldl descend stack := by
  induction parts generalizing stack with
  | nil => exact h
  | cons part parts ih =>
    apply ih
    unfold descend
    split
    · exact fun hm => h (List.mem_of_mem_tail hm)
    · rename_i hp
      simp [Ne.symm hp, h]

theorem isResolved_absolute (cwd p : Path) : (absolute cwd p).IsResolved := by
  refine ⟨rfl, fun h => ?_⟩
  exact not_mem_foldl_descend (cwd.join p).parts [] (by simp) (List.mem_reverse.mp h)

/-- A resolved path stands for itself in every directory. -/
theorem absolute_of_isResolved (cwd p : Path) (hp : p.IsResolved) : absolute cwd p = p := by
  have hj : cwd.join p = p := by rw [join, if_neg (by rw [hp.1]; decide)]
  obtain ⟨anchor, parts, hc⟩ := p
  obtain ⟨rfl, hn⟩ := hp
  have hparts : (cwd.join ⟨.root, parts, hc⟩).parts = parts := by rw [hj]
  simp only [absolute, Path.mk.injEq, true_and]
  rw [hparts, normalizeParts_of_not_mem parts hn]

end Path

theorem Path.intercalate_prefix (parts more : List String) :
    ("/".intercalate parts).toList <+: ("/".intercalate (parts ++ more)).toList := by
  induction parts with
  | nil => exact List.nil_prefix
  | cons part parts ih =>
    cases parts with
    | nil =>
      cases more with
      | nil => exact List.prefix_rfl
      | cons next more =>
        rw [List.cons_append, List.nil_append, toList_intercalate_cons,
          String.intercalate_singleton]
        exact List.prefix_append _ _
    | cons next parts =>
      rw [List.cons_append, List.cons_append, toList_intercalate_cons, toList_intercalate_cons]
      exact (List.prefix_append_right_inj _).mpr (List.cons_prefix_cons.mpr ⟨rfl, ih⟩)

namespace NameEncoding

variable {n : NameEncoding} {cs ds : List Char}

theorem fault?_eq_none :
    n.fault? cs = none ↔ (∀ c ∈ cs, n.holds c = true) ∧ '\x00' ∉ cs := by
  unfold fault?
  split
  · rename_i c rest h
    have hc : c ∈ cs := (List.dropWhile_sublist n.holds).subset (h ▸ List.mem_cons_self)
    have hnot : n.holds c = false := by
      have hhead := List.head?_dropWhile_not n.holds cs
      simpa [h] using hhead
    simp only [reduceCtorEq, false_iff, not_and]
    intro hall
    rw [hall c hc] at hnot
    cases hnot
  · rename_i h
    have hall : ∀ c ∈ cs, n.holds c = true := List.dropWhile_eq_nil_iff.mp h
    simpa using fun _ => hall

theorem fault?_of_prefix (h : cs <+: ds) (hds : n.fault? ds = none) : n.fault? cs = none := by
  rw [fault?_eq_none] at hds ⊢
  exact ⟨fun c hc => hds.1 c (h.subset hc), fun hc => hds.2 (h.subset hc)⟩

end NameEncoding

namespace FileTree

variable {t : FileTree} {p q : Path}

theorem isResolved_of_resolve (h : t.resolve p = .ok q) : q.IsResolved := by
  obtain ⟨-, rfl, -⟩ := resolve_eq_ok.mp h
  exact Path.isResolved_absolute t.cwd p

/-- A path that has been resolved is resolved to itself, if to anything. -/
theorem eq_of_resolve (hp : p.IsResolved) (h : t.resolve p = .ok q) : q = p := by
  obtain ⟨-, rfl, -⟩ := resolve_eq_ok.mp h
  exact Path.absolute_of_isResolved t.cwd p hp

/-- If a path without `..` can be written down, so can all places on the way to it. -/
theorem walk_root (t : FileTree) (stack parts : List String) (hparts : ".." ∉ parts)
    (hfault : t.names.fault? ('/' :: ("/".intercalate (stack.reverse ++ parts)).toList) = none) :
    t.walk .root stack parts = .ok () := by
  induction parts generalizing stack with
  | nil => rfl
  | cons part parts ih =>
    simp only [List.mem_cons, not_or] at hparts
    have hplace : Path.descendFrom .root stack part = part :: stack := by
      simp [Path.descendFrom, Path.descend, Ne.symm hparts.1]
    have hsplit : stack.reverse ++ part :: parts = (part :: stack).reverse ++ parts := by simp
    rw [hsplit] at hfault
    have hwritten :
        t.names.fault? ("/" ++ "/".intercalate (part :: stack).reverse).toList = none := by
      rw [String.toList_append]
      exact NameEncoding.fault?_of_prefix
        (List.cons_prefix_cons.mpr ⟨rfl, Path.intercalate_prefix _ parts⟩) hfault
    rw [walk, hplace, if_neg (Ne.symm hparts.1)]
    simp only [reduceCtorEq, if_false, hwritten]
    split
    · rfl
    · exact ih _ hparts.2 hfault

theorem resolve_of_resolve (h : t.resolve p = .ok q) : t.resolve q = .ok q := by
  have hq := isResolved_of_resolve h
  obtain ⟨-, -, hfault, hcircular⟩ := resolve_eq_ok.mp h
  have hwritten := hfault
  rw [Path.toList_toString_of_root q hq.1] at hwritten
  have hwalk : t.walk q.anchor [] q.parts = .ok () := by
    rw [hq.1]
    exact t.walk_root [] q.parts hq.2 hwritten
  exact resolve_eq_ok.mpr ⟨hwalk, (Path.absolute_of_isResolved t.cwd q hq).symm, hfault, hcircular⟩

/-- A file whose path has been resolved is found again under its own URI. -/
theorem locate_ofPath (h : t.resolve p = .ok q) : t.locate (Uri.ofPath q) = .ok q :=
  locate_eq_ok.mpr
    ⟨q, Uri.toPath_ofPath q (isResolved_of_resolve h).1, resolve_of_resolve h⟩

end FileTree

/-! ### Replacement texts -/

/-- The elements of a replacement text are no trivia. -/
theorem Expansion.isTrivia_of_mem_ofText (t : MacroTable) (active : List String) (part : Part)
    (cs : List Char) : ∀ l ∈ (ofText t active part cs).lexemes, l.kind.isTrivia = false := by
  fun_induction ofText t active part cs with
  | case1 => simp
  | case2 active part c cs hc ih => exact ih
  | case3 active part c cs hc l hlen m hm inner ihinner ihrest =>
    intro l' hl'
    rcases List.mem_append.mp hl' with hl' | hl'
    · unfold inner at hl'
      split at hl'
      · rename_i hd
        exact ihinner hd l' hl'
      · cases hl'
    · exact ihrest l' hl'
  | case4 active part c cs hc l hlen hm ih =>
    intro l' hl'
    rcases List.mem_append.mp hl' with hl' | hl'
    · split at hl'
      · cases hl'
      · rename_i hk
        rw [List.mem_singleton.mp hl']
        exact Bool.eq_false_iff.mpr hk
    · exact ih l' hl'

namespace Scan

/-! ### URIs of included files -/

/-- No file that may still be included from a text has the URI. -/
def Source.Bars (src : Source) (uri : String) : Prop :=
  ∀ p : Path, p.IsResolved → p ∉ src.chain → Uri.ofPath p ≠ uri

/-- A document is never included under its own URI, however the URI is written. -/
theorem bars_ofUri {files : FileTree} {uri : String} {src : Source}
    (h : Source.ofUri files uri = .ok src) : src.uri = uri ∧ src.Bars uri := by
  unfold Source.ofUri at h
  split at h
  · cases hlocate : files.locate uri with
    | error e =>
      rw [hlocate] at h
      cases h
    | ok path =>
      rw [hlocate] at h
      cases h
      obtain ⟨p, hp, hpath⟩ := FileTree.locate_eq_ok.mp hlocate
      refine ⟨rfl, ?_⟩
      intro q hq hmem he
      have hround := Uri.toPath_ofPath q hq.1
      rw [he, hp] at hround
      cases hround
      exact hmem (by simp [files.eq_of_resolve hq hpath])
  · rename_i hfile
    cases h
    refine ⟨rfl, ?_⟩
    intro q _ _ he
    exact hfile (he ▸ Uri.isFile_ofPath q)

theorem Source.Bars.included {src : Source} {uri : String} (h : src.Bars uri) (path : Path) :
    (src.included path).Bars uri := by
  intro q hq hmem
  exact h q hq fun hc => hmem (List.mem_append_left [path] hc)

/-! ### Locating a file to be included -/

theorem Setting.isResolved_of_locate {σ : Setting} {src : Source} {name : String} {path : Path}
    (h : σ.locate src name = .ok path) : path.IsResolved := by
  unfold locate at h
  split at h
  · cases h
  · exact σ.files.isResolved_of_resolve (FileTree.reach_eq_ok.mp h)

theorem State.includeFile_of_locate {σ : Setting} {src : Source} {s : State} {name : String}
    {path : Path} (hfailure : s.failure = none)
    (hlocate : σ.locate src (s.macros.substitute name) = .ok path) (nested : Option Reader)
    (t : Token) : s.includeFile σ src nested t name =
      s.includePath σ src nested t (s.macros.substitute name) path := by
  rw [includeFile, hfailure, hlocate]

theorem State.includeFile_of_error {σ : Setting} {src : Source} {s : State} {name : String}
    {e : DocumentError} (hfailure : s.failure = none)
    (hlocate : σ.locate src (s.macros.substitute name) = .error e) (nested : Option Reader)
    (t : Token) : s.includeFile σ src nested t name = { s with failure := some e } := by
  rw [includeFile, hfailure, hlocate]

/-- What can come of an inclusion: nothing, once the run is given up; a finding; or all that a
reader makes of a file that is not being read yet. -/
inductive State.Inclusion (src : Source) (nested : Option Reader) (s : State) (t : Token)
    (s' : State) : Prop where
  | givenUp {e : DocumentError} (h : s' = { s with failure := some e })
  | refused {asked : Array Path} {cache : IncludeCache} {name reason : String}
      {searched : Option String}
      (h : s' = { s with asked, cache }.failInclude t name reason searched)
  | read {read : Reader} {path : Path} {asked : Array Path} {cache : IncludeCache}
      {cs : List Char} (hread : read ∈ nested) (hpath : path.IsResolved)
      (hchain : path ∉ src.chain)
      (h : s' = s.leave (read (src.included path) cs { s with asked, cache }.enter))

theorem State.inclusion_includePath (σ : Setting) (src : Source) (nested : Option Reader)
    (s : State) (t : Token) (name : String) {path : Path} (hpath : path.IsResolved) :
    s.Inclusion src nested t (s.includePath σ src nested t name path) := by
  unfold includePath
  split
  · exact .refused rfl
  · rename_i hchain
    cases nested with
    | none => exact .refused rfl
    | some read =>
      dsimp only
      split
      · exact .refused rfl
      · exact .read rfl hpath (fun h => hchain (List.contains_iff_mem.mpr h)) rfl

theorem State.inclusion_includeFile (σ : Setting) (src : Source) (nested : Option Reader)
    (s : State) (t : Token) (name : String) :
    s.Inclusion src nested t (s.includeFile σ src nested t name) := by
  cases hfailure : s.failure with
  | some e =>
    have hsame : s.includeFile σ src nested t name = s := by simp only [includeFile, hfailure]
    exact .givenUp (e := e) (hsame.trans (by rw [← hfailure]))
  | none =>
    cases hlocate : σ.locate src (s.macros.substitute name) with
    | error e => exact .givenUp (includeFile_of_error hfailure hlocate nested t)
    | ok path =>
      rw [includeFile_of_locate hfailure hlocate]
      exact inclusion_includePath σ src nested s t _ (σ.isResolved_of_locate hlocate)

/-- Whatever comes of an inclusion, reading goes on in the text around it: at the same place, within
the same conditions. -/
theorem State.leave_includeFile (σ : Setting) (src : Source) (nested : Option Reader) (s : State)
    (t : Token) (name : String) :
    s.leave (s.includeFile σ src nested t name) = s.includeFile σ src nested t name := by
  cases inclusion_includeFile σ src nested s t name with
  | givenUp h | refused h =>
    rw [h]
    rfl
  | read _ _ _ h =>
    rw [h]
    rfl

/-! ### What a piece adds to the tokens -/

def State.markerHere (s : State) (uri : String) (m : Macro) (word : List Char) : Token :=
  { s.tokenHere uri .reference word with expanded := some m }

/-- The word of a `#` line, if it is one that is known. -/
def wordOf? (line : List Char) : Option DirectiveWord :=
  DirectiveWord.ofText? (Directive.wordOf line)

/-- The tokens that a piece adds by itself, at the place where it stands. A `#` line is idle if
its word is unknown, or if it is switched off and not about conditions. -/
inductive Piece.Gives (s : State) (uri : String) : Piece → List Token → Prop where
  | newline : Gives s uri .newline []
  | space (c : Char) : Gives s uri (.space c) []
  | directive {line : List Char} {word : DirectiveWord} (hw : wordOf? line = some word)
      (ha : s.conditions.active = true ∨ word.isConditional = true) :
      Gives s uri (.directive line) [s.tokenHere uri .directive line]
  | idle {line : List Char}
      (hw : ∀ word, wordOf? line = some word →
        s.conditions.active = false ∧ word.isConditional = false) :
      Gives s uri (.directive line) [s.tokenHere uri .inactive line]
  | inactive (line : List Char) : Gives s uri (.inactive line) [s.tokenHere uri .inactive line]
  | plain (l : Lexeme) : Gives s uri (.element l) [s.tokenHere uri l.kind l.text]
  | reference (l : Lexeme) (m : Macro) :
      Gives s uri (.element l) (s.markerHere uri m l.text ::
        (Expansion.ofMacro s.macros s.part m).lexemes.map
          (State.expandedToken (s.markerHere uri m l.text)))

/-- One state has the tokens of another and after them further ones, all with a property. -/
def State.Adds (P : Token → Prop) (s s' : State) : Prop :=
  ∃ ts : List Token, s'.tokens.toList = s.tokens.toList ++ ts ∧ ∀ t ∈ ts, P t

/-- All that a reader adds for files that may be included from a text has a property. -/
def Reader.Gives (P : Token → Prop) (src : Source) (read : Reader) : Prop :=
  ∀ path : Path, path.IsResolved → path ∉ src.chain →
    ∀ cs s, State.Adds P s (read (src.included path) cs s)

namespace State

variable {P : Token → Prop} {s s' s'' : State}

theorem Agrees.adds (h : Agrees s s') : Adds P s s' := ⟨[], by simp [h.tokens], by simp⟩

theorem Adds.trans (h : Adds P s s') (h' : Adds P s' s'') : Adds P s s'' := by
  obtain ⟨ts, hts, hp⟩ := h
  obtain ⟨ts', hts', hp'⟩ := h'
  refine ⟨ts ++ ts', by rw [hts', hts, List.append_assoc], ?_⟩
  intro t ht
  exact (List.mem_append.mp ht).elim (hp t) (hp' t)

theorem adds_includeFile (σ : Setting) (src : Source) (nested : Option Reader)
    (hread : ∀ read ∈ nested, Reader.Gives P src read) (s : State) (t : Token) (name : String) :
    Adds P s (s.includeFile σ src nested t name) := by
  cases inclusion_includeFile σ src nested s t name with
  | givenUp h => exact ⟨[], by simp [h], by simp⟩
  | refused h => exact ⟨[], by simp [h, failInclude, fail, report], by simp⟩
  | read hmem hpath hchain h =>
    rw [h]
    exact hread _ hmem _ hpath hchain _ _

theorem adds_carryOut (σ : Setting) (src : Source) (nested : Option Reader)
    (hread : ∀ read ∈ nested, Reader.Gives P src read) (s : State) (t : Token) (d : Directive) :
    Adds P s (s.carryOut σ src nested t d) := by
  cases d with
  | define name value =>
    simp only [carryOut, define]
    split
    · exact (agrees_report s _).adds
    · exact ⟨[], by simp, by simp⟩
  | undef name =>
    simp only [carryOut, undefine]
    split
    · exact ⟨[], by simp, by simp⟩
    · exact (agrees_report s _).adds
  | inclusion path => exact adds_includeFile σ src nested hread s t path
  | condition name negated =>
    exact (agrees_carryOut σ src nested s t (.condition name negated)
      (by cases negated <;> rfl)).adds
  | otherwise => exact (agrees_carryOut σ src nested s t .otherwise rfl).adds
  | endif => exact (agrees_carryOut σ src nested s t .endif rfl).adds

theorem adds_activeDirective (σ : Setting) (src : Source) (nested : Option Reader)
    (hread : ∀ read ∈ nested, Reader.Gives P src read) (s : State) (line : List Char)
    (word : Option DirectiveWord) :
    Adds P (s.emit (s.tokenHere src.uri (if word.isSome then .directive else .inactive) line))
      (s.activeDirective σ src nested line word) := by
  have hadvance : ∀ s' : State, Adds P s' (s'.advance line) :=
    fun _ => ⟨[], by simp [advance], by simp⟩
  unfold activeDirective
  dsimp only
  cases Directive.parse line with
  | error e => exact (hadvance _).trans (agrees_refuse _ _ _ _).adds
  | ok d => exact (hadvance _).trans (adds_carryOut σ src nested hread _ _ _)

theorem adds_directiveLine (σ : Setting) (src : Source) (nested : Option Reader)
    (hread : ∀ read ∈ nested, Reader.Gives P src read) (s : State) (line : List Char) :
    ∃ t, Piece.Gives s src.uri (.directive line) [t] ∧
      Adds P (s.emit t) (s.directiveLine σ src nested line) := by
  have hactive := adds_activeDirective σ src nested hread s line (wordOf? line)
  unfold directiveLine
  dsimp only
  cases hw : wordOf? line with
  | none =>
    refine ⟨s.tokenHere src.uri .inactive line, .idle (by simp [hw]), ?_⟩
    rw [hw] at hactive
    split
    · exact ⟨[], by simp [inactiveLine, addInactive, advance], by simp⟩
    · rwa [show DirectiveWord.ofText? (Directive.wordOf line) = none from hw]
  | some word =>
    rw [show DirectiveWord.ofText? (Directive.wordOf line) = some word from hw]
    rw [hw] at hactive
    split
    · rename_i h
      refine ⟨s.tokenHere src.uri .inactive line, .idle ?_, [], ?_, by simp⟩
      · intro word' hw'
        rw [hw] at hw'
        cases hw'
        simpa using h
      · simp [inactiveLine, addInactive, advance]
    · rename_i h
      refine ⟨s.tokenHere src.uri .directive line, .directive hw ?_, hactive⟩
      simp only [Option.any_some, Bool.and_eq_true, Bool.not_eq_true', not_and_or,
        Bool.not_eq_false] at h
      exact h

/-- Every piece adds its own tokens and after them those of the file it includes, if it does. -/
theorem tokens_take (σ : Setting) (src : Source) (nested : Option Reader)
    (hread : ∀ read ∈ nested, Reader.Gives P src read) (s : State) (p : Piece) :
    ∃ own foreign, (s.take σ src nested p).tokens.toList = s.tokens.toList ++ (own ++ foreign) ∧
      p.Gives s src.uri own ∧ ∀ t ∈ foreign, P t := by
  cases p with
  | newline => exact ⟨[], [], by simp [take, newline], .newline, by simp⟩
  | space c => exact ⟨[], [], by simp [take, space], .space c, by simp⟩
  | directive line =>
    obtain ⟨t, hgives, foreign, htokens, hforeign⟩ :=
      adds_directiveLine σ src nested hread s line
    refine ⟨[t], foreign, ?_, hgives, hforeign⟩
    rw [take, htokens]
    simp [emit]
  | inactive line =>
    refine ⟨[s.tokenHere src.uri .inactive line], [], ?_, .inactive line, by simp⟩
    simp [take, inactiveLine, addInactive, advance, emit]
  | element l =>
    unfold take element
    dsimp only
    split
    · rename_i m _
      refine ⟨_, [], ?_, .reference l m, by simp⟩
      simp [expand, advance, markerHere]
    · refine ⟨_, [], ?_, .plain l, by simp⟩
      simp [(agrees_plain s src.uri l).tokens, advance, emit]

end State

theorem Piece.Gives.uri_eq {s : State} {uri : String} {p : Piece} {own : List Token}
    (h : p.Gives s uri own) : ∀ t ∈ own, t.uri = uri := by
  intro t ht
  cases h with
  | newline | space => cases ht
  | directive | idle | inactive | plain =>
    rw [List.mem_singleton.mp ht]
    rfl
  | reference l m =>
    rcases List.mem_cons.mp ht with rfl | ht
    · rfl
    · obtain ⟨l', _, rfl⟩ := List.mem_map.mp ht
      rfl

/-! ### Tokens of included files -/

theorem run_adds_foreign {uri : String} (σ : Setting) (src : Source) (nested : Option Reader)
    (hsrc : src.uri ≠ uri)
    (hread : ∀ read ∈ nested, Reader.Gives (·.uri ≠ uri) src read)
    (s : State) (cs : List Char) :
    State.Adds (·.uri ≠ uri) s (run σ src nested s cs) := by
  induction s, cs using run_induction σ src nested with
  | nil s =>
    rw [run_nil]
    exact (State.Agrees.refl s).adds
  | next s text p rest h ih =>
    rw [run_of_next σ src nested h]
    refine State.Adds.trans ?_ ih
    obtain ⟨own, foreign, htokens, hown, hforeign⟩ :=
      State.tokens_take σ src nested hread s p
    refine ⟨own ++ foreign, htokens, ?_⟩
    intro t ht
    rcases List.mem_append.mp ht with ht | ht
    · rw [hown.uri_eq t ht]
      exact hsrc
    · exact hforeign t ht

/-- Files included from a text, at whatever depth, give no token of a URI that the text bars. -/
theorem text_gives_foreign {uri : String} (σ : Setting) (n : Nat) (src : Source)
    (hbars : src.Bars uri) : Reader.Gives (·.uri ≠ uri) src (text σ n) := by
  intro path hpath hmem cs s
  have hne : (src.included path).uri ≠ uri := hbars path hpath hmem
  induction n generalizing src path cs s with
  | zero =>
    rw [text]
    exact (run_adds_foreign σ _ none hne (by simp) s cs).trans (State.agrees_finish _ _).adds
  | succ n ih =>
    have hread : ∀ read ∈ some (text σ n),
        Reader.Gives (·.uri ≠ uri) (src.included path) read := by
      intro read hr path' hpath' hmem' cs' s'
      rw [← Option.some.inj hr]
      have hbars' := hbars.included path
      exact ih _ hbars' path' hpath' hmem' cs' s' (hbars' path' hpath' hmem')
    rw [text]
    exact (run_adds_foreign σ _ _ hne hread s cs).trans (State.agrees_finish _ _).adds

/-- A text is read in one run, in which nothing depends on what was left behind before, and files
are included without tokens of a URI that the text bars. -/
theorem exists_nested (σ : Setting) (n : Nat) :
    ∃ nested : Option Reader,
      (∀ src cs s, text σ n src cs s = (run σ src nested s cs).finish src.uri) ∧
      (∀ read ∈ nested, State.Additive read) ∧
      ∀ src uri, Source.Bars src uri →
        ∀ read ∈ nested, Reader.Gives (·.uri ≠ uri) src read := by
  cases n with
  | zero => exact ⟨none, fun _ _ _ => rfl, by simp, by simp⟩
  | succ n =>
    refine ⟨some (text σ n), fun _ _ _ => rfl, ?_, ?_⟩
    · intro read hr
      rw [← Option.some.inj hr]
      exact text_additive σ n
    · intro src uri hbars read hr
      rw [← Option.some.inj hr]
      exact text_gives_foreign σ n src hbars

end Scan

end Pearl
