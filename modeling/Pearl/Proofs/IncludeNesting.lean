import Mathlib.Data.List.Nodup
import Mathlib.Logic.Relation
import Pearl.Proofs.IncludeInlining

namespace Pearl

/-! ### Macros that can be told -/

/-- Wherever a macro of the table was defined, the document can be named. -/
def MacroTable.IsNameable (t : MacroTable) : Prop :=
  ∀ m ∈ t.macros, ∀ l ∈ m.definedAt, Uri.IsNameable l.uri

namespace MacroTable

variable {t t' : MacroTable}

theorem IsNameable.define (h : t.IsNameable) {m : Macro}
    (hm : ∀ l ∈ m.definedAt, Uri.IsNameable l.uri) (hdefine : t.define m = .ok t') :
    t'.IsNameable := by
  unfold MacroTable.define at hdefine
  split at hdefine
  · cases hdefine
  · cases hdefine
    intro m' hm'
    rcases List.mem_append.mp hm' with hm' | hm'
    · exact h m' hm'
    · rw [List.mem_singleton.mp hm']
      exact hm

theorem IsNameable.erase (h : t.IsNameable) (name : String) : (t.erase name).IsNameable :=
  fun m hm => h m (List.mem_filter.mp hm).1

theorem isNameable_ofPredefined (values : List (String × String)) :
    (ofPredefined values).IsNameable := by
  have hall : ∀ (values : List (String × String)) (t : MacroTable), t.IsNameable →
      (values.foldl (fun t v => t.insert ⟨v.1, v.2, none⟩) t).IsNameable := by
    intro values
    induction values with
    | nil => exact fun t ht => ht
    | cons v values ih =>
      intro t ht
      apply ih
      intro m hm
      rcases List.mem_append.mp hm with hm | hm
      · exact ht.erase v.1 m hm
      · rw [List.mem_singleton.mp hm]
        rintro l ⟨⟩
  exact hall values {} fun m hm => by cases hm

/-- A second definition of a macro can be told with the place of the first. -/
theorem IsNameable.hint (h : t.IsNameable) {m : Macro} (hm : m ∈ t.macros) :
    ∃ hint, (Redefinition.mk m).hint = .ok hint := by
  unfold Redefinition.hint
  cases hl : m.definedAt with
  | none => exact ⟨_, rfl⟩
  | some l =>
    obtain ⟨place, hplace⟩ := Location.exists_render (h m hm l hl)
    dsimp only
    rw [hplace]
    exact ⟨_, rfl⟩

end MacroTable

namespace Scan

variable {σ : Setting} {src : Source} {nested : Option Reader} {s : State}

/-- Reading files from a text on keeps the macros such that they can be told. -/
def Reader.KeepsNameable (src : Source) (read : Reader) : Prop :=
  ∀ path : Path, path.IsResolved → ∀ cs s, s.macros.IsNameable →
    (read (src.included path) cs s).macros.IsNameable

theorem State.isNameable_includeFile (hread : ∀ read ∈ nested, Reader.KeepsNameable src read)
    (h : s.macros.IsNameable) (t : Token) (name : String) :
    (s.includeFile σ src nested t name).macros.IsNameable := by
  cases inclusion_includeFile σ src nested s t name with
  | givenUp heq | refused heq => rwa [heq]
  | read hmem hpath _ heq =>
    rw [heq]
    exact hread _ hmem _ hpath _ _ h

theorem State.isNameable_carryOut (hread : ∀ read ∈ nested, Reader.KeepsNameable src read)
    (h : s.macros.IsNameable) {t : Token} (ht : Uri.IsNameable t.uri) (d : Directive) :
    (s.carryOut σ src nested t d).macros.IsNameable := by
  have hconditional : d.word.isConditional = true →
      (s.carryOut σ src nested t d).macros.IsNameable := by
    intro hd
    rw [(agrees_carryOut σ src nested s t d hd).macros]
    exact h
  cases d with
  | define name value =>
    simp only [carryOut, State.define]
    split
    · exact h
    · rename_i macros hdefine
      refine h.define ?_ hdefine
      rintro l ⟨⟩
      exact ht
  | undef name =>
    simp only [carryOut, undefine]
    split
    · exact h.erase name
    · exact h
  | inclusion name => exact isNameable_includeFile hread h t name
  | condition name negated => exact hconditional (by cases negated <;> rfl)
  | otherwise => exact hconditional rfl
  | endif => exact hconditional rfl

theorem State.isNameable_take (hsrc : Uri.IsNameable src.uri)
    (hread : ∀ read ∈ nested, Reader.KeepsNameable src read) (h : s.macros.IsNameable)
    (p : Piece) : (s.take σ src nested p).macros.IsNameable := by
  cases p with
  | newline | space | inactive => exact h
  | directive line =>
    simp only [take, directiveLine]
    split
    · exact h
    · unfold activeDirective
      dsimp only
      split
      · rw [(agrees_refuse _ _ _ _).macros]
        exact h
      · refine isNameable_carryOut hread ?_ ?_ _
        · exact h
        · exact hsrc
  | element l =>
    simp only [take, element]
    split
    · exact h
    · rw [(agrees_plain s src.uri l).macros]
      exact h

theorem isNameable_run (hsrc : Uri.IsNameable src.uri)
    (hread : ∀ read ∈ nested, Reader.KeepsNameable src read) (h : s.macros.IsNameable)
    (cs : List Char) : (run σ src nested s cs).macros.IsNameable := by
  induction s, cs using run_induction σ src nested with
  | nil s => rwa [run_nil]
  | next s text p rest hnext ih =>
    rw [run_of_next σ src nested hnext]
    exact ih (State.isNameable_take hsrc hread h p)

/-- The reader of the files that a text includes, of which at most `levels` may be nested. -/
def reader? (σ : Setting) : Nat → Option Reader
  | 0 => none
  | n + 1 => some (text σ n)

theorem text_eq_run (σ : Setting) (levels : Nat) (src : Source) (cs : List Char) (s : State) :
    text σ levels src cs s = (run σ src (reader? σ levels) s cs).finish src.uri := by
  cases levels <;> rfl

theorem reader?_keepsNameable (σ : Setting) (levels : Nat) (src : Source) :
    ∀ read ∈ reader? σ levels, Reader.KeepsNameable src read := by
  induction levels generalizing src with
  | zero =>
    intro read hread
    cases hread
  | succ n ih =>
    rintro read ⟨⟩ path hpath cs s h
    have huri : Uri.IsNameable (src.included path).uri := by
      change Uri.IsNameable (Uri.ofPath path)
      exact Uri.isNameable_of_toPath (Uri.toPath_ofPath path hpath.1)
    rw [text_eq_run, (State.agrees_finish _ _).macros]
    exact isNameable_run huri (ih (src.included path)) h cs

/-! ### What comes of an `#include` line -/

namespace State

/-- The state in which the file at a path is read from its start: macros and part are those of the
text around it, and nothing has been left behind yet. -/
def entering (s : State) (files : FileTree) (path : Path) : State :=
  { macros := s.macros, part := s.part, cache := (s.cache.read files path).2
    asked := s.asked.push path }

/-- The line has left its token behind and one finding on it, and all that is carried on from line
to line is as it was. -/
structure Refuses (s : State) (t : Token) (code : String) (s' : State) : Prop where
  tokens : s'.tokens = s.tokens.push t
  folding : s'.folding = s.folding
  diagnostics : ∃ message, s'.diagnostics = s.diagnostics.push (.atToken .error code message t)
  macros : s'.macros = s.macros
  part : s'.part = s.part
  conditions : s'.conditions = s.conditions
  inactive : s'.inactive = s.inactive
  failure : s'.failure = s.failure

/-- The line has left its token behind, and after it all that reading a file leaves behind; macros
and part are those at the end of the file, and the conditions are not touched by it. What was given
up in the file is given up here. -/
structure TakesIn (s : State) (t : Token) (inner s' : State) : Prop where
  tokens : s'.tokens = s.tokens.push t ++ inner.tokens
  folding : s'.folding = s.folding ++ inner.folding
  diagnostics : s'.diagnostics = s.diagnostics ++ inner.diagnostics
  macros : s'.macros = inner.macros
  part : s'.part = inner.part
  conditions : s'.conditions = s.conditions
  inactive : s'.inactive = s.inactive
  failure : s'.failure = inner.failure

/-- The state after an `#include` line that counts, before it is carried out. -/
def afterLine (s : State) (src : Source) (line : List Char) : State :=
  (s.emit (s.tokenHere src.uri .directive ('#' :: line))).advance ('#' :: line)

end State

/-- The line `#line`, of the word `include`, is read in a text in which at most `levels` files may
be nested. It is malformed, or it names a file that cannot be located, at which the run is given up,
or one that may not or cannot be included, or the file is read in its place. -/
inductive InclusionOutcome (σ : Setting) (levels : Nat) (src : Source) (s : State)
    (line : List Char) (s' : State) : Prop where
  | malformed {e : DirectiveError} (hparse : Directive.parse ('#' :: line) = .error e)
      (h : s.Refuses (s.tokenHere src.uri .directive ('#' :: line)) "invalid-directive" s')
  | unlocated {name : String} {e : DocumentError}
      (hparse : Directive.parse ('#' :: line) = .ok (.inclusion name))
      (hlocate : σ.locate src (s.macros.substitute name) = .error e)
      (h : s' = { s.afterLine src line with failure := some e })
  | refused {name : String} (hparse : Directive.parse ('#' :: line) = .ok (.inclusion name))
      (hnot : levels = 0 ∨ ∀ path file, ¬Includes σ src s line path file)
      (h : s.Refuses (s.tokenHere src.uri .directive ('#' :: line)) "include-error" s')
  | included {n : Nat} {path : Path} {file : String} (hlevels : levels = n + 1)
      (hincludes : Includes σ src s line path file)
      (h : s.TakesIn (s.tokenHere src.uri .directive ('#' :: line))
        (text σ n (src.included path) file.toList (s.entering σ.files path)) s')

section Line

variable {line : List Char}

theorem eq_inclusion_of_parse {d : Directive} (hword : wordOf? ('#' :: line) = some .inclusion)
    (hparse : Directive.parse ('#' :: line) = .ok d) : ∃ name, d = .inclusion name := by
  have hd := (Directive.word_of_parse hparse).symm.trans hword
  cases d with
  | inclusion name => exact ⟨name, rfl⟩
  | condition name negated => cases negated <;> cases hd
  | _ => cases hd

theorem State.take_malformed_inclusion (σ : Setting) (src : Source) (nested : Option Reader)
    {e : DirectiveError} (hactive : s.conditions.active = true)
    (hword : wordOf? ('#' :: line) = some .inclusion)
    (hparse : Directive.parse ('#' :: line) = .error e) :
    s.take σ src nested (.directive ('#' :: line)) =
      (s.afterLine src line).fail "invalid-directive"
        (e.toFailure (some (s.tokenHere src.uri .directive ('#' :: line)).location))
        (s.tokenHere src.uri .directive ('#' :: line)) := by
  change s.directiveLine σ src nested ('#' :: line) = _
  rw [directiveLine, show DirectiveWord.ofText? (Directive.wordOf ('#' :: line)) = _ from hword,
    if_neg (by simp [hactive]), activeDirective, hparse]
  rfl

theorem State.take_inclusion (σ : Setting) (src : Source) (nested : Option Reader) {name : String}
    (hactive : s.conditions.active = true)
    (hparse : Directive.parse ('#' :: line) = .ok (.inclusion name)) :
    s.take σ src nested (.directive ('#' :: line)) =
      (s.afterLine src line).includeFile σ src nested
        (s.tokenHere src.uri .directive ('#' :: line)) name := by
  change s.directiveLine σ src nested ('#' :: line) = _
  rw [directiveLine, Directive.word_of_parse hparse, if_neg (by simp [hactive]), activeDirective,
    hparse]
  rfl

/-- A file that is being read already, one that is nested too deeply and one that cannot be read
are told in one finding. -/
theorem State.exists_failInclude (t : Token) (name : String) {path : Path}
    (h : path ∈ src.chain ∨ nested = none ∨ ∃ e, (s.cache.read σ.files path).1 = .error e) :
    ∃ asked cache reason searched, s.includePath σ src nested t name path =
      { s with asked, cache }.failInclude t name reason searched := by
  unfold includePath
  split
  · exact ⟨s.asked, s.cache, _, _, rfl⟩
  · rename_i hchain
    cases nested with
    | none => exact ⟨s.asked, s.cache, _, _, rfl⟩
    | some read =>
      obtain ⟨e, he⟩ : ∃ e, (s.cache.read σ.files path).1 = .error e := by
        rcases h with h | h | h
        · exact absurd (List.contains_iff_mem.mpr h) hchain
        · cases h
        · exact h
      dsimp only
      split
      · exact ⟨_, _, _, _, rfl⟩
      · rename_i hread
        rw [hread] at he
        cases he

/-- The file is read behind all that has been left so far, and that makes no difference. -/
theorem Includes.takesIn {path : Path} {file : String} (h : Includes σ src s line path file)
    {read : Reader} (hread : State.Additive read) :
    s.TakesIn (s.tokenHere src.uri .directive ('#' :: line))
      (read (src.included path) file.toList (s.entering σ.files path))
      (s.take σ src (some read) (.directive ('#' :: line))) := by
  obtain ⟨name, hparse, hpath⟩ := h.name
  have hfound : (s.afterLine src line).cache.read σ.files path =
      (.ok file, (s.cache.read σ.files path).2) := Prod.ext h.found rfl
  have henter : State.enter { s.afterLine src line with
      asked := s.asked.push path, cache := (s.cache.read σ.files path).2 } =
      (s.entering σ.files path).prepend (s.afterLine src line).output := by
    simp [State.enter, State.entering, State.prepend, State.output, State.afterLine,
      State.advance, State.emit, h.failure]
  rw [State.take_inclusion σ src (some read) h.active hparse,
    State.includeFile_of_read (s := s.afterLine src line) read _ h.failure hpath h.chain hfound]
  change s.TakesIn _ _ (State.leave _ (read _ _ (State.enter { s.afterLine src line with
    asked := s.asked.push path, cache := (s.cache.read σ.files path).2 })))
  rw [henter, hread]
  exact ⟨rfl, rfl, rfl, rfl, rfl, rfl, rfl, rfl⟩

theorem Includes.path_eq {name : String} {path path' : Path} {file : String}
    (h : Includes σ src s line path' file)
    (hparse : Directive.parse ('#' :: line) = .ok (.inclusion name))
    (hlocate : σ.locate src (s.macros.substitute name) = .ok path) : path' = path := by
  obtain ⟨name', hparse', hpath'⟩ := h.name
  rw [hparse] at hparse'
  cases hparse'
  exact Except.ok.inj (hpath'.symm.trans hlocate)

/-- Whatever keeps a file out makes the line fail. -/
theorem refused_of_kept_out (σ : Setting) (levels : Nat) (src : Source) {name : String}
    {path : Path} (hfailure : s.failure = none) (hactive : s.conditions.active = true)
    (hparse : Directive.parse ('#' :: line) = .ok (.inclusion name))
    (hlocate : σ.locate src (s.macros.substitute name) = .ok path)
    (hnot : levels = 0 ∨ ∀ path file, ¬Includes σ src s line path file)
    (hout : path ∈ src.chain ∨ reader? σ levels = none ∨
      ∃ e, (s.cache.read σ.files path).1 = .error e) :
    InclusionOutcome σ levels src s line
      (s.take σ src (reader? σ levels) (.directive ('#' :: line))) := by
  obtain ⟨asked, cache, reason, searched, hinclude⟩ :=
    State.exists_failInclude (s := s.afterLine src line)
      (s.tokenHere src.uri .directive ('#' :: line)) (s.macros.substitute name) hout
  have hpath := State.includeFile_of_locate (s := s.afterLine src line) hfailure hlocate
    (reader? σ levels) (s.tokenHere src.uri .directive ('#' :: line))
  rw [State.take_inclusion σ src _ hactive hparse, hpath]
  exact .refused hparse hnot (hinclude ▸ ⟨rfl, rfl, ⟨_, rfl⟩, rfl, rfl, rfl, rfl, rfl⟩)

/-- An `#include` line that counts gives the run up, is refused as a whole, or takes one whole file
in. -/
theorem inclusionOutcome (σ : Setting) (levels : Nat) (src : Source) {text rest : List Char}
    (hnext : Next σ.directives s text (.directive ('#' :: line)) rest)
    (hfailure : s.failure = none) (hactive : s.conditions.active = true)
    (hword : wordOf? ('#' :: line) = some .inclusion) :
    InclusionOutcome σ levels src s line
      (s.take σ src (reader? σ levels) (.directive ('#' :: line))) := by
  cases hparse : Directive.parse ('#' :: line) with
  | error e =>
    rw [State.take_malformed_inclusion σ src _ hactive hword hparse]
    exact .malformed hparse ⟨rfl, rfl, ⟨_, rfl⟩, rfl, rfl, rfl, rfl, rfl⟩
  | ok d =>
    obtain ⟨name, rfl⟩ := eq_inclusion_of_parse hword hparse
    cases hlocate : σ.locate src (s.macros.substitute name) with
    | error e =>
      refine .unlocated hparse hlocate ?_
      rw [State.take_inclusion σ src _ hactive hparse]
      exact State.includeFile_of_error (s := s.afterLine src line) hfailure hlocate _ _
    | ok path =>
      have hrefused := refused_of_kept_out σ levels src hfailure hactive hparse hlocate
      by_cases hchain : path ∈ src.chain
      · exact hrefused (.inr fun _ _ h => h.chain (h.path_eq hparse hlocate ▸ hchain))
          (.inl hchain)
      cases levels with
      | zero => exact hrefused (.inl rfl) (.inr (.inl rfl))
      | succ n =>
        cases hfound : (s.cache.read σ.files path).1 with
        | error e =>
          refine hrefused (.inr fun path' file h => ?_) (.inr (.inr ⟨e, hfound⟩))
          have hfile := h.found
          rw [h.path_eq hparse hlocate, hfound] at hfile
          cases hfile
        | ok file =>
          have h : Includes σ src s line path file := by
            cases hnext with
            | directive hd hs hline hrest =>
              exact ⟨hd, hs, hactive, hline, hfailure, ⟨name, hparse, hlocate⟩, hchain, hfound⟩
          exact .included rfl h (h.takesIn (text_additive σ n))

theorem State.failure_carryOut (σ : Setting) (src : Source) (nested : Option Reader) (s : State)
    (t : Token) (d : Directive) :
    (s.carryOut σ src nested t d).failure = s.failure ∨ ∃ name, d = .inclusion name := by
  cases d with
  | define name value =>
    left
    simp only [carryOut, State.define]
    split <;> rfl
  | undef name =>
    left
    simp only [carryOut, undefine]
    split <;> rfl
  | inclusion name => exact .inr ⟨name, rfl⟩
  | condition name negated =>
    exact .inl (agrees_carryOut σ src nested s t _ (by cases negated <;> rfl)).failure
  | otherwise => exact .inl (agrees_carryOut σ src nested s t .otherwise rfl).failure
  | endif => exact .inl (agrees_carryOut σ src nested s t .endif rfl).failure

/-- Nothing but an `#include` line that counts gives a run up. -/
theorem State.failure_take (σ : Setting) (src : Source) (nested : Option Reader) {p : Piece}
    {text rest : List Char} (hnext : Next σ.directives s text p rest) :
    (s.take σ src nested p).failure = s.failure ∨
    ∃ line name, p = .directive ('#' :: line) ∧ s.conditions.active = true ∧
      Directive.parse ('#' :: line) = .ok (.inclusion name) := by
  cases hnext with
  | newline | space | inactive => exact .inl rfl
  | element =>
    left
    simp only [take, element]
    split
    · rfl
    · exact (agrees_plain s src.uri _).failure
  | @directive line rest hd hs hline hrest =>
    simp only [take, directiveLine]
    split
    · exact .inl rfl
    · rename_i hcounts
      unfold activeDirective
      dsimp only
      cases hparse : Directive.parse ('#' :: line) with
      | error e => exact .inl (agrees_refuse _ _ _ _).failure
      | ok d =>
        refine (failure_carryOut σ src nested _ _ d).imp_right ?_
        rintro ⟨name, rfl⟩
        refine ⟨line, name, rfl, ?_, hparse⟩
        simpa [Directive.word_of_parse hparse, Directive.word, DirectiveWord.isConditional]
          using hcounts

/-- A run that has been given up stays so. -/
theorem State.failure_take_of_some (σ : Setting) (src : Source) (nested : Option Reader) {p : Piece}
    {text rest : List Char} (hnext : Next σ.directives s text p rest) {e : DocumentError}
    (h : s.failure = some e) : (s.take σ src nested p).failure = some e := by
  rcases failure_take σ src nested hnext with heq | ⟨line, name, rfl, hactive, hparse⟩
  · rw [heq, h]
  · rw [take_inclusion σ src nested hactive hparse, includeFile,
      show (s.afterLine src line).failure = some e from h]
    exact h

theorem failure_run_of_some (σ : Setting) (src : Source) (nested : Option Reader)
    {e : DocumentError} (h : s.failure = some e) (cs : List Char) :
    (run σ src nested s cs).failure = some e := by
  induction s, cs using run_induction σ src nested with
  | nil s => rwa [run_nil]
  | next s text p rest hnext ih =>
    rw [run_of_next σ src nested hnext]
    exact ih (State.failure_take_of_some σ src nested hnext h)

theorem State.outcome_eq_error {e : DocumentError} : s.outcome = .error e ↔ s.failure = some e := by
  unfold outcome
  cases s.failure <;> simp

end Line

/-! ### Moments of a reading -/

/-- A moment while a document is read: the text that is being read, in which at most `levels` files
may be nested, how far it has been read, and what is left of it. -/
structure Moment where
  levels : Nat
  src : Source
  state : State
  text : List Char

namespace Moment

def first (σ : Setting) (src : Source) (cache : IncludeCache) (part : Part) (cs : List Char) :
    Moment :=
  ⟨Scan.levels σ.options, src, initial σ cache part, cs⟩

/-- What reading comes to from a moment on, at the end of the text. -/
def outcome (σ : Setting) (m : Moment) : State := Scan.text σ m.levels m.src m.text m.state

/-- Reading goes on behind the next piece of the text, or at the start of the file that the piece
includes. -/
inductive Step (σ : Setting) : Moment → Moment → Prop where
  | piece {levels : Nat} {src : Source} {s : State} {text rest : List Char} {p : Piece}
      (hnext : Next σ.directives s text p rest) :
      Step σ ⟨levels, src, s, text⟩ ⟨levels, src, s.take σ src (reader? σ levels) p, rest⟩
  | enter {n : Nat} {src : Source} {s : State} {text line rest : List Char} {path : Path}
      {file : String} (hnext : Next σ.directives s text (.directive ('#' :: line)) rest)
      (hincludes : Includes σ src s line path file) :
      Step σ ⟨n + 1, src, s, text⟩
        ⟨n, src.included path, s.entering σ.files path, file.toList⟩

/-- What is left to do: the levels first, then the text. -/
def rank (m : Moment) : Nat × Nat := (m.levels, m.text.length)

theorem Step.rank_lt {m m' : Moment} (h : Step σ m m') :
    Prod.Lex (· < ·) (· < ·) m'.rank m.rank := by
  cases h with
  | piece hnext => exact .right _ hnext.length_lt
  | enter => exact .left _ _ (Nat.lt_succ_self _)

/-- However files include one another, no reading goes on for ever. -/
theorem wellFounded_step (σ : Setting) : WellFounded fun m' m => Step σ m m' := by
  have hrank : WellFounded (InvImage (Prod.Lex (· < ·) (· < ·)) rank) :=
    InvImage.wf rank (Prod.lex Nat.lt_wfRel Nat.lt_wfRel).wf
  exact hrank.mono fun m' m h => Step.rank_lt h

/-- From every moment on the text is read to its end, and nothing else is made of it. -/
theorem exists_end (σ : Setting) (m : Moment) :
    ∃ s, Relation.ReflTransGen (Step σ) m ⟨m.levels, m.src, s, []⟩ ∧
      m.outcome σ = s.finish m.src.uri := by
  obtain ⟨levels, src, s, text⟩ := m
  refine ⟨run σ src (reader? σ levels) s text, ?_, text_eq_run σ levels src text s⟩
  induction s, text using run_induction σ src (reader? σ levels) with
  | nil s => rw [run_nil]
  | next s text p rest hnext ih =>
    rw [run_of_next σ src _ hnext]
    exact .head (.piece hnext) ih

theorem outcome_of_next (levels : Nat) (src : Source) {text rest : List Char} {p : Piece}
    (hnext : Next σ.directives s text p rest) :
    outcome σ ⟨levels, src, s, text⟩ =
      outcome σ ⟨levels, src, s.take σ src (reader? σ levels) p, rest⟩ := by
  simp only [outcome, text_eq_run, run_of_next σ src _ hnext]

/-! ### Where a reading is given up -/

/-- The text goes on with an `#include` line that counts, and the file that the line names cannot be
located. -/
def Stops (σ : Setting) (e : DocumentError) (m : Moment) : Prop :=
  m.state.failure = none ∧ m.state.conditions.active = true ∧
  ∃ line rest name, Next σ.directives m.state m.text (.directive ('#' :: line)) rest ∧
    Directive.parse ('#' :: line) = .ok (.inclusion name) ∧
    σ.locate m.src (m.state.macros.substitute name) = .error e

theorem failure_outcome_of_some {m : Moment} {e : DocumentError} (h : m.state.failure = some e) :
    (m.outcome σ).failure = some e := by
  rw [outcome, text_eq_run, (State.agrees_finish _ _).failure]
  exact failure_run_of_some σ m.src _ h m.text

/-- What is given up in an included file is given up in the text around it. -/
theorem Step.failure_outcome {m m' : Moment} (h : Step σ m m') {e : DocumentError}
    (he : (m'.outcome σ).failure = some e) : (m.outcome σ).failure = some e := by
  cases h with
  | piece hnext => rwa [outcome_of_next _ _ hnext]
  | @enter n src s text line rest path file hnext hincludes =>
    rw [outcome_of_next _ _ hnext]
    exact failure_outcome_of_some ((hincludes.takesIn (text_additive σ n)).failure.trans he)

theorem Stops.failure_outcome {m : Moment} {e : DocumentError} (h : m.Stops σ e) :
    (m.outcome σ).failure = some e := by
  obtain ⟨hfailure, hactive, line, rest, name, hnext, hparse, hlocate⟩ := h
  rw [outcome_of_next m.levels m.src hnext]
  refine failure_outcome_of_some ?_
  rw [State.take_inclusion σ m.src _ hactive hparse,
    State.includeFile_of_error (s := m.state.afterLine m.src line) hfailure hlocate]

/-- A piece at which reading is given up includes a file that cannot be located, or in which reading
is given up. -/
theorem stops_or_enter {levels : Nat} {text rest : List Char} {p : Piece} {e : DocumentError}
    (hfailure : s.failure = none) (hnext : Next σ.directives s text p rest)
    (he : (s.take σ src (reader? σ levels) p).failure = some e) :
    Stops σ e ⟨levels, src, s, text⟩ ∨
    ∃ m', Step σ ⟨levels, src, s, text⟩ m' ∧ m'.state.failure = none ∧
      (m'.outcome σ).failure = some e := by
  rcases State.failure_take σ src (reader? σ levels) hnext with
    heq | ⟨line, name, rfl, hactive, hparse⟩
  · rw [heq, hfailure] at he
    cases he
  cases inclusionOutcome σ levels src hnext hfailure hactive (Directive.word_of_parse hparse) with
  | malformed hparse' =>
    rw [hparse] at hparse'
    cases hparse'
  | unlocated hparse' hlocate h =>
    rw [hparse] at hparse'
    cases hparse'
    rw [h] at he
    cases he
    exact .inl ⟨hfailure, hactive, line, rest, name, hnext, hparse, hlocate⟩
  | refused _ _ h =>
    rw [h.failure, hfailure] at he
    cases he
  | included hlevels hincludes h =>
    subst hlevels
    rw [h.failure] at he
    exact .inr ⟨_, .enter hnext hincludes, rfl, he⟩

/-- Reading is given up exactly at an `#include` line that is reached and names a file that cannot
be located. -/
theorem failure_outcome_iff {m : Moment} {e : DocumentError} (hm : m.state.failure = none) :
    (m.outcome σ).failure = some e ↔
      ∃ m', Relation.ReflTransGen (Step σ) m m' ∧ m'.Stops σ e := by
  constructor
  · intro he
    induction m using (wellFounded_step σ).induction with
    | _ m ih =>
    have hgo : ∀ m', Step σ m m' → m'.state.failure = none → (m'.outcome σ).failure = some e →
        ∃ m', Relation.ReflTransGen (Step σ) m m' ∧ m'.Stops σ e := by
      intro m' hstep hfailure he'
      obtain ⟨m'', hsteps, hstops⟩ := ih m' hstep hfailure he'
      exact ⟨m'', .head hstep hsteps, hstops⟩
    obtain ⟨levels, src, s, text⟩ := m
    cases text with
    | nil =>
      rw [outcome, text_eq_run, (State.agrees_finish _ _).failure, run_nil] at he
      cases hm.symm.trans he
    | cons c cs =>
      obtain ⟨p, rest, hnext⟩ := exists_next σ.directives s c cs
      rw [outcome_of_next levels src hnext] at he
      cases htake : (s.take σ src (reader? σ levels) p).failure with
      | none => exact hgo _ (.piece hnext) htake he
      | some e' =>
        cases (failure_outcome_of_some htake).symm.trans he
        rcases stops_or_enter hm hnext htake with hstops | ⟨m', hstep, hnone, hinner⟩
        · exact ⟨_, .refl, hstops⟩
        · exact hgo m' hstep hnone hinner
  · rintro ⟨m', hsteps, hstops⟩
    clear hm
    induction hsteps using Relation.ReflTransGen.head_induction_on with
    | refl => exact hstops.failure_outcome
    | head hstep _ ih => exact hstep.failure_outcome ih

/-! ### What is true at every moment -/

/-- Every file that is being read was entered once, from the document on, as many of them as levels
are used up; and the places in the texts and of the macros can be told. -/
structure IsSound (σ : Setting) (src : Source) (m : Moment) : Prop where
  nested : ∃ files, m.src.chain = src.chain ++ files ∧
    files.length + m.levels = Scan.levels σ.options
  nodup : m.src.chain.Nodup
  uri : Uri.IsNameable m.src.uri
  macros : m.state.macros.IsNameable

theorem isSound_first {uri : String} {p : Path} {src : Source} (huri : Uri.toPath uri = .ok p)
    (hsrc : Source.ofUri σ.files uri = .ok src) (cache : IncludeCache) (part : Part)
    (cs : List Char) : (first σ src cache part cs).IsSound σ src := by
  refine ⟨⟨[], (List.append_nil _).symm, Nat.zero_add _⟩, ?_, ?_,
    MacroTable.isNameable_ofPredefined _⟩
  · change src.chain.Nodup
    unfold Source.ofUri at hsrc
    split at hsrc
    · cases hlocate : σ.files.locate uri with
      | error e =>
        rw [hlocate] at hsrc
        cases hsrc
      | ok path =>
        rw [hlocate] at hsrc
        cases hsrc
        exact List.nodup_singleton _
    · cases hsrc
      exact List.nodup_nil
  · change Uri.IsNameable src.uri
    rw [(bars_ofUri hsrc).1]
    exact Uri.isNameable_of_toPath huri

theorem IsSound.step {m m' : Moment} (h : m.IsSound σ src) (hstep : Step σ m m') :
    m'.IsSound σ src := by
  cases hstep with
  | piece hnext =>
    exact ⟨h.nested, h.nodup, h.uri,
      State.isNameable_take h.uri (reader?_keepsNameable σ _ _) h.macros _⟩
  | @enter n src' s text line rest path file hnext hincludes =>
    obtain ⟨files, hfiles, hlength⟩ := h.nested
    obtain ⟨name, -, hpath⟩ := hincludes.name
    refine ⟨⟨files ++ [path], ?_, ?_⟩, ?_, ?_, h.macros⟩
    · change src'.chain ++ [path] = _
      rw [show src'.chain = _ from hfiles, List.append_assoc]
    · simp only [List.length_append, List.length_singleton] at hlength ⊢
      omega
    · exact List.nodup_append.mpr ⟨h.nodup, List.nodup_singleton _, by
        rintro p hp q hq rfl
        exact hincludes.chain (List.mem_singleton.mp hq ▸ hp)⟩
    · change Uri.IsNameable (Uri.ofPath path)
      exact Uri.isNameable_of_toPath (Uri.toPath_ofPath _ (σ.isResolved_of_locate hpath).1)

theorem IsSound.steps {m m' : Moment} (h : m.IsSound σ src)
    (hsteps : Relation.ReflTransGen (Step σ) m m') : m'.IsSound σ src := by
  induction hsteps with
  | refl => exact h
  | tail _ hstep ih => exact ih.step hstep

/-- There are as many nested files as the options admit, at the most. -/
theorem IsSound.length_le {m : Moment} (h : m.IsSound σ src) :
    ∃ files, m.src.chain = src.chain ++ files ∧
      (files.length : Int) ≤ max 0 σ.options.maxIncludeDepth := by
  obtain ⟨files, hfiles, hlength⟩ := h.nested
  refine ⟨files, hfiles, ?_⟩
  unfold Scan.levels at hlength
  omega

/-- A failure met in the text can be put in words. -/
theorem IsSound.render {m : Moment} (h : m.IsSound σ src) {f : Failure}
    (hf : ∀ l ∈ f.location, l.uri = m.src.uri) : ∃ message, f.render = .ok message := by
  unfold Failure.render
  split
  · exact ⟨_, rfl⟩
  · rename_i l hl
    obtain ⟨place, hplace⟩ := Location.exists_render (l := l) (hf l hl ▸ h.uri)
    rw [hplace]
    exact ⟨_, rfl⟩

end Moment

/-- A document is not read if its own path cannot be resolved. -/
theorem resolve_of_ofUri {uri : String} {p : Path} (huri : Uri.toPath uri = .ok p)
    {e : DocumentError} (h : Source.ofUri σ.files uri = .error e) :
    ∃ r, σ.files.resolve p = .error r ∧ e = .path r := by
  unfold Source.ofUri FileTree.locate FileTree.reach at h
  rw [huri] at h
  dsimp only at h
  split at h
  · cases hresolve : σ.files.resolve p with
    | error r =>
      rw [hresolve] at h
      cases h
      exact ⟨r, rfl, rfl⟩
    | ok q =>
      rw [hresolve] at h
      cases h
  · cases h

/-- With room for all files on the stack, a reading is given up only for a path that cannot be
resolved. -/
theorem exists_path_of_failure (hstack : σ.stackLevels = none) (src : Source) (cache : IncludeCache)
    (part : Part) (cs : List Char) {e : DocumentError}
    (h : (document σ src cache part cs).failure = some e) : ∃ r, e = .path r := by
  obtain ⟨m, -, -, -, line, rest, name, -, -, hlocate⟩ :=
    (Moment.failure_outcome_iff (m := .first σ src cache part cs) rfl).mp h
  unfold Setting.locate FileTree.reach at hlocate
  rw [hstack, if_neg (by simp)] at hlocate
  split at hlocate
  · cases hlocate
    exact ⟨_, rfl⟩
  · cases hlocate

/-- However the files include one another and whatever depth the options set, reading a document
comes to an end, and it is given up exactly where an `#include` line that counts names a file that
cannot be located. The files that are being read are different ones and no more of them are nested
than the options admit, every failure can be put in words, and any other `#include` line that counts
takes one whole file in or comes to nothing but a finding. -/
theorem document_inclusions_settled (σ : Setting) {uri : String} {p : Path}
    (huri : Uri.toPath uri = .ok p) (cache : IncludeCache) (part : Part) (cs : List Char) :
    (∀ e, Source.ofUri σ.files uri = .error e → ∃ r, σ.files.resolve p = .error r ∧ e = .path r) ∧
    ∀ src, Source.ofUri σ.files uri = .ok src →
      document σ src cache part cs = (Moment.first σ src cache part cs).outcome σ ∧
      (WellFounded fun m' m => Moment.Step σ m m') ∧
      (∀ e, (document σ src cache part cs).outcome = .error e ↔
        ∃ m, Relation.ReflTransGen (Moment.Step σ) (.first σ src cache part cs) m ∧
          m.Stops σ e) ∧
      ∀ m, Relation.ReflTransGen (Moment.Step σ) (.first σ src cache part cs) m →
        (∃ s, Relation.ReflTransGen (Moment.Step σ) m ⟨m.levels, m.src, s, []⟩ ∧
          m.outcome σ = s.finish m.src.uri) ∧
        m.src.chain.Nodup ∧
        (∃ files, m.src.chain = src.chain ++ files ∧
          (files.length : Int) ≤ max 0 σ.options.maxIncludeDepth) ∧
        (∀ f : Failure, (∀ l ∈ f.location, l.uri = m.src.uri) → ∃ message, f.render = .ok message) ∧
        (∀ first ∈ m.state.macros.macros, ∃ hint, (Redefinition.mk first).hint = .ok hint) ∧
        ∀ line rest, Next σ.directives m.state m.text (.directive ('#' :: line)) rest →
          m.state.failure = none → m.state.conditions.active = true →
          wordOf? ('#' :: line) = some .inclusion →
          InclusionOutcome σ m.levels m.src m.state line
            (m.state.take σ m.src (reader? σ m.levels) (.directive ('#' :: line))) := by
  refine ⟨fun e he => resolve_of_ofUri huri he, fun src hsrc =>
    ⟨rfl, Moment.wellFounded_step σ, ?_, ?_⟩⟩
  · intro e
    rw [State.outcome_eq_error]
    exact Moment.failure_outcome_iff (m := .first σ src cache part cs) rfl
  · intro m hsteps
    have h := (Moment.isSound_first huri hsrc cache part cs).steps hsteps
    refine ⟨Moment.exists_end σ m, h.nodup, h.length_le, fun f hf => h.render hf,
      fun first hfirst => h.macros.hint hfirst, ?_⟩
    intro line rest hnext hfailure hactive hword
    exact inclusionOutcome σ m.levels m.src hnext hfailure hactive hword

/-- A document that includes a file that includes the document, seen from within the file. -/
theorem document_inclusions_settled_cycle :
    let a := Path.ofString "/ws/a"
    let b := Path.ofString "/ws/b"
    let σ : Setting :=
      { files := {
          entries := [(b, { content := .text "#include \"a\"" })]
          cwd := Path.ofString "/ws" } }
    let inner : Source := ⟨"file:///ws/b", some b, [a, b]⟩
    let s := (initial σ {} .problem).entering σ.files b
    inner.chain.Nodup ∧
    InclusionOutcome σ 9 inner s "include \"a\"".toList
      (s.take σ inner (some (text σ 8)) (.directive "#include \"a\"".toList)) := by
  intro a b σ inner s
  let outer : Source := ⟨"file:///ws/a", some a, [a]⟩
  have huri : Uri.toPath "file:///ws/a" = .ok a := by decide +kernel
  have hofUri : Source.ofUri σ.files "file:///ws/a" = .ok outer := by decide +kernel
  obtain ⟨-, -, -, h⟩ :=
    (document_inclusions_settled σ huri {} .problem ('#' :: "include \"b\"".toList)).2 outer hofUri
  have hnext : ∀ (r : State) (line : List Char), r.lineStart = true → '\n' ∉ line →
      Next σ.directives r ('#' :: line) (.directive ('#' :: line)) [] := by
    intro r line hr hline
    have hempty : Text.AtLineEnd [] := fun c hc => by cases hc
    have hline : Next σ.directives r ('#' :: (line ++ [])) (.directive ('#' :: line)) [] :=
      .directive rfl hr hline hempty
    rwa [List.append_nil] at hline
  have hincludes : Includes σ outer (initial σ {} .problem) "include \"b\"".toList b
      "#include \"a\"" := by
    refine ⟨rfl, rfl, rfl, by decide +kernel, rfl, ⟨"b", ?_, ?_⟩, ?_, ?_⟩
    · decide +kernel
    · decide +kernel
    · decide +kernel
    · decide +kernel
  have hstep : Moment.Step σ (.first σ outer {} .problem ('#' :: "include \"b\"".toList))
      ⟨9, outer.included b, s, "#include \"a\"".toList⟩ :=
    .enter (hnext _ _ rfl (by decide +kernel)) hincludes
  obtain ⟨-, hnodup, -, -, -, houtcome⟩ := h _ (.single hstep)
  have hinner : outer.included b = inner := by decide +kernel
  rw [hinner] at hnodup houtcome
  exact ⟨hnodup, houtcome _ [] (hnext s _ rfl (by decide +kernel)) rfl rfl (by decide +kernel)⟩

/-- A document that includes a link to itself is not read to its end. -/
theorem document_given_up_at_link_loop :
    let a := Path.ofString "/ws/a"
    let l := Path.ofString "/ws/l"
    let σ : Setting :=
      { files := {
          entries := [(l, { content := .text "", statError := some .linkLoop })]
          cwd := Path.ofString "/ws" } }
    (document σ ⟨"file:///ws/a", some a, [a]⟩ {} .problem "#include \"l\"".toList).outcome =
      .error (.path (.linkLoop l)) :=
  State.outcome_eq_error.mpr (by decide +kernel)

end Scan

end Pearl
