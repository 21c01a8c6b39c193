import Pearl.Proofs.IncludeNesting
import Pearl.Proofs.LayoutIndependence
import Pearl.Proofs.MacroNesting

namespace Pearl

/-! ### Findings by what they are on -/

theorem LexicalFault.code_ne_inactiveCode (f : LexicalFault) : f.code ≠ "inactive-code" := by
  cases f <;> simp [code]

theorem ExpansionFault.code_ne_inactiveCode (f : ExpansionFault) : f.code ≠ "inactive-code" := by
  induction f with
  | lexical fault => exact fault.code_ne_inactiveCode
  | tooDeep name => simp [code]
  | within name fault ih => exact ih

/-- A word is no comment. -/
theorem Lexeme.kind_head_ne_comment {part : Part} {c : Char} {cs : List Char}
    (hword : (head part c cs).isWord = true) : (head part c cs).kind ≠ .comment := by
  have hc : c.isAlpha = true := by simpa [isWord, head] using hword
  have hline : c ≠ '!' := by
    rintro rfl
    exact absurd hc (by decide)
  have hblock : c ≠ '/' := by
    rintro rfl
    exact absurd hc (by decide)
  change (extent part c cs).kind ≠ .comment
  simp only [extent, hline, hblock, hc, if_true, if_false, decide_false, Bool.false_and,
    Bool.false_eq_true]
  unfold Keyword.classify
  split
  · simp
  · split <;> simp

/-- An element over several lines has no fault but that it is a comment without an end. -/
theorem Lexeme.code_of_fault_head {part : Part} {c : Char} {cs : List Char} (hn : c ≠ '\n')
    {f : LexicalFault} (hf : (head part c cs).fault = some f)
    (hlines : '\n' ∈ (head part c cs).text) : f.code = "unterminated-comment" := by
  have hk : (extent part c cs).kind = .comment := by
    by_contra hk
    exact not_mem_text_head hn hk hlines
  have hf' : (extent part c cs).fault = some f := hf
  unfold extent at hf' hk
  split at hf'
  · cases hf'
  rename_i hline
  rw [if_neg hline] at hk
  split at hf'
  · unfold blockCommentExtent at hf'
    split at hf'
    · cases hf'
    · cases hf'
      rfl
  rename_i hblock
  rw [if_neg hblock] at hk
  split at hf'
  · cases hf'
  rename_i halpha
  rw [if_neg halpha] at hk
  split at hf'
  · cases hf'
  rename_i hdigit
  rw [if_neg hdigit] at hk
  split at hf'
  · rename_i hquote
    rw [if_pos hquote] at hk
    unfold quotedExtent at hk
    split at hk
    · cases hk
    · split at hk <;> cases hk
  · rename_i hquote
    rw [if_neg hquote] at hk
    unfold operatorExtent at hk
    split at hk
    · cases hk
    · split at hk
      · cases hk
      · split at hk <;> cases hk

namespace Diagnostic

def inactiveCode (uri : String) (first last : Token) : Diagnostic :=
  { severity := .hint, code := "inactive-code"
    message := "inactive code (excluded by preprocessor condition)"
    uri, line := first.start.line, column := first.start.column
    endLine := last.start.line, endColumn := last.start.column + last.length
    unnecessary := true }

/-- A finding on one token, other than a hint on inactive code. Where the token runs over several
lines, it is a comment without an end. -/
structure Concerns (d : Diagnostic) (t : Token) : Prop where
  isAt : d.IsAt t
  code : d.code ≠ "inactive-code"
  lines : '\n' ∈ t.text.toList → d.code = "unterminated-comment"

theorem concerns_atToken (severity : Severity) (code message : String) {t : Token}
    (hcode : code ≠ "inactive-code") (hline : '\n' ∉ t.text.toList) :
    (atToken severity code message t).Concerns t :=
  ⟨⟨rfl, rfl, rfl, rfl, rfl⟩, hcode, fun h => absurd h hline⟩

end Diagnostic

namespace Scan

/-- One state has the findings of another and after them further ones, all with a property. -/
def State.Tells (Q : Diagnostic → Prop) (s s' : State) : Prop :=
  ∃ ds, s'.diagnostics.toList = s.diagnostics.toList ++ ds ∧ ∀ d ∈ ds, Q d

/-- All that a reader finds in files that may be included from a text has a property. -/
def Reader.Tells (Q : Diagnostic → Prop) (src : Source) (read : Reader) : Prop :=
  ∀ path : Path, path.IsResolved → path ∉ src.chain →
    ∀ cs s, State.Tells Q s (read (src.included path) cs s.enter)

namespace State

/-! ### The lines that have not been reported yet -/

/-- The hint on the inactive lines that have not been reported yet. -/
def pending (s : State) (uri : String) : List Diagnostic :=
  s.inactive.toList.map fun lines => .inactiveCode uri lines.1 lines.2

theorem diagnostics_flushInactive (s : State) (uri : String) :
    (s.flushInactive uri).diagnostics.toList = s.diagnostics.toList ++ s.pending uri := by
  unfold flushInactive pending
  cases s.inactive with
  | none => simp
  | some lines => simp [report, Diagnostic.inactiveCode]

theorem inactive_flushInactive (s : State) (uri : String) :
    (s.flushInactive uri).inactive = none := by
  unfold flushInactive
  cases h : s.inactive with
  | none => simp [h]
  | some lines => simp

def unclosedFinding (opener : Token) : Diagnostic :=
  .atToken .error "unterminated-conditional"
    s!"#{Directive.wordOf opener.text.toList} without matching #endif" opener

/-- At the end of a text, the lines that wait are told, and then what is still open. -/
theorem diagnostics_finish (s : State) (uri : String) :
    (s.finish uri).diagnostics.toList =
      s.diagnostics.toList ++ (s.pending uri ++ s.conditions.unclosed.map unclosedFinding) := by
  have hfold : ∀ (openers : List Token) (r : State),
      (openers.foldl reportUnclosed r).diagnostics.toList =
        r.diagnostics.toList ++ openers.map unclosedFinding := by
    intro openers
    induction openers with
    | nil => simp
    | cons t openers ih =>
      intro r
      simp [ih, reportUnclosed, report, unclosedFinding]
  have hconditions : (s.flushInactive uri).conditions = s.conditions := by
    unfold flushInactive
    split <;> rfl
  rw [finish, hfold, diagnostics_flushInactive, hconditions, List.append_assoc]

/-! ### What a piece comes to -/

/-- Lines wait to be reported only where lines do not count. -/
def Quiet (s : State) : Prop := s.conditions.active = true → s.inactive = none

/-- What comes of a piece that is not switched off, whose own tokens are `own`. It leaves findings
on a token of its own, or those of a file it includes, and then tells of the lines that wait, if
lines count from there on. Conditions that are open were so before, or are opened by the piece. -/
structure Proceeds (Q : Diagnostic → Prop) (src : Source) (s : State) (own : List Token)
    (s' : State) : Prop where
  findings : ∃ ds,
    s'.diagnostics.toList = s.diagnostics.toList ++
      (ds ++ if s'.conditions.active then s.pending src.uri else []) ∧
    ∀ d ∈ ds, Q d ∨ ∃ t ∈ own.head?, d.Concerns t
  inactive : s'.inactive = if s'.conditions.active then none else s.inactive
  openers : ∀ t ∈ s'.conditions.unclosed,
    t ∈ s.conditions.unclosed ∨ t ∈ own.head? ∧ '\n' ∉ t.text.toList

/-- What comes of a piece: it is switched off and waits to be reported, or it is not. -/
inductive Course (Q : Diagnostic → Prop) (src : Source) (s : State) (p : Piece) (own : List Token)
    (s' : State) : Prop where
  | off (hactive : s.conditions.active = false)
      (hown : own = [s.tokenHere src.uri .inactive p.chars])
      (h : s' = s.inactiveLine src.uri p.chars)
  | on (hown : ∀ t ∈ own, t.kind = .inactive → s.conditions.active = true)
      (h : Proceeds Q src s own s')

variable {Q : Diagnostic → Prop} {σ : Setting} {src : Source} {nested : Option Reader}
  {s s' : State} {own : List Token} {t : Token}

/-- Where lines count as before, nothing has to be told of those that wait. -/
theorem proceeds_of_eq (hquiet : s.Quiet) (hactive : s'.conditions.active = s.conditions.active)
    (hinactive : s'.inactive = s.inactive)
    (hopeners : ∀ t ∈ s'.conditions.unclosed,
      t ∈ s.conditions.unclosed ∨ t ∈ own.head? ∧ '\n' ∉ t.text.toList)
    (ds : List Diagnostic) (hds : ∀ d ∈ ds, Q d ∨ ∃ t ∈ own.head?, d.Concerns t)
    (hdiagnostics : s'.diagnostics.toList = s.diagnostics.toList ++ ds) :
    Proceeds Q src s own s' := by
  cases ha : s.conditions.active with
  | true =>
    have hnone := hquiet ha
    refine ⟨⟨ds, ?_, hds⟩, ?_, hopeners⟩
    · simp [hactive, ha, pending, hnone, hdiagnostics]
    · simp [hactive, ha, hinactive, hnone]
  | false =>
    refine ⟨⟨ds, ?_, hds⟩, ?_, hopeners⟩
    · simp [hactive, ha, hdiagnostics]
    · simp [hactive, ha, hinactive]

theorem proceeds_of_conditions (hquiet : s.Quiet) (hconditions : s'.conditions = s.conditions)
    (hinactive : s'.inactive = s.inactive)
    (ds : List Diagnostic) (hds : ∀ d ∈ ds, Q d ∨ ∃ t ∈ own.head?, d.Concerns t)
    (hdiagnostics : s'.diagnostics.toList = s.diagnostics.toList ++ ds) :
    Proceeds Q src s own s' := by
  apply proceeds_of_eq hquiet (by rw [hconditions]) hinactive _ ds hds hdiagnostics
  intro t ht
  rw [hconditions] at ht
  exact .inl ht

theorem proceeds_silent (hquiet : s.Quiet) (hconditions : s'.conditions = s.conditions)
    (hinactive : s'.inactive = s.inactive) (hdiagnostics : s'.diagnostics = s.diagnostics) :
    Proceeds Q src s own s' :=
  proceeds_of_conditions hquiet hconditions hinactive [] (by simp) (by simp [hdiagnostics])

/-- Only findings, conditions and waiting lines matter for what comes of a piece. -/
theorem Proceeds.of_eq {r : State} (h : Proceeds Q src r own s')
    (hconditions : r.conditions = s.conditions) (hinactive : r.inactive = s.inactive)
    (hdiagnostics : r.diagnostics = s.diagnostics) : Proceeds Q src s own s' := by
  have hpending : r.pending src.uri = s.pending src.uri := by simp [pending, hinactive]
  refine ⟨?_, ?_, ?_⟩
  · rw [← hdiagnostics, ← hpending]
    exact h.findings
  · rw [← hinactive]
    exact h.inactive
  · rw [← hconditions]
    exact h.openers

/-- A finding on the line itself. -/
theorem proceeds_report (hquiet : s.Quiet) {d : Diagnostic} (hd : d.Concerns t) :
    Proceeds Q src s [t] (s.report d) :=
  proceeds_of_conditions hquiet rfl rfl [d] (by simpa using .inr hd) (by simp [report])

/-- Conditions have changed, and what waits is told if lines count now. -/
theorem proceeds_settle (hinactive : s'.inactive = s.inactive)
    (hdiagnostics : s'.diagnostics = s.diagnostics)
    (hopeners : ∀ t ∈ s'.conditions.unclosed,
      t ∈ s.conditions.unclosed ∨ t ∈ own.head? ∧ '\n' ∉ t.text.toList) :
    Proceeds Q src s own (s'.settle src.uri) := by
  have hpending : s'.pending src.uri = s.pending src.uri := by simp [pending, hinactive]
  have hconditions : (s'.settle src.uri).conditions = s'.conditions := by
    unfold settle flushInactive
    split
    · split <;> rfl
    · rfl
  refine ⟨⟨[], ?_, by simp⟩, ?_, ?_⟩
  · rw [hconditions, settle]
    split
    · simp [diagnostics_flushInactive, hpending, hdiagnostics]
    · simp [hdiagnostics]
  · rw [hconditions, settle]
    split
    · exact inactive_flushInactive s' src.uri
    · exact hinactive
  · rw [hconditions]
    exact hopeners

theorem unclosed_push (c : Conditional Token) (outcome : Bool) (t : Token) :
    (c.push outcome t).unclosed = c.unclosed ++ [t] := by
  simp [Conditional.push, Conditional.unclosed]

theorem active_push_true (c : Conditional Token) (t : Token) :
    (c.push true t).active = c.active := by
  simp [Conditional.push, Conditional.active]

/-- A file that is included adds its own findings, a file that is not is told on the line. -/
theorem proceeds_includeFile (hquiet : s.Quiet)
    (htells : ∀ read ∈ nested, Reader.Tells Q src read) (hline : '\n' ∉ t.text.toList)
    (name : String) : Proceeds Q src s [t] (s.includeFile σ src nested t name) := by
  cases inclusion_includeFile σ src nested s t name with
  | givenUp h =>
    rw [h]
    exact proceeds_silent hquiet rfl rfl rfl
  | @refused asked cache name reason searched h =>
    have hd := Diagnostic.concerns_atToken .error "include-error"
      (IncludeFailure.toFailure ⟨name, reason, some t.location, searched⟩).brief (by decide) hline
    rw [h]
    exact proceeds_of_conditions hquiet rfl rfl [_] (by simpa using .inr hd)
      (by simp [failInclude, fail, report, Diagnostic.ofFailure])
  | @read read path asked cache cs hmem hpath hchain h =>
    rw [h]
    obtain ⟨ds, hdiagnostics, hds⟩ :=
      htells _ hmem _ hpath hchain cs { s with asked, cache }
    exact proceeds_of_conditions hquiet rfl rfl ds (fun d hd => .inl (hds d hd)) hdiagnostics

theorem proceeds_carryOut (hquiet : s.Quiet)
    (htells : ∀ read ∈ nested, Reader.Tells Q src read) (hline : '\n' ∉ t.text.toList)
    (d : Directive) : Proceeds Q src s [t] (s.carryOut σ src nested t d) := by
  have hfail : ∀ (code : String) (f : Failure), code ≠ "inactive-code" →
      Proceeds Q src s [t] (s.fail code f t) := by
    intro code f hcode
    exact proceeds_report hquiet (Diagnostic.concerns_atToken .error code f.brief hcode hline)
  cases d with
  | define name value =>
    simp only [carryOut, State.define]
    split
    · exact hfail _ _ (by decide)
    · exact proceeds_silent hquiet rfl rfl rfl
  | undef name =>
    simp only [carryOut, undefine]
    split
    · exact proceeds_silent hquiet rfl rfl rfl
    · exact proceeds_report hquiet (Diagnostic.concerns_atToken .warning _ _ (by decide) hline)
  | inclusion name => exact proceeds_includeFile hquiet htells hline name
  | condition name negated =>
    apply proceeds_settle
    · rfl
    · rfl
    · intro t' ht'
      rw [openCondition, unclosed_push, List.mem_append, List.mem_singleton] at ht'
      rcases ht' with ht' | rfl
      · exact .inl ht'
      · exact .inr ⟨by simp, hline⟩
  | otherwise =>
    simp only [carryOut, turnCondition, Conditional.invert]
    cases hc : s.conditions.conditions with
    | nil => exact hfail _ _ (by decide)
    | cons c outer =>
      apply proceeds_settle
      · rfl
      · rfl
      · intro t' ht'
        left
        simpa [Conditional.unclosed, hc] using ht'
  | endif =>
    simp only [carryOut, closeCondition, Conditional.pop]
    cases hc : s.conditions.conditions with
    | nil => exact hfail _ _ (by decide)
    | cons c outer =>
      have hopeners : ∀ t' ∈ (Conditional.mk outer).unclosed,
          t' ∈ s.conditions.unclosed ∨ t' ∈ [t].head? ∧ '\n' ∉ t'.text.toList := by
        intro t' ht'
        left
        simp only [Conditional.unclosed, hc, List.reverse_cons, List.map_append, List.mem_append]
        exact .inl ht'
      dsimp only
      split
      · exact proceeds_settle rfl rfl hopeners
      · exact proceeds_settle rfl rfl hopeners

theorem proceeds_refuse (hquiet : s.Quiet) (hline : '\n' ∉ t.text.toList)
    (word : Option DirectiveWord) (e : DirectiveError) :
    Proceeds Q src s [t] (s.refuse t word e) := by
  have hd := Diagnostic.concerns_atToken .error "invalid-directive"
    (e.toFailure (some t.location)).brief (by decide) hline
  unfold refuse
  dsimp only
  split
  · refine proceeds_of_eq hquiet (active_push_true s.conditions t) rfl ?_ [_]
      (by simpa using .inr hd) (by simp [openCondition, fail, report, Diagnostic.ofFailure])
    intro t' ht'
    rw [openCondition, unclosed_push, List.mem_append, List.mem_singleton] at ht'
    rcases ht' with ht' | rfl
    · exact .inl ht'
    · exact .inr ⟨by simp, hline⟩
  · exact proceeds_report hquiet hd

/-- The token of a directive is the one that its word and the conditions ask for. -/
theorem course_directive (hquiet : s.Quiet) (htells : ∀ read ∈ nested, Reader.Tells Q src read)
    {line : List Char} (hline : '\n' ∉ line)
    (hgives : Piece.Gives s src.uri (.directive line) [t]) :
    Course Q src s (.directive line) [t] (s.take σ src nested (.directive line)) := by
  have htext : '\n' ∉ t.text.toList := by
    cases hgives <;> simpa [tokenHere] using hline
  -- What follows the token starts from the same findings, conditions and waiting lines.
  have hactive : ∀ word : Option DirectiveWord,
      s.tokenHere src.uri (if word.isSome then .directive else .inactive) line = t →
      Proceeds Q src s [t] (s.activeDirective σ src nested line word) := by
    intro word ht
    unfold activeDirective
    dsimp only
    rw [ht]
    have hquiet' : ((s.emit t).advance line).Quiet := hquiet
    split
    · exact (proceeds_refuse hquiet' htext word _).of_eq rfl rfl rfl
    · exact (proceeds_carryOut hquiet' htells htext _).of_eq rfl rfl rfl
  simp only [take, directiveLine]
  split
  · rename_i hoff
    simp only [Bool.and_eq_true, Bool.not_eq_true'] at hoff
    refine .off hoff.1 ?_ rfl
    cases hgives with
    | @directive _ word hw ha =>
      rw [show DirectiveWord.ofText? (Directive.wordOf line) = some word from hw] at hoff
      rcases ha with ha | ha
      · simp [hoff.1] at ha
      · simp [ha] at hoff
    | idle hw => rfl
  · rename_i hon
    simp only [Bool.and_eq_true, Bool.not_eq_true', not_and_or, Bool.not_eq_false] at hon
    cases hgives with
    | @directive _ word hw ha =>
      refine .on (by simp [tokenHere]) (hactive _ ?_)
      rw [show DirectiveWord.ofText? (Directive.wordOf line) = some word from hw]
      rfl
    | @idle _ hw =>
      have hnone : wordOf? line = none := by
        cases hword : wordOf? line with
        | none => rfl
        | some word =>
          have h := hw word hword
          rw [show DirectiveWord.ofText? (Directive.wordOf line) = some word from hword] at hon
          simp [h] at hon
      rw [show DirectiveWord.ofText? (Directive.wordOf line) = none from hnone] at hon ⊢
      refine .on ?_ (hactive none rfl)
      intro t' ht' _
      simpa using hon

theorem Quiet.of_eq {r : State} (h : s.Quiet) (hconditions : r.conditions = s.conditions)
    (hinactive : r.inactive = s.inactive) : r.Quiet := by
  intro hactive
  rw [hconditions] at hactive
  rw [hinactive]
  exact h hactive

theorem proceeds_plain (hquiet : s.Quiet) {c : Char} {cs : List Char} (hn : c ≠ '\n') :
    Proceeds Q src s
      [s.tokenHere src.uri (Lexeme.head s.part c cs).kind (Lexeme.head s.part c cs).text]
      (s.plain src.uri (Lexeme.head s.part c cs)) := by
  have hlines : ∀ f, (Lexeme.head s.part c cs).fault = some f →
      '\n' ∈ (Lexeme.head s.part c cs).text → f.code = "unterminated-comment" :=
    fun f hf htext => Lexeme.code_of_fault_head hn hf htext
  generalize Lexeme.head s.part c cs = l at hlines ⊢
  have hfold : ∀ (r : State) (first : Nat),
      (r.foldLines src.uri first).conditions = r.conditions ∧
      (r.foldLines src.uri first).inactive = r.inactive ∧
      (r.foldLines src.uri first).diagnostics = r.diagnostics := by
    intro r first
    unfold foldLines
    split
    · exact ⟨rfl, rfl, rfl⟩
    · exact ⟨rfl, rfl, rfl⟩
  have hnext := hfold { (s.emit (s.tokenHere src.uri l.kind l.text)).advance l.text with
    part := Expansion.partAfter s.part l } s.position.line
  unfold plain
  dsimp only
  generalize foldLines _ src.uri s.position.line = r at hnext ⊢
  obtain ⟨hconditions, hinactive, hdiagnostics⟩ := hnext
  cases hf : l.fault with
  | none => exact proceeds_silent hquiet hconditions hinactive hdiagnostics
  | some f =>
    have hd : (Diagnostic.atToken .error f.code f.message
        (s.tokenHere src.uri l.kind l.text)).Concerns (s.tokenHere src.uri l.kind l.text) := by
      refine ⟨⟨rfl, rfl, rfl, rfl, rfl⟩, f.code_ne_inactiveCode, ?_⟩
      intro htext
      exact hlines f hf (by simpa [tokenHere] using htext)
    exact (proceeds_report (hquiet.of_eq hconditions hinactive) hd).of_eq hconditions hinactive
      hdiagnostics

/-- Everything that is told about a replacement text is told on the reference. -/
theorem proceeds_expand (hquiet : s.Quiet) {m : Macro} {word : List Char} (hline : '\n' ∉ word)
    (rest : List Token) :
    Proceeds Q src s (s.markerHere src.uri m word :: rest) (s.expand src.uri m word) := by
  refine proceeds_of_conditions hquiet rfl rfl
    ((Expansion.ofMacro s.macros s.part m).faults.map fun f =>
      .atToken .error f.code f.message (s.markerHere src.uri m word)) ?_ ?_
  · intro d hd
    obtain ⟨f, -, rfl⟩ := List.mem_map.mp hd
    have hconcerns := Diagnostic.concerns_atToken .error f.code f.message f.code_ne_inactiveCode
      (t := s.markerHere src.uri m word) (by simpa [markerHere, tokenHere] using hline)
    exact .inr ⟨_, by simp, hconcerns⟩
  · simp [expand, advance, markerHere]

/-- Every piece adds its own tokens and after them those of the file it includes, and comes to what
is right for it. -/
theorem exists_course {P : Token → Prop} (hquiet : s.Quiet)
    (hgives : ∀ read ∈ nested, Reader.Gives P src read)
    (htells : ∀ read ∈ nested, Reader.Tells Q src read) {text rest : List Char} {p : Piece}
    (hnext : Next σ.directives s text p rest) :
    ∃ own foreign, (s.take σ src nested p).tokens.toList = s.tokens.toList ++ (own ++ foreign) ∧
      p.Gives s src.uri own ∧ (∀ t ∈ foreign, P t) ∧
      Course Q src s p own (s.take σ src nested p) := by
  cases hnext with
  | newline =>
    exact ⟨[], [], by simp [take, newline], .newline, by simp,
      .on (by simp) (proceeds_silent hquiet rfl rfl rfl)⟩
  | space =>
    exact ⟨[], [], by simp [take, space], .space _, by simp,
      .on (by simp) (proceeds_silent hquiet rfl rfl rfl)⟩
  | @directive line rest hd hs hline hrest =>
    have hline' : '\n' ∉ '#' :: line := by simp [hline]
    obtain ⟨t, ht, foreign, htokens, hforeign⟩ :=
      adds_directiveLine σ src nested hgives s ('#' :: line)
    refine ⟨[t], foreign, ?_, ht, hforeign, course_directive hquiet htells hline' ht⟩
    rw [take, htokens]
    simp [emit]
  | @inactive c line rest hn hc hs hd ha hline hrest =>
    refine ⟨[s.tokenHere src.uri .inactive (c :: line)], [], ?_, .inactive _, by simp,
      .off ha rfl rfl⟩
    simp [take, inactiveLine, addInactive, advance, emit]
  | @element c cs hn hc hs =>
    have hkind : (Lexeme.head s.part c cs).kind ≠ .inactive := by
      intro hk
      have helement := isElement_head s.part c cs
      rw [hk] at helement
      cases helement
    simp only [take, element]
    split
    · rename_i m hm
      have hline : '\n' ∉ (Lexeme.head s.part c cs).text := by
        apply Lexeme.not_mem_text_head hn
        exact Lexeme.kind_head_ne_comment (Expansion.reference?_eq_some hm).1
      refine ⟨_, [], ?_, .reference _ m, by simp, .on ?_ (proceeds_expand hquiet hline _)⟩
      · simp [expand, advance, markerHere]
      · intro t ht hinactive
        rcases List.mem_cons.mp ht with rfl | ht
        · cases hinactive
        · obtain ⟨l, hl, rfl⟩ := List.mem_map.mp ht
          have htrivia := Expansion.isTrivia_of_mem_ofText _ _ _ _ l hl
          simp [show l.kind = .inactive from hinactive, TokenKind.isTrivia] at htrivia
    · refine ⟨_, [], ?_, .plain _, by simp, .on ?_ (proceeds_plain hquiet hn)⟩
      · simp [(agrees_plain s src.uri _).tokens, advance, emit]
      · intro t ht hinactive
        rw [List.mem_singleton.mp ht] at hinactive
        exact absurd hinactive hkind

variable {p : Piece}

theorem Course.quiet (h : Course Q src s p own s') : s'.Quiet := by
  cases h with
  | off hactive hown h =>
    intro ha
    rw [h] at ha
    exact absurd ha (by simp [inactiveLine, addInactive, advance, emit, hactive])
  | on hown h =>
    intro ha
    rw [h.inactive, if_pos ha]

theorem Course.openers (h : Course Q src s p own s') : ∀ t ∈ s'.conditions.unclosed,
    t ∈ s.conditions.unclosed ∨ t ∈ own.head? ∧ '\n' ∉ t.text.toList := by
  cases h with
  | off hactive hown h =>
    rw [h]
    exact fun t ht => .inl ht
  | on hown h => exact h.openers

theorem Course.findings (h : Course Q src s p own s') :
    ∃ ds, s'.diagnostics.toList = s.diagnostics.toList ++ ds ∧
      ∀ d ∈ ds, Q d ∨ (∃ t ∈ own.head?, d.Concerns t) ∨ d ∈ s.pending src.uri := by
  cases h with
  | off hactive hown h =>
    refine ⟨[], ?_, by simp⟩
    simp [h, inactiveLine, addInactive, advance, emit]
  | on hown h =>
    obtain ⟨ds, hdiagnostics, hds⟩ := h.findings
    refine ⟨_, hdiagnostics, ?_⟩
    intro d hd
    rcases List.mem_append.mp hd with hd | hd
    · exact (hds d hd).imp_right .inl
    · split at hd
      · exact .inr (.inr hd)
      · simp at hd

end State

/-! ### Findings in included files -/

variable {uri : String}

/-- A text of another URI leaves no finding in a document that it bars. -/
theorem run_tells_foreign (σ : Setting) (src : Source) (nested : Option Reader)
    (hsrc : src.uri ≠ uri) (hgives : ∀ read ∈ nested, Reader.Gives (·.uri ≠ uri) src read)
    (htells : ∀ read ∈ nested, Reader.Tells (·.uri ≠ uri) src read) (s : State) (cs : List Char)
    (hquiet : s.Quiet) (hopeners : ∀ t ∈ s.conditions.unclosed, t.uri = src.uri) :
    State.Tells (·.uri ≠ uri) s ((run σ src nested s cs).finish src.uri) := by
  have hpending : ∀ (r : State), ∀ d ∈ r.pending src.uri, d.uri ≠ uri := by
    intro r d hd
    obtain ⟨lines, -, rfl⟩ := List.mem_map.mp hd
    exact hsrc
  induction s, cs using run_induction σ src nested with
  | nil s =>
    rw [run_nil]
    refine ⟨_, s.diagnostics_finish src.uri, ?_⟩
    intro d hd
    rcases List.mem_append.mp hd with hd | hd
    · exact hpending s d hd
    · obtain ⟨t, ht, rfl⟩ := List.mem_map.mp hd
      change t.uri ≠ uri
      rw [hopeners t ht]
      exact hsrc
  | next s text p rest hnext ih =>
    obtain ⟨own, -, -, hown, -, hcourse⟩ := State.exists_course hquiet hgives htells hnext
    have huri : ∀ t ∈ own.head?, t.uri = src.uri :=
      fun t ht => hown.uri_eq t (List.mem_of_mem_head? ht)
    have hopeners' : ∀ t ∈ (s.take σ src nested p).conditions.unclosed, t.uri = src.uri := by
      intro t ht
      rcases hcourse.openers t ht with ht | ⟨ht, -⟩
      · exact hopeners t ht
      · exact huri t ht
    obtain ⟨ds', hdiagnostics', hds'⟩ := ih hcourse.quiet hopeners'
    obtain ⟨ds, hdiagnostics, hds⟩ := hcourse.findings
    rw [run_of_next σ src nested hnext]
    refine ⟨ds ++ ds', by rw [hdiagnostics', hdiagnostics, List.append_assoc], ?_⟩
    intro d hd
    rcases List.mem_append.mp hd with hd | hd
    · rcases hds d hd with hd | ⟨t, ht, hd⟩ | hd
      · exact hd
      · rw [hd.isAt.uri, huri t ht]
        exact hsrc
      · exact hpending s d hd
    · exact hds' d hd

/-- Files included from a text, at whatever depth, leave no finding in a document that the text
bars. -/
theorem text_tells_foreign (σ : Setting) (n : Nat) (src : Source) (hbars : src.Bars uri) :
    Reader.Tells (·.uri ≠ uri) src (text σ n) := by
  induction n generalizing src with
  | zero =>
    intro path hpath hmem cs s
    have hne : (src.included path).uri ≠ uri := hbars path hpath hmem
    exact run_tells_foreign σ _ none hne (by simp) (by simp) s.enter cs (fun _ => rfl)
      (by simp [State.enter, Conditional.unclosed])
  | succ n ih =>
    intro path hpath hmem cs s
    have hne : (src.included path).uri ≠ uri := hbars path hpath hmem
    have hbars' := hbars.included path
    refine run_tells_foreign σ _ (some (text σ n)) hne ?_ ?_ s.enter cs (fun _ => rfl)
      (by simp [State.enter, Conditional.unclosed])
    · intro read hread
      rw [← Option.some.inj hread]
      exact text_gives_foreign σ n _ hbars'
    · intro read hread
      rw [← Option.some.inj hread]
      exact ih _ hbars'

/-- What is read from within a document leaves no token and no finding in it. -/
theorem reader?_foreign (σ : Setting) (n : Nat) {src : Source} (hbars : src.Bars uri) :
    (∀ read ∈ reader? σ n, Reader.Gives (·.uri ≠ uri) src read) ∧
    ∀ read ∈ reader? σ n, Reader.Tells (·.uri ≠ uri) src read := by
  cases n with
  | zero => simp [reader?]
  | succ n =>
    constructor
    · intro read hread
      rw [← Option.some.inj hread]
      exact text_gives_foreign σ n src hbars
    · intro read hread
      rw [← Option.some.inj hread]
      exact text_tells_foreign σ n src hbars

end Scan

end Pearl
