import Mathlib.Data.List.DropRight
import Pearl.Proofs.DirectiveSpelling

namespace Pearl

/-- The end of a text is trimmed once and for all. -/
theorem Text.trimEnd_trimEnd (cs : List Char) : trimEnd (trimEnd cs) = trimEnd cs := by
  rw [trimEnd, trimEnd, List.reverse_reverse, List.dropWhile_idempotent]

namespace Directive

open Text

/-! ### A comment is taken off once -/

theorem beforeComment_beforeComment (mark : Option Char) (cs : List Char) :
    beforeComment mark (beforeComment mark cs) = beforeComment mark cs := by
  fun_induction beforeComment mark cs with
  | case1 => rfl
  | case2 mark c cs ih => rw [beforeComment, ih]
  | case3 => rfl
  | case4 c cs hc ih => rw [beforeComment, if_neg hc, ih]

/-- Where a text has no comment, its first part has none. -/
theorem beforeComment_of_append {mark : Option Char} {cs ds : List Char}
    (h : beforeComment mark (cs ++ ds) = cs ++ ds) : beforeComment mark cs = cs := by
  induction cs generalizing mark with
  | nil => rfl
  | cons c cs ih =>
    rw [List.cons_append] at h
    cases mark with
    | some mark =>
      rw [beforeComment] at h
      rw [beforeComment, ih (List.cons.inj h).2]
    | none =>
      rw [beforeComment] at h
      split at h
      · cases h
      · rename_i hc
        rw [beforeComment, if_neg hc, ih (List.cons.inj h).2]

/-- Nothing is left to take off a line without its comment. -/
theorem stripComment_stripComment (line : List Char) :
    stripComment (stripComment line) = stripComment line := by
  obtain ⟨blanks, happend, -⟩ := exists_trimEnd_append (beforeComment none line)
  have hfull : beforeComment none (stripComment line ++ blanks) = stripComment line ++ blanks := by
    rw [stripComment, happend, beforeComment_beforeComment]
  have hplain : beforeComment none (stripComment line) = stripComment line :=
    beforeComment_of_append hfull
  calc stripComment (stripComment line)
      = trimEnd (beforeComment none (stripComment line)) := rfl
    _ = trimEnd (stripComment line) := by rw [hplain]
    _ = stripComment line := trimEnd_trimEnd _

theorem parse_stripComment (line : List Char) : parse (stripComment line) = parse line := by
  rw [parse, parse, stripComment_stripComment]

/-! ### The word that a line is read by -/

/-- The word that a line has been read by, whether its arguments fit or not; none if the word is
unknown. -/
def readBy : Except DirectiveError Directive → Option DirectiveWord
  | .ok d => some d.word
  | .error (.malformed word) => some word
  | .error (.unrecognized _) => none

theorem readBy_parse (rest : List Char) :
    readBy (parse ('#' :: rest)) = DirectiveWord.ofText? (wordOf ('#' :: rest)) := by
  cases h : parse ('#' :: rest) with
  | ok d => rw [readBy, word_of_parse h]
  | error e =>
    rw [error_of_parse h]
    cases DirectiveWord.ofText? (wordOf ('#' :: rest)) <;> rfl

/-- What a directive names: a macro. -/
def name? : Directive → Option String
  | define name _ | undef name | condition name _ => some name
  | _ => none

/-- What a directive puts in the place of something: a replacement text or a file. -/
def value? : Directive → Option String
  | define _ value | inclusion value => some value
  | _ => none

end Directive

namespace Scan

open Directive

namespace State

variable {s : State}

/-! ### Branches by the word of the line as it is written -/

/-- What is done for a word with the arguments that a directive brings along; nothing where one that
the word needs is missing. -/
def branch? (σ : Setting) (src : Source) (nested : Option Reader) (s : State) (t : Token)
    (d : Directive) : DirectiveWord → Option State
  | .define => d.name?.bind fun name => d.value?.map fun value => s.define t name value
  | .undef => d.name?.map fun name => s.undefine t name
  | .inclusion => d.value?.map fun name => s.includeFile σ src nested t name
  | .ifdef => d.name?.map fun name =>
    (s.openCondition t (s.macros.contains name)).settle src.uri
  | .ifndef => d.name?.map fun name =>
    (s.openCondition t (!s.macros.contains name)).settle src.uri
  | .otherwise => some (s.turnCondition src t)
  | .endif => some (s.closeCondition src t)

/-- A directive brings along what its own word needs. -/
theorem branch?_word (σ : Setting) (src : Source) (nested : Option Reader) (s : State) (t : Token)
    (d : Directive) :
    s.branch? σ src nested t d d.word = some (s.carryOut σ src nested t d) := by
  cases d with
  | define | undef | inclusion | otherwise | endif => rfl
  | condition name negated =>
    cases negated with
    | true => simp [branch?, carryOut, Directive.word, name?]
    | false => simp [branch?, carryOut, Directive.word, name?]

/-! ### Open conditions -/

def depthAfter (depth : Nat) : Option DirectiveWord → Nat
  | some .ifdef | some .ifndef => depth + 1
  | some .endif => depth - 1
  | _ => depth

theorem conditions_includeFile (σ : Setting) (src : Source) (nested : Option Reader) (s : State)
    (t : Token) (name : String) :
    (s.includeFile σ src nested t name).conditions = s.conditions := by
  rw [← leave_includeFile]
  rfl

theorem depth_carryOut (σ : Setting) (src : Source) (nested : Option Reader) (s : State) (t : Token)
    (d : Directive) : (s.carryOut σ src nested t d).conditions.depth =
      depthAfter s.conditions.depth (some d.word) := by
  cases d with
  | define name value =>
    simp only [carryOut, define]
    split
    · rfl
    · rfl
  | undef name =>
    simp only [carryOut, undefine]
    split
    · rfl
    · rfl
  | inclusion name =>
    rw [carryOut, conditions_includeFile]
    rfl
  | condition name negated =>
    rw [carryOut, conditions_settle]
    cases negated <;> rfl
  | otherwise =>
    simp only [carryOut, turnCondition, Conditional.invert]
    cases hc : s.conditions.conditions with
    | nil => rfl
    | cons c outer =>
      dsimp only
      rw [conditions_settle]
      simp [Conditional.depth, depthAfter, Directive.word, hc]
  | endif =>
    rw [carryOut, conditions_closeCondition]
    exact List.length_tail

/-- A line that ends a condition is never refused: its word needs no arguments. -/
theorem ne_endif_of_error {rest : List Char} {e : DirectiveError}
    (h : parse ('#' :: rest) = .error e) :
    DirectiveWord.ofText? (wordOf ('#' :: rest)) ≠ some .endif := by
  intro hword
  rw [parse_of_word (.inr rfl) hword] at h
  cases h

theorem conditions_refuse (s : State) (t : Token) (word : Option DirectiveWord)
    (e : DirectiveError) : (s.refuse t word e).conditions =
      if word.any (·.isOpener) then s.conditions.push true t else s.conditions := by
  unfold refuse
  dsimp only
  split
  · rfl
  · rfl

/-- A `#` line opens and closes conditions by its word as it is written, wherever it stands and
whether it can be read or not. -/
theorem depth_directiveLine (σ : Setting) (src : Source) (nested : Option Reader) (s : State)
    (rest : List Char) :
    (s.directiveLine σ src nested ('#' :: rest)).conditions.depth =
      depthAfter s.conditions.depth (DirectiveWord.ofText? (wordOf ('#' :: rest))) := by
  unfold directiveLine
  dsimp only
  split
  · rename_i hidle
    simp only [Bool.and_eq_true, Bool.not_eq_true'] at hidle
    cases hword : DirectiveWord.ofText? (wordOf ('#' :: rest)) with
    | none => rfl
    | some word =>
      rw [hword, Option.any_some] at hidle
      cases word with
      | define | undef | inclusion => rfl
      | ifdef | ifndef | otherwise | endif => cases hidle.2
  · unfold activeDirective
    dsimp only
    cases hparse : parse ('#' :: rest) with
    | ok d =>
      dsimp only
      rw [depth_carryOut, word_of_parse hparse]
      rfl
    | error e =>
      dsimp only
      rw [conditions_refuse]
      have hend := ne_endif_of_error hparse
      cases hword : DirectiveWord.ofText? (wordOf ('#' :: rest)) with
      | none => rfl
      | some word =>
        cases word with
        | define | undef | inclusion | otherwise | ifdef | ifndef => rfl
        | endif => exact absurd hword hend

/-- A line that was to open a condition and cannot be read opens one that holds. -/
theorem conditions_of_malformed (σ : Setting) (src : Source) (nested : Option Reader) (s : State)
    {rest : List Char} {word : DirectiveWord} (hopens : word.isOpener = true)
    (h : parse ('#' :: rest) = .error (.malformed word)) :
    (s.directiveLine σ src nested ('#' :: rest)).conditions =
      s.conditions.push true (s.tokenHere src.uri .directive ('#' :: rest)) := by
  have hword : DirectiveWord.ofText? (wordOf ('#' :: rest)) = some word := by
    rw [← readBy_parse, h, readBy]
  have hconditional : word.isConditional = true := by
    cases word with
    | ifdef | ifndef => rfl
    | define | undef | inclusion | otherwise | endif => cases hopens
  have hcounts : ¬(!s.conditions.active && !(some word).any (·.isConditional)) = true := by
    simp [hconditional]
  unfold directiveLine
  dsimp only
  rw [hword, if_neg hcounts]
  unfold activeDirective
  dsimp only
  rw [h]
  dsimp only
  rw [conditions_refuse, Option.any_some, if_pos hopens]
  rfl

end State

/-- A `#` line is the same directive with its comment and without: it has the same word, and what is
taken off once is taken off for good. So the branch that goes by the word of the line as it is
written finds the directive, or the fault, that was read from the line without its comment, and no
argument is missing there. Conditions are opened and closed by that word, and a line that opens one
opens exactly one where it cannot be read. -/
theorem directive_seen_alike (rest : List Char) :
    wordOf (stripComment ('#' :: rest)) = wordOf ('#' :: rest) ∧
    (∀ line, stripComment (stripComment line) = stripComment line) ∧
    (∀ line, parse (stripComment line) = parse line) ∧
    readBy (parse ('#' :: rest)) = DirectiveWord.ofText? (wordOf ('#' :: rest)) ∧
    (∀ text, parse ('#' :: rest) = .error (.unrecognized text) → text = wordOf ('#' :: rest)) ∧
    (∀ d, parse ('#' :: rest) = .ok d →
      ∃ word, DirectiveWord.ofText? (wordOf ('#' :: rest)) = some word ∧
        ∀ σ src nested (s : State) t,
          s.branch? σ src nested t d word = some (s.carryOut σ src nested t d)) ∧
    ∀ σ src nested (s : State),
      (s.directiveLine σ src nested ('#' :: rest)).conditions.depth =
        State.depthAfter s.conditions.depth (DirectiveWord.ofText? (wordOf ('#' :: rest))) ∧
      ∀ word, word.isOpener = true → parse ('#' :: rest) = .error (.malformed word) →
        (s.directiveLine σ src nested ('#' :: rest)).conditions =
          s.conditions.push true (s.tokenHere src.uri .directive ('#' :: rest)) := by
  refine ⟨wordOf_stripComment rest, stripComment_stripComment, parse_stripComment,
    readBy_parse rest, ?_, ?_, ?_⟩
  · intro text h
    have herror := error_of_parse h
    cases hword : DirectiveWord.ofText? (wordOf ('#' :: rest)) with
    | none =>
      rw [hword] at herror
      exact DirectiveError.unrecognized.inj herror
    | some word =>
      rw [hword] at herror
      cases herror
  · intro d hd
    exact ⟨d.word, word_of_parse hd, fun σ src nested s t => s.branch?_word σ src nested t d⟩
  · intro σ src nested s
    exact ⟨s.depth_directiveLine σ src nested rest,
      fun word hopens h => s.conditions_of_malformed σ src nested hopens h⟩

/-- An unknown word, a definition with marks in its value, and, where lines do not count, a
condition without a name. -/
theorem directive_seen_alike_malformed :
    let unknown := "\tDefined X ! '".toList
    let definition := "define X '\"! ! \"".toList
    let condition := "  ifndef 1 ! '".toList
    let σ : Setting := { files := { cwd := Path.ofString "/ws" } }
    let src : Source := ⟨"<input>", none, []⟩
    let t : Token := ⟨.directive, "#ifdef Y", "<input>", .zero, 8, none⟩
    let s : State :=
      { initial σ {} .problem with conditions := Conditional.push {} false t }
    (parse ('#' :: unknown) = .error (.unrecognized "defined") ∧
      "defined" = wordOf ('#' :: unknown)) ∧
    (parse ('#' :: definition) = .ok (.define "X" "'\"! ! \"") ∧
      ∃ word, DirectiveWord.ofText? (wordOf ('#' :: definition)) = some word ∧
        s.branch? σ src none t (.define "X" "'\"! ! \"") word =
          some (s.carryOut σ src none t (.define "X" "'\"! ! \""))) ∧
    DirectiveWord.isOpener .ifndef = true ∧
    parse ('#' :: condition) = .error (.malformed .ifndef) ∧ s.conditions.active = false ∧
    (s.directiveLine σ src none ('#' :: condition)).conditions =
      s.conditions.push true (s.tokenHere "<input>" .directive ('#' :: condition)) := by
  intro unknown definition condition σ src t s
  have hunknown : parse ('#' :: unknown) = .error (.unrecognized "defined") := by decide +kernel
  have hdefinition : parse ('#' :: definition) = .ok (.define "X" "'\"! ! \"") := by decide +kernel
  have hcondition : parse ('#' :: condition) = .error (.malformed .ifndef) := by decide +kernel
  obtain ⟨-, -, -, -, htext, -, -⟩ := directive_seen_alike unknown
  obtain ⟨-, -, -, -, -, hbranch, -⟩ := directive_seen_alike definition
  obtain ⟨-, -, -, -, -, -, hstate⟩ := directive_seen_alike condition
  obtain ⟨word, hword, hcarry⟩ := hbranch _ hdefinition
  exact ⟨⟨hunknown, htext _ hunknown⟩, ⟨hdefinition, word, hword, hcarry σ src none s t⟩, rfl,
    hcondition, rfl, (hstate σ src none s).2 .ifndef rfl hcondition⟩

end Scan

end Pearl
