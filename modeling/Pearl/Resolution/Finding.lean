import Pearl.Diagnostic
import Pearl.Event.Basic

namespace Pearl

/-- What the analysis of a program may have to tell. -/
inductive Cause where
  | flaw (f : SyntaxFlaw)
  /-- A module inside another block. -/
  | misplacedModule (block : Block)
  /-- A procedure or task that is not at module level. -/
  | nestedUnit (block : Block) (name : String)
  /-- A name that is taken, and where it was declared first. -/
  | duplicate (name : String) (first : Nat)
  | undefinedName (name : String)
  | kindMismatch (name : String) (declared : SymbolKind) (keyword : String) (required : SymbolKind)
  | unmatchedElse
  /-- A closer that does not close the innermost block, which is given. -/
  | unexpectedCloser (closer : Closer) (innermost : Option Block)
  | undefinedLabel (name : String)
  | unclosed (block : Block)
  | unused (kind : SymbolKind) (name : String)
  deriving DecidableEq, Repr

namespace Cause

def code : Cause → String
  | flaw _ => "syntax-error"
  | misplacedModule _ => "misplaced-block"
  | nestedUnit .. => "nested-unit"
  | duplicate .. => "duplicate-declaration"
  | undefinedName _ => "undefined-identifier"
  | kindMismatch .. => "kind-mismatch"
  | unmatchedElse => "mismatched-block"
  | unexpectedCloser .. => "mismatched-block"
  | undefinedLabel _ => "undefined-label"
  | unclosed _ => "unclosed-block"
  | unused .. => "unused-symbol"

def severity : Cause → Severity
  | unclosed _ | unused .. => .warning
  | _ => .error

/-- The cause is code that may be left out. -/
def isUnnecessary : Cause → Bool
  | unused .. => true
  | _ => false

/-- The wording of a cause, given where the words of the program stand. -/
def message (location : Nat → String) : Cause → String
  | flaw f => f.message
  | misplacedModule block => s!"{block.keyword} is only allowed at top level"
  | nestedUnit block name => s!"{block.keyword} '{name}' may only be declared at module level"
  | duplicate name first =>
    s!"'{name}' is already declared in this scope (first declared at {location first})"
  | undefinedName name => s!"undefined identifier '{name}'"
  | kindMismatch name declared keyword required =>
    s!"'{name}' is declared as {declared.name}, but {keyword} requires {required.name}"
  | unmatchedElse => "ELSE without matching IF"
  | unexpectedCloser closer innermost =>
    let openers := "/".intercalate (closer.openers.map Block.keyword)
    s!"unexpected {closer.keyword}: no open {openers} block" ++
      match innermost with
      | some b =>
        s!" (innermost open block is {b.keyword}, expected {b.closer.keyword})"
      | none => ""
  | undefinedLabel name => s!"label {name} not defined"
  | unclosed block => s!"Block '{block.keyword}' not closed, expected {block.closer.keyword}"
  | unused kind name => s!"{kind.noun} '{name}' is declared but never used"

end Cause

structure Finding where
  cause : Cause
  place : Nat
  deriving DecidableEq, Repr

/-- The finding on the token at its place; `tokens` are those that count. -/
def Finding.toDiagnostic? (tokens : Array Token) (f : Finding) : Option Diagnostic :=
  let location := fun i => ((tokens[i]?).bind (·.location.render.toOption)).getD ""
  (tokens[f.place]?).map fun t =>
    { Diagnostic.atToken f.cause.severity f.cause.code (f.cause.message location) t with
      unnecessary := f.cause.isUnnecessary }

end Pearl
