import Pearl.Failure
import Pearl.Token.Basic

namespace Pearl

inductive Severity where
  | error
  | warning
  | information
  | hint
  deriving DecidableEq, Repr

namespace Severity

def name : Severity → String
  | error => "error"
  | warning => "warning"
  | information => "information"
  | hint => "hint"

/-- The rank of a severity, the worst first. -/
def rank : Severity → Nat
  | error => 1
  | warning => 2
  | information => 3
  | hint => 4

end Severity

/-- A finding on a range of a document. The end is exclusive. `unnecessary` code may be shown
dimmed. -/
structure Diagnostic where
  severity : Severity
  code : String
  message : String
  uri : String
  line : Nat
  column : Nat
  endLine : Nat
  endColumn : Nat
  unnecessary : Bool := false
  deriving DecidableEq, Repr

namespace Diagnostic

/-- A finding on a token; an empty token is shown as one character. -/
def atToken (severity : Severity) (code message : String) (t : Token) : Diagnostic :=
  { severity, code, message, uri := t.uri
    line := t.start.line, column := t.start.column
    endLine := t.start.line, endColumn := t.start.column + max t.length 1 }

def ofFailure (code : String) (f : Failure) (t : Token) : Diagnostic :=
  atToken .error code f.brief t

def location (d : Diagnostic) : Location := ⟨d.uri, d.line, d.column⟩

def render (d : Diagnostic) : Except UriError String :=
  d.location.render.map fun place => s!"{place}: {d.severity.name}: {d.message}"

/-- Findings are listed by document, then by line, then by column. -/
def precedes (a b : Diagnostic) : Bool :=
  a.uri < b.uri || a.uri = b.uri && (a.line < b.line || a.line = b.line && a.column ≤ b.column)

def count (severity : Severity) (ds : List Diagnostic) : Nat :=
  ds.countP (·.severity = severity)

def anyError (ds : List Diagnostic) : Bool := ds.any (·.severity = .error)

/-- A number with a noun, in the plural unless it is one. -/
def counted (n : Nat) (noun : String) : String :=
  if n = 1 then s!"{n} {noun}" else s!"{n} {noun}s"

/-- The findings in order, one to a line, and how many errors and warnings there are;
hints are left out on demand. -/
def report (ds : List Diagnostic) (hints : Bool) : Except UriError String :=
  let shown := (ds.mergeSort precedes).filter fun d => hints || d.severity ≠ .hint
  (shown.mapM render).map fun lines =>
    "\n".intercalate (lines ++
      [counted (count .error ds) "error" ++ ", " ++ counted (count .warning ds) "warning"])

end Diagnostic

end Pearl
