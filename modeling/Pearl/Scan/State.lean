import Pearl.Conditional
import Pearl.Diagnostic
import Pearl.Folding
import Pearl.IncludeCache
import Pearl.Lexeme
import Pearl.Options
import Pearl.RealPath

namespace Pearl.Scan

/-- What all texts of one run have in common. -/
structure Setting where
  files : FileTree
  options : Options := {}
  /-- `#` lines are carried out. -/
  directives : Bool := true
  /-- How many files the stack holds that are being read, each included by the one before, if there
  is a limit. -/
  stackLevels : Option Nat := none

/-- A text by its name. `chain` holds the files it is being included from, itself the last. -/
structure Source where
  uri : String
  path : Option Path := none
  chain : List Path := []
  deriving DecidableEq, Repr

/-- The source of a document; the path of a file has to be found. -/
def Source.ofUri (files : FileTree) (uri : String) : Except DocumentError Source :=
  if Uri.isFile uri then (files.locate uri).map fun path => ⟨uri, some path, [path]⟩
  else .ok ⟨uri, none, []⟩

def Source.included (outer : Source) (path : Path) : Source :=
  ⟨Uri.ofPath path, some path, outer.chain ++ [path]⟩

/-- The directory that relative names refer to in a text. -/
def Setting.base (σ : Setting) (src : Source) : Path :=
  σ.options.includeBase σ.files.cwd src.path

/-- The file that a name refers to in a text. -/
def Setting.locate (σ : Setting) (src : Source) (name : String) : Except DocumentError Path :=
  if σ.stackLevels.any (· ≤ src.chain.length) then .error .stack
  else σ.files.reach ((σ.base src).join (Path.ofString name))

/-- What is known after a part of a text has been read. The fields down to `part` are carried
through all texts of a run; the others belong to the text that is being read. -/
structure State where
  macros : MacroTable
  cache : IncludeCache
  /-- The files that were looked for. -/
  asked : Array Path := #[]
  /-- Why the run has been given up. From there on nothing is included any more, and what is read is
  thrown away in the end. -/
  failure : Option DocumentError := none
  tokens : Array Token := #[]
  folding : Array FoldingRegion := #[]
  diagnostics : Array Diagnostic := #[]
  part : Part := .problem
  conditions : Conditional Token := {}
  /-- The first and the last of the inactive lines that have not been reported yet. -/
  inactive : Option (Token × Token) := none
  position : Position := .zero
  /-- Nothing but blanks stands before this place on its line. -/
  lineStart : Bool := true

namespace State

/-- The state in which an included text is read. -/
def enter (s : State) : State :=
  { s with conditions := {}, inactive := none, position := .zero, lineStart := true }

/-- The state after an included text, back in the text around it. -/
def leave (outer inner : State) : State :=
  { inner with
    conditions := outer.conditions, inactive := outer.inactive
    position := outer.position, lineStart := outer.lineStart }

def emit (s : State) (t : Token) : State := { s with tokens := s.tokens.push t }

def report (s : State) (d : Diagnostic) : State := { s with diagnostics := s.diagnostics.push d }

def fold (s : State) (r : FoldingRegion) : State := { s with folding := s.folding.push r }

/-- Passes over characters that do not start a line. -/
def advance (s : State) (cs : List Char) : State :=
  { s with position := s.position.advance cs, lineStart := false }

def tokenHere (s : State) (uri : String) (kind : TokenKind) (cs : List Char) : Token :=
  { kind, text := String.ofList cs, uri, start := s.position, length := cs.length }

def addInactive (s : State) (t : Token) : State :=
  { s.emit t with inactive := some ((s.inactive.map (·.1)).getD t, t) }

/-- Reports the inactive lines that have not been reported yet as one region. -/
def flushInactive (s : State) (uri : String) : State :=
  match s.inactive with
  | none => s
  | some (first, last) =>
    { s.report
        { severity := .hint, code := "inactive-code"
          message := "inactive code (excluded by preprocessor condition)"
          uri, line := first.start.line, column := first.start.column
          endLine := last.start.line, endColumn := last.start.column + last.length
          unnecessary := true } with
      inactive := none }

end State

end Pearl.Scan
