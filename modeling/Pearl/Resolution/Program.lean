import Pearl.Event.Statement
import Pearl.Folding
import Pearl.Resolution.State

namespace Pearl.Resolution

/-- The state at the end of the words of a program, before its end is looked at. -/
def ofWords (words : List Word) : State := ofEvents (Event.ofWords words)

def program (words : List Word) (unused : Bool) : State := (ofWords words).finish unused

/-- The lines of a block that has been closed in the document it was opened in. -/
def foldingOf? (tokens : Array Token) (b : ClosedBlock) : Option FoldingRegion :=
  match tokens[b.openedAt]?, tokens[b.closedAt]? with
  | some first, some last =>
    if first.uri = last.uri && first.start.line < last.start.line then
      some { uri := last.uri, startLine := first.start.line, endLine := last.start.line
             kind := .region, label := some b.block.keyword }
    else none
  | _, _ => none

/-- The findings, with their places looked up in the tokens that count. -/
def State.diagnostics (s : State) (tokens : Array Token) : List Diagnostic :=
  s.findings.toList.filterMap (·.toDiagnostic? tokens)

def State.folding (s : State) (tokens : Array Token) : List FoldingRegion :=
  s.closedBlocks.toList.filterMap (foldingOf? tokens)

/-- The names with a meaning at the end of the words, and with them the variable of a loop whose
body has not been opened yet. -/
def State.visible (s : State) : List (String × Symbol) :=
  let names := s.arena.visible.filterMap fun e => (s.symbol? e.2).map (e.1, ·)
  match s.pending with
  | some name =>
    if (names.lookup name.name).isSome then names
    else names ++ [(name.name, ⟨name.name, name.place, .var, { typeName := some "FIXED" }, false⟩)]
  | none => names

def byName (names : List (String × Symbol)) : List (String × Symbol) :=
  names.mergeSort fun a b => decide (a.1 ≤ b.1)

end Pearl.Resolution
