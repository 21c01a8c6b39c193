import Pearl.Feature.Hover

namespace Pearl

inductive CompletionKind where
  | keyword
  | replacement
  | symbol (kind : SymbolKind)
  deriving DecidableEq, Repr

namespace CompletionKind

def name : CompletionKind → String
  | keyword => "keyword"
  | replacement => "macro"
  | symbol .var => "variable"
  | symbol .proc => "function"
  | symbol .task => "task"
  | symbol .sema => "sema"
  | symbol .bolt => "bolt"
  | symbol .label => "label"
  | symbol .module => "module"

/-- The number that editors know a kind by. -/
def number : CompletionKind → Nat
  | keyword => 14
  | replacement => 21
  | symbol .var => 6
  | symbol .proc => 3
  | symbol .task => 7
  | symbol .sema | symbol .bolt => 10
  | symbol .label => 18
  | symbol .module => 9

end CompletionKind

/-- A proposal for what to write. -/
structure Completion where
  label : String
  kind : CompletionKind
  detail : Option String := none
  deriving DecidableEq, Repr

namespace Completion

/-- Proposals without those whose label came before. -/
def distinct (seen : List String) : List Completion → List Completion
  | [] => []
  | c :: rest =>
    if seen.contains c.label then distinct seen rest
    else c :: distinct (c.label :: seen) rest

def ofVisible (names : List (String × Symbol)) : List Completion :=
  names.map fun n => ⟨n.1, .symbol n.2.kind, some n.2.describe⟩

def ofMacros (t : MacroTable) : List Completion :=
  t.names.filterMap fun name =>
    (t.get? name).map fun m => ⟨name, .replacement, some (Hover.definitionLine m)⟩

def ofBuiltins : List Completion :=
  Builtin.all.map fun b => ⟨b.name, .symbol .proc, some b.signature⟩

def ofKeywords : List Completion := Keyword.all.map fun k => { label := k, kind := .keyword }

/-- What is shown about a keyword once it is chosen. -/
def keywordHelp (label : String) (number : Option Int) : Option String :=
  if number = some (CompletionKind.keyword.number : Int) then Keyword.descriptions.lookup label
  else none

end Completion

/-- What may be written at a line and a character: the names with a meaning there, then macros,
predefined procedures and keywords. -/
def Analysis.completionsAt (a : Analysis) (line character : Int) : List Completion :=
  Completion.distinct [] (Completion.ofVisible (a.visibleAt line character) ++
    Completion.ofMacros a.macros ++ Completion.ofBuiltins ++ Completion.ofKeywords)

end Pearl
