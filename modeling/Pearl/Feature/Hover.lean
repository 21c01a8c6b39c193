import Pearl.Analysis

namespace Pearl

/-- What a keyword does, for those one asks about most often. -/
def Keyword.descriptions : List (String × String) :=
  [("MODULE", "Start of a module; closed by `MODEND`."),
   ("SHELLMODULE", "Start of a shell module; closed by `MODEND`."),
   ("MODEND", "End of a module."),
   ("SYSTEM", "Start of the system part (device configuration)."),
   ("PROBLEM", "Start of the problem part (declarations and code)."),
   ("PROC", "Procedure declaration; the body is closed by `END`."),
   ("PROCEDURE", "Procedure declaration; the body is closed by `END`."),
   ("TASK", "Task declaration; the body is closed by `END`."),
   ("DCL", "Declaration of variables and objects."),
   ("DECLARE", "Declaration of variables and objects."),
   ("SPC", "Specification of an object declared elsewhere."),
   ("SPECIFY", "Specification of an object declared elsewhere."),
   ("BEGIN", "Start of a block; closed by `END`."),
   ("REPEAT", "Loop body; closed by `END`."),
   ("FOR", "Loop control variable, declared implicitly as `FIXED`."),
   ("IF", "Conditional statement; closed by `FIN`."),
   ("ELSE", "Alternative branch of an `IF`."),
   ("CASE", "Multi-way selection; closed by `FIN`."),
   ("END", "Closes `PROC`, `TASK`, `BEGIN` or `REPEAT`."),
   ("FIN", "Closes `IF` or `CASE`."),
   ("CALL", "Calls a procedure."),
   ("GOTO", "Jumps to a label in the same procedure or task."),
   ("ACTIVATE", "Starts a task, optionally with a `PRIO` clause."),
   ("TERMINATE", "Terminates a task (the current one if no name is given)."),
   ("PREVENT", "Cancels the scheduled activations of a task."),
   ("SUSPEND", "Suspends a task."),
   ("CONTINUE", "Continues a suspended task."),
   ("RESUME", "Suspends the current task until a scheduled time."),
   ("REQUEST", "P-operation on a semaphore."),
   ("RELEASE", "V-operation on a semaphore."),
   ("ENTER", "Acquires a bolt for shared access."),
   ("LEAVE", "Releases shared access to a bolt."),
   ("RESERVE", "Acquires a bolt for exclusive access."),
   ("FREE", "Releases exclusive access to a bolt."),
   ("GLOBAL", "Makes the object visible to other modules."),
   ("INIT", "Initial value of a declared object.")]

namespace Hover

def codeBlock (text : String) : String := s!"```pearl\n{text}\n```"

/-- A symbol with its declaration and where it is declared. -/
def ofSymbol (s : Symbol) (site : Token) : Except UriError String :=
  (Uri.displayName site.uri).map fun name =>
    s!"{codeBlock s.describe}\n\nDeclared at {name}:{site.start.line + 1}"

def ofBuiltin (b : Builtin) : String := s!"{codeBlock b.signature}\n\n{b.description} (builtin)"

def definitionLine (m : Macro) : String := Text.trimEndString s!"#define {m.name} {m.value}"

/-- A macro with its value and where it is defined. -/
def ofMacro (m : Macro) : Except UriError String :=
  let block := codeBlock (definitionLine m)
  match m.definedAt with
  | some l => l.render.map fun place => s!"{block}\n\nDefined at {place}"
  | none => .ok s!"{block}\n\nPredefined macro"

def ofKeyword (word : String) : String :=
  match Keyword.descriptions.lookup word with
  | some d => s!"**{word}**: {d}"
  | none =>
    if Keyword.types.contains word then s!"**{word}**: type keyword" else s!"**{word}**: keyword"

def ofName (a : Analysis) (t : LinkedToken) : Except UriError String :=
  match t.definition.bind a.symbol? with
  | some s =>
    match a.site? s with
    | some site => ofSymbol s site
    | none => .ok (codeBlock s.describe)
  | none =>
    match t.builtin with
    | some b => .ok (ofBuiltin b)
    | none => .ok s!"identifier `{t.token.text}` (not declared)"

def ofToken (a : Analysis) (t : LinkedToken) : Except UriError (Option String) :=
  match t.token.kind with
  | .reference =>
    match t.token.expanded with
    | some m => (ofMacro m).map some
    | none => .ok none
  | .identifier => (ofName a t).map some
  | .keyword => .ok (some (ofKeyword t.token.text))
  | .operator => .ok (some s!"operator `{t.token.text}`")
  | _ => .ok none

end Hover

def Analysis.hover (a : Analysis) (line character : Int) : Except UriError (Option String) :=
  match a.tokenAt line character with
  | some t => Hover.ofToken a t
  | none => .ok none

/-- Where a name is declared: a document, a place in it, and a number of characters. -/
structure DefinitionTarget where
  location : Location
  length : Nat
  deriving DecidableEq, Repr

/-- Where the name or macro at a line and a character is declared. -/
def Analysis.definitionAt (a : Analysis) (line character : Int) : Option DefinitionTarget :=
  match a.tokenAt line character with
  | none => none
  | some t =>
    match t.token.kind with
    | .reference => (t.token.expanded.bind (·.definedAt)).map (⟨·, 0⟩)
    | .identifier =>
      ((t.definition.bind a.symbol?).bind a.site?).map fun site => ⟨site.location, site.length⟩
    | _ => none

end Pearl
