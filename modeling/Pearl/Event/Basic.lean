import Pearl.Block
import Pearl.Symbol
import Pearl.Word

namespace Pearl

/-- Departures from the grammar. -/
inductive SyntaxFlaw where
  | missingSemicolon (keyword : String)
  | missingHeaderSemicolon (keyword : String)
  | missingBracket (bracket : String)
  | missingModuleBracket
  | missingModuleName (keyword : String)
  | missingUnitName (keyword : String)
  | missingParameterName
  | missingParameterBracket
  | missingListBracket
  | missingDeclaredName (keyword : String)
  | missingProcedureName
  | forbiddenTaskName (keyword : String)
  | missingTaskName (keyword : String)
  | forbiddenPriority (keyword clause : String)
  | missingObjectName (keyword : String) (kind : SymbolKind)
  | missingSemaphore
  | missingLabel
  deriving DecidableEq, Repr

def SyntaxFlaw.message : SyntaxFlaw → String
  | missingSemicolon keyword => s!"expected ';' after {keyword} statement"
  | missingHeaderSemicolon keyword => s!"expected ';' after {keyword} header"
  | missingBracket bracket => s!"expected '{bracket}'"
  | missingModuleBracket => "expected ')' after module name"
  | missingModuleName keyword => s!"expected module name after {keyword}"
  | missingUnitName keyword => s!"expected a name after {keyword}"
  | missingParameterName => "expected parameter name"
  | missingParameterBracket => "expected ')' after parameter list"
  | missingListBracket => "expected ')' after name list"
  | missingDeclaredName keyword => s!"expected identifier in {keyword} statement"
  | missingProcedureName => "expected procedure name after CALL"
  | forbiddenTaskName keyword => s!"{keyword} does not take a task name"
  | missingTaskName keyword => s!"{keyword} requires a task name"
  | forbiddenPriority keyword clause => s!"{keyword} does not accept a {clause} clause"
  | missingObjectName keyword kind => s!"{keyword} requires a {kind.name} name"
  | missingSemaphore => "SEMASET requires a SEMA operand"
  | missingLabel => "expected label after GOTO"

structure Occurrence where
  name : String
  place : Nat
  deriving DecidableEq, Repr

def Word.occurrence (w : Word) : Occurrence := ⟨w.text, w.place⟩

/-- What a program does, step by step, to the names and blocks in it. -/
inductive Event where
  /-- The grammar is violated at a place. -/
  | flaw (f : SyntaxFlaw) (place : Nat)
  /-- A name is referred to: as the target of an assignment, or in front of arguments, or else. -/
  | refer (name : Occurrence) (write call : Bool)
  /-- A statement that is about one kind of object refers to a name. -/
  | operate (keyword : String) (kind : SymbolKind) (name : Occurrence)
  /-- A name is declared in the innermost scope. -/
  | declare (name : Occurrence) (kind : SymbolKind) (attributes : Attributes)
  /-- A statement is labelled. -/
  | label (name : Occurrence)
  /-- A jump to a label. -/
  | jump (target : Occurrence)
  /-- The head of a module; its keyword stands at `place`. -/
  | openModule (block : Block) (place : Nat) (name : Option Occurrence)
  /-- The head of a procedure or task. -/
  | openUnit (isTask : Bool) (name : Occurrence)
  /-- A parameter of the procedure or task whose head is being read, and how it is written. -/
  | parameter (name : Occurrence) (kind : SymbolKind) (attributes : Attributes) (text : String)
  /-- The result type in the head of a procedure. -/
  | result (text : String)
  /-- The head of a procedure or task makes its name visible elsewhere. -/
  | exported
  /-- A block is opened. -/
  | openBlock (block : Block) (place : Nat)
  /-- A loop is to count in a variable of its own. -/
  | loopVariable (name : Occurrence)
  /-- The other branch of a conditional statement starts. -/
  | otherwise (place : Nat)
  /-- A block is closed. -/
  | close (closer : Closer) (place : Nat)
  deriving DecidableEq, Repr

end Pearl
