namespace Pearl

/-- A construct that opens a scope. -/
inductive Block where
  | mainModule
  | shellModule
  | procedure
  | task
  | compound
  | loop
  | conditional
  | selection
  deriving DecidableEq, Repr

/-- A keyword that closes a block. -/
inductive Closer where
  | blockEnd
  | fin
  | modend
  deriving DecidableEq, Repr

def Block.keyword : Block → String
  | mainModule => "MODULE"
  | shellModule => "SHELLMODULE"
  | procedure => "PROC"
  | task => "TASK"
  | compound => "BEGIN"
  | loop => "REPEAT"
  | conditional => "IF"
  | selection => "CASE"

def Closer.keyword : Closer → String
  | blockEnd => "END"
  | fin => "FIN"
  | modend => "MODEND"

def Closer.openers : Closer → List Block
  | blockEnd => [.procedure, .task, .compound, .loop]
  | fin => [.conditional, .selection]
  | modend => [.mainModule, .shellModule]

def Block.closer : Block → Closer
  | procedure | task | compound | loop => .blockEnd
  | conditional | selection => .fin
  | mainModule | shellModule => .modend

/-- Modules hold the names of procedures and tasks. -/
def Block.isModule : Block → Bool
  | mainModule | shellModule => true
  | _ => false

/-- Procedures and tasks own the labels in them. -/
def Block.isBody : Block → Bool
  | procedure | task => true
  | _ => false

/-- An open block: what opened it, where, the symbol of its name, and the targets of the jumps in
it that its labels are to resolve. -/
structure Frame where
  block : Block
  openedAt : Nat
  symbol : Option Nat := none
  jumps : List (String × Nat) := []
  deriving DecidableEq, Repr

/-- A block that has been closed, with the places of its ends. -/
structure ClosedBlock where
  block : Block
  openedAt : Nat
  closedAt : Nat
  deriving DecidableEq, Repr

end Pearl
