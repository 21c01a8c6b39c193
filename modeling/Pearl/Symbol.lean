import Pearl.Text.Blank

namespace Pearl

inductive SymbolKind where
  | var
  | proc
  | task
  | sema
  | bolt
  | label
  | module
  deriving DecidableEq, Repr

namespace SymbolKind

/-- The keyword of a kind. -/
def name : SymbolKind → String
  | var => "VAR"
  | proc => "PROC"
  | task => "TASK"
  | sema => "SEMA"
  | bolt => "BOLT"
  | label => "LABEL"
  | module => "MODULE"

def noun : SymbolKind → String
  | var => "variable"
  | proc => "procedure"
  | task => "task"
  | sema => "semaphore"
  | bolt => "bolt"
  | label => "label"
  | module => "module"

/-- Names of these kinds may be used from outside of the text. -/
def isExported : SymbolKind → Bool
  | module | proc | task => true
  | _ => false

/-- The kind of object that a keyword in the place of a type declares. -/
def ofTypeKeyword? : String → Option SymbolKind
  | "SEMA" => some sema
  | "BOLT" => some bolt
  | "TASK" => some task
  | "PROC" | "PROCEDURE" | "ENTRY" => some proc
  | _ => none

end SymbolKind

structure Attributes where
  typeName : Option String := none
  dimensions : Nat := 0
  isInv : Bool := false
  isRef : Bool := false
  isGlobal : Bool := false
  isInit : Bool := false
  isIdent : Bool := false
  isParameter : Bool := false
  isSpecification : Bool := false
  parameters : List String := []
  returns : Option String := none
  deriving DecidableEq, Repr

def Attributes.nonEmpty (t : Option String) : List String :=
  (t.filter (· ≠ "")).toList

/-- The attributes in the order in which they are declared. -/
def Attributes.describe (a : Attributes) : String :=
  let parts :=
    (if a.dimensions = 0 then []
      else ["(" ++ ",".intercalate (List.replicate a.dimensions "*") ++ ")"]) ++
    (if a.isInv then ["INV"] else []) ++
    (if a.isRef then ["REF"] else []) ++
    (if a.isIdent then ["IDENT"] else []) ++
    nonEmpty a.typeName ++
    (if a.parameters.isEmpty then [] else ["(" ++ ", ".intercalate a.parameters ++ ")"]) ++
    ((nonEmpty a.returns).map fun r => s!"RETURNS({r})") ++
    (if a.isGlobal then ["GLOBAL"] else []) ++
    (if a.isInit then ["INIT(...)"] else [])
  " ".intercalate parts

/-- A declared name. `declaredAt` is the place of the defining occurrence among the words of the
program, and `used` says that the name has been referred to. -/
structure Symbol where
  name : String
  declaredAt : Nat
  kind : SymbolKind
  attributes : Attributes := {}
  used : Bool := false
  deriving DecidableEq, Repr

namespace Symbol

def introducer (s : Symbol) : String :=
  match s.kind with
  | .var =>
    if s.attributes.isParameter then "parameter"
    else if s.attributes.isSpecification then "SPC"
    else "DCL"
  | k => k.name

def describe (s : Symbol) : String :=
  Text.trimEndString s!"{s.introducer} {s.name} {s.attributes.describe}"

/-- A name that was never referred to and is not visible elsewhere. -/
def isUnused (s : Symbol) : Bool := !s.used && !s.attributes.isGlobal

end Symbol

end Pearl
