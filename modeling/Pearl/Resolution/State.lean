import Pearl.Builtin
import Pearl.Resolution.Finding
import Pearl.Scope

namespace Pearl.Resolution

/-- What is known about the names and blocks of a program up to a place. -/
structure State where
  arena : Arena := {}
  /-- The open blocks, innermost first. The outermost scope has no block. -/
  frames : List Frame := []
  /-- The variable of a loop whose body has not been opened yet. -/
  pending : Option Occurrence := none
  /-- Jumps outside of procedures and tasks whose label was not known. -/
  jumps : List (String × Nat) := []
  /-- The first label of each name outside of procedures and tasks. -/
  outerLabels : List (String × Nat) := []
  moduleEnded : Bool := false
  findings : Array Finding := #[]
  closedBlocks : Array ClosedBlock := #[]
  /-- Which symbol the name at a place stands for. -/
  links : Array (Nat × Nat) := #[]
  /-- Which predefined procedure the name at a place stands for. -/
  builtins : Array (Nat × Builtin) := #[]

namespace State

def report (s : State) (cause : Cause) (place : Nat) : State :=
  { s with findings := s.findings.push ⟨cause, place⟩ }

/-- Notes which symbol a name stands for. -/
def link (s : State) (place id : Nat) : State := { s with links := s.links.push (place, id) }

def markUsed (s : State) (id : Nat) : State := { s with arena := s.arena.markUsed id }

def symbol? (s : State) (id : Nat) : Option Symbol := s.arena.symbols[id]?

/-! ### Declarations -/

/-- A new symbol. What is visible elsewhere counts as used. -/
def newSymbol (name : Occurrence) (kind : SymbolKind) (attributes : Attributes) : Symbol :=
  ⟨name.name, name.place, kind, attributes, attributes.isGlobal || kind.isExported⟩

/-- A specification that a declaration of the same kind carries out. -/
def carriesOut (earlier new : Symbol) : Bool :=
  earlier.attributes.isSpecification && earlier.kind = new.kind &&
    !new.attributes.isSpecification

/-- Adds a symbol to a scope and links its name to it. -/
def introduce (s : State) (scope : Nat) (new : Symbol) : State :=
  { s with arena := s.arena.add scope new }.link new.declaredAt s.arena.symbols.size

/-- Declares a symbol in a scope. A symbol that carries out a specification takes its place and
its uses; otherwise a name that is taken keeps its meaning. Tells the symbol of the name. -/
def declareIn (s : State) (scope : Nat) (new : Symbol) : State × Nat :=
  match (s.arena.scope scope).get? new.name with
  | none => (s.introduce scope new, s.arena.symbols.size)
  | some id =>
    match s.symbol? id with
    | some earlier =>
      if carriesOut earlier new then
        (s.introduce scope { new with used := new.used || earlier.used }, s.arena.symbols.size)
      else (s.report (.duplicate new.name earlier.declaredAt) new.declaredAt, id)
    | none => (s, id)

/-- Declares a name in the innermost scope. -/
def declare (s : State) (name : Occurrence) (kind : SymbolKind) (attributes : Attributes) :
    State × Nat :=
  s.declareIn s.arena.current (newSymbol name kind attributes)

/-! ### References -/

/-- A reference to a name: its symbol is linked and used, unless it is only written to. A name
without a symbol may be a predefined procedure. -/
def refer (s : State) (name : Occurrence) (write call : Bool) : State × Option Nat :=
  match s.arena.lookup name.name with
  | some id =>
    let s := s.link name.place id
    (if write then s else s.markUsed id, some id)
  | none =>
    match (Builtin.get? name.name).filter fun b => call || b.niladic with
    | some b => ({ s with builtins := s.builtins.push (name.place, b) }, none)
    | none => (s.report (.undefinedName name.name) name.place, none)

/-- A reference by a statement that is about one kind of object. -/
def operate (s : State) (keyword : String) (kind : SymbolKind) (name : Occurrence) : State :=
  let (s, id) := s.refer name false (keyword = "CALL")
  match id.bind s.symbol? with
  | some symbol =>
    if symbol.kind = kind then s
    else s.report (.kindMismatch name.name symbol.kind keyword kind) name.place
  | none => s

/-! ### Blocks -/

def openFrame (s : State) (block : Block) (place : Nat) (symbol : Option Nat) : State :=
  { s with
    frames := ⟨block, place, symbol, []⟩ :: s.frames
    arena := s.arena.push (some block.keyword) }

def closeFrame (s : State) (place : Nat) : State :=
  match s.frames, s.arena.pop with
  | frame :: outer, .ok (_, arena) =>
    { s with
      frames := outer, arena
      closedBlocks := s.closedBlocks.push ⟨frame.block, frame.openedAt, place⟩ }
  | _, _ => s

/-- The scope of the innermost procedure or task. -/
def bodyScope? (s : State) : Option Nat :=
  ((s.frames.zip s.arena.stack).find? fun f => f.1.block.isBody).map (·.2)

/-- The outermost block is a module. -/
def inModule (s : State) : Bool := s.frames.getLast?.any (·.block.isModule)

/-- The scope that holds the names of procedures and tasks: that of the module, or the global
one. -/
def unitScope (s : State) : Nat :=
  if s.inModule then (s.arena.stack.reverse[1]?).getD 0 else 0

/-- No block is open but a module. -/
def atModuleLevel (s : State) : Bool :=
  match s.frames with
  | [] => true
  | [frame] => frame.block.isModule
  | _ => false

def openModule (s : State) (block : Block) (place : Nat) (name : Option Occurrence) : State :=
  let s := if s.frames.isEmpty then s else s.report (.misplacedModule block) place
  match name with
  | some n =>
    let (s, id) := s.declareIn 0 (newSymbol n .module {})
    s.openFrame block n.place (some id)
  | none => s.openFrame block place none

def openUnit (s : State) (isTask : Bool) (name : Occurrence) : State :=
  let block := if isTask then Block.task else .procedure
  let kind := if isTask then SymbolKind.task else .proc
  let s := if s.atModuleLevel then s else s.report (.nestedUnit block name.name) name.place
  let (s, id) := s.declareIn s.unitScope (newSymbol name kind {})
  s.openFrame block name.place (some id)

/-- Changes the attributes of the procedure or task whose head is being read. -/
def modifyUnit (s : State) (f : Attributes → Attributes) : State :=
  match s.frames.head?.bind (·.symbol) with
  | some id =>
    { s with arena := s.arena.modifySymbol id fun y => { y with attributes := f y.attributes } }
  | none => s

/-- Declares the variable of a loop in its body. -/
def bindLoop (s : State) (block : Block) (pending : Option Occurrence) : State :=
  match block, pending with
  | .loop, some name =>
    let (s, id) := s.declare name .var { typeName := some "FIXED" }
    s.markUsed id
  | _, _ => s

/-- Opens a block that has no name. -/
def openBlock (s : State) (block : Block) (place : Nat) : State :=
  { (s.openFrame block place none).bindLoop block s.pending with pending := none }

/-- The other branch of a conditional statement has a scope of its own. -/
def otherwise (s : State) (place : Nat) : State :=
  match s.frames with
  | frame :: _ =>
    if frame.block = .conditional then
      (s.closeFrame place).openFrame .conditional place none
    else s.report .unmatchedElse place
  | [] => s.report .unmatchedElse place

/-! ### Labels and jumps -/

def isLabel (s : State) (id : Nat) : Bool := (s.symbol? id).any (·.kind = .label)

/-- A label belongs to the procedure or task around it, or to the block it stands in. -/
def label (s : State) (name : Occurrence) : State :=
  match s.bodyScope? with
  | some scope => (s.declareIn scope (newSymbol name .label {})).1
  | none =>
    let (s, id) := s.declare name .label {}
    if s.isLabel id && (s.outerLabels.lookup name.name).isNone then
      { s with outerLabels := s.outerLabels ++ [(name.name, id)] }
    else s

def land (s : State) (place id : Nat) : State := (s.link place id).markUsed id

/-- Adds a jump to the innermost procedure or task. -/
def addJump (jump : String × Nat) : List Frame → List Frame
  | [] => []
  | frame :: outer =>
    if frame.block.isBody then { frame with jumps := frame.jumps ++ [jump] } :: outer
    else frame :: addJump jump outer

/-- A jump is resolved at the end of the procedure or task around it; outside of these at once, if
the label is known, or else at the end of the program. -/
def jump (s : State) (target : Occurrence) : State :=
  if s.frames.any (·.block.isBody) then
    { s with frames := addJump (target.name, target.place) s.frames }
  else match (s.arena.lookup target.name).filter s.isLabel with
    | some id => s.land target.place id
    | none => { s with jumps := s.jumps ++ [(target.name, target.place)] }

/-- Resolves a jump in the procedure or task that is closed at `place`. -/
def landInBody (place : Nat) (s : State) (jump : String × Nat) : State :=
  match ((s.arena.scope s.arena.current).get? jump.1).filter s.isLabel with
  | some id => s.land jump.2 id
  | none => s.report (.undefinedLabel jump.1) place

/-- Closes a block, if the closer is one for the innermost block. -/
def close (s : State) (closer : Closer) (place : Nat) : State :=
  match s.frames with
  | frame :: _ =>
    if closer.openers.contains frame.block then
      let s := if frame.block.isBody then frame.jumps.foldl (landInBody place) s else s
      { s.closeFrame place with moduleEnded := s.moduleEnded || closer = .modend }
    else s.report (.unexpectedCloser closer (some frame.block)) place
  | [] => s.report (.unexpectedCloser closer none) place

/-! ### Steps -/

def step (s : State) : Event → State
  | .flaw f place => s.report (.flaw f) place
  | .refer name write call => (s.refer name write call).1
  | .operate keyword kind name => s.operate keyword kind name
  | .declare name kind attributes => (s.declare name kind attributes).1
  | .label name => s.label name
  | .jump target => s.jump target
  | .openModule block place name => s.openModule block place name
  | .openUnit isTask name => s.openUnit isTask name
  | .parameter name kind attributes text =>
    (s.declare name kind attributes).1.modifyUnit fun a =>
      { a with parameters := a.parameters ++ [text] }
  | .result text => s.modifyUnit ({ · with returns := some text })
  | .exported => s.modifyUnit ({ · with isGlobal := true })
  | .openBlock block place => s.openBlock block place
  | .loopVariable name => { s with pending := some name }
  | .otherwise place => s.otherwise place
  | .close closer place => s.close closer place

/-! ### The end of a program -/

/-- Resolves a jump outside of procedures and tasks. -/
def landOutside (s : State) (jump : String × Nat) : State :=
  match s.outerLabels.lookup jump.1 with
  | some id => s.land jump.2 id
  | none => s.report (.undefinedLabel jump.1) jump.2

def reportUnclosed (s : State) (frame : Frame) : State :=
  s.report (.unclosed frame.block) frame.openedAt

def reportUnused (s : State) (y : Symbol) : State :=
  s.report (.unused y.kind y.name) y.declaredAt

/-- The scopes that are still open and to be searched for unused names: the global one and that of
a module, unless a module has been ended. -/
def openSwept (s : State) : List Nat :=
  if s.moduleEnded then []
  else if s.inModule then [0, s.unitScope]
  else [0]

/-- Reports the names that nobody uses, scope by scope. -/
def sweep (s : State) : State :=
  let (closed, arena) := s.arena.takeClosed
  (closed ++ s.openSwept).foldl
    (fun s' scope => (arena.unused scope).foldl reportUnused s') { s with arena }

def finish (s : State) (unused : Bool) : State :=
  let s := s.jumps.foldl landOutside s
  let s := s.frames.foldl reportUnclosed s
  if unused then s.sweep else s

end State

def ofEvents (events : List Event) : State := events.foldl State.step {}

end Pearl.Resolution
