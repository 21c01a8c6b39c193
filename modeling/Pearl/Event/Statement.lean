import Pearl.Event.Declaration
import Pearl.Event.Header

namespace Pearl.Event

/-! ### Statements by their first keyword -/

/-- Whether a task control statement names a task. -/
inductive TaskName where
  | mandatory
  | optional
  | forbidden
  deriving DecidableEq, Repr

/-- What the first keyword of a statement tells. -/
inductive StatementHead where
  | moduleHead (block : Block)
  | systemPart
  | unitHead
  | declaration
  | typeDefinition
  | blockOpener (block : Block)
  | otherwise
  | loopControl
  | alternative
  | blockCloser (closer : Closer)
  | call
  | jump
  | semaphoreArray
  /-- Task control, with the rule for the task and whether a priority may be given. -/
  | taskControl (name : TaskName) (priority : Bool)
  /-- A statement on objects of one kind. -/
  | objects (kind : SymbolKind)
  | transfer
  | other
  deriving DecidableEq, Repr

def statementHead : String → StatementHead
  | "MODULE" => .moduleHead .mainModule
  | "SHELLMODULE" => .moduleHead .shellModule
  | "SYSTEM" => .systemPart
  | "PROC" | "PROCEDURE" | "TASK" => .unitHead
  | "DCL" | "DECLARE" | "SPC" | "SPECIFY" => .declaration
  | "TYPE" => .typeDefinition
  | "BEGIN" => .blockOpener .compound
  | "REPEAT" => .blockOpener .loop
  | "IF" => .blockOpener .conditional
  | "CASE" => .blockOpener .selection
  | "ELSE" => .otherwise
  | "FOR" => .loopControl
  | "ALT" => .alternative
  | "END" => .blockCloser .blockEnd
  | "FIN" => .blockCloser .fin
  | "MODEND" => .blockCloser .modend
  | "CALL" => .call
  | "GOTO" => .jump
  | "SEMASET" => .semaphoreArray
  | "ACTIVATE" => .taskControl .mandatory true
  | "CONTINUE" => .taskControl .optional true
  | "TERMINATE" | "PREVENT" | "SUSPEND" => .taskControl .optional false
  | "RESUME" => .taskControl .forbidden false
  | "REQUEST" | "RELEASE" => .objects .sema
  | "ENTER" | "LEAVE" | "RESERVE" | "FREE" => .objects .bolt
  | "PUT" | "GET" | "READ" | "WRITE" | "TAKE" | "SEND" | "CONVERT" | "OPEN" | "CLOSE" => .transfer
  | _ => .other

/-! ### Modules and units -/

/-- The bracket after the name of a module, before which `last` stands. -/
def moduleBracket (keyword last : Word) (rest : List Word) : Reading :=
  match rest with
  | w :: left =>
    if w.isSymbol [")"] then ⟨[], w, left⟩
    else ⟨[flawHere .missingModuleBracket keyword rest], last, rest⟩
  | [] => ⟨[flawHere .missingModuleBracket keyword rest], last, rest⟩

/-- The name of a module in brackets, of which `opening` has been read. -/
def bracketedModuleName (keyword opening : Word) (rest : List Word) : Option Word × Reading :=
  match rest with
  | w :: left =>
    if w.isIdentifier then (some w, moduleBracket keyword w left)
    else (none, moduleBracket keyword opening rest)
  | [] => (none, moduleBracket keyword opening rest)

/-- The name of a module, bare or in brackets. -/
def moduleName (keyword : Word) (rest : List Word) : Option Word × Reading :=
  match rest with
  | w :: left =>
    if w.isSymbol ["("] then bracketedModuleName keyword w left
    else if w.isIdentifier then (some w, ⟨[], w, left⟩)
    else (none, ⟨[], keyword, rest⟩)
  | [] => (none, ⟨[], keyword, rest⟩)

def dropSemicolon (prev : Word) : List Word → Word × List Word
  | [] => (prev, [])
  | w :: rest => if w.isSymbol [";"] then (w, rest) else (prev, w :: rest)

def moduleHead (block : Block) (keyword : Word) (rest : List Word) : Reading :=
  let (name, r) := moduleName keyword rest
  let flaws := if name.isSome then []
    else [flawHere (.missingModuleName keyword.text) keyword r.rest]
  let (last, left) := dropSemicolon r.last r.rest
  ⟨r.events ++ flaws ++ [.openModule block keyword.place (name.map Word.occurrence)], last, left⟩

def systemPart (prev : Word) : List Word → Word × List Word
  | [] => (prev, [])
  | w :: rest =>
    if w.isKeyword ["PROBLEM", "MODEND"] then (prev, w :: rest) else systemPart w rest

def skipStatement (prev : Word) : List Word → Word × List Word
  | [] => (prev, [])
  | w :: rest => if w.isSymbol [";"] then (w, rest) else skipStatement w rest

/-- The keyword that may follow the name of a unit after a colon. -/
def secondKeyword? : List Word → Option (Word × List Word)
  | colon :: u :: rest =>
    if colon.isSymbol [":"] && u.isKeyword unitKeywords then some (u, rest) else none
  | _ => none

/-- Reads a procedure or task that starts with its keyword. -/
def bareUnit (keyword : Word) (rest : List Word) : Reading :=
  match rest with
  | name :: left =>
    if name.isIdentifier then
      match secondKeyword? left with
      | some (u, after) => unitHead u name u after
      | none => unitHead keyword name name left
    else abandon (.missingUnitName keyword.text) keyword keyword rest
  | [] => abandon (.missingUnitName keyword.text) keyword keyword rest

/-! ### Statements on objects -/

def thenFinish (keyword : Word) (events : List Event) (prev : Word) (rest : List Word) : Reading :=
  let ending := finishStatement keyword prev rest
  ⟨events ++ ending.events, ending.last, ending.rest⟩

/-- Reads a call up to the name of the procedure. -/
def callStatement (keyword : Word) (rest : List Word) : Reading :=
  match rest with
  | name :: left =>
    if name.isIdentifier then ⟨[.operate keyword.text .proc name.occurrence], name, left⟩
    else abandon .missingProcedureName keyword keyword rest
  | [] => abandon .missingProcedureName keyword keyword rest

def jumpStatement (keyword : Word) (rest : List Word) : Reading :=
  match rest with
  | target :: left =>
    if target.isIdentifier then thenFinish keyword [.jump target.occurrence] target left
    else abandon .missingLabel keyword keyword rest
  | [] => abandon .missingLabel keyword keyword rest

/-- The events of the first `n` words after the name in a task control statement. -/
def taskClause (keyword : Word) (priority : Bool) (prev : Word) : Nat → List Word → List Event
  | 0, _ => []
  | _, [] => []
  | n + 1, w :: rest =>
    (if w.isKeyword ["PRIO", "PRIORITY"] then
      if priority then [] else [.flaw (.forbiddenPriority keyword.text w.text) w.place]
    else if w.isIdentifier then reference (some prev) w false rest
    else []) ++ taskClause keyword priority w n rest

/-- The name in a task control statement: its events, and the words around it. -/
def taskName (keyword : Word) (rule : TaskName) (rest : List Word) : Reading :=
  let absent := if rule = .mandatory then
    [flawHere (.missingTaskName keyword.text) keyword rest] else []
  match rest with
  | w :: left =>
    if w.isIdentifier then
      ⟨[if rule = .forbidden then .flaw (.forbiddenTaskName keyword.text) w.place
        else .operate keyword.text .task w.occurrence], w, left⟩
    else ⟨absent, keyword, rest⟩
  | [] => ⟨absent, keyword, rest⟩

def taskStatement (keyword : Word) (rule : TaskName) (priority : Bool) (rest : List Word) :
    Reading :=
  let name := taskName keyword rule rest
  let n := clauseSize name.rest
  thenFinish keyword (name.events ++ taskClause keyword priority name.last n name.rest)
    (lastOf name.last n name.rest) (name.rest.drop n)

/-- Reads names divided by commas, the first of which is `w`. -/
def objectNames (keyword : Word) (kind : SymbolKind) (w : Word) : List Word → Reading
  | c :: n :: rest =>
    if c.isSymbol [","] then
      if n.isIdentifier then
        let more := objectNames keyword kind n rest
        ⟨.operate keyword.text kind w.occurrence :: more.events, more.last, more.rest⟩
      else ⟨[.operate keyword.text kind w.occurrence], c, n :: rest⟩
    else ⟨[.operate keyword.text kind w.occurrence], w, c :: n :: rest⟩
  | [c] =>
    if c.isSymbol [","] then ⟨[.operate keyword.text kind w.occurrence], c, []⟩
    else ⟨[.operate keyword.text kind w.occurrence], w, [c]⟩
  | [] => ⟨[.operate keyword.text kind w.occurrence], w, []⟩

/-- Reads a statement on objects of one kind. -/
def objectStatement (keyword : Word) (kind : SymbolKind) (rest : List Word) : Reading :=
  match rest with
  | w :: left =>
    if w.isIdentifier then
      let names := objectNames keyword kind w left
      thenFinish keyword names.events names.last names.rest
    else abandon (.missingObjectName keyword.text kind) keyword keyword rest
  | [] => abandon (.missingObjectName keyword.text kind) keyword keyword rest

/-- The events of the operands of a semaphore array statement, whose last one is a semaphore. -/
def operandEvents (keyword : Word) : List Word → List Event
  | [] => [.flaw .missingSemaphore keyword.place]
  | [w] => [.operate keyword.text .sema w.occurrence]
  | w :: rest => .refer w.occurrence false false :: operandEvents keyword rest

def semaphoreStatement (keyword : Word) (rest : List Word) : Reading :=
  let n := clauseSize rest
  thenFinish keyword (operandEvents keyword ((rest.take n).filter (·.isIdentifier)))
    (lastOf keyword n rest) (rest.drop n)

/-- Reads input or output. Names after `BY` are formats. -/
def transferStatement (keyword : Word) (rest : List Word) : Reading :=
  let n := clauseSize rest
  let values := ((rest.take n).takeWhile (!·.isKeyword ["BY"])).length
  thenFinish keyword (references keyword values rest) (lastOf keyword n rest) (rest.drop n)

def loopControl (keyword : Word) (rest : List Word) : Reading :=
  match rest with
  | w :: left =>
    if w.isIdentifier then ⟨[.loopVariable w.occurrence], w, left⟩ else ⟨[], keyword, rest⟩
  | [] => ⟨[], keyword, rest⟩

def alternative (keyword : Word) (rest : List Word) : Reading :=
  let g := optionalGroup ["("] true rest
  let (last, left) := afterGroup g keyword rest
  ⟨groupEvents g, last, left⟩

/-- Passes over words without an event. -/
def silent (r : Word × List Word) : Reading := ⟨[], r.1, r.2⟩

/-- Reads a statement, or the part of one, that starts with a keyword. -/
def keywordStatement (w : Word) (rest : List Word) : StatementHead → Reading
  | .moduleHead block => moduleHead block w rest
  | .systemPart => silent (systemPart w rest)
  | .unitHead => bareUnit w rest
  | .declaration => declaration w rest
  | .typeDefinition => silent (skipStatement w rest)
  | .blockOpener block => ⟨[.openBlock block w.place], w, rest⟩
  | .otherwise => ⟨[.otherwise w.place], w, rest⟩
  | .loopControl => loopControl w rest
  | .alternative => alternative w rest
  | .blockCloser closer => ⟨[.close closer w.place], w, rest⟩
  | .call => callStatement w rest
  | .jump => jumpStatement w rest
  | .semaphoreArray => semaphoreStatement w rest
  | .taskControl rule priority => taskStatement w rule priority rest
  | .objects kind => objectStatement w kind rest
  | .transfer => transferStatement w rest
  | .other => ⟨[], w, rest⟩

/-- A statement may be labelled right after these. -/
def startsAfter : StatementHead → Bool
  | .blockOpener _ | .otherwise | .alternative => true
  | _ => false

/-! ### Statements by their first name -/

/-- A statement may start after the word `prev`. -/
def mayStart (prev : Option Word) : Bool :=
  prev.all fun p => p.isSymbol [";", ":"] || p.isKeyword statementOpeners

/-- Reads from a name on: the head of a unit, a label, or a reference. A label only counts where a
statement starts. Tells also whether a statement starts after it. -/
def nameStatement (prev : Option Word) (start : Bool) (w : Word) (rest : List Word) :
    Reading × Bool :=
  match secondKeyword? rest with
  | some (u, left) => (unitHead u w u left, false)
  | none =>
    match rest with
    | next :: left =>
      if next.isSymbol [":"] && (start || mayStart prev) then
        (⟨[.label w.occurrence], next, left⟩, true)
      else (⟨reference prev w (next.isOperator ":=") rest, w, rest⟩, false)
    | [] => (⟨reference prev w false rest, w, rest⟩, false)

/-- Reads from a word on: at most one statement. `start` says that one starts here for sure, as
does the answer for what follows. -/
def statement (prev : Option Word) (start : Bool) (w : Word) (rest : List Word) : Reading × Bool :=
  match w.kind with
  | .keyword =>
    let head := statementHead w.text
    (keywordStatement w rest head, startsAfter head)
  | .identifier => nameStatement prev start w rest
  | _ => (⟨[], w, rest⟩, false)

/-! ### What is left is a part of what was there -/

theorem moduleBracket_suffix (keyword last : Word) (rest : List Word) :
    (moduleBracket keyword last rest).rest <:+ rest := by
  unfold moduleBracket
  split
  · split
    · exact List.suffix_cons _ _
    · exact List.suffix_refl _
  · exact List.suffix_refl _

theorem bracketedModuleName_suffix (keyword opening : Word) (rest : List Word) :
    (bracketedModuleName keyword opening rest).2.rest <:+ rest := by
  unfold bracketedModuleName
  split
  · split
    · exact (moduleBracket_suffix ..).trans (List.suffix_cons _ _)
    · exact moduleBracket_suffix ..
  · exact moduleBracket_suffix ..

theorem moduleName_suffix (keyword : Word) (rest : List Word) :
    (moduleName keyword rest).2.rest <:+ rest := by
  unfold moduleName
  split
  · split
    · exact (bracketedModuleName_suffix ..).trans (List.suffix_cons _ _)
    · split
      · exact List.suffix_cons _ _
      · exact List.suffix_refl _
  · exact List.suffix_refl _

theorem dropSemicolon_suffix (prev : Word) (rest : List Word) :
    (dropSemicolon prev rest).2 <:+ rest := by
  unfold dropSemicolon
  split
  · exact List.suffix_refl _
  · split
    · exact List.suffix_cons _ _
    · exact List.suffix_refl _

theorem systemPart_suffix (prev : Word) (rest : List Word) :
    (systemPart prev rest).2 <:+ rest := by
  induction rest generalizing prev with
  | nil => exact List.suffix_refl _
  | cons w rest ih =>
    rw [systemPart]
    split
    · exact List.suffix_refl _
    · exact (ih w).trans (List.suffix_cons w rest)

theorem skipStatement_suffix (prev : Word) (rest : List Word) :
    (skipStatement prev rest).2 <:+ rest := by
  induction rest generalizing prev with
  | nil => exact List.suffix_refl _
  | cons w rest ih =>
    rw [skipStatement]
    split
    · exact List.suffix_cons w rest
    · exact (ih w).trans (List.suffix_cons w rest)

theorem secondKeyword?_suffix {rest left : List Word} {u : Word}
    (h : secondKeyword? rest = some (u, left)) : left <:+ rest := by
  unfold secondKeyword? at h
  split at h
  · split at h
    · cases h
      exact (List.suffix_cons _ _).trans (List.suffix_cons _ _)
    · cases h
  · cases h

theorem bareUnit_suffix (keyword : Word) (rest : List Word) :
    (bareUnit keyword rest).rest <:+ rest := by
  unfold bareUnit
  split
  · split
    · split
      · rename_i h
        exact ((unitHead_suffix ..).trans (secondKeyword?_suffix h)).trans (List.suffix_cons _ _)
      · exact (unitHead_suffix ..).trans (List.suffix_cons _ _)
    · exact abandon_suffix ..
  · exact abandon_suffix ..

theorem thenFinish_suffix (keyword : Word) (events : List Event) (prev : Word)
    (rest : List Word) : (thenFinish keyword events prev rest).rest <:+ rest :=
  finishStatement_suffix ..

theorem callStatement_suffix (keyword : Word) (rest : List Word) :
    (callStatement keyword rest).rest <:+ rest := by
  unfold callStatement
  split
  · split
    · exact List.suffix_cons _ _
    · exact abandon_suffix ..
  · exact abandon_suffix ..

theorem jumpStatement_suffix (keyword : Word) (rest : List Word) :
    (jumpStatement keyword rest).rest <:+ rest := by
  unfold jumpStatement
  split
  · split
    · exact (thenFinish_suffix ..).trans (List.suffix_cons _ _)
    · exact abandon_suffix ..
  · exact abandon_suffix ..

theorem taskName_suffix (keyword : Word) (rule : TaskName) (rest : List Word) :
    (taskName keyword rule rest).rest <:+ rest := by
  unfold taskName
  dsimp only
  cases rest with
  | nil => exact List.suffix_refl _
  | cons w left =>
    dsimp only
    split
    · exact List.suffix_cons _ _
    · exact List.suffix_refl _

theorem taskStatement_suffix (keyword : Word) (rule : TaskName) (priority : Bool)
    (rest : List Word) : (taskStatement keyword rule priority rest).rest <:+ rest :=
  ((thenFinish_suffix ..).trans (List.drop_suffix _ _)).trans (taskName_suffix ..)

theorem objectNames_suffix (keyword : Word) (kind : SymbolKind) (w : Word) (rest : List Word) :
    (objectNames keyword kind w rest).rest <:+ rest := by
  fun_induction objectNames keyword kind w rest with
  | case1 w c n rest _ _ more ih =>
    exact (ih.trans (List.suffix_cons n rest)).trans (List.suffix_cons c (n :: rest))
  | case2 => exact List.suffix_cons _ _
  | case3 => exact List.suffix_refl _
  | case4 => exact List.suffix_cons _ _
  | case5 => exact List.suffix_refl _
  | case6 => exact List.suffix_refl _

theorem objectStatement_suffix (keyword : Word) (kind : SymbolKind) (rest : List Word) :
    (objectStatement keyword kind rest).rest <:+ rest := by
  unfold objectStatement
  split
  · split
    · exact ((thenFinish_suffix ..).trans (objectNames_suffix ..)).trans (List.suffix_cons _ _)
    · exact abandon_suffix ..
  · exact abandon_suffix ..

theorem loopControl_suffix (keyword : Word) (rest : List Word) :
    (loopControl keyword rest).rest <:+ rest := by
  unfold loopControl
  split
  · split
    · exact List.suffix_cons _ _
    · exact List.suffix_refl _
  · exact List.suffix_refl _

theorem keywordStatement_suffix (w : Word) (rest : List Word) (head : StatementHead) :
    (keywordStatement w rest head).rest <:+ rest := by
  cases head with
  | moduleHead block => exact (dropSemicolon_suffix ..).trans (moduleName_suffix ..)
  | systemPart => exact systemPart_suffix ..
  | unitHead => exact bareUnit_suffix ..
  | declaration => exact declaration_suffix ..
  | typeDefinition => exact skipStatement_suffix ..
  | loopControl => exact loopControl_suffix ..
  | alternative => exact afterGroup_suffix ..
  | call => exact callStatement_suffix ..
  | jump => exact jumpStatement_suffix ..
  | semaphoreArray => exact (thenFinish_suffix ..).trans (List.drop_suffix _ _)
  | taskControl rule priority => exact taskStatement_suffix ..
  | objects kind => exact objectStatement_suffix ..
  | transfer => exact (thenFinish_suffix ..).trans (List.drop_suffix _ _)
  | blockOpener | otherwise | blockCloser | other => exact List.suffix_refl _

theorem nameStatement_suffix (prev : Option Word) (start : Bool) (w : Word) (rest : List Word) :
    (nameStatement prev start w rest).1.rest <:+ rest := by
  unfold nameStatement
  split
  · rename_i h
    exact (unitHead_suffix ..).trans (secondKeyword?_suffix h)
  · split
    · split
      · exact List.suffix_cons _ _
      · exact List.suffix_refl _
    · exact List.suffix_refl _

/-- Every statement takes at least its first word. -/
theorem statement_suffix (prev : Option Word) (start : Bool) (w : Word) (rest : List Word) :
    (statement prev start w rest).1.rest <:+ rest := by
  unfold statement
  split
  · exact keywordStatement_suffix ..
  · exact nameStatement_suffix ..
  · exact List.suffix_refl _

def eventsAfter (prev : Option Word) (start : Bool) (words : List Word) : List Event :=
  match words with
  | [] => []
  | w :: rest =>
    let r := statement prev start w rest
    have := (statement_suffix prev start w rest).length_le
    r.1.events ++ eventsAfter (some r.1.last) r.2 r.1.rest
termination_by words.length
decreasing_by simp only [List.length_cons]; omega

def ofWords (words : List Word) : List Event := eventsAfter none true words

end Pearl.Event
