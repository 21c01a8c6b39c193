import Pearl.Event.Basic

namespace Pearl.Event

/-! ### Keywords -/

/-- Heads of procedures and tasks. -/
def unitKeywords : List String := ["PROC", "PROCEDURE", "TASK"]

def taskKeywords : List String :=
  ["ACTIVATE", "TERMINATE", "PREVENT", "SUSPEND", "CONTINUE", "RESUME"]

def semaKeywords : List String := ["REQUEST", "RELEASE"]

def boltKeywords : List String := ["ENTER", "LEAVE", "RESERVE", "FREE"]

/-- Input and output. -/
def transferKeywords : List String :=
  ["PUT", "GET", "READ", "WRITE", "TAKE", "SEND", "CONVERT", "OPEN", "CLOSE"]

/-- Keywords that can only start a statement; one of them in the midst of a statement tells that
a semicolon is missing. -/
def statementKeywords : List String :=
  ["MODULE", "SHELLMODULE", "MODEND", "SYSTEM", "PROBLEM",
   "PROC", "PROCEDURE", "TASK", "DCL", "DECLARE", "SPC", "SPECIFY", "TYPE",
   "BEGIN", "END", "REPEAT", "FOR", "WHILE", "IF", "ELSE", "FIN", "CASE",
   "ALT", "OUT", "CALL", "GOTO", "RETURN", "EXIT"] ++
  taskKeywords ++ semaKeywords ++ ["SEMASET"] ++ boltKeywords ++ transferKeywords

/-- Keywords that another statement may follow directly. -/
def statementOpeners : List String := ["BEGIN", "THEN", "ELSE", "REPEAT", "OUT"]

/-- Keywords in the head of a procedure or task that stand for themselves. -/
def headerKeywords : List String := ["PRIO", "PRIORITY", "MAIN", "RESIDENT", "REENTRANT"]

def startsStatement (w : Word) : Bool := w.isKeyword statementKeywords

/-! ### Reading -/

/-- What reading some words gives: the events, the last word that was read, and the words that
follow it. -/
structure Reading where
  events : List Event
  last : Word
  rest : List Word

/-- A flaw at the next word, or at `fallback` if there is none. -/
def flawHere (f : SyntaxFlaw) (fallback : Word) (rest : List Word) : Event :=
  .flaw f (rest.headD fallback).place

def atSymbol (spellings : List String) (rest : List Word) : Bool :=
  rest.head?.any (·.isSymbol spellings)

/-- The event of a name that is referred to after the word `prev`: components of a structure are
no names of their own. -/
def reference (prev : Option Word) (w : Word) (write : Bool) (rest : List Word) : List Event :=
  if prev.any (·.isSymbol ["."]) then []
  else [.refer w.occurrence write (atSymbol ["("] rest)]

/-- The references among the first `n` words after `prev`. -/
def references (prev : Word) : Nat → List Word → List Event
  | 0, _ => []
  | _, [] => []
  | n + 1, w :: rest =>
    (if w.isIdentifier then reference (some prev) w false rest else []) ++ references w n rest

def lastOf (prev : Word) : Nat → List Word → Word
  | 0, _ => prev
  | _, [] => prev
  | n + 1, w :: rest => lastOf w n rest

/-! ### Statement ends -/

/-- Leaves a statement that went wrong: words are dropped up to and with a semicolon, or up to a
word that starts a statement. -/
def synchronize (prev : Word) : List Word → Word × List Word
  | [] => (prev, [])
  | w :: rest =>
    if w.isSymbol [";"] then (w, rest)
    else if startsStatement w then (prev, w :: rest)
    else synchronize w rest

/-- Leaves a statement with a flaw at the next word. -/
def abandon (f : SyntaxFlaw) (fallback prev : Word) (rest : List Word) : Reading :=
  let (last, left) := synchronize prev rest
  ⟨[flawHere f fallback rest], last, left⟩

def finishStatement (keyword prev : Word) (rest : List Word) : Reading :=
  match rest with
  | w :: left =>
    if w.isSymbol [";"] then ⟨[], w, left⟩
    else abandon (.missingSemicolon keyword.text) keyword prev rest
  | [] => abandon (.missingSemicolon keyword.text) keyword prev rest

/-- The number of words before the end of a statement: a semicolon, or a word that starts another
one. -/
def clauseSize : List Word → Nat
  | [] => 0
  | w :: rest => if w.isSymbol [";"] || startsStatement w then 0 else clauseSize rest + 1

/-! ### Brackets -/

/-- The number of words before the bracket that closes a group, or before what ends it early: a
semicolon or the end. `depth` groups are open inside it. -/
def groupSize (depth : Nat) : List Word → Nat
  | [] => 0
  | w :: rest =>
    if w.isSymbol ["(", "["] then groupSize (depth + 1) rest + 1
    else if w.isSymbol [")", "]"] then
      match depth with
      | 0 => 0
      | d + 1 => groupSize d rest + 1
    else if w.isSymbol [";"] then 0
    else groupSize depth rest + 1

/-- The commas of a group outside of the groups in it. -/
def commaCount (depth : Nat) : List Word → Nat
  | [] => 0
  | w :: rest =>
    if w.isSymbol ["(", "["] then commaCount (depth + 1) rest
    else if w.isSymbol [")", "]"] then commaCount (depth - 1) rest
    else if w.isSymbol [","] && depth = 0 then commaCount depth rest + 1
    else commaCount depth rest

/-- A bracketed group: the words in it and what reading it gives. -/
structure Group where
  inner : List Word
  reading : Reading

def closingBracket (opening : Word) : String := if opening.text = "(" then ")" else "]"

/-- The end of a group, before which `last` stands: a closing bracket, or a flaw. -/
def groupEnd (opening last : Word) (rest : List Word) : Reading :=
  match rest with
  | w :: left =>
    if w.isSymbol [")", "]"] then ⟨[], w, left⟩
    else ⟨[flawHere (.missingBracket (closingBracket opening)) opening rest], last, rest⟩
  | [] => ⟨[flawHere (.missingBracket (closingBracket opening)) opening rest], last, rest⟩

/-- Reads a group whose opening bracket has been read. Names in it are references on demand. -/
def group (resolve : Bool) (opening : Word) (rest : List Word) : Group :=
  let n := groupSize 0 rest
  let ending := groupEnd opening (lastOf opening n rest) (rest.drop n)
  ⟨rest.take n, (if resolve then references opening n rest else []) ++ ending.events,
    ending.last, ending.rest⟩

/-- Reads a group if the next word opens one with one of these brackets. -/
def optionalGroup (brackets : List String) (resolve : Bool) (rest : List Word) : Option Group :=
  match rest with
  | w :: left => if w.isSymbol brackets then some (group resolve w left) else none
  | [] => none

/-- The words that follow a group, or all words if there is none. -/
def afterGroup (g : Option Group) (prev : Word) (rest : List Word) : Word × List Word :=
  match g with
  | some g => (g.reading.last, g.reading.rest)
  | none => (prev, rest)

def groupEvents (g : Option Group) : List Event :=
  match g with
  | some g => g.reading.events
  | none => []

/-! ### What is left is a part of what was there -/

theorem synchronize_suffix (prev : Word) (rest : List Word) :
    (synchronize prev rest).2 <:+ rest := by
  induction rest generalizing prev with
  | nil => simp [synchronize]
  | cons w rest ih =>
    rw [synchronize]
    split
    · exact List.suffix_cons w rest
    · split
      · exact List.suffix_refl _
      · exact (ih w).trans (List.suffix_cons w rest)

theorem abandon_suffix (f : SyntaxFlaw) (fallback prev : Word) (rest : List Word) :
    (abandon f fallback prev rest).rest <:+ rest :=
  synchronize_suffix prev rest

theorem finishStatement_suffix (keyword prev : Word) (rest : List Word) :
    (finishStatement keyword prev rest).rest <:+ rest := by
  unfold finishStatement
  split
  · split
    · exact List.suffix_cons _ _
    · exact abandon_suffix ..
  · exact abandon_suffix ..

theorem groupEnd_suffix (opening last : Word) (rest : List Word) :
    (groupEnd opening last rest).rest <:+ rest := by
  unfold groupEnd
  split
  · split
    · exact List.suffix_cons _ _
    · exact List.suffix_refl _
  · exact List.suffix_refl _

theorem group_suffix (resolve : Bool) (opening : Word) (rest : List Word) :
    (group resolve opening rest).reading.rest <:+ rest :=
  (groupEnd_suffix ..).trans (List.drop_suffix _ _)

theorem afterGroup_suffix (brackets : List String) (resolve : Bool) (prev : Word)
    (rest : List Word) :
    (afterGroup (optionalGroup brackets resolve rest) prev rest).2 <:+ rest := by
  unfold optionalGroup
  split
  · split
    · exact (group_suffix resolve _ _).trans (List.suffix_cons _ _)
    · exact List.suffix_refl _
  · exact List.suffix_refl _

end Pearl.Event
