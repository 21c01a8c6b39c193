import Pearl.Entries
import Pearl.Symbol

namespace Pearl

/-- The names declared in one block, in order, each with the number of its symbol. -/
structure Scope where
  keyword : Option String := none
  entries : List (String × Nat) := []
  deriving DecidableEq, Repr

namespace Scope

def get? (s : Scope) (name : String) : Option Nat := s.entries.lookup name

def contains (s : Scope) (name : String) : Bool := (s.get? name).isSome

def insert (s : Scope) (name : String) (id : Nat) : Scope :=
  { s with entries := Entries.assign name id s.entries }

end Scope

/-- All scopes of a program and the symbols in them. `stack` holds the open scopes, innermost
first, down to the global scope; `closed` holds those closed and not yet taken, oldest first. -/
structure Arena where
  symbols : Array Symbol := #[]
  scopes : Array Scope := #[{}]
  stack : List Nat := [0]
  closed : List Nat := []
  deriving Repr

/-- What an arena cannot do: close the global scope, or reach a level that is not open. -/
inductive ArenaError where
  | closingGlobal
  | noSuchLevel
  deriving DecidableEq, Repr

def ArenaError.message : ArenaError → String
  | closingGlobal => "cannot close the global scope"
  | noSuchLevel => "list index out of range"

namespace Arena

def current (a : Arena) : Nat := a.stack.headD 0

def depth (a : Arena) : Nat := a.stack.length

def scope (a : Arena) (i : Nat) : Scope := a.scopes.getD i {}

/-- The open scope at a level. The global scope has level 0; negative levels count from the
innermost one. -/
def atLevel (a : Arena) (level : Int) : Except ArenaError Nat :=
  let place := if level < 0 then -level - 1 else a.depth - 1 - level
  match place with
  | .ofNat n => (a.stack[n]?).elim (.error .noSuchLevel) .ok
  | .negSucc _ => .error .noSuchLevel

def push (a : Arena) (keyword : Option String) : Arena :=
  { a with scopes := a.scopes.push { keyword }, stack := a.scopes.size :: a.stack }

/-- Closes the innermost scope and tells which it was. -/
def pop (a : Arena) : Except ArenaError (Nat × Arena) :=
  match a.stack with
  | i :: outer :: rest =>
    .ok (i, { a with stack := outer :: rest, closed := a.closed ++ [i] })
  | _ => .error .closingGlobal

/-- Adds a symbol and makes it the meaning of its name in a scope. -/
def add (a : Arena) (scope : Nat) (s : Symbol) : Arena :=
  { a with
    symbols := a.symbols.push s
    scopes := a.scopes.modify scope (·.insert s.name a.symbols.size) }

/-- Declares a symbol in a scope, unless its name is taken; the symbol that has it is given then. -/
def declare (a : Arena) (scope : Nat) (s : Symbol) : Option Nat × Arena :=
  match (a.scope scope).get? s.name with
  | some id => (some id, a)
  | none => (none, a.add scope s)

def modifySymbol (a : Arena) (id : Nat) (f : Symbol → Symbol) : Arena :=
  { a with symbols := a.symbols.modify id f }

def markUsed (a : Arena) (id : Nat) : Arena := a.modifySymbol id ({ · with used := true })

/-- The meaning of a name: the entry of the innermost open scope that declares it. -/
def lookup (a : Arena) (name : String) : Option Nat :=
  a.stack.findSome? fun i => (a.scope i).get? name

/-- All names with a meaning here; inner ones cover outer ones. -/
def visible (a : Arena) : List (String × Nat) :=
  a.stack.reverse.foldl (fun names i =>
    (a.scope i).entries.foldl (fun names e => Entries.assign e.1 e.2 names) names) []

def unused (a : Arena) (scope : Nat) : List Symbol :=
  ((a.scope scope).entries.filterMap fun e => a.symbols[e.2]?).filter (·.isUnused)

/-- Takes the scopes that have been closed since the last time. -/
def takeClosed (a : Arena) : List Nat × Arena := (a.closed, { a with closed := [] })

end Arena

end Pearl
