import Pearl.Location

namespace Pearl

/-- A name with a replacement text. Macros set up by the configuration have no place of
definition. -/
structure Macro where
  name : String
  value : String
  definedAt : Option Location := none
  deriving DecidableEq, Repr

/-- The macro was set up by the configuration. -/
def Macro.isPredefined (m : Macro) : Bool := m.definedAt.isNone

/-- The macros in force, at most one for each name. -/
structure MacroTable where
  macros : List Macro := []
  deriving DecidableEq, Repr

/-- A second definition of a name; the first one is given. -/
structure Redefinition where
  first : Macro
  deriving DecidableEq, Repr

namespace Redefinition

def message (r : Redefinition) : String := s!"macro '{r.first.name}' is already defined"

/-- Where the name got its meaning. -/
def hint (r : Redefinition) : Except UriError String :=
  match r.first.definedAt with
  | some l => l.render.map fun place => s!"'{r.first.name}' was first defined at {place}"
  | none => .ok s!"'{r.first.name}' is predefined by the configuration"

end Redefinition

namespace MacroTable

def get? (t : MacroTable) (name : String) : Option Macro := t.macros.find? (·.name = name)

def contains (t : MacroTable) (name : String) : Bool := (t.get? name).isSome

def size (t : MacroTable) : Nat := t.macros.length

/-- The names, in order. -/
def names (t : MacroTable) : List String :=
  (t.macros.map (·.name)).mergeSort fun a b => decide (a ≤ b)

def erase (t : MacroTable) (name : String) : MacroTable :=
  ⟨t.macros.filter (·.name ≠ name)⟩

/-- The table in which a name has a new meaning, whatever it meant before. -/
def insert (t : MacroTable) (m : Macro) : MacroTable := ⟨(t.erase m.name).macros ++ [m]⟩

/-- Gives a name its meaning, unless it has one. -/
def define (t : MacroTable) (m : Macro) : Except Redefinition MacroTable :=
  match t.get? m.name with
  | some first => .error ⟨first⟩
  | none => .ok ⟨t.macros ++ [m]⟩

/-- The table of the macros that the configuration sets up; of two values for one name the later
one counts. -/
def ofPredefined (values : List (String × String)) : MacroTable :=
  values.foldl (fun t v => t.insert ⟨v.1, v.2, none⟩) {}

end MacroTable

end Pearl
