import Pearl.Entries
import Pearl.Failure
import Pearl.Options
import Pearl.Text.Blank
import Pearl.Text.LowerCase
import Pearl.Text.Split
import Pearl.Text.Word
import Pearl.Value

namespace Pearl

/-- Macro definitions that cannot be read: the first of them that is no `NAME` or `NAME=VALUE`. -/
structure DefinitionError where
  item : String
  deriving DecidableEq, Repr

/-- The failure to show for a macro definition that cannot be read. -/
def DefinitionError.toFailure (e : DefinitionError) : Failure :=
  ⟨s!"invalid macro definition '{e.item}'", none, some "use NAME or NAME=VALUE"⟩

namespace Settings

open Text

/-- A macro name: a letter, then letters, numerals and underscores. -/
def isMacroName : List Char → Bool
  | [] => false
  | c :: cs => isLetter c && (c :: cs).all isWordChar

/-- Reads `NAME` or `NAME=VALUE`, with blanks around the two dropped. -/
def definition? (item : String) : Option (String × String) :=
  let (name, value) := splitFirst '=' item.toList
  let name := trim name
  if isMacroName name then
    some (String.ofList name, String.ofList (trim (value.getD [])))
  else none

/-- Reads a list of macro definitions; the last value of a name counts. -/
def definitions (items : List String) : Except DefinitionError (List (String × String)) :=
  items.foldlM (fun values item =>
    match definition? item with
    | some (name, value) => .ok (Entries.assign name value values)
    | none => .error ⟨item⟩) []

/-- Settings that are no object and not empty. -/
structure SettingsError where
  typeName : String
  deriving DecidableEq, Repr

def SettingsError.message (e : SettingsError) : String :=
  s!"'{e.typeName}' object has no attribute 'get'"

/-- What one key of the settings gives, and a warning if it was ignored. -/
abbrev Reading (α : Type) := α × Option String

/-- The macros the settings set up: an object of names and values, or a list of definitions. -/
def readMacros : Option Value → Reading (List (String × String))
  | none | some .null => ([], none)
  | some (.object fields) =>
    (fields.foldl (fun values f =>
      Entries.assign f.1 (match f.2 with | .null => "" | v => v.text) values) [], none)
  | some (.list items) =>
    match definitions (items.map Value.text) with
    | .ok values => (values, none)
    | .error e => ([], some s!"Ignoring predefinedMacros: {e.toFailure.message}")
  | some v => ([], some s!"Ignoring predefinedMacros of type {v.typeName}")

def readMode : Option Value → Reading IncludeMode
  | none => (.file, none)
  | some v =>
    if v.isEmpty then (.file, none)
    else match IncludeMode.ofName? (lowerString v.text) with
      | some mode => (mode, none)
      | none => (.file, some s!"Unknown includeMode {v.quoted}, using 'file'")

def readLogLevel : Option Value → Reading (Option LogLevel)
  | none => (none, none)
  | some v =>
    if v.isEmpty then (none, none)
    else match LogLevel.ofName? (lowerString v.text) with
      | some level => (some level, none)
      | none => (none, some s!"Unknown logLevel {v.quoted}")

/-- Options by the fields of a section, with the warnings about ignored ones. -/
def ofSection (fields : List (String × Value)) (root : Option Path) : Options × List String :=
  let macros := readMacros (Value.field? "predefinedMacros" fields)
  let mode := readMode (Value.field? "includeMode" fields)
  let level := readLogLevel (Value.field? "logLevel" fields)
  ({ predefined := macros.1, includeMode := mode.1, workspaceRoot := root, logLevel := level.1 },
    [macros.2, mode.2, level.2].filterMap id)

/-- Options by the settings of a client, which may hold them in a section of their own. -/
def toOptions (settings : Value) (root : Option Path) :
    Except SettingsError (Options × List String) :=
  if settings.isEmpty then .ok ({ workspaceRoot := root }, [])
  else match settings with
    | .object fields =>
      match Value.field? "pearl" fields with
      | none => .ok (ofSection fields root)
      | some (.object inner) => .ok (ofSection inner root)
      | some v =>
        .ok ({ workspaceRoot := root },
          [s!"Ignoring non-object 'pearl' settings: {v.quoted}"])
    | v => .error ⟨v.typeName⟩

end Settings

end Pearl
