import Pearl.Text.Quoted
import Pearl.Text.Similarity
import Pearl.Text.Split

namespace Pearl.CommandLine

/-- An option of a command: `--long`, perhaps `-s` for short, with a value after it or without. -/
structure OptionSpec (ι : Type) where
  key : ι
  long : String
  short : Option Char := none
  takesValue : Bool := false
  deriving Repr

/-- How an option is named in messages. -/
def OptionSpec.hint {ι : Type} (o : OptionSpec ι) : String :=
  match o.short with
  | some c => s!"'-{c}' / '{o.long}'"
  | none => s!"'{o.long}'"

inductive UsageError where
  | unknownOption (name : String) (similar : List String)
  | missingValue (name : String)
  | unwantedValue (name : String)
  | missingArgument (name : String)
  | invalidValue (hint reason : String)
  | extraArguments (arguments : List String)
  deriving DecidableEq, Repr

def UsageError.message : UsageError → String
  | unknownOption name [] => s!"No such option {Text.quoteString name}."
  | unknownOption name [other] =>
    s!"No such option {Text.quoteString name}. Did you mean {Text.quoteString other}?"
  | unknownOption name others =>
    let shown := ", ".intercalate (others.map Text.quoteString)
    s!"No such option {Text.quoteString name}. (Did you mean one of: {shown}?)"
  | missingValue name => s!"Option {Text.quoteString name} requires an argument."
  | unwantedValue name => s!"Option {Text.quoteString name} does not take a value."
  | missingArgument name => s!"Missing argument '{name}'."
  | invalidValue hint reason => s!"Invalid value for {hint}: {reason}"
  | extraArguments arguments =>
    let noun := if arguments.length = 1 then "argument" else "arguments"
    s!"Got unexpected extra {noun} (" ++ " ".intercalate arguments ++ ")"

/-- An error comes with the usage of the command, except for an option that is known and only
lacks a value or has one too many. -/
def UsageError.showsUsage : UsageError → Bool
  | missingValue _ | unwantedValue _ => false
  | _ => true

/-- A command line taken apart: the options with their values, in order, and the rest. An option
without a value is given with the empty one. -/
structure Arguments (ι : Type) where
  options : List (ι × String) := []
  rest : List String := []
  deriving Repr

namespace Arguments

variable {ι : Type}

def withOptions (given : List (ι × String)) (a : Arguments ι) : Arguments ι :=
  { a with options := given ++ a.options }

/-- Options that were read from one argument, and one that waits for its value. -/
structure Reading (ι : Type) where
  given : List (ι × String) := []
  waiting : Option (String × ι) := none

/-- The options with the most similar names, in order. -/
def similarTo (specs : List (OptionSpec ι)) (name : String) : List String :=
  (Text.closest 3 name (specs.map (·.long))).mergeSort fun a b => decide (a ≤ b)

/-- Reads an argument that starts with two dashes; a value may follow an equals sign. -/
def readLong (specs : List (OptionSpec ι)) (arg : String) : Except UsageError (Reading ι) :=
  let (name, value) := Text.splitFirst '=' arg.toList
  let name := String.ofList name
  match specs.find? (·.long = name), value with
  | none, _ => .error (.unknownOption name (similarTo specs name))
  | some o, some v =>
    if o.takesValue then .ok { given := [(o.key, String.ofList v)] }
    else .error (.unwantedValue name)
  | some o, none =>
    if o.takesValue then .ok { waiting := some (name, o.key) } else .ok { given := [(o.key, "")] }

/-- Reads the letters after one dash: options without a value, and perhaps one with a value, which
is the rest of the letters. -/
def readShort (specs : List (OptionSpec ι)) : List Char → Except UsageError (Reading ι)
  | [] => .ok {}
  | c :: cs =>
    let name := String.ofList ['-', c]
    match specs.find? (·.short = some c) with
    | none => .error (.unknownOption name [])
    | some o =>
      if !o.takesValue then
        match readShort specs cs with
        | .error e => .error e
        | .ok r => .ok { r with given := (o.key, "") :: r.given }
      else if cs.isEmpty then .ok { waiting := some (name, o.key) }
      else .ok { given := [(o.key, String.ofList cs)] }

/-- Takes a command line apart. Options may stand between other arguments; after two dashes alone
there are no more options. -/
def read (specs : List (OptionSpec ι)) : List String → Except UsageError (Arguments ι)
  | [] => .ok {}
  | arg :: args =>
    match arg.toList with
    | ['-', '-'] => .ok { rest := args }
    | '-' :: c :: cs =>
      match if c = '-' then readLong specs arg else readShort specs (c :: cs) with
      | .error e => .error e
      | .ok ⟨given, none⟩ =>
        match read specs args with
        | .error e => .error e
        | .ok a => .ok (a.withOptions given)
      | .ok ⟨given, some (name, key)⟩ =>
        match args with
        | [] => .error (.missingValue name)
        | value :: args =>
          match read specs args with
          | .error e => .error e
          | .ok a => .ok (a.withOptions (given ++ [(key, value)]))
    | _ =>
      match read specs args with
      | .error e => .error e
      | .ok a => .ok { a with rest := arg :: a.rest }

variable [DecidableEq ι]

def values (a : Arguments ι) (key : ι) : List String :=
  (a.options.filter (·.1 = key)).map (·.2)

/-- The value of an option; the last one counts. -/
def value? (a : Arguments ι) (key : ι) : Option String := (a.values key).getLast?

def contains (a : Arguments ι) (key : ι) : Bool := (a.value? key).isSome

/-- The options that are there, each once, in order of their first occurrence. -/
def keys (a : Arguments ι) : List ι := (a.options.map (·.1)).eraseDups

end Arguments

/-- What a command leaves behind: its exit status and what it wrote. -/
structure Outcome where
  status : Nat
  output : String := ""
  errors : String := ""
  deriving DecidableEq, Repr

namespace Outcome

/-- The exit status after errors in a program, on the command line, and inside. -/
def findings : Nat := 1

@[inherit_doc findings]
def misuse : Nat := 2

@[inherit_doc findings]
def breakdown : Nat := 3

/-- The outcome of a command line that cannot be understood, for a command with the given
parameters. -/
def ofUsage (parameters : String) (e : UsageError) : Outcome :=
  let usage :=
    if e.showsUsage then s!"Usage: main {parameters}\nTry 'main --help' for help.\n\n" else ""
  { status := misuse, errors := s!"{usage}Error: {e.message}\n" }

def version (tool : String) : Outcome := { status := 0, output := s!"{tool}, version 0.1.0\n" }

def help (parameters : String) : Outcome := { status := 0, output := s!"Usage: main {parameters}\n" }

def ofFailure (text : String) : Outcome := { status := misuse, errors := s!"{text}\n" }

def ofUnreadable (text : String) : Outcome := { status := misuse, errors := s!"Error: {text}\n" }

/-- Anything else that goes wrong. -/
def ofBreakdown (text : String) : Outcome :=
  { status := breakdown, errors := s!"Internal error: {text}\n" }

end Outcome

end Pearl.CommandLine
