namespace Pearl

inductive BuiltinCategory where
  | math
  | string
  | time
  | io
  deriving DecidableEq, Repr

def BuiltinCategory.name : BuiltinCategory → String
  | math => "MATH"
  | string => "STRING"
  | time => "TIME"
  | io => "IO"

/-- A procedure that may be called without being declared. One that is `niladic` may be named
without an argument list. -/
structure Builtin where
  name : String
  description : String
  category : BuiltinCategory
  parameters : List (String × String) := []
  returns : Option String := none
  niladic : Bool := false
  deriving DecidableEq, Repr

namespace Builtin

/-- The parameters as written in a signature. -/
def parameterTexts (b : Builtin) : List String := b.parameters.map fun p => s!"{p.1} {p.2}"

def signature (b : Builtin) : String :=
  b.name ++
    (if b.parameters.isEmpty then "" else "(" ++ ", ".intercalate b.parameterTexts ++ ")") ++
    (match b.returns with
      | some r => s!" RETURNS({r})"
      | none => "")

/-- A function from float to float. -/
def numeric (name description : String) : Builtin :=
  { name, description, category := .math, parameters := [("x", "FLOAT")], returns := some "FLOAT" }

def all : List Builtin :=
  [numeric "SQRT" "Square root",
   numeric "SIN" "Sine of an angle in radians",
   numeric "COS" "Cosine of an angle in radians",
   numeric "TAN" "Tangent of an angle in radians",
   numeric "ATAN" "Arc tangent, result in radians",
   numeric "EXP" "Exponential function e**x",
   numeric "LN" "Natural logarithm",
   numeric "TANH" "Hyperbolic tangent",
   { name := "TOUPPER", description := "Convert a character to upper case", category := .string
     parameters := [("c", "CHAR(1)")], returns := some "CHAR(1)" },
   { name := "TOLOWER", description := "Convert a character to lower case", category := .string
     parameters := [("c", "CHAR(1)")], returns := some "CHAR(1)" },
   { name := "CHARLEN", description := "Length of a character string without trailing blanks"
     category := .string, parameters := [("s", "CHAR")], returns := some "FIXED" },
   { name := "CHARPOS", description := "Position of a substring, 0 if absent"
     category := .string, parameters := [("s", "CHAR"), ("sub", "CHAR")], returns := some "FIXED" },
   { name := "BITCOUNT", description := "Number of set bits in a bit string", category := .string
     parameters := [("b", "BIT")], returns := some "FIXED" },
   { name := "NOW", description := "Current time of day", category := .time
     returns := some "CLOCK", niladic := true },
   { name := "DATE", description := "Current date as text", category := .time
     returns := some "CHAR(10)", niladic := true },
   { name := "ST", description := "Status of the last I/O operation on a dation", category := .io
     parameters := [("d", "DATION")], returns := some "FIXED" },
   { name := "SOP", description := "Current position within a dation", category := .io
     parameters := [("d", "DATION")], returns := some "FIXED" },
   { name := "FLUSH", description := "Write buffered output of a dation", category := .io
     parameters := [("d", "DATION")] }]

def get? (name : String) : Option Builtin := all.find? (·.name = name)

end Builtin

end Pearl
