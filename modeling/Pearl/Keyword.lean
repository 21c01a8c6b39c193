import Pearl.Token.Kind

namespace Pearl.Keyword

/-- Words with a fixed meaning in the structure of a program. -/
def reserved : List String :=
  ["MODULE", "SHELLMODULE", "MODEND", "SYSTEM", "PROBLEM",
   "PROC", "PROCEDURE", "TASK", "RETURNS", "RETURN", "CALL",
   "GLOBAL", "RESIDENT", "REENTRANT", "MAIN", "PRIO", "PRIORITY",
   "BEGIN", "END", "REPEAT", "FOR", "FROM", "BY", "TO", "WHILE",
   "IF", "THEN", "ELSE", "FIN", "CASE", "ALT", "OUT", "GOTO", "EXIT",
   "DCL", "DECLARE", "SPC", "SPECIFY", "INIT", "PRESET", "INV", "REF",
   "IDENT", "TYPE", "STRUCT", "LENGTH",
   "ACTIVATE", "TERMINATE", "PREVENT", "SUSPEND", "CONTINUE", "RESUME",
   "AT", "AFTER", "ALL", "EVERY", "DURING", "UNTIL", "WHEN",
   "REQUEST", "RELEASE", "SEMASET", "ENTER", "LEAVE", "RESERVE", "FREE",
   "ON", "INDUCE", "TRIGGER", "ENABLE", "DISABLE", "RST",
   "OPEN", "CLOSE", "PUT", "GET", "READ", "WRITE", "TAKE", "SEND",
   "CONVERT", "FORMAT",
   "SEC", "MIN", "HRS", "NIL"]

def types : List String :=
  ["FIXED", "FLOAT", "BIT", "CHAR", "CHARACTER", "CLOCK", "DURATION", "DUR",
   "SEMA", "BOLT", "DATION", "INTERRUPT", "IRPT", "SIGNAL", "ENTRY"]

def operators : List String :=
  ["AND", "OR", "NOT", "EXOR", "REM", "ABS", "SIGN", "ENTIER", "ROUND",
   "FIT", "LWB", "UPB", "SIZEOF", "SHIFT", "CSHIFT", "CAT",
   "LT", "LE", "GT", "GE", "EQ", "NE", "IS", "ISNT",
   "TOFIXED", "TOFLOAT", "TOBIT", "TOCHAR", "TRY", "CONT"]

/-- Every word of the language, in order. -/
def all : List String :=
  (reserved ++ types ++ operators).mergeSort fun a b => decide (a ≤ b)

/-- The kind of token a word makes. Keywords are written in upper case. -/
def classify (word : String) : TokenKind :=
  if reserved.contains word || types.contains word then .keyword
  else if operators.contains word then .operator
  else .identifier

end Pearl.Keyword
