import Pearl.Failure
import Pearl.Text.Blank
import Pearl.Text.LowerCase
import Pearl.Text.Split
import Pearl.Text.Word

namespace Pearl

/-- The words that may follow the `#` of a directive. -/
inductive DirectiveWord where
  | define
  | undef
  | inclusion
  | ifdef
  | ifndef
  | otherwise
  | endif
  deriving DecidableEq, Repr

namespace DirectiveWord

def text : DirectiveWord → String
  | define => "define"
  | undef => "undef"
  | inclusion => "include"
  | ifdef => "ifdef"
  | ifndef => "ifndef"
  | otherwise => "else"
  | endif => "endif"

def all : List DirectiveWord := [define, undef, inclusion, ifdef, ifndef, otherwise, endif]

def ofText? (s : String) : Option DirectiveWord := all.find? (·.text = s)

/-- The words that open, turn or close a condition. -/
def isConditional : DirectiveWord → Bool
  | ifdef | ifndef | otherwise | endif => true
  | _ => false

def isOpener : DirectiveWord → Bool
  | ifdef | ifndef => true
  | _ => false

/-- What the words with arguments are to look like. -/
def usage : DirectiveWord → String
  | define => "#define NAME [value]"
  | undef => "#undef NAME"
  | inclusion => "#include \"file\""
  | ifdef => "#ifdef NAME"
  | ifndef => "#ifndef NAME"
  | otherwise => "#else"
  | endif => "#endif"

end DirectiveWord

inductive Directive where
  | define (name value : String)
  | undef (name : String)
  | inclusion (path : String)
  | condition (name : String) (negated : Bool)
  | otherwise
  | endif
  deriving DecidableEq, Repr

def Directive.word : Directive → DirectiveWord
  | define .. => .define
  | undef _ => .undef
  | inclusion _ => .inclusion
  | condition _ false => .ifdef
  | condition _ true => .ifndef
  | otherwise => .otherwise
  | endif => .endif

/-- What may be wrong with a directive: its word is unknown, or its arguments do not fit. -/
inductive DirectiveError where
  | unrecognized (word : String)
  | malformed (word : DirectiveWord)
  deriving DecidableEq, Repr

def DirectiveError.toFailure (e : DirectiveError) (location : Option Location) : Failure :=
  match e with
  | unrecognized word =>
    ⟨s!"unrecognized preprocessor directive '#{word}'", location,
      some "supported: #define, #undef, #include, #ifdef, #ifndef, #else, #endif"⟩
  | malformed word =>
    ⟨s!"invalid #{word.text} syntax", location, some s!"expected '{word.usage}'"⟩

namespace Directive

open Text

/-- The word after the `#` of a line, as written; empty if there is none. -/
def spelledWord (line : List Char) : List Char :=
  match line with
  | '#' :: rest =>
    match trimStart rest with
    | c :: cs => if c.isAlpha || c = '_' then (splitWord (c :: cs)).1 else []
    | [] => []
  | _ => []

/-- The word after the `#` of a line, in lower case; empty if there is none. -/
def wordOf (line : List Char) : String := String.ofList (lower (spelledWord line))

/-- A line up to the first exclamation mark outside quotes, for a line that starts inside a quote
opened by `mark` or outside any. -/
def beforeComment : Option Char → List Char → List Char
  | _, [] => []
  | some mark, c :: cs => c :: beforeComment (if c = mark then none else some mark) cs
  | none, c :: cs =>
    if c = '!' then []
    else c :: beforeComment (if c = '\x27' || c = '"' then some c else none) cs

/-- A line without its comment and the blanks at its end. -/
def stripComment (line : List Char) : List Char := trimEnd (beforeComment none line)

/-- A text without the blanks at its ends and one pair of double quotes around it. -/
def unquote (value : List Char) : List Char :=
  match trim value with
  | '"' :: rest => if rest.getLast? = some '"' then rest.dropLast else '"' :: rest
  | cs => cs

/-- What follows the word of a line that spells it in lower case: at least one blank stands
between the two, and all blanks there are dropped. -/
def argument? (word : DirectiveWord) (line : List Char) : Option (List Char) :=
  match line with
  | '#' :: rest =>
    match dropHead? word.text.toList (trimStart rest) with
    | some (c :: cs) => if isBlank c then some (trimStart cs) else none
    | _ => none
  | _ => none

/-- The macro name at the head of an argument and what follows it. -/
def macroName? (arg : List Char) : Option (String × List Char) :=
  match arg with
  | c :: _ => if c.isAlpha then some (String.ofList (splitWord arg).1, (splitWord arg).2) else none
  | [] => none

def soleName? (arg : List Char) : Option String :=
  match macroName? arg with
  | some (name, []) => some name
  | _ => none

/-- A macro name and, after a blank, its value on the same line. -/
def definition? (arg : List Char) : Option (String × String) :=
  match macroName? arg with
  | some (name, []) => some (name, "")
  | some (name, c :: rest) =>
    let body := trimStart rest
    if isBlank c && !body.contains '\n' then some (name, String.ofList (unquote body)) else none
  | none => none

/-- The text between an opening mark, already read, and a closing mark that ends the argument. -/
def enclosed? (mark : Char) (cs : List Char) : Option (List Char) :=
  match splitFirst mark cs with
  | (inner, some []) => some inner
  | _ => none

/-- The file name of an inclusion: in double quotes, in angle brackets, or without blanks. -/
def fileName? (arg : List Char) : Option String :=
  let bare := if arg ≠ [] ∧ arg.all (!isBlank ·) then some arg else none
  let name := match arg with
    | '"' :: cs => (enclosed? '"' cs).or bare
    | '<' :: cs => (enclosed? '>' cs).or bare
    | _ => bare
  name.map String.ofList

def arguments? (word : DirectiveWord) (line : List Char) : Option Directive :=
  match word with
  | .define => ((argument? .define line).bind definition?).map fun d => .define d.1 d.2
  | .undef => ((argument? .undef line).bind soleName?).map .undef
  | .inclusion => ((argument? .inclusion line).bind fileName?).map .inclusion
  | .ifdef => ((argument? .ifdef line).bind soleName?).map (.condition · false)
  | .ifndef => ((argument? .ifndef line).bind soleName?).map (.condition · true)
  | .otherwise => some .otherwise
  | .endif => some .endif

def parse (line : List Char) : Except DirectiveError Directive :=
  let text := stripComment line
  match DirectiveWord.ofText? (wordOf text) with
  | none => .error (.unrecognized (wordOf text))
  | some word =>
    match arguments? word text with
    | none => .error (.malformed word)
    | some d => .ok d

end Directive

end Pearl
