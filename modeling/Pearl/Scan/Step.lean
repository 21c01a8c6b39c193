import Pearl.Directive
import Pearl.Macro.Expansion
import Pearl.Macro.Substitution
import Pearl.Scan.State

namespace Pearl.Scan

/-- How an included text is read in place. -/
abbrev Reader := Source → List Char → State → State

namespace State

/-! ### Blanks -/

def newline (s : State) : State :=
  { s with position := s.position.next '\n', lineStart := true }

def space (s : State) (c : Char) : State := { s with position := s.position.next c }

/-! ### Lexical elements -/

/-- A token of a replacement text, which stands at the reference to the macro. -/
def expandedToken (marker : Token) (l : Lexeme) : Token :=
  { marker with kind := l.kind, text := String.ofList l.text }

/-- Adds a reference to a macro and the tokens of its replacement text. -/
def expand (s : State) (uri : String) (m : Macro) (word : List Char) : State :=
  let marker := { s.tokenHere uri .reference word with expanded := some m }
  let e := Expansion.ofMacro s.macros s.part m
  { s.advance word with
    tokens := s.tokens.push marker ++ (e.lexemes.map (expandedToken marker)).toArray
    diagnostics := s.diagnostics ++
      (e.faults.map fun f => Diagnostic.atToken .error f.code f.message marker).toArray
    part := e.part }

def foldLines (s : State) (uri : String) (first : Nat) : State :=
  if first < s.position.line then
    s.fold { uri, startLine := first, endLine := s.position.line, kind := .comment }
  else s

def reportFault (s : State) (t : Token) : Option LexicalFault → State
  | none => s
  | some f => s.report (.atToken .error f.code f.message t)

/-- Adds an element that refers to no macro. -/
def plain (s : State) (uri : String) (l : Lexeme) : State :=
  let t := s.tokenHere uri l.kind l.text
  let next := { (s.emit t).advance l.text with part := Expansion.partAfter s.part l }
  (next.foldLines uri s.position.line).reportFault t l.fault

def element (s : State) (uri : String) (l : Lexeme) : State :=
  match Expansion.reference? s.macros [] l with
  | some m => s.expand uri m l.text
  | none => s.plain uri l

/-! ### Lines that count as a whole -/

def inactiveLine (s : State) (uri : String) (line : List Char) : State :=
  (s.addInactive (s.tokenHere uri .inactive line)).advance line

def fail (s : State) (code : String) (f : Failure) (t : Token) : State :=
  s.report (.ofFailure code f t)

/-- Reports the inactive lines once lines count again. -/
def settle (s : State) (uri : String) : State :=
  if s.conditions.active then s.flushInactive uri else s

def failInclude (s : State) (t : Token) (name reason : String) (searched : Option String) :
    State :=
  s.fail "include-error" (IncludeFailure.toFailure ⟨name, reason, some t.location, searched⟩) t

/-- Reads the file at a path in place of a directive. A file that is being read already, one that
is nested too deeply and one that cannot be read are reported and contribute nothing. -/
def includePath (σ : Setting) (src : Source) (nested : Option Reader) (s : State) (t : Token)
    (name : String) (path : Path) : State :=
  if src.chain.contains path then s.failInclude t name "circular include detected" none
  else match nested with
    | none =>
      s.failInclude t name s!"include nesting exceeds {σ.options.maxIncludeDepth} levels" none
    | some read =>
      let s := { s with asked := s.asked.push path }
      match s.cache.read σ.files path with
      | (.error fault, cache) =>
        { s with cache }.failInclude t name fault.reason (some (σ.base src).toString)
      | (.ok text, cache) =>
        let s := { s with cache }
        s.leave (read (src.included path) text.toList s.enter)

/-- Reads a file in place of a directive. Where the file cannot even be located, the run is given
up. -/
def includeFile (σ : Setting) (src : Source) (nested : Option Reader) (s : State) (t : Token)
    (name : String) : State :=
  match s.failure, σ.locate src (s.macros.substitute name) with
  | some _, _ => s
  | none, .error e => { s with failure := some e }
  | none, .ok path => s.includePath σ src nested t (s.macros.substitute name) path

def define (s : State) (t : Token) (name value : String) : State :=
  match s.macros.define ⟨name, value, some t.location⟩ with
  | .error r => s.fail "preprocessor-error" ⟨r.message, some t.location, r.hint.toOption⟩ t
  | .ok macros => { s with macros }

def undefine (s : State) (t : Token) (name : String) : State :=
  if s.macros.contains name then { s with macros := s.macros.erase name }
  else s.report (.atToken .warning "undefined-macro" s!"macro '{name}' is not defined" t)

def openCondition (s : State) (t : Token) (outcome : Bool) : State :=
  { s with conditions := s.conditions.push outcome t }

def turnCondition (s : State) (src : Source) (t : Token) : State :=
  match s.conditions.invert with
  | .error e => s.fail "preprocessor-error" (e.toFailure (some t.location)) t
  | .ok conditions => { s with conditions }.settle src.uri

/-- Closes the innermost condition, whose lines can be folded. -/
def closeCondition (s : State) (src : Source) (t : Token) : State :=
  match s.conditions.pop with
  | .error e => s.fail "preprocessor-error" (e.toFailure (some t.location)) t
  | .ok (opener, conditions) =>
    let s := { s with conditions }
    let s :=
      if opener.start.line < t.start.line then
        s.fold { uri := src.uri, startLine := opener.start.line, endLine := t.start.line
                 kind := .preproc, label := some (Text.trimString opener.text) }
      else s
    s.settle src.uri

def carryOut (σ : Setting) (src : Source) (nested : Option Reader) (s : State) (t : Token) :
    Directive → State
  | .define name value => s.define t name value
  | .undef name => s.undefine t name
  | .inclusion name => s.includeFile σ src nested t name
  | .condition name negated =>
    (s.openCondition t (s.macros.contains name != negated)).settle src.uri
  | .otherwise => s.turnCondition src t
  | .endif => s.closeCondition src t

/-- Reports a faulty directive; one that was to open a condition opens one that holds, so that
its end is not missed. -/
def refuse (s : State) (t : Token) (word : Option DirectiveWord) (e : DirectiveError) : State :=
  let s := s.fail "invalid-directive" (e.toFailure (some t.location)) t
  if word.any (·.isOpener) then s.openCondition t true else s

/-- Adds a `#` line that counts and carries it out. -/
def activeDirective (σ : Setting) (src : Source) (nested : Option Reader) (s : State)
    (line : List Char) (word : Option DirectiveWord) : State :=
  let t := s.tokenHere src.uri (if word.isSome then .directive else .inactive) line
  let s := (s.emit t).advance line
  match Directive.parse line with
  | .error e => s.refuse t word e
  | .ok d => s.carryOut σ src nested t d

/-- Adds a `#` line. Where lines do not count, only conditions are looked at. -/
def directiveLine (σ : Setting) (src : Source) (nested : Option Reader) (s : State)
    (line : List Char) : State :=
  let word := DirectiveWord.ofText? (Directive.wordOf line)
  if !s.conditions.active && !word.any (·.isConditional) then s.inactiveLine src.uri line
  else s.activeDirective σ src nested line word

/-! ### The end of a text -/

def reportUnclosed (s : State) (opener : Token) : State :=
  s.report (.atToken .error "unterminated-conditional"
    s!"#{Directive.wordOf opener.text.toList} without matching #endif" opener)

def finish (s : State) (uri : String) : State :=
  let s := s.flushInactive uri
  s.conditions.unclosed.foldl reportUnclosed s

/-- What came of a run: the state at its end, or why it was given up. -/
def outcome (s : State) : Except DocumentError State :=
  match s.failure with
  | some e => .error e
  | none => .ok s

end State

end Pearl.Scan
