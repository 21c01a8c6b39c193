import Pearl.Analysis

namespace Pearl

/-- The classes that tokens are coloured by. -/
inductive TokenClass where
  | typeWord
  | dataName
  | parameter
  | function
  | unitName
  | property
  | label
  | operator
  | string
  | number
  deriving DecidableEq, Repr

namespace TokenClass

/-- All classes, in the order of their numbers. -/
def all : List TokenClass :=
  [typeWord, dataName, parameter, function, unitName, property, label, operator, string, number]

def name : TokenClass → String
  | typeWord => "type"
  | dataName => "variable"
  | parameter => "parameter"
  | function => "function"
  | unitName => "class"
  | property => "property"
  | label => "label"
  | operator => "operator"
  | string => "string"
  | number => "number"

def index (c : TokenClass) : Nat := all.idxOf c

def ofKind : SymbolKind → TokenClass
  | .var => dataName
  | .proc => function
  | .task | .module => unitName
  | .sema | .bolt => property
  | .label => label

end TokenClass

/-- How a token is coloured; a defining occurrence is a `declaration`. -/
structure Highlight where
  cls : TokenClass
  declaration : Bool := false
  deriving DecidableEq, Repr

namespace Highlight

/-- The name of the only modifier. -/
def modifierNames : List String := ["declaration"]

def bits (h : Highlight) : Nat := if h.declaration then 1 else 0

def ofSymbol (s : Symbol) (place : Option Nat) : Highlight :=
  ⟨if s.kind = .var && s.attributes.isParameter then .parameter else .ofKind s.kind,
    place = some s.declaredAt⟩

/-- The highlight of a token; none for what is not coloured: keywords other than types,
punctuation, comments, and whatever stems from a macro. -/
def ofToken? (symbols : Array Symbol) (t : LinkedToken) : Option Highlight :=
  if t.token.expanded.isSome then none
  else match t.token.kind with
    | .keyword => if Keyword.types.contains t.token.text then some { cls := .typeWord } else none
    | .identifier =>
      match t.definition.bind fun id => symbols[id]? with
      | some s => some (.ofSymbol s t.place)
      | none => some { cls := if t.builtin.isSome then .function else .dataName }
    | .operator => some { cls := .operator }
    | .string | .bitString => some { cls := .string }
    | .number => some { cls := .number }
    | _ => none

structure Span where
  line : Int
  column : Int
  length : Nat
  cls : Nat
  modifiers : Nat
  deriving DecidableEq, Repr

/-- The spans of tokens, in order. Empty tokens have none. -/
def spans (symbols : Array Symbol) (tokens : List LinkedToken) : List Span :=
  let before := fun a b : LinkedToken =>
    decide (a.token.start.line < b.token.start.line ∨
      a.token.start.line = b.token.start.line ∧ a.token.start.column ≤ b.token.start.column)
  (tokens.mergeSort before).filterMap fun t =>
    if t.token.length = 0 then none
    else (ofToken? symbols t).map fun h =>
      ⟨t.token.start.line, t.token.start.column, t.token.length, h.cls.index, h.bits⟩

/-- Spans as numbers, five for each. Its line counts from the line of the span before, and so does
its column if the two are on one line. -/
def encodeFrom (line column : Int) : List Span → List Int
  | [] => []
  | s :: rest =>
    [s.line - line, if s.line = line then s.column - column else s.column, s.length, s.cls,
      s.modifiers] ++ encodeFrom s.line s.column rest

def encode (spans : List Span) : List Int := encodeFrom 0 0 spans

def decodeFrom (line column : Int) : List Int → List Span
  | lines :: columns :: length :: cls :: modifiers :: rest =>
    let s : Span :=
      ⟨line + lines, if lines = 0 then column + columns else columns, length.toNat, cls.toNat,
        modifiers.toNat⟩
    s :: decodeFrom s.line s.column rest
  | _ => []

def decode (data : List Int) : List Span := decodeFrom 0 0 data

end Highlight

def Analysis.semanticTokens (a : Analysis) : List Int :=
  Highlight.encode (Highlight.spans a.symbols a.documentTokens)

end Pearl
