import Pearl.Keyword
import Pearl.Macro.Basic
import Pearl.Text.Quoted

namespace Pearl

/-- A lexical element. Tokens of an included file carry the URI and the position they have there.
Tokens of a replacement text stand at the reference to the macro and carry the macro, and so does
the reference itself. -/
structure Token where
  kind : TokenKind
  text : String
  uri : String
  start : Position
  length : Nat
  expanded : Option Macro := none
  deriving DecidableEq, Repr

/-- An offset lies within `length` characters from `start` on; an empty span holds its start. -/
def spanCovers (start length place : Int) : Bool :=
  start ≤ place && place < start + max length 1

namespace Token

def location (t : Token) : Location := ⟨t.uri, t.start.line, t.start.column⟩

/-- The token is written on the document's own line: it is no part of a replacement text. -/
def isOwn (t : Token) : Bool := t.expanded.isNone || t.kind = .reference

def covers (t : Token) (offset : Int) : Bool := spanCovers t.start.offset t.length offset

def summary (t : Token) : String :=
  s!"Token({t.kind.name}, {Text.quoteString t.text}, {t.start.line}:{t.start.column})"

end Token

end Pearl
