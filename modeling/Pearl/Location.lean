import Pearl.Uri

namespace Pearl

/-- A place in a text: its line, its distance from the start of that line, and its distance from
the start of the text, all counted from zero. -/
structure Position where
  line : Nat
  column : Nat
  offset : Nat
  deriving DecidableEq, Repr

def Position.zero : Position := ⟨0, 0, 0⟩

def Position.next (p : Position) (c : Char) : Position :=
  if c = '\n' then ⟨p.line + 1, 0, p.offset + 1⟩ else ⟨p.line, p.column + 1, p.offset + 1⟩

def Position.advance (p : Position) (cs : List Char) : Position := cs.foldl Position.next p

/-- A place in a document, counted from zero. -/
structure Location where
  uri : String
  line : Int
  column : Int
  deriving DecidableEq, Repr

/-- A place in a message, where lines and columns are counted from one. -/
def Location.render (l : Location) : Except UriError String :=
  (Uri.displayName l.uri).map fun name => s!"{name}:{l.line + 1}:{l.column + 1}"

end Pearl
