import Pearl.Text.Word
import Pearl.Token.Basic

namespace Pearl

/-- A token as the analysis of a program sees it: its kind, its text and its place among the
tokens that count. -/
structure Word where
  kind : TokenKind
  text : String
  place : Nat
  deriving DecidableEq, Repr

namespace Word

def significant (tokens : List Token) : List Token := tokens.filter (·.kind.isSignificant)

def ofTokens (tokens : List Token) : List Word :=
  tokens.zipIdx.map fun t => ⟨t.1.kind, t.1.text, t.2⟩

/-- The word is one of these keywords. -/
def isKeyword (w : Word) (spellings : List String) : Bool :=
  w.kind = .keyword && spellings.contains w.text

def isSymbol (w : Word) (spellings : List String) : Bool :=
  w.kind = .symbol && spellings.contains w.text

def isIdentifier (w : Word) : Bool := w.kind = .identifier

def isOperator (w : Word) (spelling : String) : Bool := w.kind = .operator && w.text = spelling

/-- Texts in a row, with a blank only between two that would run into each other. `last` is the
character before them. -/
def joinAfter (last : Option Char) : List (List Char) → List Char
  | [] => []
  | cs :: rest =>
    (if last.any Text.isAlphanumeric && cs.head?.any Text.isAlphanumeric then [' '] else []) ++
      cs ++ joinAfter (cs.getLast?.or last) rest

def joinTexts (texts : List String) : String :=
  String.ofList (joinAfter none (texts.map String.toList))

def render (words : List Word) : String := joinTexts (words.map (·.text))

end Word

end Pearl
