import Pearl.Lexeme
import Pearl.Macro.Basic

namespace Pearl

/-- What may be wrong in the replacement text of a macro. -/
inductive ExpansionFault where
  | lexical (fault : LexicalFault)
  | tooDeep (name : String)
  | within (name : String) (fault : ExpansionFault)
  deriving DecidableEq, Repr

namespace ExpansionFault

def message : ExpansionFault → String
  | lexical fault => fault.message
  | tooDeep name => s!"expansion of macro '{name}' nested too deeply"
  | within name fault => s!"in expansion of macro '{name}': {fault.message}"

def code : ExpansionFault → String
  | lexical fault => fault.code
  | tooDeep _ => "macro-depth"
  | within _ fault => fault.code

end ExpansionFault

/-- What a replacement text amounts to: its elements without trivia, the part it leads into, and
what is wrong in it. -/
structure Expansion where
  lexemes : List Lexeme
  part : Part
  faults : List ExpansionFault
  deriving DecidableEq, Repr

namespace Expansion

/-- Macros expand within macros up to this depth. -/
def maxDepth : Nat := 32

def after (lexemes : List Lexeme) (faults : List ExpansionFault) (e : Expansion) : Expansion :=
  ⟨lexemes ++ e.lexemes, e.part, faults ++ e.faults⟩

/-- The expansion of a macro, whose faults are told with its name. -/
def inside (name : String) (e : Expansion) : Expansion :=
  { e with faults := e.faults.map (.within name) }

def refused (name : String) (part : Part) : Expansion := ⟨[], part, [.tooDeep name]⟩

/-- The macro an element refers to, if it may be expanded within those named. -/
def reference? (t : MacroTable) (active : List String) (l : Lexeme) : Option Macro :=
  if l.isWord then
    (t.get? (String.ofList l.text)).filter fun m => !active.contains m.name
  else none

/-- The part of the text after an element that is no reference. -/
def partAfter (part : Part) (l : Lexeme) : Part :=
  if l.isWord then part.after (String.ofList l.text) else part

/-- The elements of a replacement text, while the macros named `active` are being expanded. -/
def ofText (t : MacroTable) (active : List String) (part : Part) (cs : List Char) : Expansion :=
  match cs with
  | [] => ⟨[], part, []⟩
  | c :: cs =>
    if Lexeme.isSpace c || c = '\n' then ofText t active part cs
    else
      let l := Lexeme.head part c cs
      have : (Lexeme.tail part c cs).length ≤ cs.length := Lexeme.length_tail_le part c cs
      match reference? t active l with
      | some m =>
        let inner :=
          if active.length < maxDepth then
            (ofText t (m.name :: active) part m.value.toList).inside m.name
          else refused m.name part
        (ofText t active inner.part (Lexeme.tail part c cs)).after inner.lexemes inner.faults
      | none =>
        (ofText t active (partAfter part l) (Lexeme.tail part c cs)).after
          (if l.kind.isTrivia then [] else [l]) (l.fault.toList.map .lexical)
termination_by (maxDepth - active.length, cs.length)
decreasing_by
  · exact Prod.Lex.right _ (by simp)
  · exact Prod.Lex.left _ _ (by simp only [List.length_cons]; omega)
  · exact Prod.Lex.right _ (by simp only [List.length_cons]; omega)
  · exact Prod.Lex.right _ (by simp only [List.length_cons]; omega)

/-- The expansion of a macro that is referred to outside of any macro. -/
def ofMacro (t : MacroTable) (part : Part) (m : Macro) : Expansion :=
  (ofText t [m.name] part m.value.toList).inside m.name

end Expansion

end Pearl
