import Pearl.Macro.Basic
import Pearl.Text.Word

namespace Pearl.MacroTable

/-- What becomes of one run of word characters: a macro name that starts with an ASCII letter is
replaced, any other run stays. -/
def replaceWord (t : MacroTable) (word : List Char) : List Char :=
  match word with
  | c :: _ =>
    if c.isAlpha then
      match t.get? (String.ofList word) with
      | some m => m.value.toList
      | none => word
    else word
  | [] => []

def replaceOnce (t : MacroTable) (cs : List Char) : List Char :=
  match cs with
  | [] => []
  | c :: rest =>
    if Text.isWordChar c then
      t.replaceWord (c :: rest.takeWhile Text.isWordChar) ++
        t.replaceOnce (rest.dropWhile Text.isWordChar)
    else c :: t.replaceOnce rest
termination_by cs.length
decreasing_by
  · simp only [List.length_cons]
    exact Nat.lt_succ_of_le (List.dropWhile_sublist _).length_le
  · simp

def isReplaced (t : MacroTable) (word : List Char) : Bool :=
  word.head?.any Char.isAlpha && t.contains (String.ofList word)

/-- A text holds a macro name that gets replaced. -/
def occursIn (t : MacroTable) (cs : List Char) : Bool :=
  match cs with
  | [] => false
  | c :: rest =>
    if Text.isWordChar c then
      t.isReplaced (c :: rest.takeWhile Text.isWordChar) ||
        t.occursIn (rest.dropWhile Text.isWordChar)
    else t.occursIn rest
termination_by cs.length
decreasing_by
  · simp only [List.length_cons]
    exact Nat.lt_succ_of_le (List.dropWhile_sublist _).length_le
  · simp

/-- Replacements are themselves searched for macro names, this many times at most. -/
def maxPasses : Nat := 16

/-- Replaces macro names, again and again, until there are none or the passes are used up. -/
def replacePasses (t : MacroTable) : Nat → List Char → List Char
  | 0, cs => cs
  | n + 1, cs => if t.occursIn cs then t.replacePasses n (t.replaceOnce cs) else cs

def substitute (t : MacroTable) (text : String) : String :=
  String.ofList (t.replacePasses maxPasses text.toList)

end Pearl.MacroTable
