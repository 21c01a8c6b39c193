import Pearl.Scan.Step

namespace Pearl.Scan

/-- Reads a text from a state on. At the start of a line a `#` makes a directive, and a line that
does not count is taken as a whole; everywhere else one element is taken after the other. -/
def run (σ : Setting) (src : Source) (nested : Option Reader) (s : State) (cs : List Char) :
    State :=
  match cs with
  | [] => s
  | c :: cs =>
    if c = '\n' then run σ src nested s.newline cs
    else if Lexeme.isSpace c then run σ src nested (s.space c) cs
    else if s.lineStart && σ.directives && c = '#' then
      have := (List.dropWhile_sublist (l := cs) (· ≠ '\n')).length_le
      run σ src nested (s.directiveLine σ src nested (c :: (Text.splitLine cs).1))
        (Text.splitLine cs).2
    else if s.lineStart && !s.conditions.active then
      have := (List.dropWhile_sublist (l := cs) (· ≠ '\n')).length_le
      run σ src nested (s.inactiveLine src.uri (c :: (Text.splitLine cs).1)) (Text.splitLine cs).2
    else
      have := Lexeme.length_tail_le s.part c cs
      run σ src nested (s.element src.uri (Lexeme.head s.part c cs)) (Lexeme.tail s.part c cs)
termination_by cs.length
decreasing_by
  all_goals simp only [List.length_cons, Text.splitLine] at *
  all_goals omega

/-- Reads a whole text, with at most `levels` files included one within the other. -/
def text (σ : Setting) : Nat → Reader
  | 0, src, cs, s => (run σ src none s cs).finish src.uri
  | n + 1, src, cs, s => (run σ src (some (text σ n)) s cs).finish src.uri

/-- The levels of inclusion that the options admit. -/
def levels (o : Options) : Nat := o.maxIncludeDepth.toNat

def initial (σ : Setting) (cache : IncludeCache) (part : Part) : State :=
  { macros := .ofPredefined σ.options.predefined, cache, part }

def document (σ : Setting) (src : Source) (cache : IncludeCache) (part : Part) (cs : List Char) :
    State :=
  text σ (levels σ.options) src cs (initial σ cache part)

end Pearl.Scan
