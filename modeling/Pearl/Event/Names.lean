import Pearl.Event.Clause

namespace Pearl.Event

/-- The names of a declaration: one, or several in brackets that are `closed` or not. -/
structure Names where
  names : List Word
  closed : Bool
  last : Word
  rest : List Word

/-- The number of words before the end of a list of names. -/
def namesSize : List Word → Nat
  | [] => 0
  | w :: rest => if w.isIdentifier || w.isSymbol [","] then namesSize rest + 1 else 0

/-- The end of a list of names, before which `last` stands. -/
def namesEnd (names : List Word) (last : Word) (rest : List Word) : Names :=
  match rest with
  | w :: left => if w.isSymbol [")"] then ⟨names, true, w, left⟩ else ⟨names, false, last, rest⟩
  | [] => ⟨names, false, last, rest⟩

/-- Reads a list of names whose opening bracket has been read. -/
def bracketedNames (opening : Word) (rest : List Word) : Names :=
  let n := namesSize rest
  namesEnd ((rest.take n).filter (·.isIdentifier)) (lastOf opening n rest) (rest.drop n)

/-- Reads the names that `w` starts, if it does. -/
def names? (w : Word) (rest : List Word) : Option Names :=
  if w.isSymbol ["("] then some (bracketedNames w rest)
  else if w.isIdentifier then some ⟨[w], true, w, rest⟩
  else none

theorem namesEnd_suffix (names : List Word) (last : Word) (rest : List Word) :
    (namesEnd names last rest).rest <:+ rest := by
  unfold namesEnd
  split
  · split
    · exact List.suffix_cons _ _
    · exact List.suffix_refl _
  · exact List.suffix_refl _

theorem bracketedNames_suffix (opening : Word) (rest : List Word) :
    (bracketedNames opening rest).rest <:+ rest :=
  (namesEnd_suffix ..).trans (List.drop_suffix _ _)

theorem names?_suffix {w : Word} {rest : List Word} {ns : Names} (h : names? w rest = some ns) :
    ns.rest <:+ rest := by
  unfold names? at h
  split at h
  · cases h; exact bracketedNames_suffix w rest
  · split at h
    · cases h; exact List.suffix_refl _
    · cases h

end Pearl.Event
