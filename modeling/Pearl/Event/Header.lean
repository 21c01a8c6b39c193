import Pearl.Event.Names

namespace Pearl.Event

/-- The number of words of the type of a parameter, inside `depth` brackets. -/
def typeSize (depth : Nat) : List Word → Nat
  | [] => 0
  | w :: rest =>
    if w.isSymbol [";"] then 0
    else if depth = 0 && w.isSymbol [",", ")"] then 0
    else if w.isSymbol ["("] then typeSize (depth + 1) rest + 1
    else if w.isSymbol [")"] then typeSize (depth - 1) rest + 1
    else typeSize depth rest + 1

def kindOfType (words : List Word) : SymbolKind :=
  ((words.filter (·.kind = .keyword)).findSome? fun w => SymbolKind.ofTypeKeyword? w.text).getD .var

def parameterEvents (names type : List Word) : List Event :=
  let typeText := Word.render type
  let attributes : Attributes :=
    { typeName := if typeText = "" then none else some typeText
      isParameter := true
      isIdent := type.any (·.isKeyword ["IDENT"])
      isInv := type.any (·.isKeyword ["INV"]) }
  names.map fun n => .parameter n.occurrence (kindOfType type) attributes
    (Text.trimEndString s!"{n.text} {typeText}")

def dropComma (prev : Word) : List Word → Word × List Word
  | [] => (prev, [])
  | w :: rest => if w.isSymbol [","] then (w, rest) else (prev, w :: rest)

/-- Reads the type of parameters, of which `type` has been read, and the comma after it. -/
def parameterType (events : List Event) (names type : List Word) (prev : Word)
    (rest : List Word) : Reading :=
  let n := typeSize 0 rest
  let (last, left) := dropComma (lastOf prev n rest) (rest.drop n)
  ⟨events ++ parameterEvents names (type ++ rest.take n), last, left⟩

/-- Reads the parameters of one type, which `w` starts. -/
def parameterItem (w : Word) (rest : List Word) : Reading :=
  match names? w rest with
  | some ns => parameterType [] ns.names [] ns.last ns.rest
  | none =>
    if w.isSymbol [","] then ⟨[.flaw .missingParameterName w.place], w, rest⟩
    else parameterType [.flaw .missingParameterName w.place] [] [w] w rest

theorem dropComma_suffix (prev : Word) (rest : List Word) :
    (dropComma prev rest).2 <:+ rest := by
  unfold dropComma
  split
  · exact List.suffix_refl _
  · split
    · exact List.suffix_cons _ _
    · exact List.suffix_refl _

theorem parameterType_suffix (events : List Event) (names type : List Word) (prev : Word)
    (rest : List Word) : (parameterType events names type prev rest).rest <:+ rest :=
  (dropComma_suffix ..).trans (List.drop_suffix _ _)

theorem parameterItem_suffix (w : Word) (rest : List Word) :
    (parameterItem w rest).rest <:+ rest := by
  unfold parameterItem
  split
  · rename_i ns h
    exact (parameterType_suffix ..).trans (names?_suffix h)
  · split
    · exact List.suffix_refl _
    · exact parameterType_suffix ..

/-- Reads parameters up to the bracket that closes their list. -/
def parameters (opening prev : Word) (rest : List Word) : Reading :=
  match rest with
  | [] => ⟨[flawHere .missingParameterBracket opening []], prev, []⟩
  | w :: rest =>
    if w.isSymbol [")"] then ⟨[], w, rest⟩
    else if w.isSymbol [";"] then
      ⟨[flawHere .missingParameterBracket opening (w :: rest)], prev, w :: rest⟩
    else
      let item := parameterItem w rest
      have := (parameterItem_suffix w rest).length_le
      let more := parameters opening item.last item.rest
      ⟨item.events ++ more.events, more.last, more.rest⟩
termination_by rest.length
decreasing_by simp only [List.length_cons]; omega

theorem parameters_suffix (opening prev : Word) (rest : List Word) :
    (parameters opening prev rest).rest <:+ rest := by
  fun_induction parameters opening prev rest with
  | case1 => exact List.suffix_refl _
  | case2 => exact List.suffix_cons _ _
  | case3 => exact List.suffix_refl _
  | case4 prev w rest _ _ item _ more ih =>
    exact (ih.trans (parameterItem_suffix w rest)).trans (List.suffix_cons w rest)

/-- What a word does in the head of a procedure or task. -/
inductive HeaderWord where
  | parameters
  | returns
  | exported
  | name
  | other
  deriving DecidableEq, Repr

/-- What a word does in the head of a procedure or task; none if it ends the head. -/
def headerWord? (w : Word) : Option HeaderWord :=
  match w.kind with
  | .symbol => if w.text = "(" then some .parameters else some .other
  | .keyword =>
    if w.text = "RETURNS" then some .returns
    else if w.text = "GLOBAL" then some .exported
    else if headerKeywords.contains w.text then some .other
    else if startsStatement w then none
    else some .other
  | .identifier => some .name
  | _ => some .other

/-- The group that may follow a word of the head, with events before and after its own. -/
def headerGroup (before : List Event) (after : Group → List Event) (w : Word)
    (rest : List Word) : Reading :=
  let g := optionalGroup ["("] false rest
  let (last, left) := afterGroup g w rest
  ⟨before ++ groupEvents g ++ (g.map after).getD [], last, left⟩

/-- Reads a part of the head of a procedure or task, which `w` starts. -/
def headerStep (prev w : Word) (rest : List Word) : HeaderWord → Reading
  | .parameters => parameters w w rest
  | .returns => headerGroup [] (fun g => [.result (Word.render g.inner)]) w rest
  | .exported => headerGroup [.exported] (fun _ => []) w rest
  | .name => ⟨reference (some prev) w false rest, w, rest⟩
  | .other => ⟨[], w, rest⟩

theorem headerStep_suffix (prev w : Word) (rest : List Word) (k : HeaderWord) :
    (headerStep prev w rest k).rest <:+ rest := by
  cases k
  · exact parameters_suffix ..
  · exact afterGroup_suffix ..
  · exact afterGroup_suffix ..
  · exact List.suffix_refl _
  · exact List.suffix_refl _

/-- Reads the head of a procedure or task up to its semicolon. -/
def header (keyword prev : Word) (rest : List Word) : Reading :=
  match rest with
  | [] => ⟨[flawHere (.missingHeaderSemicolon keyword.text) keyword []], prev, []⟩
  | w :: rest =>
    if w.isSymbol [";"] then ⟨[], w, rest⟩
    else match headerWord? w with
      | none =>
        ⟨[flawHere (.missingHeaderSemicolon keyword.text) keyword (w :: rest)], prev, w :: rest⟩
      | some k =>
        let step := headerStep prev w rest k
        have := (headerStep_suffix prev w rest k).length_le
        let more := header keyword step.last step.rest
        ⟨step.events ++ more.events, more.last, more.rest⟩
termination_by rest.length
decreasing_by simp only [List.length_cons]; omega

theorem header_suffix (keyword prev : Word) (rest : List Word) :
    (header keyword prev rest).rest <:+ rest := by
  fun_induction header keyword prev rest with
  | case1 => exact List.suffix_refl _
  | case2 => exact List.suffix_cons _ _
  | case3 => exact List.suffix_refl _
  | case4 prev w rest _ k _ step _ more ih =>
    exact (ih.trans (headerStep_suffix prev w rest k)).trans (List.suffix_cons w rest)

/-- Reads a procedure or task, whose keyword and name have been read, up to the end of its
head. -/
def unitHead (keyword name prev : Word) (rest : List Word) : Reading :=
  let h := header keyword prev rest
  ⟨.openUnit (keyword.text = "TASK") name.occurrence :: h.events, h.last, h.rest⟩

theorem unitHead_suffix (keyword name prev : Word) (rest : List Word) :
    (unitHead keyword name prev rest).rest <:+ rest :=
  header_suffix ..

end Pearl.Event
