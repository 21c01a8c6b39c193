import Pearl.Event.Names

namespace Pearl.Event

/-- The attributes of a declaration as far as they have been read. -/
structure Item where
  attributes : Attributes
  kind : SymbolKind := .var

/-- An item and what reading a part of it gave. -/
structure ItemReading where
  item : Item
  reading : Reading

/-- An item after a keyword and the group that may follow it. -/
def withGroup (item : Item) (w : Word) (rest : List Word) (brackets : List String)
    (resolve : Bool) : ItemReading :=
  let g := optionalGroup brackets resolve rest
  let (last, left) := afterGroup g w rest
  ⟨item, groupEvents g, last, left⟩

def groupText? (rest : List Word) : Option String :=
  (optionalGroup ["("] false rest).map fun g => Word.render g.inner

/-- The type that a keyword names, with what stands in brackets after it. -/
def typeText (w : Word) (rest : List Word) : String :=
  match groupText? rest with
  | some t => s!"{w.text}({t})"
  | none => w.text

/-- What a word tells about a declaration. -/
inductive AttributeWord where
  | inv
  | ref
  | ident
  | exported
  | initial
  | structured
  | returns
  | builtinType
  | userType
  | bracket
  | other
  deriving DecidableEq, Repr

def attributeWord (w : Word) : AttributeWord :=
  match w.kind with
  | .keyword =>
    if w.text = "INV" then .inv
    else if w.text = "REF" then .ref
    else if w.text = "IDENT" then .ident
    else if w.text = "GLOBAL" then .exported
    else if w.text = "INIT" || w.text = "PRESET" then .initial
    else if w.text = "STRUCT" then .structured
    else if w.text = "RETURNS" then .returns
    else if Keyword.types.contains w.text || unitKeywords.contains w.text then .builtinType
    else .other
  | .identifier => .userType
  | .symbol => if w.text = "(" || w.text = "[" then .bracket else .other
  | _ => .other

/-- Reads one attribute, which `w` starts. -/
def attributeStep (item : Item) (w : Word) (rest : List Word) : ItemReading :=
  match attributeWord w with
  | .inv => ⟨{ item with attributes.isInv := true }, [], w, rest⟩
  | .ref => ⟨{ item with attributes.isRef := true }, [], w, rest⟩
  | .ident => withGroup { item with attributes.isIdent := true } w rest ["("] true
  | .exported => withGroup { item with attributes.isGlobal := true } w rest ["("] false
  | .initial => withGroup { item with attributes.isInit := true } w rest ["("] true
  | .structured =>
    withGroup { item with attributes.typeName := some "STRUCT" } w rest ["[", "("] false
  | .returns =>
    withGroup { item with attributes.returns := (groupText? rest).or item.attributes.returns }
      w rest ["("] false
  | .builtinType =>
    withGroup ⟨{ item.attributes with typeName := some (typeText w rest) },
      (SymbolKind.ofTypeKeyword? w.text).getD .var⟩ w rest ["("] false
  | .userType =>
    ⟨{ item with attributes.typeName := item.attributes.typeName.or (some w.text) }, [], w, rest⟩
  | .bracket => ⟨item, (group true w rest).reading⟩
  | .other => ⟨item, [], w, rest⟩

theorem withGroup_suffix (item : Item) (w : Word) (rest : List Word) (brackets : List String)
    (resolve : Bool) : (withGroup item w rest brackets resolve).reading.rest <:+ rest :=
  afterGroup_suffix brackets resolve w rest

theorem attributeStep_suffix (item : Item) (w : Word) (rest : List Word) :
    (attributeStep item w rest).reading.rest <:+ rest := by
  unfold attributeStep
  cases attributeWord w
  case inv | ref | userType | other => exact List.suffix_refl _
  case bracket => exact group_suffix ..
  all_goals exact withGroup_suffix ..

def endsItem (w : Word) : Bool :=
  w.isSymbol [",", ";"] || startsStatement w && !w.isKeyword unitKeywords

def itemAttributes (item : Item) (prev : Word) (rest : List Word) : ItemReading :=
  match rest with
  | [] => ⟨item, [], prev, []⟩
  | w :: rest =>
    if endsItem w then ⟨item, [], prev, w :: rest⟩
    else
      let step := attributeStep item w rest
      have := (attributeStep_suffix item w rest).length_le
      let more := itemAttributes step.item step.reading.last step.reading.rest
      ⟨more.item, step.reading.events ++ more.reading.events, more.reading.last,
        more.reading.rest⟩
termination_by rest.length
decreasing_by simp only [List.length_cons]; omega

/-- Reads what follows the names of an item: the dimensions of arrays and the attributes. -/
def itemTail (specification : Bool) (prev : Word) (rest : List Word) : ItemReading :=
  let g := optionalGroup ["("] true rest
  let dimensions := match g with
    | some g => commaCount 0 g.inner + 1
    | none => 0
  let start := afterGroup g prev rest
  let tail := itemAttributes ⟨{ dimensions, isSpecification := specification }, .var⟩ start.1 start.2
  ⟨tail.item, groupEvents g ++ tail.reading.events, tail.reading.last, tail.reading.rest⟩

theorem itemAttributes_suffix (item : Item) (prev : Word) (rest : List Word) :
    (itemAttributes item prev rest).reading.rest <:+ rest := by
  fun_induction itemAttributes item prev rest with
  | case1 => exact List.suffix_refl _
  | case2 => exact List.suffix_refl _
  | case3 item prev w rest _ step _ more ih =>
    exact (ih.trans (attributeStep_suffix item w rest)).trans (List.suffix_cons w rest)

theorem itemTail_suffix (specification : Bool) (prev : Word) (rest : List Word) :
    (itemTail specification prev rest).reading.rest <:+ rest :=
  (itemAttributes_suffix ..).trans (afterGroup_suffix ..)

/-- Reads the names at the head of an item and what follows them. -/
def declarationItem (keyword : Word) (specification : Bool) (ns : Names) : Reading :=
  let flaws := if ns.closed then [] else [flawHere .missingListBracket keyword ns.rest]
  let tail := itemTail specification ns.last ns.rest
  let declared := ns.names.map fun n => .declare n.occurrence tail.item.kind tail.item.attributes
  ⟨flaws ++ tail.reading.events ++ declared, tail.reading.last, tail.reading.rest⟩

def nameless (keyword : Word) (events : List Event) (prev : Word) (rest : List Word) : Reading :=
  let left := abandon (.missingDeclaredName keyword.text) keyword prev rest
  ⟨events ++ left.events, left.last, left.rest⟩

/-- The comma at the head of some words and what follows it. -/
def comma? : List Word → Option (Word × List Word)
  | w :: rest => if w.isSymbol [","] then some (w, rest) else none
  | [] => none

theorem comma?_eq_some {rest left : List Word} {w : Word} (h : comma? rest = some (w, left)) :
    rest = w :: left := by
  unfold comma? at h
  split at h
  · split at h
    · cases h; rfl
    · cases h
  · cases h

/-- Reads the items of a declaration, which commas divide, and its end. -/
def declarationItems (keyword : Word) (specification : Bool) (prev : Word) (rest : List Word) :
    Reading :=
  match rest with
  | [] => nameless keyword [] prev []
  | w :: left =>
    match h : names? w left with
    | none => nameless keyword [] prev (w :: left)
    | some ns =>
      if ns.names.isEmpty then
        nameless keyword
          (if ns.closed then [] else [flawHere .missingListBracket keyword ns.rest])
          ns.last ns.rest
      else
        let item := declarationItem keyword specification ns
        let next := match hc : comma? item.rest with
          | some (comma, more) =>
            have : more.length < (w :: left).length := by
              have hs : item.rest <:+ left := (itemTail_suffix ..).trans (names?_suffix h)
              rw [comma?_eq_some hc] at hs
              exact Nat.lt_succ_of_lt hs.length_le
            declarationItems keyword specification comma more
          | none => finishStatement keyword item.last item.rest
        ⟨item.events ++ next.events, next.last, next.rest⟩
termination_by rest.length
decreasing_by exact this

/-- Reads a declaration or specification, whose keyword is `w`. -/
def declaration (w : Word) (rest : List Word) : Reading :=
  declarationItems w (w.isKeyword ["SPC", "SPECIFY"]) w rest

theorem nameless_suffix (keyword : Word) (events : List Event) (prev : Word) (rest : List Word) :
    (nameless keyword events prev rest).rest <:+ rest :=
  synchronize_suffix prev rest

theorem declarationItems_suffix (keyword : Word) (specification : Bool) (prev : Word)
    (rest : List Word) : (declarationItems keyword specification prev rest).rest <:+ rest := by
  fun_induction declarationItems keyword specification prev rest with
  | case1 => exact nameless_suffix ..
  | case2 => exact nameless_suffix ..
  | case3 prev w left ns h he =>
    exact ((nameless_suffix ..).trans (names?_suffix h)).trans (List.suffix_cons w left)
  | case4 prev w left ns h he item next ih =>
    have hi : item.rest <:+ left := (itemTail_suffix ..).trans (names?_suffix h)
    refine List.IsSuffix.trans ?_ (hi.trans (List.suffix_cons w left))
    show next.rest <:+ item.rest
    simp only [next]
    split
    · rename_i comma more hc
      rw [comma?_eq_some hc]
      exact (ih comma more hc).trans (List.suffix_cons comma more)
    · exact finishStatement_suffix ..

theorem declaration_suffix (w : Word) (rest : List Word) :
    (declaration w rest).rest <:+ rest :=
  declarationItems_suffix ..

end Pearl.Event
