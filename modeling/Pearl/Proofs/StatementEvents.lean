import Pearl.Proofs.EventNames

namespace Pearl.Event

/-! ### Kinds of events -/

/-- A flaw or a reference, which any part of a statement may bring. -/
def isPlain : Event → Bool
  | flaw .. | refer .. => true
  | _ => false

/-- What stands in a declaration: beside plain events, names that are declared. None of them is a
label. -/
def inDeclaration : Event → Bool
  | declare _ kind _ => kind ≠ .label
  | e => e.isPlain

/-- What stands in the head of a procedure or task behind its name. No parameter is a label. -/
def inHead : Event → Bool
  | parameter _ kind _ _ => kind ≠ .label
  | result _ | exported => true
  | e => e.isPlain

def closing? : Event → Option Nat
  | close _ place => some place
  | _ => none

/-- The event declares a label without being one. -/
def declaresLabel : Event → Bool
  | declare _ kind _ | parameter _ kind _ _ => kind = .label
  | _ => false

/-- The event closes no block, and what it declares is no label, unless it is the event of one. -/
def isInner (e : Event) : Bool := e.closing?.isNone && !e.declaresLabel

theorem inDeclaration_of_isPlain (e : Event) (h : e.isPlain = true) : e.inDeclaration = true := by
  cases e with
  | declare => cases h
  | _ => exact h

theorem inHead_of_isPlain (e : Event) (h : e.isPlain = true) : e.inHead = true := by
  cases e with
  | flaw | refer => rfl
  | _ => cases h

theorem isInner_of_inDeclaration (e : Event) (h : e.inDeclaration = true) : e.isInner = true := by
  cases e with
  | declare => simpa [isInner, closing?, declaresLabel, inDeclaration] using h
  | flaw | refer => rfl
  | _ => cases h

theorem isInner_of_inHead (e : Event) (h : e.inHead = true) : e.isInner = true := by
  cases e with
  | parameter => simpa [isInner, closing?, declaresLabel, inHead] using h
  | flaw | refer | result | exported => rfl
  | _ => cases h

/-- All events are of a kind. -/
structure Only (p : Event → Bool) (events : List Event) : Prop where
  of_mem : ∀ e ∈ events, p e = true

section Only

variable {p q : Event → Bool} {events events' : List Event}

theorem only_nil : Only p [] := by
  constructor
  intro e he
  cases he

theorem only_singleton {e : Event} (he : p e = true) : Only p [e] := by
  constructor
  intro e' he'
  rw [List.mem_singleton.mp he']
  exact he

theorem Only.append (h : Only p events) (h' : Only p events') : Only p (events ++ events') := by
  constructor
  intro e he
  exact (List.mem_append.mp he).elim (h.of_mem e) (h'.of_mem e)

theorem Only.left (h : Only p (events ++ events')) : Only p events := by
  constructor
  intro e he
  exact h.of_mem e (List.mem_append_left _ he)

theorem Only.mono (h : Only p events) (hpq : ∀ e, p e = true → q e = true) : Only q events := by
  constructor
  intro e he
  exact hpq e (h.of_mem e he)

theorem only_map {α : Type} {f : α → Event} (hf : ∀ x, p (f x) = true) (xs : List α) :
    Only p (xs.map f) := by
  constructor
  intro e he
  obtain ⟨x, -, rfl⟩ := List.mem_map.mp he
  exact hf x

end Only

variable {keyword prev w : Word} {rest : List Word} {events : List Event}

/-! ### Clauses -/

theorem abandon_only (f : SyntaxFlaw) (fallback prev : Word) (rest : List Word) :
    Only isPlain (abandon f fallback prev rest).events := only_singleton rfl

theorem finishStatement_only (keyword prev : Word) (rest : List Word) :
    Only isPlain (finishStatement keyword prev rest).events := by
  unfold finishStatement
  split
  · split
    · exact only_nil
    · exact abandon_only ..
  · exact abandon_only ..

theorem reference_only (prev : Option Word) (w : Word) (write : Bool) (rest : List Word) :
    Only isPlain (reference prev w write rest) := by
  unfold reference
  split
  · exact only_nil
  · exact only_singleton rfl

theorem references_only (prev : Word) (n : Nat) (rest : List Word) :
    Only isPlain (references prev n rest) := by
  fun_induction references prev n rest with
  | case1 => exact only_nil
  | case2 => exact only_nil
  | case3 prev n w rest ih =>
    refine Only.append ?_ ih
    split
    · exact reference_only ..
    · exact only_nil

theorem groupEnd_only (opening last : Word) (rest : List Word) :
    Only isPlain (groupEnd opening last rest).events := by
  unfold groupEnd
  split
  · split
    · exact only_nil
    · exact only_singleton rfl
  · exact only_singleton rfl

theorem group_only (resolve : Bool) (opening : Word) (rest : List Word) :
    Only isPlain (group resolve opening rest).reading.events := by
  refine Only.append ?_ (groupEnd_only ..)
  split
  · exact references_only ..
  · exact only_nil

theorem optionalGroup_only (brackets : List String) (resolve : Bool) (rest : List Word) :
    Only isPlain (groupEvents (optionalGroup brackets resolve rest)) := by
  unfold optionalGroup
  split
  · split
    · exact group_only ..
    · exact only_nil
  · exact only_nil

/-! ### Declarations -/

theorem attributeStep_only (item : Item) (w : Word) (rest : List Word) :
    Only isPlain (attributeStep item w rest).reading.events := by
  unfold attributeStep
  cases attributeWord w
  case inv | ref | userType | other => exact only_nil
  case bracket => exact group_only ..
  all_goals exact optionalGroup_only ..

theorem ofTypeKeyword?_ne_label (text : String) : SymbolKind.ofTypeKeyword? text ≠ some .label := by
  unfold SymbolKind.ofTypeKeyword?
  split <;> simp

theorem getD_ofTypeKeyword?_ne_label (text : String) :
    (SymbolKind.ofTypeKeyword? text).getD .var ≠ .label := by
  have hne := ofTypeKeyword?_ne_label text
  cases h : SymbolKind.ofTypeKeyword? text with
  | none => simp
  | some kind => simpa [h] using hne

theorem attributeStep_kind {item : Item} (hkind : item.kind ≠ .label) (w : Word)
    (rest : List Word) : (attributeStep item w rest).item.kind ≠ .label := by
  unfold attributeStep
  cases attributeWord w
  case builtinType => exact getD_ofTypeKeyword?_ne_label w.text
  all_goals exact hkind

theorem itemAttributes_only (item : Item) (prev : Word) (rest : List Word) :
    Only isPlain (itemAttributes item prev rest).reading.events := by
  fun_induction itemAttributes item prev rest with
  | case1 => exact only_nil
  | case2 => exact only_nil
  | case3 item prev w rest _ step _ more ih => exact (attributeStep_only ..).append ih

theorem itemAttributes_kind {item : Item} (hkind : item.kind ≠ .label) (prev : Word)
    (rest : List Word) : (itemAttributes item prev rest).item.kind ≠ .label := by
  fun_induction itemAttributes item prev rest with
  | case1 => exact hkind
  | case2 => exact hkind
  | case3 item prev w rest _ step _ more ih => exact ih (attributeStep_kind hkind w rest)

theorem declarationItem_only (keyword : Word) (specification : Bool) (ns : Names) :
    Only inDeclaration (declarationItem keyword specification ns).events := by
  have hplain : Only isPlain ((if ns.closed then []
      else [flawHere .missingListBracket keyword ns.rest]) ++
      (itemTail specification ns.last ns.rest).reading.events) := by
    refine Only.append ?_ ((optionalGroup_only ..).append (itemAttributes_only ..))
    split
    · exact only_nil
    · exact only_singleton rfl
  refine (hplain.mono inDeclaration_of_isPlain).append (only_map ?_ _)
  intro name
  exact decide_eq_true (itemAttributes_kind (by simp) _ _)

theorem nameless_only (keyword prev : Word) (rest : List Word) (h : Only isPlain events) :
    Only isPlain (nameless keyword events prev rest).events :=
  h.append (abandon_only ..)

theorem declarationItems_only (keyword : Word) (specification : Bool) (prev : Word)
    (rest : List Word) :
    Only inDeclaration (declarationItems keyword specification prev rest).events := by
  fun_induction declarationItems keyword specification prev rest with
  | case1 => exact (nameless_only _ _ _ only_nil).mono inDeclaration_of_isPlain
  | case2 => exact (nameless_only _ _ _ only_nil).mono inDeclaration_of_isPlain
  | case3 prev w left ns h _ =>
    refine (nameless_only _ _ _ ?_).mono inDeclaration_of_isPlain
    split
    · exact only_nil
    · exact only_singleton rfl
  | case4 prev w left ns h _ item next ih =>
    refine (declarationItem_only ..).append ?_
    simp only [next]
    split
    · rename_i comma more hc
      exact ih comma more hc
    · exact (finishStatement_only ..).mono inDeclaration_of_isPlain

/-! ### Heads of procedures and tasks -/

theorem kindOfType_ne_label (words : List Word) : kindOfType words ≠ .label := by
  unfold kindOfType
  cases h : (words.filter (·.kind = .keyword)).findSome? fun w =>
      SymbolKind.ofTypeKeyword? w.text with
  | none => simp
  | some kind =>
    obtain ⟨-, v, -, -, hv, -⟩ := List.findSome?_eq_some_iff.mp h
    rintro rfl
    exact ofTypeKeyword?_ne_label v.text hv

theorem parameterType_only (names type : List Word) (prev : Word) (rest : List Word)
    (h : Only isPlain events) :
    Only inHead (parameterType events names type prev rest).events := by
  refine (h.mono inHead_of_isPlain).append (only_map ?_ _)
  intro name
  exact decide_eq_true (kindOfType_ne_label _)

theorem parameterItem_only (w : Word) (rest : List Word) :
    Only inHead (parameterItem w rest).events := by
  unfold parameterItem
  split
  · exact parameterType_only _ _ _ _ only_nil
  · split
    · exact only_singleton rfl
    · exact parameterType_only _ _ _ _ (only_singleton rfl)

theorem parameters_only (opening prev : Word) (rest : List Word) :
    Only inHead (parameters opening prev rest).events := by
  fun_induction parameters opening prev rest with
  | case1 => exact only_singleton rfl
  | case2 => exact only_nil
  | case3 => exact only_singleton rfl
  | case4 prev w rest _ _ item _ more ih => exact (parameterItem_only ..).append ih

theorem headerGroup_only {before : List Event} {after : Group → List Event} (w : Word)
    (rest : List Word) (hbefore : Only inHead before) (hafter : ∀ g, Only inHead (after g)) :
    Only inHead (headerGroup before after w rest).events := by
  have hgroup := (optionalGroup_only ["("] false rest).mono inHead_of_isPlain
  refine (hbefore.append hgroup).append ?_
  cases optionalGroup ["("] false rest with
  | none => exact only_nil
  | some g => exact hafter g

theorem headerStep_only (prev w : Word) (rest : List Word) (k : HeaderWord) :
    Only inHead (headerStep prev w rest k).events := by
  cases k with
  | parameters => exact parameters_only ..
  | returns => exact headerGroup_only _ _ only_nil fun g => only_singleton rfl
  | exported => exact headerGroup_only _ _ (only_singleton rfl) fun g => only_nil
  | name => exact (reference_only ..).mono inHead_of_isPlain
  | other => exact only_nil

theorem header_only (keyword prev : Word) (rest : List Word) :
    Only inHead (header keyword prev rest).events := by
  fun_induction header keyword prev rest with
  | case1 => exact only_singleton rfl
  | case2 => exact only_nil
  | case3 => exact only_singleton rfl
  | case4 prev w rest _ k _ step _ more ih => exact (headerStep_only ..).append ih

/-! ### Statements -/

theorem moduleBracket_only (keyword last : Word) (rest : List Word) :
    Only isPlain (moduleBracket keyword last rest).events := by
  unfold moduleBracket
  split
  · split
    · exact only_nil
    · exact only_singleton rfl
  · exact only_singleton rfl

theorem moduleName_only (keyword : Word) (rest : List Word) :
    Only isPlain (moduleName keyword rest).2.events := by
  unfold moduleName
  split
  · split
    · unfold bracketedModuleName
      split
      · split <;> exact moduleBracket_only ..
      · exact moduleBracket_only ..
    · split <;> exact only_nil
  · exact only_nil

/-- What a statement tells that is neither a declaration nor a head, and opens and closes no
block. -/
def isAction : Event → Bool
  | operate .. | jump _ => true
  | e => e.isPlain

theorem isAction_of_isPlain (e : Event) (h : e.isPlain = true) : e.isAction = true := by
  cases e with
  | flaw | refer => rfl
  | _ => cases h

theorem isInner_of_isAction (e : Event) (h : e.isAction = true) : e.isInner = true := by
  cases e with
  | flaw | refer | operate | jump => rfl
  | _ => cases h

theorem thenFinish_only (keyword prev : Word) (rest : List Word) (h : Only isAction events) :
    Only isAction (thenFinish keyword events prev rest).events :=
  h.append ((finishStatement_only ..).mono isAction_of_isPlain)

theorem callStatement_only (keyword : Word) (rest : List Word) :
    Only isAction (callStatement keyword rest).events := by
  unfold callStatement
  split
  · split
    · exact only_singleton rfl
    · exact (abandon_only ..).mono isAction_of_isPlain
  · exact (abandon_only ..).mono isAction_of_isPlain

theorem jumpStatement_only (keyword : Word) (rest : List Word) :
    Only isAction (jumpStatement keyword rest).events := by
  unfold jumpStatement
  split
  · split
    · exact thenFinish_only _ _ _ (only_singleton rfl)
    · exact (abandon_only ..).mono isAction_of_isPlain
  · exact (abandon_only ..).mono isAction_of_isPlain

theorem taskClause_only (keyword : Word) (priority : Bool) (prev : Word) (n : Nat)
    (rest : List Word) : Only isPlain (taskClause keyword priority prev n rest) := by
  fun_induction taskClause keyword priority prev n rest with
  | case1 => exact only_nil
  | case2 => exact only_nil
  | case3 prev n w rest ih =>
    refine Only.append ?_ ih
    split
    · split
      · exact only_nil
      · exact only_singleton rfl
    · split
      · exact reference_only ..
      · exact only_nil

theorem taskName_only (keyword : Word) (rule : TaskName) (rest : List Word) :
    Only isAction (taskName keyword rule rest).events := by
  have habsent : Only isAction (if rule = .mandatory then
      [flawHere (.missingTaskName keyword.text) keyword rest] else []) := by
    split
    · exact only_singleton rfl
    · exact only_nil
  unfold taskName
  dsimp only
  cases rest with
  | nil => exact habsent
  | cons w left =>
    dsimp only
    split
    · split <;> exact only_singleton rfl
    · exact habsent

theorem objectNames_only (keyword : Word) (kind : SymbolKind) (w : Word) (rest : List Word) :
    Only isAction (objectNames keyword kind w rest).events := by
  fun_induction objectNames keyword kind w rest with
  | case1 w c n rest _ _ more ih => exact (only_singleton rfl).append ih
  | _ => exact only_singleton rfl

theorem objectStatement_only (keyword : Word) (kind : SymbolKind) (rest : List Word) :
    Only isAction (objectStatement keyword kind rest).events := by
  unfold objectStatement
  split
  · split
    · exact thenFinish_only _ _ _ (objectNames_only ..)
    · exact (abandon_only ..).mono isAction_of_isPlain
  · exact (abandon_only ..).mono isAction_of_isPlain

theorem operandEvents_only (keyword : Word) (words : List Word) :
    Only isAction (operandEvents keyword words) := by
  fun_induction operandEvents keyword words with
  | case1 => exact only_singleton rfl
  | case2 w => exact only_singleton rfl
  | case3 w words _ ih => exact (only_singleton rfl).append ih

/-- What may be read from the word `w` on: at most one event tells what kind of statement it is,
and the others are of the kinds that go with it. -/
inductive Composed (w : Word) : List Event → Prop where
  | declaration {events : List Event} (h : Only inDeclaration events) : Composed w events
  | action {events : List Event} (h : Only isAction events) : Composed w events
  | label (name : Occurrence) : Composed w [.label name]
  | loopVariable (name : Occurrence) : Composed w [.loopVariable name]
  | moduleHead {front : List Event} (h : Only isPlain front) (block : Block)
      (name : Option Occurrence) : Composed w (front ++ [.openModule block w.place name])
  | unitHead {back : List Event} (isTask : Bool) (name : Occurrence) (h : Only inHead back) :
      Composed w (.openUnit isTask name :: back)
  | opening (block : Block) : Composed w [.openBlock block w.place]
  | otherwise : Composed w [.otherwise w.place]
  | closing (hkeyword : w.kind = .keyword) (closer : Closer) : Composed w [.close closer w.place]

theorem moduleHead_composed (block : Block) (keyword : Word) (rest : List Word) :
    Composed keyword (moduleHead block keyword rest).events := by
  have hflaws : Only isPlain (if (moduleName keyword rest).1.isSome then []
      else [flawHere (.missingModuleName keyword.text) keyword
        (moduleName keyword rest).2.rest]) := by
    split
    · exact only_nil
    · exact only_singleton rfl
  exact .moduleHead ((moduleName_only ..).append hflaws) block _

theorem unitHead_composed (w keyword name prev : Word) (rest : List Word) :
    Composed w (unitHead keyword name prev rest).events := .unitHead _ _ (header_only ..)

theorem bareUnit_composed (keyword : Word) (rest : List Word) :
    Composed keyword (bareUnit keyword rest).events := by
  unfold bareUnit
  split
  · split
    · split <;> exact unitHead_composed ..
    · exact .action ((abandon_only ..).mono isAction_of_isPlain)
  · exact .action ((abandon_only ..).mono isAction_of_isPlain)

theorem loopControl_composed (keyword : Word) (rest : List Word) :
    Composed keyword (loopControl keyword rest).events := by
  unfold loopControl
  split
  · split
    · exact .loopVariable _
    · exact .action only_nil
  · exact .action only_nil

theorem keywordStatement_composed (hkeyword : w.kind = .keyword) (rest : List Word)
    (head : StatementHead) : Composed w (keywordStatement w rest head).events := by
  cases head with
  | moduleHead block => exact moduleHead_composed ..
  | unitHead => exact bareUnit_composed ..
  | declaration => exact .declaration (declarationItems_only ..)
  | blockOpener block => exact .opening block
  | otherwise => exact .otherwise
  | loopControl => exact loopControl_composed ..
  | alternative => exact .action ((optionalGroup_only ..).mono isAction_of_isPlain)
  | blockCloser closer => exact .closing hkeyword closer
  | call => exact .action (callStatement_only ..)
  | jump => exact .action (jumpStatement_only ..)
  | semaphoreArray => exact .action (thenFinish_only _ _ _ (operandEvents_only ..))
  | taskControl rule priority =>
    refine .action (thenFinish_only _ _ _ ((taskName_only ..).append ?_))
    exact (taskClause_only ..).mono isAction_of_isPlain
  | objects kind => exact .action (objectStatement_only ..)
  | transfer =>
    exact .action (thenFinish_only _ _ _ ((references_only ..).mono isAction_of_isPlain))
  | systemPart | typeDefinition | other => exact .action only_nil

theorem nameStatement_composed (prev : Option Word) (start : Bool) (w : Word) (rest : List Word) :
    Composed w (nameStatement prev start w rest).1.events := by
  unfold nameStatement
  split
  · exact unitHead_composed ..
  · split
    · split
      · exact .label _
      · exact .action ((reference_only ..).mono isAction_of_isPlain)
    · exact .action ((reference_only ..).mono isAction_of_isPlain)

theorem statement_composed (prev : Option Word) (start : Bool) (w : Word) (rest : List Word) :
    Composed w (statement prev start w rest).1.events := by
  unfold statement
  split
  · rename_i hkeyword
    exact keywordStatement_composed hkeyword ..
  · exact nameStatement_composed ..
  · exact .action only_nil

/-! ### Closers and labels -/

theorem Composed.only_or_closing (h : Composed w events) :
    Only isInner events ∨ w.kind = .keyword ∧ ∃ closer, events = [.close closer w.place] := by
  cases h with
  | declaration h => exact Or.inl (h.mono isInner_of_inDeclaration)
  | action h => exact Or.inl (h.mono isInner_of_isAction)
  | moduleHead h =>
    refine Or.inl (Only.append (h.mono fun e he => ?_) (only_singleton rfl))
    exact isInner_of_isAction e (isAction_of_isPlain e he)
  | unitHead isTask name h =>
    exact Or.inl (Only.append (only_singleton rfl) (h.mono isInner_of_inHead))
  | label | loopVariable | opening | otherwise => exact Or.inl (only_singleton rfl)
  | closing hkeyword closer => exact Or.inr ⟨hkeyword, closer, rfl⟩

theorem Composed.closings (h : Composed w events) :
    (events.filterMap closing?).Sublist ((([w]).filter (·.kind = .keyword)).map (·.place)) := by
  rcases h.only_or_closing with h | ⟨hkeyword, closer, rfl⟩
  · have hnone : events.filterMap closing? = [] := by
      rw [List.filterMap_eq_nil_iff]
      intro e he
      exact Option.isNone_iff_eq_none.mp (Bool.and_eq_true_iff.mp (h.of_mem e he)).1
    rw [hnone]
    exact List.nil_sublist _
  · simp [closing?, hkeyword]

/-- Blocks are closed at keywords, each of which closes at most one. -/
theorem eventsAfter_closings (prev : Option Word) (start : Bool) (words : List Word) :
    ((eventsAfter prev start words).filterMap closing?).Sublist
      ((words.filter (·.kind = .keyword)).map (·.place)) := by
  fun_induction eventsAfter prev start words with
  | case1 => exact .slnil
  | case2 prev start w rest r _ ih =>
    have hleft : r.1.rest.Sublist rest := (statement_suffix prev start w rest).sublist
    have hfirst := (statement_composed prev start w rest).closings
    rw [List.filterMap_append, ← List.singleton_append, List.filter_append, List.map_append]
    exact hfirst.append (ih.trans ((hleft.filter _).map _))

/-- Only the event of a label declares one. -/
theorem declaresLabel_of_mem {prev : Option Word} {start : Bool} {words : List Word} {e : Event}
    (he : e ∈ eventsAfter prev start words) : e.declaresLabel = false := by
  fun_induction eventsAfter prev start words with
  | case1 => cases he
  | case2 prev start w rest r _ ih =>
    rcases List.mem_append.mp he with he | he
    · rcases (statement_composed prev start w rest).only_or_closing with h | ⟨-, closer, h⟩
      · simpa using (Bool.and_eq_true_iff.mp (h.of_mem e he)).2
      · rw [show r.1.events = _ from h] at he
        rw [List.mem_singleton.mp he]
        rfl
    · exact ih he

end Pearl.Event
