import Pearl.Proofs.EventNames

namespace Pearl.Event

/-! ### The mark of an event -/

/-- The place that an event is about, apart from that of its name. -/
def mark? : Event → Option Nat
  | flaw _ place | openModule _ place _ | openBlock _ place | otherwise place => some place
  | close _ place => some place
  | _ => none

/-- The marks of the events are places of words among `all`. -/
structure Marks (all : List Word) (events : List Event) : Prop where
  exists_word : ∀ e ∈ events, ∀ place ∈ e.mark?, ∃ w ∈ all, w.place = place

variable {all rest : List Word} {events events' : List Event} {keyword w : Word}

theorem marks_nil : Marks all [] := by
  constructor
  intro e he
  cases he

theorem Marks.append (h : Marks all events) (h' : Marks all events') :
    Marks all (events ++ events') := by
  constructor
  intro e he
  exact (List.mem_append.mp he).elim (h.exists_word e) (h'.exists_word e)

theorem marks_of_unmarked (h : ∀ e ∈ events, e.mark? = none) : Marks all events := by
  constructor
  intro e he place hplace
  rw [h e he] at hplace
  cases hplace

theorem marks_of_word {e : Event} (hw : w ∈ all) (he : e.mark? = some w.place) :
    Marks all [e] := by
  constructor
  intro e' he' place hplace
  rw [List.mem_singleton.mp he', he] at hplace
  cases hplace
  exact ⟨w, hw, rfl⟩

theorem subset_of_suffix {words : List Word} (h : rest <:+ words) (hwords : words ⊆ all) :
    rest ⊆ all := fun _ hw => hwords (h.subset hw)

/-! ### Clauses -/

-- A flaw is told at the next word, or at the first word of its statement if there is none. So the
-- first word is among `all` in what follows, although it has been read before.

theorem flawHere_marks (f : SyntaxFlaw) (hkeyword : keyword ∈ all) (hrest : rest ⊆ all) :
    Marks all [flawHere f keyword rest] := by
  cases rest with
  | nil => exact marks_of_word hkeyword rfl
  | cons w rest => exact marks_of_word (hrest List.mem_cons_self) rfl

theorem abandon_marks (f : SyntaxFlaw) (prev : Word) (hkeyword : keyword ∈ all)
    (hrest : rest ⊆ all) : Marks all (abandon f keyword prev rest).events :=
  flawHere_marks f hkeyword hrest

theorem finishStatement_marks (prev : Word) (hkeyword : keyword ∈ all) (hrest : rest ⊆ all) :
    Marks all (finishStatement keyword prev rest).events := by
  unfold finishStatement
  split
  · split
    · exact marks_nil
    · exact abandon_marks _ _ hkeyword hrest
  · exact abandon_marks _ _ hkeyword hrest

theorem reference_marks (prev : Option Word) (w : Word) (write : Bool) (rest : List Word) :
    Marks all (reference prev w write rest) := by
  apply marks_of_unmarked
  intro e he
  unfold reference at he
  split at he
  · cases he
  · rw [List.mem_singleton.mp he]
    rfl

theorem references_marks (prev : Word) (n : Nat) (rest : List Word) :
    Marks all (references prev n rest) := by
  fun_induction references prev n rest with
  | case1 => exact marks_nil
  | case2 => exact marks_nil
  | case3 prev n w rest ih =>
    refine Marks.append ?_ ih
    split
    · exact reference_marks ..
    · exact marks_nil

theorem groupEnd_marks (last : Word) (hopening : w ∈ all) (hrest : rest ⊆ all) :
    Marks all (groupEnd w last rest).events := by
  unfold groupEnd
  split
  · split
    · exact marks_nil
    · exact flawHere_marks _ hopening hrest
  · exact flawHere_marks _ hopening hrest

theorem group_marks (resolve : Bool) (hopening : w ∈ all) (hrest : rest ⊆ all) :
    Marks all (group resolve w rest).reading.events := by
  refine Marks.append ?_ (groupEnd_marks _ hopening (subset_of_suffix (List.drop_suffix _ _) hrest))
  split
  · exact references_marks ..
  · exact marks_nil

theorem optionalGroup_marks (brackets : List String) (resolve : Bool) (hrest : rest ⊆ all) :
    Marks all (groupEvents (optionalGroup brackets resolve rest)) := by
  unfold optionalGroup
  split
  · split
    · obtain ⟨hopening, hleft⟩ := List.cons_subset.mp hrest
      exact group_marks resolve hopening hleft
    · exact marks_nil
  · exact marks_nil

/-! ### Declarations -/

theorem attributeStep_marks (item : Item) (hw : w ∈ all) (hrest : rest ⊆ all) :
    Marks all (attributeStep item w rest).reading.events := by
  unfold attributeStep
  cases attributeWord w
  case inv | ref | userType | other => exact marks_nil
  case bracket => exact group_marks true hw hrest
  all_goals exact optionalGroup_marks _ _ hrest

theorem itemAttributes_marks (item : Item) (prev : Word) (hrest : rest ⊆ all) :
    Marks all (itemAttributes item prev rest).reading.events := by
  fun_induction itemAttributes item prev rest with
  | case1 => exact marks_nil
  | case2 => exact marks_nil
  | case3 item prev w rest _ step _ more ih =>
    obtain ⟨hw, hleft⟩ := List.cons_subset.mp hrest
    have hmore := subset_of_suffix (attributeStep_suffix item w rest) hleft
    exact (attributeStep_marks item hw hleft).append (ih hmore)

theorem itemTail_marks (specification : Bool) (prev : Word) (hrest : rest ⊆ all) :
    Marks all (itemTail specification prev rest).reading.events := by
  refine (optionalGroup_marks _ _ hrest).append (itemAttributes_marks _ _ ?_)
  exact subset_of_suffix (afterGroup_suffix ["("] true prev rest) hrest

/-- A list of names may lack its bracket. -/
theorem missingListBracket_marks (closed : Bool) (hkeyword : keyword ∈ all) (hrest : rest ⊆ all) :
    Marks all (if closed then [] else [flawHere .missingListBracket keyword rest]) := by
  split
  · exact marks_nil
  · exact flawHere_marks _ hkeyword hrest

theorem declarationItem_marks (specification : Bool) {ns : Names} (hkeyword : keyword ∈ all)
    (hrest : ns.rest ⊆ all) :
    Marks all (declarationItem keyword specification ns).events := by
  have hflaws := missingListBracket_marks ns.closed hkeyword hrest
  refine (hflaws.append (itemTail_marks specification ns.last hrest)).append ?_
  apply marks_of_unmarked
  intro e he
  obtain ⟨name, -, rfl⟩ := List.mem_map.mp he
  rfl

theorem nameless_marks (prev : Word) (hevents : Marks all events) (hkeyword : keyword ∈ all)
    (hrest : rest ⊆ all) : Marks all (nameless keyword events prev rest).events :=
  hevents.append (abandon_marks _ _ hkeyword hrest)

theorem declarationItems_marks (specification : Bool) (prev : Word) (hkeyword : keyword ∈ all)
    (hrest : rest ⊆ all) :
    Marks all (declarationItems keyword specification prev rest).events := by
  fun_induction declarationItems keyword specification prev rest with
  | case1 => exact nameless_marks _ marks_nil hkeyword hrest
  | case2 => exact nameless_marks _ marks_nil hkeyword hrest
  | case3 prev w left ns h _ =>
    have hns := subset_of_suffix (names?_suffix h) (List.cons_subset.mp hrest).2
    exact nameless_marks _ (missingListBracket_marks _ hkeyword hns) hkeyword hns
  | case4 prev w left ns h _ item next ih =>
    have hns := subset_of_suffix (names?_suffix h) (List.cons_subset.mp hrest).2
    have hitem : item.rest ⊆ all := subset_of_suffix (itemTail_suffix ..) hns
    refine (declarationItem_marks specification hkeyword hns).append ?_
    simp only [next]
    split
    · rename_i comma more hc
      rw [comma?_eq_some hc] at hitem
      exact ih comma more hc (List.cons_subset.mp hitem).2
    · exact finishStatement_marks _ hkeyword hitem

/-! ### Heads of procedures and tasks -/

theorem parameterType_marks (names type : List Word) (prev : Word) (rest : List Word)
    (hevents : Marks all events) :
    Marks all (parameterType events names type prev rest).events := by
  apply hevents.append
  apply marks_of_unmarked
  intro e he
  obtain ⟨name, -, rfl⟩ := List.mem_map.mp he
  rfl

theorem parameterItem_marks (hw : w ∈ all) : Marks all (parameterItem w rest).events := by
  unfold parameterItem
  split
  · exact parameterType_marks _ _ _ _ marks_nil
  · split
    · exact marks_of_word hw rfl
    · exact parameterType_marks _ _ _ _ (marks_of_word hw rfl)

theorem parameters_marks (prev : Word) (hopening : w ∈ all) (hrest : rest ⊆ all) :
    Marks all (parameters w prev rest).events := by
  fun_induction parameters w prev rest with
  | case1 => exact flawHere_marks _ hopening hrest
  | case2 => exact marks_nil
  | case3 => exact flawHere_marks _ hopening hrest
  | case4 prev v rest _ _ item _ more ih =>
    obtain ⟨hv, hleft⟩ := List.cons_subset.mp hrest
    have hmore := subset_of_suffix (parameterItem_suffix v rest) hleft
    exact (parameterItem_marks hv).append (ih hmore)

theorem headerGroup_marks {before : List Event} {after : Group → List Event} (w : Word)
    (hbefore : Marks all before) (hafter : ∀ g, Marks all (after g)) (hrest : rest ⊆ all) :
    Marks all (headerGroup before after w rest).events := by
  refine (hbefore.append (optionalGroup_marks _ _ hrest)).append ?_
  cases optionalGroup ["("] false rest with
  | none => exact marks_nil
  | some g => exact hafter g

theorem headerStep_marks (prev : Word) (k : HeaderWord) (hw : w ∈ all) (hrest : rest ⊆ all) :
    Marks all (headerStep prev w rest k).events := by
  cases k with
  | parameters => exact parameters_marks w hw hrest
  | returns =>
    refine headerGroup_marks w marks_nil (fun g => ?_) hrest
    exact marks_of_unmarked (by simp [mark?])
  | exported =>
    refine headerGroup_marks w ?_ (fun g => marks_nil) hrest
    exact marks_of_unmarked (by simp [mark?])
  | name => exact reference_marks ..
  | other => exact marks_nil

theorem header_marks (prev : Word) (hkeyword : keyword ∈ all) (hrest : rest ⊆ all) :
    Marks all (header keyword prev rest).events := by
  fun_induction header keyword prev rest with
  | case1 => exact flawHere_marks _ hkeyword hrest
  | case2 => exact marks_nil
  | case3 => exact flawHere_marks _ hkeyword hrest
  | case4 prev w rest _ k _ step _ more ih =>
    obtain ⟨hw, hleft⟩ := List.cons_subset.mp hrest
    have hmore := subset_of_suffix (headerStep_suffix prev w rest k) hleft
    exact (headerStep_marks prev k hw hleft).append (ih hmore)

theorem unitHead_marks (name prev : Word) (hkeyword : keyword ∈ all) (hrest : rest ⊆ all) :
    Marks all (unitHead keyword name prev rest).events := by
  have hopen : Marks all [.openUnit (keyword.text = "TASK") name.occurrence] :=
    marks_of_unmarked (by simp [mark?])
  exact hopen.append (header_marks prev hkeyword hrest)

/-! ### Statements -/

theorem moduleBracket_marks (last : Word) (hkeyword : keyword ∈ all) (hrest : rest ⊆ all) :
    Marks all (moduleBracket keyword last rest).events := by
  unfold moduleBracket
  split
  · split
    · exact marks_nil
    · exact flawHere_marks _ hkeyword hrest
  · exact flawHere_marks _ hkeyword hrest

theorem moduleName_marks (hkeyword : keyword ∈ all) (hrest : rest ⊆ all) :
    Marks all (moduleName keyword rest).2.events := by
  unfold moduleName
  split
  · have hleft := (List.cons_subset.mp hrest).2
    split
    · unfold bracketedModuleName
      split
      · split
        · exact moduleBracket_marks _ hkeyword (List.cons_subset.mp hleft).2
        · exact moduleBracket_marks _ hkeyword hleft
      · exact moduleBracket_marks _ hkeyword hleft
    · split
      · exact marks_nil
      · exact marks_nil
  · exact marks_nil

theorem moduleHead_marks (block : Block) (hkeyword : keyword ∈ all) (hrest : rest ⊆ all) :
    Marks all (moduleHead block keyword rest).events := by
  have hleft := subset_of_suffix (moduleName_suffix keyword rest) hrest
  have hflaws : Marks all (if (moduleName keyword rest).1.isSome then []
      else [flawHere (.missingModuleName keyword.text) keyword
        (moduleName keyword rest).2.rest]) := by
    split
    · exact marks_nil
    · exact flawHere_marks _ hkeyword hleft
  exact ((moduleName_marks hkeyword hrest).append hflaws).append (marks_of_word hkeyword rfl)

theorem secondKeyword?_mem {u : Word} {left : List Word}
    (h : secondKeyword? rest = some (u, left)) : u ∈ rest := by
  unfold secondKeyword? at h
  split at h
  · split at h
    · cases h
      simp
    · cases h
  · cases h

theorem bareUnit_marks (hkeyword : keyword ∈ all) (hrest : rest ⊆ all) :
    Marks all (bareUnit keyword rest).events := by
  unfold bareUnit
  split
  · have hleft := (List.cons_subset.mp hrest).2
    split
    · split
      · rename_i h
        exact unitHead_marks _ _ (hleft (secondKeyword?_mem h))
          (subset_of_suffix (secondKeyword?_suffix h) hleft)
      · exact unitHead_marks _ _ hkeyword hleft
    · exact abandon_marks _ _ hkeyword hrest
  · exact abandon_marks _ _ hkeyword hrest

theorem thenFinish_marks (prev : Word) (hevents : Marks all events) (hkeyword : keyword ∈ all)
    (hrest : rest ⊆ all) : Marks all (thenFinish keyword events prev rest).events :=
  hevents.append (finishStatement_marks prev hkeyword hrest)

theorem callStatement_marks (hkeyword : keyword ∈ all) (hrest : rest ⊆ all) :
    Marks all (callStatement keyword rest).events := by
  unfold callStatement
  split
  · split
    · exact marks_of_unmarked (by simp [mark?])
    · exact abandon_marks _ _ hkeyword hrest
  · exact abandon_marks _ _ hkeyword hrest

theorem jumpStatement_marks (hkeyword : keyword ∈ all) (hrest : rest ⊆ all) :
    Marks all (jumpStatement keyword rest).events := by
  unfold jumpStatement
  split
  · split
    · apply thenFinish_marks _ _ hkeyword (List.cons_subset.mp hrest).2
      exact marks_of_unmarked (by simp [mark?])
    · exact abandon_marks _ _ hkeyword hrest
  · exact abandon_marks _ _ hkeyword hrest

theorem taskClause_marks (keyword : Word) (priority : Bool) (prev : Word) (n : Nat)
    (hrest : rest ⊆ all) : Marks all (taskClause keyword priority prev n rest) := by
  fun_induction taskClause keyword priority prev n rest with
  | case1 => exact marks_nil
  | case2 => exact marks_nil
  | case3 prev n w rest ih =>
    obtain ⟨hw, hleft⟩ := List.cons_subset.mp hrest
    refine Marks.append ?_ (ih hleft)
    split
    · split
      · exact marks_nil
      · exact marks_of_word hw rfl
    · split
      · exact reference_marks ..
      · exact marks_nil

theorem taskName_marks (rule : TaskName) (hkeyword : keyword ∈ all) (hrest : rest ⊆ all) :
    Marks all (taskName keyword rule rest).events := by
  have habsent : Marks all (if rule = .mandatory then
      [flawHere (.missingTaskName keyword.text) keyword rest] else []) := by
    split
    · exact flawHere_marks _ hkeyword hrest
    · exact marks_nil
  unfold taskName
  dsimp only
  cases rest with
  | nil => exact habsent
  | cons w left =>
    dsimp only
    split
    · split
      · exact marks_of_word (hrest List.mem_cons_self) rfl
      · exact marks_of_unmarked (by simp [mark?])
    · exact habsent

theorem taskStatement_marks (rule : TaskName) (priority : Bool) (hkeyword : keyword ∈ all)
    (hrest : rest ⊆ all) : Marks all (taskStatement keyword rule priority rest).events := by
  have hleft := subset_of_suffix (taskName_suffix keyword rule rest) hrest
  apply thenFinish_marks _ _ hkeyword (subset_of_suffix (List.drop_suffix _ _) hleft)
  exact (taskName_marks rule hkeyword hrest).append (taskClause_marks _ _ _ _ hleft)

theorem objectNames_marks (keyword : Word) (kind : SymbolKind) (w : Word) (rest : List Word) :
    Marks all (objectNames keyword kind w rest).events := by
  apply marks_of_unmarked
  fun_induction objectNames keyword kind w rest with
  | case1 w c n rest _ _ more ih =>
    intro e he
    rcases List.mem_cons.mp he with rfl | he
    · rfl
    · exact ih e he
  | _ => simp [mark?]

theorem objectStatement_marks (kind : SymbolKind) (hkeyword : keyword ∈ all)
    (hrest : rest ⊆ all) : Marks all (objectStatement keyword kind rest).events := by
  unfold objectStatement
  split
  · have hleft := (List.cons_subset.mp hrest).2
    split
    · apply thenFinish_marks _ (objectNames_marks ..) hkeyword
      exact subset_of_suffix (objectNames_suffix ..) hleft
    · exact abandon_marks _ _ hkeyword hrest
  · exact abandon_marks _ _ hkeyword hrest

theorem operandEvents_marks (hkeyword : keyword ∈ all) (words : List Word) :
    Marks all (operandEvents keyword words) := by
  fun_induction operandEvents keyword words with
  | case1 => exact marks_of_word hkeyword rfl
  | case2 w => exact marks_of_unmarked (by simp [mark?])
  | case3 w words _ ih =>
    have hone : Marks all [.refer w.occurrence false false] :=
      marks_of_unmarked (by simp [mark?])
    exact hone.append ih

theorem loopControl_marks (keyword : Word) (rest : List Word) :
    Marks all (loopControl keyword rest).events := by
  unfold loopControl
  split
  · split
    · exact marks_of_unmarked (by simp [mark?])
    · exact marks_nil
  · exact marks_nil

theorem keywordStatement_marks (head : StatementHead) (hw : w ∈ all) (hrest : rest ⊆ all) :
    Marks all (keywordStatement w rest head).events := by
  have hdrop : ∀ n, rest.drop n ⊆ all := fun n => subset_of_suffix (List.drop_suffix n rest) hrest
  cases head with
  | moduleHead block => exact moduleHead_marks block hw hrest
  | unitHead => exact bareUnit_marks hw hrest
  | declaration => exact declarationItems_marks _ _ hw hrest
  | loopControl => exact loopControl_marks ..
  | alternative => exact optionalGroup_marks _ _ hrest
  | call => exact callStatement_marks hw hrest
  | jump => exact jumpStatement_marks hw hrest
  | semaphoreArray => exact thenFinish_marks _ (operandEvents_marks hw _) hw (hdrop _)
  | taskControl rule priority => exact taskStatement_marks rule priority hw hrest
  | objects kind => exact objectStatement_marks kind hw hrest
  | transfer => exact thenFinish_marks _ (references_marks ..) hw (hdrop _)
  | systemPart | typeDefinition | other => exact marks_nil
  | blockOpener | otherwise | blockCloser => exact marks_of_word hw rfl

theorem nameStatement_marks (prev : Option Word) (start : Bool) (w : Word) (hrest : rest ⊆ all) :
    Marks all (nameStatement prev start w rest).1.events := by
  unfold nameStatement
  split
  · rename_i h
    exact unitHead_marks _ _ (hrest (secondKeyword?_mem h))
      (subset_of_suffix (secondKeyword?_suffix h) hrest)
  · split
    · split
      · exact marks_of_unmarked (by simp [mark?])
      · exact reference_marks ..
    · exact reference_marks ..

theorem statement_marks (prev : Option Word) (start : Bool) (hw : w ∈ all) (hrest : rest ⊆ all) :
    Marks all (statement prev start w rest).1.events := by
  unfold statement
  split
  · exact keywordStatement_marks _ hw hrest
  · exact nameStatement_marks prev start w hrest
  · exact marks_nil

theorem eventsAfter_marks (prev : Option Word) (start : Bool) {words : List Word}
    (hwords : words ⊆ all) : Marks all (eventsAfter prev start words) := by
  fun_induction eventsAfter prev start words with
  | case1 => exact marks_nil
  | case2 prev start w rest r _ ih =>
    obtain ⟨hw, hrest⟩ := List.cons_subset.mp hwords
    have hleft := subset_of_suffix (statement_suffix prev start w rest) hrest
    exact (statement_marks prev start hw hrest).append (ih hleft)

end Pearl.Event
