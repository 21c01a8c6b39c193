import Pearl.Proofs.CutClauses

namespace Pearl

namespace Event

variable {t w : Word} {post ws ws' : List Word} {same : Prop} {n : Nat}

/-! ### Declarations -/

theorem withGroup_cut (h : Cut t post ws ws') (w : Word) (brackets : List String) (resolve : Bool)
    {item item' : Item}
    (hitem : (optionalGroup brackets resolve ws').map (·.inner) =
      (optionalGroup brackets resolve ws).map (·.inner) → item' = item) :
    Shortened t post
      ((withGroup item' w ws' brackets resolve).item = (withGroup item w ws brackets resolve).item)
      (withGroup item w ws brackets resolve).reading
      (withGroup item' w ws' brackets resolve).reading :=
  (optionalGroup_cut h brackets resolve w).mono hitem

theorem groupText?_congr (h : (optionalGroup ["("] false ws').map (·.inner) =
    (optionalGroup ["("] false ws).map (·.inner)) : groupText? ws' = groupText? ws := by
  have htext := congrArg (Option.map Word.render) h
  simpa only [groupText?, Option.map_map, Function.comp_def] using htext

theorem attributeStep_cut (h : Cut t post ws ws') (item : Item) (w : Word) :
    Shortened t post ((attributeStep item w ws').item = (attributeStep item w ws).item)
      (attributeStep item w ws).reading (attributeStep item w ws').reading := by
  unfold attributeStep
  cases attributeWord w with
  | inv | ref | userType | other => exact h.shortened rfl [] w
  | bracket => exact (group_cut h true w).mono fun _ => rfl
  | ident | exported | initial | structured => exact withGroup_cut h w _ _ fun _ => rfl
  | returns =>
    refine withGroup_cut h w _ _ fun hinner => ?_
    rw [groupText?_congr hinner]
  | builtinType =>
    refine withGroup_cut h w _ _ fun hinner => ?_
    rw [typeText, typeText, groupText?_congr hinner]

theorem endsItem_of_isIdentifier (h : w.isIdentifier = true) : endsItem w = false := by
  simp [endsItem, Word.isSymbol_of_isIdentifier h, startsStatement_of_isIdentifier h]

theorem itemAttributes_cut (h : Cut t post ws ws') (item : Item) (prev : Word) :
    Shortened t post ((itemAttributes item prev ws').item = (itemAttributes item prev ws).item)
      (itemAttributes item prev ws).reading (itemAttributes item prev ws').reading := by
  fun_induction itemAttributes item prev ws generalizing ws' with
  | case1 => cases h
  | case2 item prev w ws hends =>
    cases h with
    | here ht hpost =>
      rw [endsItem_of_isIdentifier ht] at hends
      cases hends
    | @cons _ _ ws' hw h =>
      rw [itemAttributes, if_pos hends]
      exact (h.cons hw).shortened rfl [] prev
  | case3 item prev w ws hends step _ more =>
    rename_i ih
    cases h with
    | here ht hpost =>
      exact Or.inr ((itemAttributes_suffix ..).trans (attributeStep_suffix item t post))
    | @cons _ _ ws' hw h =>
      rw [itemAttributes, if_neg hends]
      refine (attributeStep_cut h item w).seq
        (f := fun last rest => (itemAttributes step.item last rest).reading)
        (g := fun last rest => (itemAttributes (attributeStep item w ws').item last rest).reading)
        (itemAttributes_suffix step.item) ?_
      intro hitem hlast hcut
      dsimp only
      rw [hitem, hlast]
      exact ih hcut

/-- The number of dimensions is settled by the words in brackets. -/
theorem itemTail_eq (specification : Bool) (prev : Word) (ws : List Word) :
    itemTail specification prev ws =
      let g := optionalGroup ["("] true ws
      let tail := itemAttributes
        ⟨{ dimensions := (g.map (·.inner)).elim 0 (commaCount 0 · + 1)
           isSpecification := specification }, .var⟩
        (afterGroup g prev ws).1 (afterGroup g prev ws).2
      ⟨tail.item, groupEvents g ++ tail.reading.events, tail.reading.last, tail.reading.rest⟩ := by
  unfold itemTail
  cases optionalGroup ["("] true ws with
  | none => rfl
  | some g => rfl

theorem itemTail_cut (h : Cut t post ws ws') (specification : Bool) (prev : Word) :
    Shortened t post
      ((itemTail specification prev ws').item = (itemTail specification prev ws).item)
      (itemTail specification prev ws).reading (itemTail specification prev ws').reading := by
  rw [itemTail_eq, itemTail_eq]
  refine (optionalGroup_cut h ["("] true prev).seq
    (f := fun last rest => (itemAttributes _ last rest).reading)
    (g := fun last rest => (itemAttributes _ last rest).reading) (itemAttributes_suffix _) ?_
  intro hinner hlast hcut
  dsimp only at hlast hcut ⊢
  rw [hinner, hlast]
  exact itemAttributes_cut hcut _ _

theorem declarationItem_cut {ns : Names} {rest' : List Word} (h : Cut t post ns.rest rest')
    (keyword : Word) (specification : Bool) :
    Shortened t post True (declarationItem keyword specification ns)
      (declarationItem keyword specification { ns with rest := rest' }) := by
  obtain ⟨hitem, rest'', hreading, hcut⟩ | hbeyond := itemTail_cut h specification ns.last
  · refine Or.inl ⟨trivial, rest'', ?_, hcut⟩
    simp only [declarationItem, hitem, hreading, flawHere_cut h]
  · exact Or.inr hbeyond

theorem nameless_cut (h : Cut t post ws ws') (keyword : Word) (events : List Event)
    (prev : Word) :
    Shortened t post True (nameless keyword events prev ws) (nameless keyword events prev ws') := by
  exact (h.unread events prev).andThen (abandon _ keyword) (abandon_suffix _ keyword) fun _ hcut =>
    abandon_cut hcut _ _ _

/-- What follows an item of a declaration: another one behind a comma, or the end. -/
def afterItem (keyword : Word) (specification : Bool) (last : Word) (rest : List Word) : Reading :=
  match comma? rest with
  | some (comma, more) => declarationItems keyword specification comma more
  | none => finishStatement keyword last rest

theorem afterItem_suffix (keyword : Word) (specification : Bool) (last : Word)
    (rest : List Word) : (afterItem keyword specification last rest).rest <:+ rest := by
  unfold afterItem
  split
  · rename_i comma more hcomma
    rw [comma?_eq_some hcomma]
    exact (declarationItems_suffix ..).trans (List.suffix_cons comma more)
  · exact finishStatement_suffix ..

/-- A declaration goes on behind its first names. -/
theorem declarationItems_rest (keyword : Word) (specification : Bool) (prev : Word) {ns : Names}
    (hns : names? w ws = some ns) :
    (declarationItems keyword specification prev (w :: ws)).rest <:+ ns.rest := by
  rw [declarationItems_cons, hns]
  dsimp only
  split
  · exact nameless_suffix ..
  · exact (afterItem_suffix keyword specification _ _).trans (itemTail_suffix ..)

/-- The end of an item is read alike, if the items behind it are. -/
theorem afterItem_cut (h : Cut t post ws ws') (keyword : Word) (specification : Bool) (last : Word)
    (hmore : ∀ {comma : Word} {ws ws' : List Word}, Cut t post ws ws' → ws.length < n →
      Shortened t post True (declarationItems keyword specification comma ws)
        (declarationItems keyword specification comma ws')) (hn : ws.length ≤ n) :
    Shortened t post True (afterItem keyword specification last ws)
      (afterItem keyword specification last ws') := by
  have hend := finishStatement_cut h keyword last
  cases h with
  | here ht hpost => simpa [afterItem, comma?, Word.isSymbol_of_isIdentifier ht] using hend
  | @cons w ws ws' hw h =>
    cases hcomma : w.isSymbol [","] with
    | true =>
      simp only [afterItem, comma?, hcomma, if_true]
      exact hmore h hn
    | false => simpa [afterItem, comma?, hcomma] using hend

theorem declarationItems_cut (h : Cut t post ws ws') (keyword : Word) (specification : Bool)
    (prev : Word) :
    Shortened t post True (declarationItems keyword specification prev ws)
      (declarationItems keyword specification prev ws') := by
  induction hn : ws.length using Nat.strongRecOn generalizing prev ws ws' with
  | _ n ih =>
    cases h with
    | here ht hpost =>
      have hns : names? t post = some ⟨[t], true, t, post⟩ := by
        simp [names?, Word.isSymbol_of_isIdentifier ht, ht]
      exact Or.inr (declarationItems_rest keyword specification prev hns)
    | @cons w ws ws' hw h =>
      cases hns : names? w ws with
      | none =>
        rw [declarationItems_cons, declarationItems_cons, hns, names?_eq_none hns ws']
        exact nameless_cut (h.cons hw) keyword [] prev
      | some ns =>
        -- Either the names end in front of the cut, or the whole declaration goes on behind it.
        obtain ⟨rest', hns', hcut⟩ | hbeyond := names?_cut h hns
        · rw [declarationItems_cons, declarationItems_cons, hns, hns']
          dsimp only
          split
          · rw [flawHere_cut hcut]
            exact nameless_cut hcut keyword _ _
          · refine (declarationItem_cut hcut keyword specification).andThen
              (afterItem keyword specification) (afterItem_suffix keyword specification) ?_
            intro _ hcut'
            have hsuffix : (declarationItem keyword specification ns).rest <:+ ws :=
              (itemTail_suffix ..).trans (names?_suffix hns)
            refine afterItem_cut hcut' keyword specification _ ?_ hsuffix.length_le
            intro comma more more' h hlt
            exact ih more.length (by simp only [← hn, List.length_cons]; omega) h comma rfl
        · exact Or.inr ((declarationItems_rest keyword specification prev hns).trans hbeyond)

/-! ### Heads of procedures and tasks -/

theorem dropComma_cut (h : Cut t post ws ws') (hsame : same) (prev : Word) :
    Shortened t post same (silent (dropComma prev ws)) (silent (dropComma prev ws')) := by
  apply symbol_cut h hsame [","] (fun _ => []) prev
  intro w ws
  cases hw : w.isSymbol [","] <;> simp [dropComma, silent, hw]

theorem parameterType_cut (h : Cut t post ws ws') (events : List Event) (names type : List Word)
    (prev : Word) :
    Shortened t post True (parameterType events names type prev ws)
      (parameterType events names type prev ws') := by
  have hinner := (typeSize_reach h 0).told (fun _ _ => []) (fun _ _ => rfl) prev
  have hend := hinner.andThen (fun last rest => silent (dropComma last rest)) dropComma_suffix
    fun htake hcut => dropComma_cut hcut htake _
  exact hend.told fun htake _ => ⟨by rw [htake], trivial⟩

theorem parameterItem_cut (h : Cut t post ws ws') (w : Word) :
    Shortened t post True (parameterItem w ws) (parameterItem w ws') := by
  unfold parameterItem
  cases hns : names? w ws with
  | none =>
    rw [names?_eq_none hns ws']
    dsimp only
    split
    · exact h.unread _ w
    · exact parameterType_cut h _ _ _ w
  | some ns =>
    obtain ⟨rest', hns', hcut⟩ | hbeyond := names?_cut h hns
    · rw [hns']
      exact parameterType_cut hcut _ _ _ _
    · exact Or.inr ((parameterType_suffix ..).trans hbeyond)

theorem parameters_cut (h : Cut t post ws ws') (opening prev : Word) :
    Shortened t post True (parameters opening prev ws) (parameters opening prev ws') := by
  fun_induction parameters opening prev ws generalizing ws' with
  | case1 => cases h
  | case2 prev w ws hclose =>
    cases h with
    | here ht hpost =>
      rw [Word.isSymbol_of_isIdentifier ht] at hclose
      cases hclose
    | cons hw h =>
      rw [parameters, if_pos hclose]
      exact h.unread [] w
  | case3 prev w ws hclose hends =>
    cases h with
    | here ht hpost =>
      rw [Word.isSymbol_of_isIdentifier ht] at hends
      cases hends
    | cons hw h =>
      rw [parameters, if_neg hclose, if_pos hends, flawHere_cut (h.cons hw)]
      exact (h.cons hw).unread _ prev
  | case4 prev w ws hclose hends item _ more =>
    rename_i ih
    cases h with
    | here ht hpost =>
      exact Or.inr ((parameters_suffix ..).trans (parameterItem_suffix t post))
    | cons hw h =>
      rw [parameters, if_neg hclose, if_neg hends]
      exact (parameterItem_cut h w).andThen (parameters opening) (parameters_suffix opening)
        fun _ hcut => ih hcut

theorem headerGroup_cut (h : Cut t post ws ws') (before : List Event)
    (after : List Word → List Event) (w : Word) :
    Shortened t post True (headerGroup before (fun g => after g.inner) w ws)
      (headerGroup before (fun g => after g.inner) w ws') := by
  obtain ⟨hinner, rest', hreading, hcut⟩ | hbeyond := optionalGroup_cut h ["("] false w
  · refine Or.inl ⟨trivial, rest', ?_, hcut⟩
    have hafter := congrArg (Option.map after) hinner
    simp only [Option.map_map, Function.comp_def] at hafter
    obtain ⟨hevents, hlast, hrest⟩ := Reading.mk.inj hreading
    simp only [headerGroup, hafter, hevents, hlast, hrest]
  · exact Or.inr hbeyond

theorem headerStep_cut (h : Cut t post ws ws') (prev w : Word) (k : HeaderWord) :
    Shortened t post True (headerStep prev w ws k) (headerStep prev w ws' k) := by
  cases k with
  | parameters => exact parameters_cut h w w
  | returns => exact headerGroup_cut h [] (fun inner => [.result (Word.render inner)]) w
  | exported => exact headerGroup_cut h [.exported] (fun _ => []) w
  | name =>
    simp only [headerStep, reference_cut h]
    exact h.unread _ w
  | other => exact h.unread [] w

theorem headerWord?_of_isIdentifier (h : w.isIdentifier = true) : headerWord? w = some .name := by
  have hkind : w.kind = .identifier := of_decide_eq_true h
  simp [headerWord?, hkind]

theorem header_cut (h : Cut t post ws ws') (keyword prev : Word) :
    Shortened t post True (header keyword prev ws) (header keyword prev ws') := by
  fun_induction header keyword prev ws generalizing ws' with
  | case1 => cases h
  | case2 prev w ws hends =>
    cases h with
    | here ht hpost =>
      rw [Word.isSymbol_of_isIdentifier ht] at hends
      cases hends
    | cons hw h =>
      rw [header, if_pos hends]
      exact h.unread [] w
  | case3 prev w ws hends hword =>
    cases h with
    | here ht hpost =>
      rw [headerWord?_of_isIdentifier ht] at hword
      cases hword
    | cons hw h =>
      rw [header, if_neg hends, hword, flawHere_cut (h.cons hw)]
      exact (h.cons hw).unread _ prev
  | case4 prev w ws hends k hword step _ more =>
    rename_i ih
    cases h with
    | here ht hpost => exact Or.inr ((header_suffix ..).trans (headerStep_suffix ..))
    | cons hw h =>
      rw [header, if_neg hends, hword]
      exact (headerStep_cut h prev w k).andThen (header keyword) (header_suffix keyword)
        fun _ hcut => ih hcut

theorem unitHead_cut (h : Cut t post ws ws') (keyword name prev : Word) :
    Shortened t post True (unitHead keyword name prev ws) (unitHead keyword name prev ws') := by
  have hfirst := h.unread [.openUnit (keyword.text = "TASK") name.occurrence] prev
  exact hfirst.andThen (header keyword) (header_suffix keyword) fun _ hcut =>
    header_cut hcut keyword _

/-! ### Statements -/

theorem moduleBracket_cut (h : Cut t post ws ws') (hsame : same) (keyword last : Word) :
    Shortened t post same (moduleBracket keyword last ws) (moduleBracket keyword last ws') :=
  symbol_cut h hsame [")"] (fun w => [.flaw .missingModuleBracket w.place]) last fun _ _ => rfl

theorem bracketedModuleName_cut (h : Cut t post ws ws') (keyword opening : Word) :
    Shortened t post
      ((bracketedModuleName keyword opening ws').1 = (bracketedModuleName keyword opening ws).1)
      (bracketedModuleName keyword opening ws).2 (bracketedModuleName keyword opening ws').2 := by
  cases h with
  | here ht hpost =>
    simp only [bracketedModuleName, ht]
    exact Or.inr (moduleBracket_suffix ..)
  | @cons w ws ws' hw h =>
    simp only [bracketedModuleName]
    split
    · exact moduleBracket_cut h rfl keyword w
    · exact moduleBracket_cut (h.cons hw) rfl keyword opening

theorem moduleName_cut (h : Cut t post ws ws') (keyword : Word) :
    Shortened t post ((moduleName keyword ws').1 = (moduleName keyword ws).1)
      (moduleName keyword ws).2 (moduleName keyword ws').2 := by
  cases h with
  | here ht hpost =>
    simp only [moduleName, Word.isSymbol_of_isIdentifier ht, ht]
    exact Or.inr (List.suffix_refl _)
  | @cons w ws ws' hw h =>
    simp only [moduleName]
    split
    · exact bracketedModuleName_cut h keyword w
    · split
      · exact h.shortened rfl [] w
      · exact (h.cons hw).shortened rfl [] keyword

theorem dropSemicolon_cut (h : Cut t post ws ws') (prev : Word) :
    Shortened t post True (silent (dropSemicolon prev ws)) (silent (dropSemicolon prev ws')) := by
  apply symbol_cut h trivial [";"] (fun _ => []) prev
  intro w ws
  cases hw : w.isSymbol [";"] <;> simp [dropSemicolon, silent, hw]

theorem moduleHead_cut (h : Cut t post ws ws') (block : Block) (keyword : Word) :
    Shortened t post True (moduleHead block keyword ws) (moduleHead block keyword ws') := by
  obtain ⟨hname, rest', hreading, hcut⟩ | hbeyond := moduleName_cut h keyword
  · have hend := dropSemicolon_cut hcut (moduleName keyword ws).2.last
    simp only [moduleHead, hname, hreading, flawHere_cut hcut]
    exact hend.told fun _ _ => ⟨rfl, trivial⟩
  · exact Or.inr ((dropSemicolon_suffix ..).trans hbeyond)

theorem systemPart_cut (h : Cut t post ws ws') (prev : Word) :
    Shortened t post True (silent (systemPart prev ws)) (silent (systemPart prev ws')) := by
  induction h generalizing prev with
  | here ht _ =>
    simp only [systemPart, Word.isKeyword_of_isIdentifier ht]
    exact Or.inr (systemPart_suffix t post)
  | @cons w ws ws' hw h ih =>
    simp only [systemPart]
    split
    · exact (h.cons hw).unread [] prev
    · exact ih w

theorem skipStatement_cut (h : Cut t post ws ws') (prev : Word) :
    Shortened t post True (silent (skipStatement prev ws)) (silent (skipStatement prev ws')) := by
  induction h generalizing prev with
  | here ht _ =>
    simp only [skipStatement, Word.isSymbol_of_isIdentifier ht]
    exact Or.inr (skipStatement_suffix t post)
  | @cons w ws ws' hw h ih =>
    simp only [skipStatement]
    split
    · exact h.unread [] w
    · exact ih w

/-- A keyword behind a colon is found in both, or in none. -/
theorem secondKeyword?_cut (h : Cut t post ws ws') :
    (secondKeyword? ws = none ∧ secondKeyword? ws' = none) ∨
      ∃ u rest rest', secondKeyword? ws = some (u, rest) ∧ secondKeyword? ws' = some (u, rest') ∧
        Cut t post rest rest' := by
  cases h with
  | here ht hpost =>
    refine Or.inl ⟨?_, rfl⟩
    cases post with
    | nil => rfl
    | cons u post => simp [secondKeyword?, Word.isSymbol_of_isIdentifier ht]
  | @cons w ws ws' hw h =>
    cases h with
    | here ht hpost => exact Or.inl (by simp [secondKeyword?, Word.isKeyword_of_isIdentifier ht])
    | @cons u ws ws' hu h =>
      simp only [secondKeyword?]
      split
      · exact Or.inr ⟨u, ws, ws', rfl, rfl, h⟩
      · exact Or.inl ⟨rfl, rfl⟩

theorem bareUnit_cut (h : Cut t post ws ws') (keyword : Word) :
    Shortened t post True (bareUnit keyword ws) (bareUnit keyword ws') := by
  refine name_cut h (abandon_cut h (.missingUnitName keyword.text) keyword keyword)
    (fun _ _ => rfl) ?_ ?_
  · intro w ws
    split
    · rename_i hsecond
      exact (unitHead_suffix ..).trans (secondKeyword?_suffix hsecond)
    · exact unitHead_suffix ..
  · intro w ws ws' h
    obtain ⟨hnone, hnone'⟩ | ⟨u, rest, rest', hsome, hsome', hcut⟩ := secondKeyword?_cut h
    · rw [hnone, hnone']
      exact unitHead_cut h keyword w w
    · rw [hsome, hsome']
      exact unitHead_cut hcut u w u

/-- The end of a statement follows. -/
theorem Shortened.thenFinish {events events' : List Event} {last last' : Word}
    {rest rest' : List Word}
    (h : Shortened t post same ⟨events, last, rest⟩ ⟨events', last', rest'⟩) (keyword : Word) :
    Shortened t post True (thenFinish keyword events last rest)
      (thenFinish keyword events' last' rest') :=
  h.andThen (finishStatement keyword) (finishStatement_suffix keyword) fun _ hcut =>
    finishStatement_cut hcut keyword _

theorem callStatement_cut (h : Cut t post ws ws') (keyword : Word) :
    Shortened t post True (callStatement keyword ws) (callStatement keyword ws') :=
  name_cut h (abandon_cut h .missingProcedureName keyword keyword) (fun _ _ => rfl)
    (fun _ _ => List.suffix_refl _) fun w _ _ hcut => hcut.unread _ w

theorem jumpStatement_cut (h : Cut t post ws ws') (keyword : Word) :
    Shortened t post True (jumpStatement keyword ws) (jumpStatement keyword ws') :=
  name_cut h (abandon_cut h .missingLabel keyword keyword) (fun _ _ => rfl)
    (fun _ _ => thenFinish_suffix ..) fun w _ _ hcut =>
      (hcut.unread [.jump w.occurrence] w).thenFinish keyword

theorem taskName_cut (h : Cut t post ws ws') (keyword : Word) (rule : TaskName) :
    Shortened t post True (taskName keyword rule ws) (taskName keyword rule ws') := by
  let absent : List Word → Reading := fun ws =>
    ⟨if rule = .mandatory then [flawHere (.missingTaskName keyword.text) keyword ws] else [],
      keyword, ws⟩
  have hother : Shortened t post True (absent ws) (absent ws') := by
    simp only [absent, flawHere_cut h]
    exact h.unread _ keyword
  exact name_cut h hother (fun _ _ => rfl) (fun _ _ => List.suffix_refl _)
    fun w _ _ hcut => hcut.unread _ w

/-- The clause of a task control statement, with what was told before it. -/
theorem taskClause_cut (h : Cut t post ws ws') (keyword : Word) (priority : Bool) (prev : Word) :
    Shortened t post True
      ⟨taskClause keyword priority prev (clauseSize ws) ws, lastOf prev (clauseSize ws) ws,
        ws.drop (clauseSize ws)⟩
      ⟨taskClause keyword priority prev (clauseSize ws') ws', lastOf prev (clauseSize ws') ws',
        ws'.drop (clauseSize ws')⟩ := by
  have hclausal := taskClause_clausal keyword priority
  exact ((clauseSize_reach h).told _ (hclausal.take prev) prev).mono fun _ => trivial

theorem taskStatement_cut (h : Cut t post ws ws') (keyword : Word) (rule : TaskName)
    (priority : Bool) :
    Shortened t post True (taskStatement keyword rule priority ws)
      (taskStatement keyword rule priority ws') := by
  have hclause := (taskName_cut h keyword rule).andThen
    (fun prev ws => ⟨taskClause keyword priority prev (clauseSize ws) ws,
      lastOf prev (clauseSize ws) ws, ws.drop (clauseSize ws)⟩)
    (fun _ _ => List.drop_suffix _ _) fun _ hcut => taskClause_cut hcut keyword priority _
  exact hclause.thenFinish keyword

theorem objectNames_of_not_comma (keyword : Word) (kind : SymbolKind) (w : Word) {c : Word}
    (hc : c.isSymbol [","] = false) (ws : List Word) :
    objectNames keyword kind w (c :: ws) =
      ⟨[.operate keyword.text kind w.occurrence], w, c :: ws⟩ := by
  cases ws with
  | nil => simp [objectNames, hc]
  | cons n ws => simp [objectNames, hc]

theorem objectNames_cut (h : Cut t post ws ws') (keyword : Word) (kind : SymbolKind) (w : Word) :
    Shortened t post True (objectNames keyword kind w ws) (objectNames keyword kind w ws') := by
  induction hn : ws.length using Nat.strongRecOn generalizing w ws ws' with
  | _ m ih =>
    have hpass : ∀ {c : Word} {ws ws' : List Word}, c.isSymbol [","] = false →
        Cut t post (c :: ws) (c :: ws') →
        Shortened t post True (objectNames keyword kind w (c :: ws))
          (objectNames keyword kind w (c :: ws')) := by
      intro c ws ws' hc h
      rw [objectNames_of_not_comma keyword kind w hc, objectNames_of_not_comma keyword kind w hc]
      exact h.unread _ w
    cases h with
    | here ht hpost => exact hpass (Word.isSymbol_of_isIdentifier ht _) (.here ht hpost)
    | @cons c ws ws' hc h =>
      cases hcomma : c.isSymbol [","] with
      | false => exact hpass hcomma (h.cons hc)
      | true =>
        cases h with
        | here ht hpost =>
          simp only [objectNames, hcomma, ht, if_true]
          exact Or.inr (objectNames_suffix keyword kind t post)
        | @cons n ws ws' hn' h =>
          simp only [objectNames, hcomma, if_true]
          split
          · refine (h.unread [.operate keyword.text kind w.occurrence] n).andThen
              (objectNames keyword kind) (objectNames_suffix keyword kind) ?_
            intro _ hcut
            exact ih ws.length (by simp only [← hn, List.length_cons]; omega) hcut n rfl
          · exact (h.cons hn').unread _ c

theorem objectStatement_cut (h : Cut t post ws ws') (keyword : Word) (kind : SymbolKind) :
    Shortened t post True (objectStatement keyword kind ws) (objectStatement keyword kind ws') :=
  name_cut h (abandon_cut h (.missingObjectName keyword.text kind) keyword keyword)
    (fun _ _ => rfl) (fun _ _ => (thenFinish_suffix ..).trans (objectNames_suffix ..))
    fun w _ _ hcut => (objectNames_cut hcut keyword kind w).thenFinish keyword

theorem semaphoreStatement_cut (h : Cut t post ws ws') (keyword : Word) :
    Shortened t post True (semaphoreStatement keyword ws) (semaphoreStatement keyword ws') := by
  have hinner := (clauseSize_reach h).told
    (fun n ws => operandEvents keyword ((ws.take n).filter (·.isIdentifier)))
    (fun n ws => by rw [List.take_take, Nat.min_eq_left (Nat.le_succ n)]) keyword
  exact hinner.thenFinish keyword

/-- The values of a transfer: the words of its clause in front of the formats. -/
def valueCount (n : Nat) (ws : List Word) : Nat :=
  ((ws.take n).takeWhile (!·.isKeyword ["BY"])).length

theorem valueCount_le (n : Nat) (ws : List Word) : valueCount n ws ≤ n :=
  Nat.le_trans (List.takeWhile_sublist _).length_le (List.length_take_le _ _)

theorem transferStatement_cut (h : Cut t post ws ws') (keyword : Word) :
    Shortened t post True (transferStatement keyword ws) (transferStatement keyword ws') := by
  have htake : ∀ n ws, references keyword (valueCount n (ws.take (n + 1))) (ws.take (n + 1)) =
      references keyword (valueCount n ws) ws := by
    intro n ws
    have hvalues : valueCount n (ws.take (n + 1)) = valueCount n ws := by
      rw [valueCount, List.take_take, Nat.min_eq_left (Nat.le_succ n), valueCount]
    have hle : valueCount n ws + 1 ≤ n + 1 := Nat.succ_le_succ (valueCount_le n ws)
    rw [hvalues, ← references_clausal.take, List.take_take, Nat.min_eq_left hle,
      references_clausal.take]
  have hinner := (clauseSize_reach h).told (fun n ws => references keyword (valueCount n ws) ws)
    htake keyword
  exact hinner.thenFinish keyword

theorem loopControl_cut (h : Cut t post ws ws') (keyword : Word) :
    Shortened t post True (loopControl keyword ws) (loopControl keyword ws') :=
  name_cut h (h.unread [] keyword) (fun _ _ => rfl) (fun _ _ => List.suffix_refl _)
    fun w _ _ hcut => hcut.unread _ w

theorem keywordStatement_cut (h : Cut t post ws ws') (w : Word) (head : StatementHead) :
    Shortened t post True (keywordStatement w ws head) (keywordStatement w ws' head) := by
  cases head with
  | moduleHead block => exact moduleHead_cut h block w
  | systemPart => exact systemPart_cut h w
  | unitHead => exact bareUnit_cut h w
  | declaration => exact declarationItems_cut h w _ w
  | typeDefinition => exact skipStatement_cut h w
  | loopControl => exact loopControl_cut h w
  | alternative => exact (optionalGroup_cut h ["("] true w).mono fun _ => trivial
  | call => exact callStatement_cut h w
  | jump => exact jumpStatement_cut h w
  | semaphoreArray => exact semaphoreStatement_cut h w
  | taskControl rule priority => exact taskStatement_cut h w rule priority
  | objects kind => exact objectStatement_cut h w kind
  | transfer => exact transferStatement_cut h w
  | blockOpener | otherwise | blockCloser | other => exact h.unread _ w

theorem nameStatement_cut (h : Cut t post ws ws') (prev : Option Word) (start : Bool) (w : Word) :
    Shortened t post ((nameStatement prev start w ws').2 = (nameStatement prev start w ws).2)
      (nameStatement prev start w ws).1 (nameStatement prev start w ws').1 := by
  obtain ⟨hnone, hnone'⟩ | ⟨u, rest, rest', hsome, hsome', hcut⟩ := secondKeyword?_cut h
  · have href := fun write => reference_cut h prev w write
    simp only [nameStatement, hnone, hnone']
    cases h with
    | here ht hpost =>
      simp only [Word.isSymbol_of_isIdentifier ht, href]
      exact (Cut.here ht hpost).shortened rfl _ w
    | @cons next ws ws' hnext h =>
      simp only [href]
      split
      · exact h.shortened rfl _ next
      · exact (h.cons hnext).shortened rfl _ w
  · simp only [nameStatement, hsome, hsome']
    exact unitHead_cut hcut u w u

/-- Reading from a word in front of the name on: what follows it is read alike, unless the name is
read. -/
theorem statement_cut (h : Cut t post ws ws') (prev : Option Word) (start : Bool) (w : Word) :
    Shortened t post ((statement prev start w ws').2 = (statement prev start w ws).2)
      (statement prev start w ws).1 (statement prev start w ws').1 := by
  unfold statement
  split
  · exact (keywordStatement_cut h w _).mono fun _ => rfl
  · exact nameStatement_cut h prev start w
  · exact h.shortened rfl [] w

end Event

end Pearl
