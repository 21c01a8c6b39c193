import Pearl.Proofs.CutStatements

namespace Pearl.Event

/-! ### Events without references -/

variable {keyword prev w : Word} {rest : List Word}

theorem abandon_silent (f : SyntaxFlaw) (fallback prev : Word) (rest : List Word) :
    Only isSilent (abandon f fallback prev rest).events := only_singleton rfl

theorem finishStatement_silent (keyword prev : Word) (rest : List Word) :
    Only isSilent (finishStatement keyword prev rest).events := by
  unfold finishStatement
  split
  · split
    · exact only_nil
    · exact abandon_silent ..
  · exact abandon_silent ..

theorem groupEnd_silent (opening last : Word) (rest : List Word) :
    Only isSilent (groupEnd opening last rest).events := by
  unfold groupEnd
  split
  · split
    · exact only_nil
    · exact only_singleton rfl
  · exact only_singleton rfl

theorem optionalGroup_silent (brackets : List String) (rest : List Word) :
    Only isSilent (groupEvents (optionalGroup brackets false rest)) := by
  unfold optionalGroup
  split
  · split
    · exact only_nil.append (groupEnd_silent ..)
    · exact only_nil
  · exact only_nil

theorem parameterType_silent {events : List Event} (h : Only isSilent events)
    (names type : List Word) (prev : Word) (rest : List Word) :
    Only isSilent (parameterType events names type prev rest).events :=
  h.append (only_map (fun _ => rfl) names)

theorem parameterItem_silent (w : Word) (rest : List Word) :
    Only isSilent (parameterItem w rest).events := by
  unfold parameterItem
  split
  · exact parameterType_silent only_nil ..
  · split
    · exact only_singleton rfl
    · exact parameterType_silent (only_singleton rfl) ..

theorem parameters_silent (opening prev : Word) (rest : List Word) :
    Only isSilent (parameters opening prev rest).events := by
  fun_induction parameters opening prev rest with
  | case1 => exact only_singleton rfl
  | case2 => exact only_nil
  | case3 => exact only_singleton rfl
  | case4 prev w rest _ _ item _ more ih => exact (parameterItem_silent w rest).append ih

theorem headerGroup_silent {before : List Event} (hbefore : Only isSilent before)
    {after : Group → List Event} (hafter : ∀ g, Only isSilent (after g)) (w : Word)
    (rest : List Word) : Only isSilent (headerGroup before after w rest).events := by
  refine (hbefore.append (optionalGroup_silent ..)).append ?_
  cases optionalGroup ["("] false rest with
  | none => exact only_nil
  | some g => exact hafter g

theorem headerStep_silent (prev w : Word) (rest : List Word) {k : HeaderWord} (hk : k ≠ .name) :
    Only isSilent (headerStep prev w rest k).events := by
  cases k with
  | parameters => exact parameters_silent ..
  | returns => exact headerGroup_silent only_nil (fun _ => only_singleton rfl) ..
  | exported => exact headerGroup_silent (only_singleton rfl) (fun _ => only_nil) ..
  | name => exact absurd rfl hk
  | other => exact only_nil

theorem moduleBracket_silent (keyword last : Word) (rest : List Word) :
    Only isSilent (moduleBracket keyword last rest).events := by
  unfold moduleBracket
  split
  · split
    · exact only_nil
    · exact only_singleton rfl
  · exact only_singleton rfl

theorem moduleName_silent (keyword : Word) (rest : List Word) :
    Only isSilent (moduleName keyword rest).2.events := by
  unfold moduleName
  split
  · split
    · unfold bracketedModuleName
      split
      · split <;> exact moduleBracket_silent ..
      · exact moduleBracket_silent ..
    · split <;> exact only_nil
  · exact only_nil

theorem moduleHead_silent (block : Block) (keyword : Word) (rest : List Word) :
    Only isSilent (moduleHead block keyword rest).events := by
  have hflaws : Only isSilent (if (moduleName keyword rest).1.isSome then []
      else [flawHere (.missingModuleName keyword.text) keyword
        (moduleName keyword rest).2.rest]) := by
    split
    · exact only_nil
    · exact only_singleton rfl
  exact ((moduleName_silent ..).append hflaws).append (only_singleton rfl)

theorem jumpStatement_silent (keyword : Word) (rest : List Word) :
    Only isSilent (jumpStatement keyword rest).events := by
  unfold jumpStatement
  split
  · split
    · exact (only_singleton rfl).append (finishStatement_silent ..)
    · exact abandon_silent ..
  · exact abandon_silent ..

theorem loopControl_silent (keyword : Word) (rest : List Word) :
    Only isSilent (loopControl keyword rest).events := by
  unfold loopControl
  split
  · split
    · exact only_singleton rfl
    · exact only_nil
  · exact only_nil

/-! ### The name is not resolved -/

def Absent (place : Nat) (events : List Event) : Prop :=
  ∀ e ∈ events, e.isReference = true → ∀ o ∈ e.occurrence?, o.place ≠ place

variable {place : Nat} {events events' front : List Event} {t : Word}
  {post ws ws' mid : List Word} {assigns : Prop}

theorem Only.absent (h : Only isSilent events) (place : Nat) : Absent place events := by
  intro e he href
  have hsilent := h.of_mem e he
  simp [isSilent, href] at hsilent

theorem Absent.append (h : Absent place events) (h' : Absent place events') :
    Absent place (events ++ events') := by
  intro e he
  exact (List.mem_append.mp he).elim (h e) (h' e)

theorem Reads.absent (h : Reads assigns ws events mid) (hne : ∀ w ∈ ws, w.place ≠ place) :
    Absent place events := by
  intro e he _ o ho
  obtain ⟨w, hw, -, rfl⟩ := exists_word_of_mem h (List.mem_filterMap.mpr ⟨e, he, ho⟩)
  exact hne w hw

theorem absent_singleton {e : Event} (ho : e.occurrence? = some w.occurrence)
    (hw : w.place ≠ place) : Absent place [e] := by
  intro e' he' _ o ho'
  rw [List.mem_singleton.mp he', ho] at ho'
  cases ho'
  exact hw

/-- What is read in front of the name does not resolve it. -/
theorem Reads.absent_of_cut (h : Reads assigns ws events mid) (hcut : Cut t post ws ws')
    {mid' : List Word} (hmid : Cut t post mid mid') : Absent t.place events := by
  intro e he _ o ho
  obtain ⟨used, hused, hsub⟩ := h.used
  obtain ⟨w, hw, -, rfl⟩ :=
    Word.exists_of_mem_names (hsub.subset (List.mem_filterMap.mpr ⟨e, he, ho⟩))
  exact hcut.ne_of_mem hused hmid w hw

/-- Nor is it resolved by what is read behind it. -/
theorem Reads.absent_of_suffix (h : Reads assigns mid events rest) (hcut : Cut t post ws ws')
    (hsuffix : mid <:+ post) : Absent t.place events :=
  h.absent fun w hw => hcut.post_ne w (hsuffix.subset hw)

/-! ### The name is resolved -/

/-- If an event resolves the name at a place, then the words that are cut off there are read to
their end, and give the events in front of it and then actions only. -/
def Stops (place : Nat) (events : List Event) (cut : Reading) : Prop :=
  ∀ front e back, events = front ++ e :: back → e.isReference = true →
    ∀ o ∈ e.occurrence?, o.place = place →
      cut.rest = [] ∧ ∃ more, cut.events = front ++ more ∧ Only isAction more

variable {cut : Reading}

theorem Absent.stops (h : Absent place events) (cut : Reading) : Stops place events cut := by
  rintro front e back rfl href o ho hplace
  exact absurd hplace (h e (by simp) href o ho)

/-- What comes first does not resolve the name. -/
theorem Stops.append_left (h : Stops place events cut) (hfront : Absent place front) :
    Stops place (front ++ events) { cut with events := front ++ cut.events } := by
  intro front' e back hsplit href o ho hplace
  have habsent : e ∉ front := fun he => hfront e he href o ho hplace
  obtain ⟨more, rfl, hevents⟩ : ∃ more, front' = front ++ more ∧ events = more ++ e :: back := by
    obtain ⟨more, hmore, hevents⟩ | ⟨more, hmore, hevents⟩ := List.append_eq_append_iff.mp hsplit
    · exact ⟨more, hmore, hevents⟩
    · cases more with
      | nil => exact ⟨[], by simpa using hmore.symm, hevents.symm⟩
      | cons e' more =>
        cases hevents
        exact absurd (by simp [hmore]) habsent
  obtain ⟨hrest, more', hmore', honly⟩ := h more e back hevents href o ho hplace
  exact ⟨hrest, more', by rw [hmore', List.append_assoc], honly⟩

/-- What comes last does not resolve the name. -/
theorem Stops.append_right (h : Stops place events cut) (hback : Absent place events') :
    Stops place (events ++ events') cut := by
  intro front e back hsplit href o ho hplace
  have habsent : e ∉ events' := fun he => hback e he href o ho hplace
  obtain ⟨more, hmore, hevents⟩ | ⟨more, hmore, hevents⟩ := List.append_eq_append_iff.mp hsplit
  · exact absurd (by simp [hevents]) habsent
  · cases more with
    | nil =>
      rw [List.nil_append] at hevents
      exact absurd (by simp [← hevents]) habsent
    | cons e' more =>
      cases hevents
      exact h front e more hmore href o ho hplace

/-- Words that are read to their end are followed by actions only. -/
theorem Stops.andThen (h : Stops place events cut) (next : Reading)
    (hnext : cut.rest = [] → next.rest = [] ∧ Only isAction next.events) :
    Stops place events ⟨cut.events ++ next.events, next.last, next.rest⟩ := by
  intro front e back hsplit href o ho hplace
  obtain ⟨hrest, more, hmore, honly⟩ := h front e back hsplit href o ho hplace
  obtain ⟨hrest', honly'⟩ := hnext hrest
  exact ⟨hrest', more ++ next.events, by rw [hmore, List.append_assoc], honly.append honly'⟩

theorem Stops.congr_rest {last : Word} {rest rest' : List Word}
    (h : Stops place events ⟨events', last, rest⟩) (hrest : rest = [] → rest' = []) :
    Stops place events ⟨events', last, rest'⟩ := by
  intro front e back hsplit href o ho hplace
  obtain ⟨hnil, hmore⟩ := h front e back hsplit href o ho hplace
  exact ⟨hrest hnil, hmore⟩

/-- One event, and words that are read to their end. -/
theorem stops_singleton (e : Event) (hrest : cut.rest = []) (honly : Only isAction cut.events) :
    Stops place [e] cut := by
  intro front e' back hsplit _ _ _ _
  cases front with
  | nil => exact ⟨hrest, cut.events, rfl, honly⟩
  | cons e'' front => simp at hsplit

theorem reference_stops (prev : Option Word) (w : Word) (write : Bool) (rest : List Word)
    (hrest : cut.rest = []) (honly : Only isAction cut.events) :
    Stops place (reference prev w write rest) cut := by
  unfold reference
  split
  · exact Absent.stops (only_nil.absent place) cut
  · exact stops_singleton _ hrest honly

/-- A name that comes first is read with what follows it, or no name is resolved. -/
theorem name_stops {f other : List Word → Reading} {named : Word → List Word → Reading}
    (h : Cut t post ws ws') (hother : ∀ ws, Only isSilent (other ws).events)
    (hf : ∀ w ws, f (w :: ws) = if w.isIdentifier then named w ws else other (w :: ws))
    (hhere : (∀ w ∈ post, w.place ≠ t.place) →
      Stops t.place (named t post).events (named t []))
    (hnamed : ∀ {w : Word} {ws ws' : List Word}, w.place ≠ t.place → Cut t post ws ws' →
      Stops t.place (named w ws).events (named w ws')) :
    Stops t.place (f ws).events (f ws') := by
  cases h with
  | here ht hpost =>
    rw [hf, hf, if_pos ht, if_pos ht]
    exact hhere hpost
  | @cons w ws ws' hw h =>
    rw [hf, hf]
    split
    · exact hnamed hw h
    · exact ((hother _).absent _).stops _

/-! ### Clauses -/

variable {n n' : Nat} {f : Word → Nat → List Word → List Event}

theorem reference_absent (prev : Option Word) (hw : w.place ≠ place) (write : Bool)
    (rest : List Word) : Absent place (reference prev w write rest) := by
  unfold reference
  split
  · exact only_nil.absent place
  · exact absent_singleton rfl hw

theorem Clausal.absent (h : Clausal f) (prev : Word) (n : Nat) (hne : ∀ w ∈ ws, w.place ≠ place) :
    Absent place (f prev n ws) := by
  induction n generalizing prev ws with
  | zero =>
    rw [h.zero]
    exact only_nil.absent place
  | succ n ih =>
    cases ws with
    | nil =>
      rw [h.nil]
      exact only_nil.absent place
    | cons w ws =>
      obtain ⟨hw, hws⟩ := List.forall_mem_cons.mp hne
      cases hname : w.isIdentifier with
      | true =>
        rw [h.name prev w hname]
        exact (reference_absent _ hw _ _).append (ih w hws)
      | false =>
        obtain ⟨told, hsilent, htold⟩ := h.other prev w hname
        rw [htold]
        exact (hsilent.absent place).append (ih w hws)

/-- Of the words that are cut off the same is told up to the name. -/
theorem Clausal.stops (h : Clausal f) (hreach : Reach t post ws ws' n n') (prev last : Word) :
    Stops t.place (f prev n ws) ⟨f prev n' ws', last, ws'.drop n'⟩ := by
  induction hreach generalizing prev with
  | stop _ =>
    rw [h.zero]
    exact (only_nil.absent _).stops _
  | past hcut n =>
    rw [h.name prev t hcut.isIdentifier, h.name prev t hcut.isIdentifier, h.zero, List.append_nil]
    apply Stops.append_right
    · exact reference_stops _ _ _ _ rfl ((reference_only ..).mono isAction_of_isPlain)
    · exact h.absent t n hcut.post_ne
  | @cons w ws ws' n n' hw hreach ih =>
    cases hname : w.isIdentifier with
    | true =>
      rw [h.name prev w hname, h.name prev w hname, reference_cut hreach.cut]
      exact (ih w).append_left (reference_absent _ hw _ _)
    | false =>
      obtain ⟨told, hsilent, htold⟩ := h.other prev w hname
      rw [htold, htold]
      exact (ih w).append_left (hsilent.absent _)

theorem group_stops (h : Cut t post ws ws') (opening : Word) :
    Stops t.place (group true opening ws).reading.events (group true opening ws').reading := by
  have hinner := references_clausal.stops (groupSize_reach h 0) opening
    (lastOf opening (groupSize 0 ws') ws')
  refine (hinner.append_right ((groupEnd_silent ..).absent _)).andThen (groupEnd opening _ _) ?_
  intro hrest
  dsimp only at hrest
  rw [hrest]
  exact ⟨rfl, only_singleton rfl⟩

theorem alternative_stops (h : Cut t post ws ws') (keyword : Word) :
    Stops t.place (alternative keyword ws).events (alternative keyword ws') := by
  unfold alternative
  cases h with
  | here ht hpost =>
    simp only [optionalGroup, Word.isSymbol_of_isIdentifier ht]
    exact (only_nil.absent _).stops _
  | @cons w ws ws' hw h =>
    simp only [optionalGroup]
    split
    · exact group_stops h w
    · exact (only_nil.absent _).stops _

/-! ### Heads of procedures and tasks -/

theorem headerStep_absent (prev : Word) (hw : w.place ≠ place) (rest : List Word)
    (k : HeaderWord) : Absent place (headerStep prev w rest k).events := by
  by_cases hk : k = .name
  · rw [hk]
    exact reference_absent _ hw _ _
  · exact (headerStep_silent prev w rest hk).absent place

theorem header_stops (h : Cut t post ws ws') (keyword prev : Word) :
    Stops t.place (header keyword prev ws).events (header keyword prev ws') := by
  fun_induction header keyword prev ws generalizing ws' with
  | case1 => cases h
  | case2 => exact (only_nil.absent _).stops _
  | case3 => exact ((only_singleton rfl).absent _).stops _
  | case4 prev w ws hends k hword step _ more =>
    rename_i ih
    have hmore : Reads True step.rest more.events more.rest := header_reads ..
    cases h with
    | here ht hpost =>
      have hname : k = .name := by
        rw [headerWord?_of_isIdentifier ht] at hword
        exact (Option.some.inj hword).symm
      subst hname
      -- Behind the name that is cut off the head only misses its semicolon.
      have hcut : header keyword prev [t] =
          ⟨reference (some prev) t false [] ++ [flawHere (.missingHeaderSemicolon keyword.text)
            keyword []], t, []⟩ := by
        rw [header, if_neg hends, hword]
        simp [headerStep, header]
      rw [hcut]
      apply Stops.append_right
      · refine reference_stops _ _ _ _ rfl (Only.append ?_ (only_singleton rfl))
        exact (reference_only ..).mono isAction_of_isPlain
      · exact hmore.absent hpost
    | @cons _ _ ws' hw h =>
      have habsent : Absent t.place step.events := headerStep_absent prev hw ws k
      rw [header, if_neg hends, hword]
      obtain ⟨-, rest', hstep, hcut⟩ | hbeyond := headerStep_cut h prev w k
      · simp only [hstep]
        exact (ih hcut).append_left habsent
      · exact (habsent.append (hmore.absent_of_suffix h hbeyond)).stops _

theorem unitHead_stops (h : Cut t post ws ws') (keyword name prev : Word) :
    Stops t.place (unitHead keyword name prev ws).events (unitHead keyword name prev ws') :=
  (header_stops h keyword prev).append_left ((only_singleton rfl).absent _)

theorem unitHead_absent (keyword name prev : Word) (hne : ∀ w ∈ ws, w.place ≠ place) :
    Absent place (unitHead keyword name prev ws).events := by
  have hheader : Reads True ws (header keyword prev ws).events (header keyword prev ws).rest :=
    header_reads ..
  exact Absent.append ((only_singleton rfl).absent place) (hheader.absent hne)

theorem bareUnit_stops (h : Cut t post ws ws') (keyword : Word) :
    Stops t.place (bareUnit keyword ws).events (bareUnit keyword ws') := by
  refine name_stops h (abandon_silent (.missingUnitName keyword.text) keyword keyword)
    (fun _ _ => rfl) ?_ ?_
  · intro hpost
    refine Absent.stops ?_ _
    split
    · rename_i hsecond
      exact unitHead_absent _ _ _ fun w hw => hpost w ((secondKeyword?_suffix hsecond).subset hw)
    · exact unitHead_absent _ _ _ hpost
  · intro w ws ws' _ h
    obtain ⟨hnone, hnone'⟩ | ⟨u, rest, rest', hsome, hsome', hcut⟩ := secondKeyword?_cut h
    · rw [hnone, hnone']
      exact unitHead_stops h keyword w w
    · rw [hsome, hsome']
      exact unitHead_stops hcut u w u

/-! ### Statements -/

/-- The end of a statement follows. -/
theorem Stops.thenFinish {last' : Word} {rest' : List Word}
    (h : Stops place events ⟨events', last', rest'⟩) (keyword last : Word) (rest : List Word) :
    Stops place (thenFinish keyword events last rest).events
      (thenFinish keyword events' last' rest') := by
  refine (h.append_right ((finishStatement_silent ..).absent _)).andThen (finishStatement ..) ?_
  intro hrest
  dsimp only at hrest
  rw [hrest]
  exact ⟨rfl, only_singleton rfl⟩

theorem callStatement_stops (h : Cut t post ws ws') (keyword : Word) :
    Stops t.place (callStatement keyword ws).events (callStatement keyword ws') :=
  name_stops h (abandon_silent .missingProcedureName keyword keyword) (fun _ _ => rfl)
    (fun _ => stops_singleton _ rfl (only_singleton rfl))
    fun hw _ => (absent_singleton rfl hw).stops _

theorem taskName_absent (keyword : Word) (rule : TaskName) (hw : w.place ≠ place)
    (ws : List Word) : Absent place (taskName keyword rule (w :: ws)).events := by
  simp only [taskName]
  split
  · dsimp only
    split
    · exact (only_singleton rfl).absent place
    · exact absent_singleton rfl hw
  · dsimp only
    split
    · exact (only_singleton rfl).absent place
    · exact only_nil.absent place

theorem taskStatement_stops (h : Cut t post ws ws') (keyword : Word) (rule : TaskName)
    (priority : Bool) :
    Stops t.place (taskStatement keyword rule priority ws).events
      (taskStatement keyword rule priority ws') := by
  have hclausal := taskClause_clausal keyword priority
  apply Stops.thenFinish
  cases h with
  | here ht hpost =>
    simp only [taskName, ht, if_true]
    apply Stops.append_right
    · exact stops_singleton _ rfl ((only_singleton (by split <;> rfl)).append only_nil)
    · exact hclausal.absent t _ hpost
  | @cons w ws ws' hw h =>
    have habsent := taskName_absent keyword rule hw ws
    obtain ⟨-, rest', hname, hcut⟩ | hbeyond := taskName_cut (h.cons hw) keyword rule
    · rw [hname]
      exact (hclausal.stops (clauseSize_reach hcut) _ _).append_left habsent
    · refine (habsent.append (hclausal.absent _ _ ?_)).stops _
      exact fun w hw => h.post_ne w (hbeyond.subset hw)

/-- The first of several names is told first. -/
theorem objectNames_events (keyword : Word) (kind : SymbolKind) (w : Word) (ws : List Word) :
    ∃ more, (objectNames keyword kind w ws).events =
        .operate keyword.text kind w.occurrence :: more ∧
      Reads True ws more (objectNames keyword kind w ws).rest := by
  fun_cases objectNames keyword kind w ws with
  | case1 c n rest _ hn more => exact ⟨more.events, rfl, (objectNames_reads _ _ n hn rest).cons c⟩
  | case2 c n rest => exact ⟨[], rfl, .skip (List.suffix_cons _ _)⟩
  | case3 c n rest => exact ⟨[], rfl, .refl _⟩
  | case4 c => exact ⟨[], rfl, .skip (List.suffix_cons _ _)⟩
  | case5 c => exact ⟨[], rfl, .refl _⟩
  | case6 => exact ⟨[], rfl, .refl _⟩

theorem objectNames_here (keyword : Word) (kind : SymbolKind) (hpost : ∀ w ∈ post, w.place ≠ place)
    (hrest : cut.rest = []) (honly : Only isAction cut.events) :
    Stops place (objectNames keyword kind t post).events cut := by
  obtain ⟨more, hevents, hreads⟩ := objectNames_events keyword kind t post
  rw [hevents, ← List.singleton_append]
  exact (stops_singleton _ hrest honly).append_right (hreads.absent hpost)

theorem objectNames_stops (h : Cut t post ws ws') (keyword : Word) (kind : SymbolKind) {w : Word}
    (hw : w.place ≠ t.place) :
    Stops t.place (objectNames keyword kind w ws).events (objectNames keyword kind w ws') := by
  have hone : ∀ {w : Word}, w.place ≠ t.place →
      Absent t.place [.operate keyword.text kind w.occurrence] := absent_singleton rfl
  fun_induction objectNames keyword kind w ws generalizing ws' with
  | case1 w c n rest hc hn more =>
    rename_i ih
    cases h with
    | here ht => simp [Word.isSymbol_of_isIdentifier ht] at hc
    | cons hc' h =>
      cases h with
      | here ht hpost =>
        simp only [objectNames, hc, ht, if_true]
        have hhere : Stops t.place (objectNames keyword kind t post).events
            ⟨[.operate keyword.text kind t.occurrence], t, []⟩ :=
          objectNames_here keyword kind hpost rfl (only_singleton rfl)
        exact hhere.append_left (hone hw)
      | cons hn' h =>
        rw [objectNames, if_pos hc, if_pos hn]
        exact (ih h hn').append_left (hone hw)
  | case2 | case3 | case4 | case5 | case6 => exact (hone hw).stops _

theorem objectStatement_stops (h : Cut t post ws ws') (keyword : Word) (kind : SymbolKind) :
    Stops t.place (objectStatement keyword kind ws).events (objectStatement keyword kind ws') := by
  refine name_stops h (abandon_silent (.missingObjectName keyword.text kind) keyword keyword)
    (fun _ _ => rfl) ?_ ?_
  · intro hpost
    apply Stops.thenFinish
    exact objectNames_here keyword kind hpost rfl (only_singleton rfl)
  · intro w ws ws' hw h
    exact (objectNames_stops h keyword kind hw).thenFinish keyword _ _

/-! ### Operands and values -/

/-- Of the words that are told of, none stands at the place of the name; or it is among them, and
is the last of those that are cut off. -/
theorem Reach.take_cases (h : Reach t post ws ws' n n') :
    (∀ w ∈ ws.take n, w.place ≠ t.place) ∨
      ∃ front back, ws.take n = front ++ t :: back ∧ ws'.take n' = front ++ [t] ∧
        ws'.drop n' = [] ∧ (∀ w ∈ front, w.place ≠ t.place) ∧ ∀ w ∈ back, w.place ≠ t.place := by
  induction h with
  | stop => simp
  | past h n =>
    exact Or.inr ⟨[], post.take n, rfl, rfl, rfl, by simp,
      fun w hw => h.post_ne w (List.mem_of_mem_take hw)⟩
  | @cons w ws ws' n n' hw h ih =>
    obtain hne | ⟨front, back, htake, htake', hdrop, hfront, hback⟩ := ih
    · exact Or.inl (by simpa using ⟨hw, hne⟩)
    · refine Or.inr ⟨w :: front, back, ?_, ?_, hdrop, ?_, hback⟩
      · rw [List.take_succ_cons, htake, List.cons_append]
      · rw [List.take_succ_cons, htake', List.cons_append]
      · exact List.forall_mem_cons.mpr ⟨hw, hfront⟩

theorem operandEvents_append (keyword : Word) (front : List Word) (w : Word) (back : List Word) :
    operandEvents keyword (front ++ w :: back) =
      front.map (fun w => .refer w.occurrence false false) ++
        operandEvents keyword (w :: back) := by
  induction front with
  | nil => rfl
  | cons first front ih =>
    rw [List.map_cons, List.cons_append, List.cons_append, ← ih]
    cases front with
    | nil => rfl
    | cons second front => rfl

theorem operandEvents_absent (keyword : Word) (hne : ∀ w ∈ ws, w.place ≠ place) :
    Absent place (operandEvents keyword (ws.filter (·.isIdentifier))) := by
  have hreads : Reads True (ws.filter (·.isIdentifier) ++ [])
      (operandEvents keyword (ws.filter (·.isIdentifier))) [] :=
    operandEvents_reads keyword _ [] fun w hw => (List.mem_filter.mp hw).2
  rw [List.append_nil] at hreads
  exact hreads.absent fun w hw => hne w (List.mem_filter.mp hw).1

/-- The name is told as a semaphore if it comes last, and as another operand otherwise. -/
theorem operandEvents_stops (h : Reach t post ws ws' n n') (keyword last : Word) :
    Stops t.place (operandEvents keyword ((ws.take n).filter (·.isIdentifier)))
      ⟨operandEvents keyword ((ws'.take n').filter (·.isIdentifier)), last, ws'.drop n'⟩ := by
  obtain hne | ⟨front, back, htake, htake', hdrop, hfront, hback⟩ := h.take_cases
  · exact (operandEvents_absent keyword hne).stops _
  · have ht := h.cut.isIdentifier
    rw [htake, htake', hdrop, List.filter_append, List.filter_append, List.filter_cons_of_pos ht,
      List.filter_cons_of_pos ht, operandEvents_append, operandEvents_append]
    have hname : Stops t.place (operandEvents keyword (t :: back.filter (·.isIdentifier)))
        ⟨operandEvents keyword [t], last, []⟩ := by
      have hlater := operandEvents_absent keyword hback
      cases hnames : back.filter (·.isIdentifier) with
      | nil => exact stops_singleton _ rfl (only_singleton rfl)
      | cons w names =>
        rw [hnames] at hlater
        exact (stops_singleton _ rfl (only_singleton rfl)).append_right hlater
    apply hname.append_left
    intro e he _ o ho
    obtain ⟨w, hw, rfl⟩ := List.mem_map.mp he
    cases ho
    exact hfront w (List.mem_filter.mp hw).1

/-- So many words are values of a transfer. -/
theorem valueCount_reach (h : Reach t post ws ws' n n') :
    Reach t post ws ws' (valueCount n ws) (valueCount n' ws') := by
  induction h with
  | stop h => exact .stop h
  | past h n =>
    simp only [valueCount, List.take_succ_cons, List.takeWhile_cons,
      Word.isKeyword_of_isIdentifier h.isIdentifier]
    exact .past h _
  | @cons w ws ws' n n' hw h ih =>
    simp only [valueCount, List.take_succ_cons, List.takeWhile_cons]
    split
    · exact .cons hw ih
    · exact .stop (h.cut.cons hw)

theorem transferStatement_stops (h : Cut t post ws ws') (keyword : Word) :
    Stops t.place (transferStatement keyword ws).events (transferStatement keyword ws') := by
  have hclause := clauseSize_reach h
  have hvalues := references_clausal.stops (valueCount_reach hclause) keyword
    (lastOf keyword (clauseSize ws') ws')
  refine Stops.thenFinish (hvalues.congr_rest ?_) keyword _ _
  intro hrest
  have hle := List.drop_eq_nil_iff.mp hrest
  exact List.drop_eq_nil_of_le (Nat.le_trans hle (valueCount_le _ _))

/-- A statement that starts with a keyword, other than a declaration. -/
theorem keywordStatement_stops (h : Cut t post ws ws') (w : Word) {head : StatementHead}
    (hhead : head ≠ .declaration) :
    Stops t.place (keywordStatement w ws head).events (keywordStatement w ws' head) := by
  cases head with
  | moduleHead block => exact ((moduleHead_silent ..).absent _).stops _
  | unitHead => exact bareUnit_stops h w
  | declaration => exact absurd rfl hhead
  | loopControl => exact ((loopControl_silent ..).absent _).stops _
  | alternative => exact alternative_stops h w
  | call => exact callStatement_stops h w
  | jump => exact ((jumpStatement_silent ..).absent _).stops _
  | semaphoreArray => exact (operandEvents_stops (clauseSize_reach h) w _).thenFinish w _ _
  | taskControl rule priority => exact taskStatement_stops h w rule priority
  | objects kind => exact objectStatement_stops h w kind
  | transfer => exact transferStatement_stops h w
  | systemPart | typeDefinition | other => exact (only_nil.absent _).stops _
  | blockOpener | otherwise | blockCloser => exact ((only_singleton rfl).absent _).stops _

theorem nameStatement_stops (h : Cut t post ws ws') (prev : Option Word) (start : Bool)
    (hw : w.place ≠ t.place) :
    Stops t.place (nameStatement prev start w ws).1.events (nameStatement prev start w ws').1 := by
  obtain ⟨hnone, hnone'⟩ | ⟨u, rest, rest', hsome, hsome', hcut⟩ := secondKeyword?_cut h
  · refine Absent.stops ?_ _
    simp only [nameStatement, hnone]
    split
    · split
      · exact (only_singleton rfl).absent _
      · exact reference_absent _ hw _ _
    · exact reference_absent _ hw _ _
  · simp only [nameStatement, hsome, hsome']
    exact unitHead_stops hcut u w u

/-- What is read of the name itself. -/
theorem nameStatement_here (prev : Option Word) (start : Bool)
    (hpost : ∀ w ∈ post, w.place ≠ t.place) :
    Stops t.place (nameStatement prev start t post).1.events (nameStatement prev start t []).1 := by
  have hcut : nameStatement prev start t [] = (⟨reference prev t false [], t, []⟩, false) := rfl
  rw [hcut]
  have href : ∀ write, Stops t.place (reference prev t write post)
      ⟨reference prev t false [], t, []⟩ := fun write =>
    reference_stops _ _ _ _ rfl ((reference_only ..).mono isAction_of_isPlain)
  unfold nameStatement
  split
  · rename_i hsecond
    refine (unitHead_absent _ _ _ ?_).stops _
    exact fun w hw => hpost w ((secondKeyword?_suffix hsecond).subset hw)
  · split
    · split
      · exact ((only_singleton rfl).absent _).stops _
      · exact href _
    · exact href _

/-! ### Whole programs -/

/-- The places of the words that are read by declarations and specifications, from the word `prev`
on. -/
def declarationPlaces (prev : Option Word) (start : Bool) (words : List Word) : List Nat :=
  match words with
  | [] => []
  | w :: rest =>
    let r := statement prev start w rest
    have := (statement_suffix prev start w rest).length_le
    (if w.kind = .keyword ∧ statementHead w.text = .declaration then
      (rest.take (rest.length - r.1.rest.length)).map (·.place) else []) ++
      declarationPlaces (some r.1.last) r.2 r.1.rest
termination_by words.length
decreasing_by simp only [List.length_cons]; omega

variable {start : Bool} {before : Option Word}

/-- Words that are read beyond the name are read with it. -/
theorem Cut.mem_take (h : Cut t post ws ws') (hsuffix : rest <:+ post) :
    t ∈ ws.take (ws.length - rest.length) := by
  obtain ⟨front, rfl, -, -⟩ := h.exists_front
  have hle := hsuffix.length_le
  rw [List.take_append]
  refine List.mem_append_right _ ?_
  have hcount : (front ++ t :: post).length - rest.length - front.length =
      post.length - rest.length + 1 := by
    simp only [List.length_append, List.length_cons]
    omega
  rw [hcount, List.take_succ_cons]
  exact List.mem_cons_self

/-- A statement that reads the name is followed by nothing that resolves it. -/
theorem stops_of_statement (hcut : Cut t post ws ws') {ws₁ ws₂ : List Word}
    (h : Stops t.place (statement before start w ws₁).1.events (statement before start w ws₂).1)
    (hsuffix : (statement before start w ws₁).1.rest <:+ post) :
    Stops t.place (eventsAfter before start (w :: ws₁))
      ⟨eventsAfter before start (w :: ws₂), t, []⟩ := by
  rw [eventsAfter, eventsAfter]
  refine (h.append_right ((eventsAfter_reads ..).absent_of_suffix hcut hsuffix)).andThen
    ⟨eventsAfter _ _ _, t, []⟩ ?_
  intro hrest
  rw [hrest, eventsAfter]
  exact ⟨rfl, only_nil⟩

/-- What the words that are cut off behind a name tell, if the name is resolved in the whole words,
and not in a declaration: what these tell in front of it, and then actions only. -/
theorem eventsAfter_stops (h : Cut t post ws ws') (before : Option Word) (start : Bool)
    (hout : t.place ∉ declarationPlaces before start ws) :
    Stops t.place (eventsAfter before start ws) ⟨eventsAfter before start ws', t, []⟩ := by
  -- A statement may read many words, so the induction is on their number.
  induction hn : ws.length using Nat.strongRecOn generalizing before start ws ws' with
  | _ n ih =>
    cases h with
    | here ht hpost =>
      have hkind : t.kind = .identifier := of_decide_eq_true ht
      have hname : ∀ ws, statement before start t ws = nameStatement before start t ws := by
        simp [statement, hkind]
      refine stops_of_statement (.here ht hpost) ?_ (statement_suffix before start t post)
      rw [hname, hname]
      exact nameStatement_here before start hpost
    | @cons w ws ws' hw h =>
      rw [declarationPlaces, List.mem_append, not_or] at hout
      obtain ⟨hstart, rest', hstatement, hcut⟩ | hbeyond := statement_cut h before start w
      · have hle := (statement_suffix before start w ws).length_le
        have habsent := (statement_reads before start w ws).absent_of_cut (h.cons hw) hcut
        rw [eventsAfter, eventsAfter]
        simp only [hstatement, hstart]
        refine Stops.append_left (ih _ ?_ hcut _ _ hout.2 rfl) habsent
        rw [← hn, List.length_cons]
        omega
      -- The statement reads the name: what it resolves there is known by its kind.
      · refine stops_of_statement h ?_ hbeyond
        have hread := h.mem_take hbeyond
        unfold statement
        split
        · rename_i hkind
          refine keywordStatement_stops h w ?_
          intro hhead
          rw [if_pos ⟨hkind, hhead⟩] at hout
          exact hout.1 (List.mem_map_of_mem hread)
        · exact nameStatement_stops h before start hw
        · exact (only_nil.absent _).stops _

end Pearl.Event
