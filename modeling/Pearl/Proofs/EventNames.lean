import Mathlib.Data.List.Perm.Subperm
import Pearl.Event.Statement

namespace Pearl

def Word.names (words : List Word) : List Occurrence :=
  (words.filter (·.isIdentifier)).map Word.occurrence

theorem Word.names_append (words words' : List Word) :
    names (words ++ words') = names words ++ names words' := by
  rw [names, List.filter_append, List.map_append, names, names]

theorem Word.exists_of_mem_names {words : List Word} {o : Occurrence} (h : o ∈ names words) :
    ∃ w ∈ words, w.isIdentifier = true ∧ w.occurrence = o := by
  obtain ⟨w, hw, rfl⟩ := List.mem_map.mp h
  exact ⟨w, (List.mem_filter.mp hw).1, (List.mem_filter.mp hw).2, rfl⟩

def Word.InOrder (words : List Word) : Prop := words.Pairwise fun w w' => w.place < w'.place

namespace Event

/-! ### The name of an event -/

def occurrence? : Event → Option Occurrence
  | refer o .. | operate _ _ o | declare o .. | label o | jump o => some o
  | openUnit _ o | parameter o .. | loopVariable o => some o
  | openModule _ _ o => o
  | flaw .. | result _ | exported | openBlock .. | otherwise _ | close .. => none

def isReference : Event → Bool
  | refer .. | operate .. => true
  | _ => false

def isAssignment : Event → Bool
  | refer _ write _ => write
  | _ => false

def occurrences (events : List Event) : List Occurrence := events.filterMap occurrence?

/-- If the first event brings its name along and the second one resolves its own, then the first
name stands before the second one. -/
def Precedes (e e' : Event) : Prop :=
  e.isReference = false → e'.isReference = true →
    ∀ o ∈ e.occurrence?, ∀ o' ∈ e'.occurrence?, o.place < o'.place

/-- The events are read off the words in front of `rest`: each is about one name of its own among
them, and a name that is resolved stands after all names that came before it. Assignments are among
the events only if `assigns`. -/
structure Reads (assigns : Prop) (words : List Word) (events : List Event) (rest : List Word) :
    Prop where
  used : ∃ used, words = used ++ rest ∧ (occurrences events).Subperm (Word.names used)
  plain : ∀ e ∈ events, e.isAssignment = true → assigns
  ordered : Word.InOrder words → events.Pairwise Precedes

variable {assigns : Prop} {words mid rest : List Word} {events events' : List Event} {e : Event}
  {w : Word}

theorem precedes_of_not_isReference {e' : Event} (h : e'.isReference = false) (e : Event) :
    Precedes e e' := by
  intro _ hr
  rw [h] at hr
  cases hr

/-! ### Composition -/

theorem Reads.mono (h : Reads assigns words events rest) {assigns' : Prop}
    (himp : assigns → assigns') : Reads assigns' words events rest :=
  ⟨h.used, fun e he ha => himp (h.plain e he ha), h.ordered⟩

/-- Words may be passed over. -/
theorem Reads.skip (h : rest <:+ words) : Reads assigns words [] rest := by
  obtain ⟨used, hused⟩ := h
  exact ⟨⟨used, hused.symm, List.nil_subperm⟩, by simp, fun _ => .nil⟩

theorem Reads.refl (words : List Word) : Reads assigns words [] words := .skip (List.suffix_refl _)

/-- Events without a name may be told. -/
theorem Reads.nameless (hsuffix : rest <:+ words) (he : e.occurrence? = none) :
    Reads assigns words [e] rest := by
  obtain ⟨used, hused⟩ := hsuffix
  refine ⟨⟨used, hused.symm, ?_⟩, ?_, fun _ => List.pairwise_singleton _ _⟩
  · rw [occurrences, List.filterMap_cons_none he]
    exact List.nil_subperm
  · intro e' he' ha
    rw [List.mem_singleton.mp he'] at ha
    cases e with
    | refer o write call => cases he
    | _ => cases ha

/-- A name may be told by one event. -/
theorem Reads.name (hw : w.isIdentifier = true) (he : e.occurrence? = some w.occurrence)
    (ha : e.isAssignment = true → assigns) : Reads assigns (w :: rest) [e] rest := by
  refine ⟨⟨[w], rfl, ?_⟩, ?_, fun _ => List.pairwise_singleton _ _⟩
  · rw [occurrences, List.filterMap_cons_some he, Word.names, List.filter_cons_of_pos hw]
    exact List.Subperm.refl _
  · intro e' he'
    rw [List.mem_singleton.mp he']
    exact ha

theorem occurrences_append (events events' : List Event) :
    occurrences (events ++ events') = occurrences events ++ occurrences events' :=
  List.filterMap_append

/-- A name among the words before comes before a name among the words after. -/
theorem place_lt {used used' : List Word} (hwords : Word.InOrder (used ++ (used' ++ rest)))
    (hsub : (occurrences events).Subperm (Word.names used))
    (hsub' : (occurrences events').Subperm (Word.names used')) {e e' : Event} (he : e ∈ events)
    (he' : e' ∈ events') : ∀ o ∈ e.occurrence?, ∀ o' ∈ e'.occurrence?, o.place < o'.place := by
  intro o ho o' ho'
  have hmem : o ∈ Word.names used := hsub.subset (List.mem_filterMap.mpr ⟨e, he, ho⟩)
  have hmem' : o' ∈ Word.names used' := hsub'.subset (List.mem_filterMap.mpr ⟨e', he', ho'⟩)
  obtain ⟨w, hw, -, rfl⟩ := Word.exists_of_mem_names hmem
  obtain ⟨w', hw', -, rfl⟩ := Word.exists_of_mem_names hmem'
  exact (List.pairwise_append.mp hwords).2.2 w hw w' (List.mem_append_left _ hw')

theorem Reads.trans (h : Reads assigns words events mid) (h' : Reads assigns mid events' rest) :
    Reads assigns words (events ++ events') rest := by
  obtain ⟨used, rfl, hsub⟩ := h.used
  obtain ⟨used', rfl, hsub'⟩ := h'.used
  refine ⟨⟨used ++ used', (List.append_assoc ..).symm, ?_⟩, ?_, ?_⟩
  · rw [occurrences_append, Word.names_append]
    exact List.Subperm.append hsub hsub'
  · intro e he
    exact (List.mem_append.mp he).elim (h.plain e) (h'.plain e)
  · intro hwords
    refine List.pairwise_append.mpr ⟨h.ordered hwords, ?_, ?_⟩
    · exact h'.ordered (List.pairwise_append.mp hwords).2.1
    · intro e he e' he' _ _
      exact place_lt hwords hsub hsub' he he'

/-- What is read first may be told last if none of it is resolved. -/
theorem Reads.swap (h : Reads assigns words events mid) (h' : Reads assigns mid events' rest)
    (hevents : ∀ e ∈ events, e.isReference = false) :
    Reads assigns words (events' ++ events) rest := by
  obtain ⟨used, rfl, hsub⟩ := h.used
  obtain ⟨used', rfl, hsub'⟩ := h'.used
  refine ⟨⟨used ++ used', (List.append_assoc ..).symm, ?_⟩, ?_, ?_⟩
  · rw [occurrences_append, Word.names_append]
    exact (List.Subperm.append hsub' hsub).trans List.perm_append_comm.subperm
  · intro e he
    exact (List.mem_append.mp he).elim (h'.plain e) (h.plain e)
  · intro hwords
    refine List.pairwise_append.mpr ⟨?_, h.ordered hwords, ?_⟩
    · exact h'.ordered (List.pairwise_append.mp hwords).2.1
    · intro e _ e' he'
      exact precedes_of_not_isReference (hevents e' he') e

theorem Reads.skip_left (hsuffix : mid <:+ words) (h : Reads assigns mid events rest) :
    Reads assigns words events rest := (Reads.skip hsuffix).trans h

theorem Reads.cons (w : Word) (h : Reads assigns words events rest) :
    Reads assigns (w :: words) events rest := h.skip_left (List.suffix_cons w words)

theorem Reads.skip_right (h : Reads assigns words events mid) (hsuffix : rest <:+ mid) :
    Reads assigns words events rest := by
  have hskip := h.trans (Reads.skip hsuffix)
  rwa [List.append_nil] at hskip

/-! ### Names that are declared together -/

/-- Every name of a list may be told, each by an event of the same kind that resolves nothing. -/
theorem Reads.names {f : Word → Event} (hname : ∀ w, (f w).occurrence? = some w.occurrence)
    (hf : ∀ w, (f w).isReference = false) (words rest : List Word) :
    Reads assigns (words ++ rest) ((words.filter (·.isIdentifier)).map f) rest := by
  have hplain : ∀ w, (f w).isAssignment = false := by
    intro w
    have hw := hf w
    cases hfw : f w with
    | refer o write call =>
      rw [hfw] at hw
      cases hw
    | _ => rfl
  induction words with
  | nil => exact .refl rest
  | cons w words ih =>
    by_cases hw : w.isIdentifier = true
    · rw [List.filter_cons_of_pos hw, List.map_cons]
      have hone : Reads assigns (w :: (words ++ rest)) [f w] (words ++ rest) := by
        apply Reads.name hw (hname w)
        intro ha
        rw [hplain w] at ha
        cases ha
      exact hone.trans ih
    · rw [List.filter_cons_of_neg hw]
      exact ih.cons w

/-! ### Clauses -/

theorem flawHere_reads (f : SyntaxFlaw) (fallback : Word) (rest : List Word)
    (hsuffix : rest <:+ words) : Reads assigns words [flawHere f fallback rest] rest :=
  .nameless hsuffix rfl

theorem abandon_reads (f : SyntaxFlaw) (fallback prev : Word) (rest : List Word) :
    Reads assigns rest (abandon f fallback prev rest).events (abandon f fallback prev rest).rest :=
  .nameless (abandon_suffix ..) rfl

theorem finishStatement_reads (keyword prev : Word) (rest : List Word) :
    Reads assigns rest (finishStatement keyword prev rest).events
      (finishStatement keyword prev rest).rest := by
  unfold finishStatement
  split
  · split
    · exact .skip (List.suffix_cons _ _)
    · exact abandon_reads ..
  · exact abandon_reads ..

/-- A name is told by a reference, unless it is a component of a structure. -/
theorem reference_reads (prev : Option Word) (hw : w.isIdentifier = true) (write : Bool)
    (rest : List Word) (hwrite : write = true → assigns) :
    Reads assigns (w :: rest) (reference prev w write rest) rest := by
  unfold reference
  split
  · exact .skip (List.suffix_cons w rest)
  · exact .name hw rfl hwrite

theorem references_reads (prev : Word) (n : Nat) (words : List Word) :
    Reads assigns words (references prev n words) (words.drop n) := by
  induction n generalizing prev words with
  | zero => exact .refl words
  | succ n ih =>
    cases words with
    | nil => exact .refl []
    | cons w rest =>
      rw [references, List.drop_succ_cons]
      refine Reads.trans ?_ (ih w rest)
      split
      · rename_i hw
        exact reference_reads (some prev) hw false rest (by simp)
      · exact .skip (List.suffix_cons w rest)

theorem groupEnd_reads (opening last : Word) (rest : List Word) :
    Reads assigns rest (groupEnd opening last rest).events (groupEnd opening last rest).rest := by
  unfold groupEnd
  split
  · split
    · exact .skip (List.suffix_cons _ _)
    · exact flawHere_reads _ _ _ (List.suffix_refl _)
  · exact flawHere_reads _ _ _ (List.suffix_refl _)

theorem group_reads (resolve : Bool) (opening : Word) (rest : List Word) :
    Reads assigns rest (group resolve opening rest).reading.events
      (group resolve opening rest).reading.rest := by
  have hinner : Reads assigns rest
      (if resolve then references opening (groupSize 0 rest) rest else [])
      (rest.drop (groupSize 0 rest)) := by
    cases resolve with
    | true => exact references_reads opening _ rest
    | false => exact .skip (List.drop_suffix _ _)
  exact hinner.trans (groupEnd_reads ..)

theorem optionalGroup_reads (brackets : List String) (resolve : Bool) (prev : Word)
    (rest : List Word) :
    Reads assigns rest (groupEvents (optionalGroup brackets resolve rest))
      (afterGroup (optionalGroup brackets resolve rest) prev rest).2 := by
  unfold optionalGroup
  split
  · split
    · exact (group_reads resolve _ _).cons _
    · exact .refl _
  · exact .refl _

/-! ### Declarations -/

/-- The names of a declaration are told by events that resolve nothing. -/
theorem names?_reads {f : Word → Event} (hname : ∀ w, (f w).occurrence? = some w.occurrence)
    (hf : ∀ w, (f w).isReference = false) {ns : Names} (h : names? w rest = some ns) :
    Reads assigns (w :: rest) (ns.names.map f) ns.rest := by
  unfold names? at h
  split at h
  · cases h
    apply Reads.cons
    have hnames : Reads assigns
        (rest.take (namesSize rest) ++ rest.drop (namesSize rest)) _ _ :=
      .names hname hf (rest.take (namesSize rest)) (rest.drop (namesSize rest))
    rw [List.take_append_drop] at hnames
    unfold bracketedNames namesEnd
    dsimp only
    split
    · split
      · rename_i w left hdrop _
        rw [hdrop] at hnames
        exact hnames.skip_right (List.suffix_cons w left)
      · exact hnames
    · exact hnames
  · split at h
    · rename_i hw
      cases h
      have hone : Reads assigns ([w] ++ rest) _ rest := .names hname hf [w] rest
      rw [List.filter_cons_of_pos hw] at hone
      exact hone
    · cases h

theorem withGroup_reads (item : Item) (w : Word) (rest : List Word) (brackets : List String)
    (resolve : Bool) :
    Reads assigns rest (withGroup item w rest brackets resolve).reading.events
      (withGroup item w rest brackets resolve).reading.rest :=
  optionalGroup_reads brackets resolve w rest

theorem attributeStep_reads (item : Item) (w : Word) (rest : List Word) :
    Reads assigns rest (attributeStep item w rest).reading.events
      (attributeStep item w rest).reading.rest := by
  unfold attributeStep
  cases attributeWord w
  case inv | ref | userType | other => exact .refl rest
  case bracket => exact group_reads ..
  all_goals exact withGroup_reads ..

theorem itemAttributes_reads (item : Item) (prev : Word) (rest : List Word) :
    Reads assigns rest (itemAttributes item prev rest).reading.events
      (itemAttributes item prev rest).reading.rest := by
  fun_induction itemAttributes item prev rest with
  | case1 => exact .refl []
  | case2 => exact .refl _
  | case3 item prev w rest _ step _ more ih =>
    exact ((attributeStep_reads item w rest).cons w).trans ih

theorem itemTail_reads (specification : Bool) (prev : Word) (rest : List Word) :
    Reads assigns rest (itemTail specification prev rest).reading.events
      (itemTail specification prev rest).reading.rest :=
  (optionalGroup_reads ..).trans (itemAttributes_reads ..)

theorem declarationItem_reads (keyword : Word) (specification : Bool) {ns : Names}
    (h : names? w rest = some ns) :
    Reads assigns (w :: rest) (declarationItem keyword specification ns).events
      (declarationItem keyword specification ns).rest := by
  have hflaws : Reads assigns ns.rest
      (if ns.closed then [] else [flawHere .missingListBracket keyword ns.rest]) ns.rest := by
    split
    · exact .refl _
    · exact flawHere_reads _ _ _ (List.suffix_refl _)
  unfold declarationItem
  refine Reads.swap (names?_reads (fun _ => rfl) (fun _ => rfl) h)
    (hflaws.trans (itemTail_reads ..)) ?_
  · intro e he
    obtain ⟨w, -, rfl⟩ := List.mem_map.mp he
    rfl

theorem nameless_reads (keyword prev : Word) (h : Reads assigns words events mid) :
    Reads assigns words (nameless keyword events prev mid).events
      (nameless keyword events prev mid).rest :=
  h.trans (abandon_reads ..)

theorem declarationItems_reads (keyword : Word) (specification : Bool) (prev : Word)
    (rest : List Word) :
    Reads assigns rest (declarationItems keyword specification prev rest).events
      (declarationItems keyword specification prev rest).rest := by
  fun_induction declarationItems keyword specification prev rest with
  | case1 => exact nameless_reads _ _ (.refl [])
  | case2 => exact nameless_reads _ _ (.refl _)
  | case3 prev w left ns h he =>
    have hsuffix : ns.rest <:+ w :: left := (names?_suffix h).trans (List.suffix_cons w left)
    apply nameless_reads
    split
    · exact .skip hsuffix
    · exact flawHere_reads _ _ _ hsuffix
  | case4 prev w left ns h he item next ih =>
    refine (declarationItem_reads keyword specification h).trans ?_
    simp only [next]
    split
    · rename_i comma more hc
      rw [comma?_eq_some hc]
      exact (ih comma more hc).cons comma
    · exact finishStatement_reads ..

/-! ### Heads of procedures and tasks -/

theorem parameterType_reads (events : List Event) (names type : List Word) (prev : Word)
    (h : Reads assigns words (events ++ parameterEvents names (type ++ mid.take (typeSize 0 mid)))
      mid) :
    Reads assigns words (parameterType events names type prev mid).events
      (parameterType events names type prev mid).rest :=
  h.skip_right (parameterType_suffix ..)

theorem parameterItem_reads (w : Word) (rest : List Word) :
    Reads assigns (w :: rest) (parameterItem w rest).events (parameterItem w rest).rest := by
  unfold parameterItem
  split
  · rename_i ns h
    apply parameterType_reads
    exact names?_reads (fun _ => rfl) (fun _ => rfl) h
  · split
    · exact .nameless (List.suffix_cons w rest) rfl
    · apply parameterType_reads
      exact .nameless (List.suffix_cons w rest) rfl

theorem parameters_reads (opening prev : Word) (rest : List Word) :
    Reads assigns rest (parameters opening prev rest).events
      (parameters opening prev rest).rest := by
  fun_induction parameters opening prev rest with
  | case1 => exact flawHere_reads _ _ _ (List.suffix_refl _)
  | case2 => exact .skip (List.suffix_cons _ _)
  | case3 => exact flawHere_reads _ _ _ (List.suffix_refl _)
  | case4 prev w rest _ _ item _ more ih => exact (parameterItem_reads w rest).trans ih

theorem headerGroup_reads {before : List Event} {after : Group → List Event}
    (hbefore : ∀ words : List Word, Reads assigns words before words)
    (hafter : ∀ (g : Group) (words : List Word), Reads assigns words (after g) words) (w : Word)
    (rest : List Word) :
    Reads assigns rest (headerGroup before after w rest).events
      (headerGroup before after w rest).rest := by
  unfold headerGroup
  refine Reads.trans ((hbefore rest).trans (optionalGroup_reads ["("] false w rest)) ?_
  cases optionalGroup ["("] false rest with
  | none => exact .refl _
  | some g => exact hafter g _

theorem isIdentifier_of_headerWord? (h : headerWord? w = some .name) : w.isIdentifier = true := by
  unfold headerWord? at h
  split at h
  · split at h <;> cases h
  · split at h
    · cases h
    · split at h
      · cases h
      · split at h
        · cases h
        · split at h <;> cases h
  · rename_i hkind
    exact decide_eq_true hkind
  · cases h

theorem headerStep_reads (prev w : Word) (rest : List Word) {k : HeaderWord}
    (hk : headerWord? w = some k) :
    Reads assigns (w :: rest) (headerStep prev w rest k).events
      (headerStep prev w rest k).rest := by
  cases k with
  | parameters => exact (parameters_reads w w rest).cons w
  | returns =>
    apply Reads.cons
    exact headerGroup_reads .refl (fun _ _ => .nameless (List.suffix_refl _) rfl) w rest
  | exported =>
    apply Reads.cons
    exact headerGroup_reads (fun _ => .nameless (List.suffix_refl _) rfl) (fun _ => .refl) w rest
  | name =>
    exact reference_reads (some prev) (isIdentifier_of_headerWord? hk) false rest (by simp)
  | other => exact .skip (List.suffix_cons w rest)

theorem header_reads (keyword prev : Word) (rest : List Word) :
    Reads assigns rest (header keyword prev rest).events (header keyword prev rest).rest := by
  fun_induction header keyword prev rest with
  | case1 => exact flawHere_reads _ _ _ (List.suffix_refl _)
  | case2 => exact .skip (List.suffix_cons _ _)
  | case3 => exact flawHere_reads _ _ _ (List.suffix_refl _)
  | case4 prev w rest _ k hk step _ more ih => exact (headerStep_reads prev w rest hk).trans ih

theorem unitHead_reads (keyword name prev : Word) (hname : name.isIdentifier = true)
    (hsuffix : rest <:+ words) :
    Reads assigns (name :: words) (unitHead keyword name prev rest).events
      (unitHead keyword name prev rest).rest := by
  have hopen : Reads assigns (name :: words)
      [.openUnit (keyword.text = "TASK") name.occurrence] words :=
    .name hname rfl (by simp [isAssignment])
  exact hopen.trans ((header_reads keyword prev rest).skip_left hsuffix)

/-! ### Statements -/

theorem moduleBracket_reads (keyword last : Word) (rest : List Word) :
    Reads assigns rest (moduleBracket keyword last rest).events
      (moduleBracket keyword last rest).rest := by
  unfold moduleBracket
  split
  · split
    · exact .skip (List.suffix_cons _ _)
    · exact flawHere_reads _ _ _ (List.suffix_refl _)
  · exact flawHere_reads _ _ _ (List.suffix_refl _)

theorem moduleName_cases (keyword : Word) (rest : List Word) :
    ((moduleName keyword rest).1 = none ∧
      Reads assigns rest (moduleName keyword rest).2.events (moduleName keyword rest).2.rest) ∨
    ∃ name mid, (moduleName keyword rest).1 = some name ∧ name.isIdentifier = true ∧
      name :: mid <:+ rest ∧
      Reads assigns mid (moduleName keyword rest).2.events (moduleName keyword rest).2.rest := by
  unfold moduleName
  split
  · rename_i w left
    split
    · unfold bracketedModuleName
      split
      · rename_i name more
        split
        · rename_i hname
          exact Or.inr ⟨name, more, rfl, hname, List.suffix_cons _ _, moduleBracket_reads ..⟩
        · exact Or.inl ⟨rfl, (moduleBracket_reads ..).cons w⟩
      · exact Or.inl ⟨rfl, (moduleBracket_reads ..).cons w⟩
    · split
      · rename_i hname
        exact Or.inr ⟨w, left, rfl, hname, List.suffix_refl _, .refl left⟩
      · exact Or.inl ⟨rfl, .refl _⟩
  · exact Or.inl ⟨rfl, .refl _⟩

/-- The name of a module is told after the flaws behind it. -/
theorem moduleHead_reads (block : Block) (keyword : Word) (rest : List Word) :
    Reads assigns rest (moduleHead block keyword rest).events
      (moduleHead block keyword rest).rest := by
  refine Reads.skip_right ?_ (dropSemicolon_suffix (moduleName keyword rest).2.last _)
  change Reads assigns rest ((moduleName keyword rest).2.events ++
    (if (moduleName keyword rest).1.isSome then []
      else [flawHere (.missingModuleName keyword.text) keyword (moduleName keyword rest).2.rest]) ++
    [.openModule block keyword.place ((moduleName keyword rest).1.map Word.occurrence)]) _
  obtain ⟨hnone, hreads⟩ | ⟨name, mid, hsome, hname, hsuffix, hreads⟩ :=
    moduleName_cases keyword rest
  · rw [hnone]
    refine (hreads.trans ?_).trans (.nameless (List.suffix_refl _) rfl)
    exact flawHere_reads _ _ _ (List.suffix_refl _)
  · rw [hsome]
    refine Reads.skip_left hsuffix (Reads.swap ?_ (hreads.trans (.refl _)) ?_)
    · exact .name hname rfl (by simp [isAssignment])
    · intro e he
      rw [List.mem_singleton.mp he]
      rfl

theorem bareUnit_reads (keyword : Word) (rest : List Word) :
    Reads assigns rest (bareUnit keyword rest).events (bareUnit keyword rest).rest := by
  unfold bareUnit
  split
  · rename_i name left
    split
    · rename_i hname
      split
      · rename_i h
        exact unitHead_reads _ _ _ hname (secondKeyword?_suffix h)
      · exact unitHead_reads _ _ _ hname (List.suffix_refl _)
    · exact abandon_reads ..
  · exact abandon_reads ..

theorem thenFinish_reads (keyword prev : Word) (h : Reads assigns words events mid) :
    Reads assigns words (thenFinish keyword events prev mid).events
      (thenFinish keyword events prev mid).rest :=
  h.trans (finishStatement_reads ..)

theorem callStatement_reads (keyword : Word) (rest : List Word) :
    Reads assigns rest (callStatement keyword rest).events (callStatement keyword rest).rest := by
  unfold callStatement
  split
  · split
    · rename_i hname
      exact .name hname rfl (by simp [isAssignment])
    · exact abandon_reads ..
  · exact abandon_reads ..

theorem jumpStatement_reads (keyword : Word) (rest : List Word) :
    Reads assigns rest (jumpStatement keyword rest).events (jumpStatement keyword rest).rest := by
  unfold jumpStatement
  split
  · split
    · rename_i htarget
      exact thenFinish_reads _ _ (.name htarget rfl (by simp [isAssignment]))
    · exact abandon_reads ..
  · exact abandon_reads ..

theorem taskClause_reads (keyword : Word) (priority : Bool) (prev : Word) (n : Nat)
    (words : List Word) :
    Reads assigns words (taskClause keyword priority prev n words) (words.drop n) := by
  induction n generalizing prev words with
  | zero => exact .refl words
  | succ n ih =>
    cases words with
    | nil => exact .refl []
    | cons w rest =>
      rw [taskClause, List.drop_succ_cons]
      refine Reads.trans ?_ (ih w rest)
      split
      · split
        · exact .skip (List.suffix_cons w rest)
        · exact .nameless (List.suffix_cons w rest) rfl
      · split
        · rename_i hw
          exact reference_reads (some prev) hw false rest (by simp)
        · exact .skip (List.suffix_cons w rest)

theorem taskName_reads (keyword : Word) (rule : TaskName) (rest : List Word) :
    Reads assigns rest (taskName keyword rule rest).events (taskName keyword rule rest).rest := by
  have habsent : Reads assigns rest (if rule = .mandatory then
      [flawHere (.missingTaskName keyword.text) keyword rest] else []) rest := by
    split
    · exact flawHere_reads _ _ _ (List.suffix_refl _)
    · exact .refl rest
  unfold taskName
  dsimp only
  cases rest with
  | nil => exact habsent
  | cons w left =>
    dsimp only
    split
    · rename_i hw
      split
      · exact .nameless (List.suffix_cons w left) rfl
      · exact .name hw rfl (by simp [isAssignment])
    · exact habsent

theorem taskStatement_reads (keyword : Word) (rule : TaskName) (priority : Bool)
    (rest : List Word) :
    Reads assigns rest (taskStatement keyword rule priority rest).events
      (taskStatement keyword rule priority rest).rest :=
  thenFinish_reads _ _ ((taskName_reads keyword rule rest).trans (taskClause_reads ..))

theorem objectNames_reads (keyword : Word) (kind : SymbolKind) (w : Word)
    (hw : w.isIdentifier = true) (rest : List Word) :
    Reads assigns (w :: rest) (objectNames keyword kind w rest).events
      (objectNames keyword kind w rest).rest := by
  have hone : ∀ (w : Word) (rest : List Word), w.isIdentifier = true →
      Reads assigns (w :: rest) [.operate keyword.text kind w.occurrence] rest :=
    fun w rest hw => .name hw rfl (by simp [isAssignment])
  fun_induction objectNames keyword kind w rest with
  | case1 w c n rest _ hn more ih =>
    exact (hone w (c :: n :: rest) hw).trans ((ih hn).cons c)
  | case2 w c n rest => exact (hone w _ hw).skip_right (List.suffix_cons c _)
  | case3 w c n rest => exact hone w _ hw
  | case4 w c => exact (hone w _ hw).skip_right (List.suffix_cons c _)
  | case5 w c => exact hone w _ hw
  | case6 w => exact hone w _ hw

theorem objectStatement_reads (keyword : Word) (kind : SymbolKind) (rest : List Word) :
    Reads assigns rest (objectStatement keyword kind rest).events
      (objectStatement keyword kind rest).rest := by
  unfold objectStatement
  split
  · split
    · rename_i hw
      exact thenFinish_reads _ _ (objectNames_reads keyword kind _ hw _)
    · exact abandon_reads ..
  · exact abandon_reads ..

theorem operandEvents_reads (keyword : Word) (words rest : List Word)
    (hwords : ∀ w ∈ words, w.isIdentifier = true) :
    Reads assigns (words ++ rest) (operandEvents keyword words) rest := by
  fun_induction operandEvents keyword words with
  | case1 => exact .nameless (List.suffix_refl _) rfl
  | case2 w => exact .name (hwords w (by simp)) rfl (by simp [isAssignment])
  | case3 w words _ ih =>
    have hone : Reads assigns (w :: (words ++ rest)) [.refer w.occurrence false false]
        (words ++ rest) := .name (hwords w (by simp)) rfl (by simp [isAssignment])
    exact hone.trans (ih fun w' hw' => hwords w' (List.mem_cons_of_mem w hw'))

/-- Words that are no names may stand between those that are read. -/
theorem Reads.of_filter (h : Reads assigns (words.filter (·.isIdentifier) ++ rest) events rest) :
    Reads assigns (words ++ rest) events rest := by
  obtain ⟨used, hused, hsub⟩ := h.used
  rw [← List.append_cancel_right hused] at hsub
  refine ⟨⟨words, rfl, ?_⟩, h.plain, ?_⟩
  · simpa only [Word.names, List.filter_filter, Bool.and_self] using hsub
  · intro hwords
    exact h.ordered (hwords.sublist (List.filter_sublist.append_right rest))

theorem semaphoreStatement_reads (keyword : Word) (rest : List Word) :
    Reads assigns rest (semaphoreStatement keyword rest).events
      (semaphoreStatement keyword rest).rest := by
  have hoperands : Reads assigns
      (rest.take (clauseSize rest) ++ rest.drop (clauseSize rest)) _ _ :=
    (operandEvents_reads keyword _ (rest.drop (clauseSize rest))
      fun w hw => (List.mem_filter.mp hw).2).of_filter
  rw [List.take_append_drop] at hoperands
  exact thenFinish_reads _ _ hoperands

theorem transferStatement_reads (keyword : Word) (rest : List Word) :
    Reads assigns rest (transferStatement keyword rest).events
      (transferStatement keyword rest).rest := by
  have hle : ((rest.take (clauseSize rest)).takeWhile (!·.isKeyword ["BY"])).length ≤
      clauseSize rest :=
    Nat.le_trans (List.takeWhile_sublist _).length_le (List.length_take_le _ _)
  apply thenFinish_reads
  exact (references_reads ..).skip_right (List.drop_suffix_drop_left rest hle)

theorem loopControl_reads (keyword : Word) (rest : List Word) :
    Reads assigns rest (loopControl keyword rest).events (loopControl keyword rest).rest := by
  unfold loopControl
  split
  · split
    · rename_i hw
      exact .name hw rfl (by simp [isAssignment])
    · exact .refl _
  · exact .refl _

/-- A statement that starts with a keyword assigns nothing. -/
theorem keywordStatement_reads (w : Word) (rest : List Word) (head : StatementHead) :
    Reads assigns rest (keywordStatement w rest head).events
      (keywordStatement w rest head).rest := by
  cases head with
  | moduleHead block => exact moduleHead_reads ..
  | systemPart => exact .skip (systemPart_suffix ..)
  | unitHead => exact bareUnit_reads ..
  | declaration => exact declarationItems_reads ..
  | typeDefinition => exact .skip (skipStatement_suffix ..)
  | loopControl => exact loopControl_reads ..
  | alternative => exact optionalGroup_reads ..
  | call => exact callStatement_reads ..
  | jump => exact jumpStatement_reads ..
  | semaphoreArray => exact semaphoreStatement_reads ..
  | taskControl rule priority => exact taskStatement_reads ..
  | objects kind => exact objectStatement_reads ..
  | transfer => exact transferStatement_reads ..
  | other => exact .refl rest
  | blockOpener | otherwise | blockCloser => exact .nameless (List.suffix_refl _) rfl

theorem nameStatement_reads (prev : Option Word) (start : Bool) (hw : w.isIdentifier = true)
    (rest : List Word) :
    Reads (∃ next ∈ rest.head?, next.isOperator ":=" = true) (w :: rest)
      (nameStatement prev start w rest).1.events (nameStatement prev start w rest).1.rest := by
  unfold nameStatement
  split
  · rename_i h
    exact unitHead_reads _ _ _ hw (secondKeyword?_suffix h)
  · split
    · rename_i next left _
      split
      · exact (Reads.name hw rfl (by simp [isAssignment])).skip_right (List.suffix_cons next left)
      · exact reference_reads prev hw _ _ fun hwrite => ⟨next, rfl, hwrite⟩
    · exact reference_reads prev hw false _ (by simp)

/-- The word starts an assignment: it is a name in front of the operator. -/
def isTarget (w : Word) (rest : List Word) : Prop :=
  w.isIdentifier = true ∧ ∃ next ∈ rest.head?, next.isOperator ":=" = true

theorem statement_reads (prev : Option Word) (start : Bool) (w : Word) (rest : List Word) :
    Reads (isTarget w rest) (w :: rest) (statement prev start w rest).1.events
      (statement prev start w rest).1.rest := by
  unfold statement
  split
  · exact (keywordStatement_reads w rest _).cons w
  · rename_i hkind
    have hw : w.isIdentifier = true := decide_eq_true hkind
    exact (nameStatement_reads prev start hw rest).mono fun h => ⟨hw, h⟩
  · exact .skip (List.suffix_cons w rest)

theorem eventsAfter_reads (prev : Option Word) (start : Bool) (words : List Word) :
    Reads True words (eventsAfter prev start words) [] := by
  fun_induction eventsAfter prev start words with
  | case1 => exact .refl []
  | case2 prev start w rest r _ ih =>
    exact ((statement_reads prev start w rest).mono fun _ => trivial).trans ih

/-! ### Whole programs -/

theorem exists_word_of_mem {o : Occurrence} (h : Reads assigns words events rest)
    (ho : o ∈ occurrences events) : ∃ w ∈ words, w.isIdentifier = true ∧ w.occurrence = o := by
  obtain ⟨used, rfl, hsub⟩ := h.used
  obtain ⟨w, hw, hname⟩ := Word.exists_of_mem_names (hsub.subset ho)
  exact ⟨w, List.mem_append_left _ hw, hname⟩

/-- No place is told twice. -/
theorem Reads.nodup (h : Reads assigns words events rest) (hwords : Word.InOrder words) :
    ((occurrences events).map (·.place)).Nodup := by
  obtain ⟨used, rfl, l, hperm, hsub⟩ := h.used
  have hused : ((Word.names used).map (·.place)).Nodup := by
    have hplaces : (used.map (·.place)).Nodup := by
      rw [List.Nodup, List.pairwise_map]
      exact (List.pairwise_append.mp hwords).1.imp Nat.ne_of_lt
    rw [Word.names, List.map_map]
    exact hplaces.sublist (List.filter_sublist.map _)
  exact (hperm.map _).nodup_iff.mp (hused.sublist (hsub.map _))

end Event

theorem Word.inOrder_ofTokens (tokens : List Token) : InOrder (ofTokens tokens) := by
  have h : ∀ (tokens : List Token) (n : Nat),
      ((tokens.zipIdx n).map fun t => (⟨t.1.kind, t.1.text, t.2⟩ : Word)).Pairwise
        (fun w w' => w.place < w'.place) := by
    intro tokens
    induction tokens with
    | nil => exact fun n => .nil
    | cons t tokens ih =>
      intro n
      rw [List.zipIdx_cons, List.map_cons, List.pairwise_cons]
      refine ⟨?_, ih (n + 1)⟩
      intro w hw
      obtain ⟨t', ht', rfl⟩ := List.mem_map.mp hw
      exact List.le_snd_of_mem_zipIdx ht'
  exact h tokens 0

end Pearl
