import Pearl.Proofs.ConditionalErasure

namespace Pearl

/-! ### Macros by their meaning -/

namespace MacroTable

/-- The names and values of the macros, wherever they were defined. -/
def meanings (t : MacroTable) : List (String × String) := t.macros.map fun m => (m.name, m.value)

variable {t t' : MacroTable}

theorem get?_of_meanings (h : t'.meanings = t.meanings) (name : String) :
    (t.get? name = none ∧ t'.get? name = none) ∨
    ∃ m m', t.get? name = some m ∧ t'.get? name = some m' ∧
      m'.name = m.name ∧ m'.value = m.value := by
  have hfind : ∀ t : MacroTable, (t.get? name).map (fun m => (m.name, m.value)) =
      t.meanings.find? (·.1 = name) := by
    intro t
    rw [meanings, List.find?_map]
    rfl
  have hget := (hfind t').trans (h ▸ (hfind t).symm)
  cases hm : t.get? name with
  | none =>
    rw [hm] at hget
    exact Or.inl ⟨rfl, Option.map_eq_none_iff.mp hget⟩
  | some m =>
    rw [hm] at hget
    obtain ⟨m', hm', he⟩ := Option.map_eq_some_iff.mp hget
    exact Or.inr ⟨m, m', rfl, hm', congrArg Prod.fst he, congrArg Prod.snd he⟩

theorem contains_congr (h : t'.meanings = t.meanings) (name : String) :
    t'.contains name = t.contains name := by
  unfold contains
  obtain ⟨hm, hm'⟩ | ⟨m, m', hm, hm', -, -⟩ := get?_of_meanings h name
  · rw [hm, hm']
  · rw [hm, hm']
    rfl

theorem replaceWord_congr (h : t'.meanings = t.meanings) (word : List Char) :
    t'.replaceWord word = t.replaceWord word := by
  unfold replaceWord
  cases word with
  | nil => rfl
  | cons c word =>
    obtain ⟨hm, hm'⟩ | ⟨m, m', hm, hm', -, hvalue⟩ := get?_of_meanings h (String.ofList (c :: word))
    · simp only [hm, hm']
    · simp only [hm, hm', hvalue]

theorem replaceOnce_congr (h : t'.meanings = t.meanings) (cs : List Char) :
    t'.replaceOnce cs = t.replaceOnce cs := by
  fun_induction t.replaceOnce cs with
  | case1 => rw [replaceOnce]
  | case2 c rest hc ih => rw [replaceOnce, if_pos hc, replaceWord_congr h, ih]
  | case3 c rest hc ih => rw [replaceOnce, if_neg hc, ih]

theorem occursIn_congr (h : t'.meanings = t.meanings) (cs : List Char) :
    t'.occursIn cs = t.occursIn cs := by
  fun_induction t.occursIn cs with
  | case1 => rw [occursIn]
  | case2 c rest hc ih => rw [occursIn, if_pos hc, ih, isReplaced, contains_congr h, isReplaced]
  | case3 c rest hc ih => rw [occursIn, if_neg hc, ih]

theorem replacePasses_congr (h : t'.meanings = t.meanings) (n : Nat) (cs : List Char) :
    t'.replacePasses n cs = t.replacePasses n cs := by
  induction n generalizing cs with
  | zero => rfl
  | succ n ih => rw [replacePasses, replacePasses, occursIn_congr h, replaceOnce_congr h, ih]

theorem substitute_congr (h : t'.meanings = t.meanings) (text : String) :
    t'.substitute text = t.substitute text := by
  rw [substitute, substitute, replacePasses_congr h]

theorem meanings_erase_congr (h : t'.meanings = t.meanings) (name : String) :
    (t'.erase name).meanings = (t.erase name).meanings := by
  have herase : ∀ t : MacroTable, (t.erase name).meanings = t.meanings.filter (·.1 ≠ name) := by
    intro t
    rw [meanings, meanings, List.filter_map]
    rfl
  rw [herase, herase, h]

/-- A definition is refused by both tables, or means the same in both. -/
theorem define_of_meanings (h : t'.meanings = t.meanings) (name value : String)
    (place place' : Option Location) :
    ((∃ r, t.define ⟨name, value, place⟩ = .error r) ∧
      ∃ r, t'.define ⟨name, value, place'⟩ = .error r) ∨
    ∃ u u', t.define ⟨name, value, place⟩ = .ok u ∧ t'.define ⟨name, value, place'⟩ = .ok u' ∧
      u'.meanings = u.meanings := by
  unfold define
  obtain ⟨hm, hm'⟩ | ⟨m, m', hm, hm', -, -⟩ := get?_of_meanings h name
  · simp only [hm, hm']
    refine Or.inr ⟨_, _, rfl, rfl, ?_⟩
    simp only [meanings, List.map_append, List.map_cons, List.map_nil] at h ⊢
    rw [h]
  · simp only [hm, hm']
    exact Or.inl ⟨⟨_, rfl⟩, _, rfl⟩

end MacroTable

namespace Expansion

variable {t t' : MacroTable}

theorem reference?_of_meanings (h : t'.meanings = t.meanings) (active : List String)
    (l : Lexeme) :
    (reference? t active l = none ∧ reference? t' active l = none) ∨
    ∃ m m', reference? t active l = some m ∧ reference? t' active l = some m' ∧
      m'.name = m.name ∧ m'.value = m.value := by
  unfold reference?
  split
  · obtain ⟨hm, hm'⟩ | ⟨m, m', hm, hm', hname, hvalue⟩ :=
      MacroTable.get?_of_meanings h (String.ofList l.text)
    · rw [hm, hm']
      exact Or.inl ⟨rfl, rfl⟩
    · rw [hm, hm', Option.filter_some, Option.filter_some, hname]
      split
      · exact Or.inr ⟨m, m', rfl, rfl, hname, hvalue⟩
      · exact Or.inl ⟨rfl, rfl⟩
  · exact Or.inl ⟨rfl, rfl⟩

theorem ofText_congr (h : t'.meanings = t.meanings) (active : List String) (part : Part)
    (cs : List Char) : ofText t' active part cs = ofText t active part cs := by
  fun_induction ofText t active part cs with
  | case1 => rw [ofText]
  | case2 active part c cs hc ih => rw [ofText, if_pos hc, ih]
  | case3 active part c cs hc l hlen m hm inner ihinner ihrest =>
    obtain ⟨hm₁, -⟩ | ⟨m₁, m', hm₁, hm', hname, hvalue⟩ := reference?_of_meanings h active l
    · rw [hm] at hm₁
      cases hm₁
    rw [hm] at hm₁
    cases hm₁
    have hinner : (if active.length < maxDepth then
        (ofText t' (m.name :: active) part m.value.toList).inside m.name
        else refused m.name part) = inner := by
      unfold inner
      split
      · rename_i hd
        rw [ihinner hd]
      · rfl
    rw [ofText, if_neg hc]
    dsimp only
    rw [show reference? t' active (Lexeme.head part c cs) = some m' from hm']
    dsimp only
    rw [hname, hvalue, hinner, ihrest]
  | case4 active part c cs hc l hlen hm ih =>
    obtain ⟨-, hm'⟩ | ⟨m, -, hm₁, -, -, -⟩ := reference?_of_meanings h active l
    · rw [ofText, if_neg hc]
      dsimp only
      rw [show reference? t' active (Lexeme.head part c cs) = none from hm']
      dsimp only
      rw [ih]
    · rw [hm] at hm₁
      cases hm₁

theorem ofMacro_congr (h : t'.meanings = t.meanings) {m m' : Macro} (hname : m'.name = m.name)
    (hvalue : m'.value = m.value) (part : Part) : ofMacro t' part m' = ofMacro t part m := by
  rw [ofMacro, ofMacro, hname, hvalue, ofText_congr h]

end Expansion

/-! ### Caches by what is read from them -/

namespace IncludeCache

theorem get?_invalidate_of_ne (c : IncludeCache) {p q : Path} (h : q ≠ p) :
    (c.invalidate p).get? q = c.get? q := by
  unfold invalidate get?
  induction c.files with
  | nil => rfl
  | cons e rest ih =>
    obtain ⟨r, f⟩ := e
    by_cases hr : r = p
    · have hq : (q == r) = false := by simpa [hr] using h
      rw [List.filter_cons_of_neg (by simp [hr]), List.lookup_cons, hq]
      exact ih
    · rw [List.filter_cons_of_pos (by simp [hr]), List.lookup_cons, List.lookup_cons, ih]

theorem get?_insert_of_ne (c : IncludeCache) (f : CachedFile) {p q : Path} (h : q ≠ p) :
    (c.insert p f).get? q = c.get? q := by
  have hq : (q == p) = false := beq_eq_false_iff_ne.mpr h
  rw [← get?_invalidate_of_ne c h]
  simp only [get?, insert, List.lookup_cons, hq]

theorem get?_insert_self (c : IncludeCache) (p : Path) (f : CachedFile) :
    (c.insert p f).get? p = some f := by
  simp [get?, insert]

theorem get?_readAnew_of_ne (c : IncludeCache) (files : FileTree) (modified : Int) {p q : Path}
    (h : q ≠ p) : (c.readAnew files p modified).2.get? q = c.get? q := by
  unfold readAnew
  dsimp only
  cases files.readText p with
  | error e => rfl
  | ok text => exact get?_insert_of_ne _ _ h

/-- Reading a file leaves the entries of other files alone. -/
theorem get?_read_of_ne (c : IncludeCache) (files : FileTree) {p q : Path} (h : q ≠ p) :
    (c.read files p).2.get? q = c.get? q := by
  unfold read
  cases files.stat p with
  | error e =>
    cases e with
    | notFound => exact get?_invalidate_of_ne c h
    | _ => rfl
  | ok status =>
    dsimp only
    cases c.get? p with
    | none => exact get?_readAnew_of_ne c files _ h
    | some f =>
      dsimp only
      split
      · rfl
      · exact get?_readAnew_of_ne c files _ h

theorem readAnew_congr (c c' : IncludeCache) (files : FileTree) (p : Path) (modified : Int) :
    (c'.readAnew files p modified).1 = (c.readAnew files p modified).1 := by
  unfold readAnew
  dsimp only
  cases files.readText p <;> rfl

/-- What is read depends on the entry of its path only. -/
theorem read_congr {c c' : IncludeCache} {p : Path} (h : c'.get? p = c.get? p)
    (files : FileTree) : (c'.read files p).1 = (c.read files p).1 := by
  unfold read
  rw [h]
  cases files.stat p with
  | error e => cases e <;> rfl
  | ok status =>
    dsimp only
    cases c.get? p with
    | none => exact readAnew_congr c c' files p _
    | some f =>
      dsimp only
      split
      · rfl
      · exact readAnew_congr c c' files p _

/-- A file that had to be read anew is there in its present state, or still cannot be read. -/
theorem read_readAnew {c : IncludeCache} {files : FileTree} {p : Path} {status : FileStatus}
    (hstat : files.stat p = .ok status)
    (hread : c.read files p = c.readAnew files p status.modified) :
    ((c.readAnew files p status.modified).2.read files p).1 = (c.read files p).1 := by
  cases htext : files.readText p with
  | error e =>
    apply read_congr
    simp only [readAnew, htext]
    rfl
  | ok text =>
    rw [hread, read, hstat]
    simp only [readAnew, htext, get?_insert_self, if_true]

/-- Reading a file does not change what will be read. -/
theorem read_read (c : IncludeCache) (files : FileTree) (p q : Path) :
    ((c.read files p).2.read files q).1 = (c.read files q).1 := by
  by_cases hq : q = p
  · subst hq
    cases hstat : files.stat q with
    | error e => cases e <;> simp only [read, hstat]
    | ok status =>
      by_cases hhit : ∃ f, c.get? q = some f ∧ f.modified = status.modified
      · obtain ⟨f, hf, hmodified⟩ := hhit
        apply read_congr
        simp only [read, hstat, hf, hmodified, if_true]
        exact hf
      · have hread : c.read files q = c.readAnew files q status.modified := by
          simp only [read, hstat]
          cases hf : c.get? q with
          | none => rfl
          | some f => exact if_neg fun hmodified => hhit ⟨f, hf, hmodified⟩
        rw [hread, read_readAnew hstat hread, hread]
  · exact read_congr (get?_read_of_ne c files hq) files

end IncludeCache

/-! ### Conditions by their outcomes -/

namespace Conditional

variable {α : Type} {c c' : Conditional α} {base : List (Bool × Bool)}

/-- The outcomes of the open conditions, wherever they were opened. -/
def flags (c : Conditional α) : List (Bool × Bool) :=
  c.conditions.map fun d => (d.outcome, d.active)

/-- Within conditions that all hold, lines count just as they do outside of them. -/
theorem active_of_flags (h : c'.flags = c.flags ++ base)
    (hbase : ∀ f ∈ base.head?, f.2 = true) : c'.active = c.active := by
  have hactive : ∀ c : Conditional α, c.active = (c.flags.head?.map Prod.snd).getD true := by
    rintro ⟨_ | ⟨d, outer⟩⟩ <;> rfl
  rw [hactive, hactive, h]
  cases hc : c.flags with
  | cons f fs => rfl
  | nil =>
    rw [List.nil_append]
    cases hhead : base.head? with
    | none => rfl
    | some f => exact hbase f hhead

theorem flags_push (h : c'.flags = c.flags ++ base) (hbase : ∀ f ∈ base.head?, f.2 = true)
    (outcome : Bool) (opener opener' : α) :
    (c'.push outcome opener').flags = (c.push outcome opener).flags ++ base := by
  change (outcome, c'.active && outcome) :: c'.flags =
    (outcome, c.active && outcome) :: c.flags ++ base
  rw [active_of_flags h hbase, h, List.cons_append]

/-- The innermost conditions have the same outcomes, or there are none. -/
theorem cases_of_flags (h : c'.flags = c.flags ++ base) (hopen : c.conditions = [] → base = []) :
    (c.conditions = [] ∧ c'.conditions = []) ∨
    ∃ d d' outer outer', c.conditions = d :: outer ∧ c'.conditions = d' :: outer' ∧
      d'.outcome = d.outcome ∧
      (Conditional.mk outer').flags = (Conditional.mk outer).flags ++ base := by
  obtain ⟨conditions⟩ := c
  obtain ⟨conditions'⟩ := c'
  cases conditions with
  | nil =>
    rw [hopen rfl] at h
    exact Or.inl ⟨rfl, List.map_eq_nil_iff.mp h⟩
  | cons d outer =>
    cases conditions' with
    | nil => cases h
    | cons d' outer' =>
      injection h with hd houter
      exact Or.inr ⟨d, d', outer, outer', rfl, rfl, congrArg Prod.fst hd, houter⟩

end Conditional

namespace Scan

namespace State

/-! ### States that differ in places only -/

/-- The tokens that mean something, by kind and text. -/
def meaningful (s : State) : List (TokenKind × String) :=
  (s.tokens.toList.filter (!·.kind.isTrivia)).map fun t => (t.kind, t.text)

/-- `s'` has read what `s` has read and will go on in the same way, though at other places and
within the conditions `base`, which all hold. -/
structure Similar (files : FileTree) (base : List (Bool × Bool)) (s s' : State) : Prop where
  macros : s'.macros.meanings = s.macros.meanings
  cache : ∀ path, (s'.cache.read files path).1 = (s.cache.read files path).1
  failure : s'.failure = s.failure
  part : s'.part = s.part
  meaningful : s'.meaningful = s.meaningful
  flags : s'.conditions.flags = s.conditions.flags ++ base
  lineStart : s'.lineStart = s.lineStart
  around : ∀ f ∈ base.head?, f.2 = true

variable {files : FileTree} {base : List (Bool × Bool)} {s s' r r' : State}

theorem Similar.refl (files : FileTree) (s : State) : Similar files [] s s :=
  ⟨rfl, fun _ => rfl, rfl, rfl, rfl, (List.append_nil _).symm, rfl, by simp⟩

theorem Similar.active (h : Similar files base s s') :
    s'.conditions.active = s.conditions.active :=
  Conditional.active_of_flags h.flags h.around

theorem meaningful_of_tokens (h : s'.tokens = s.tokens) : s'.meaningful = s.meaningful := by
  rw [State.meaningful, h, State.meaningful]

/-- What only touches conditions and findings on each side keeps the sides similar as long as the
conditions stay so. -/
theorem Similar.agrees (h : Similar files base s s') (hr : Agrees s r) (hr' : Agrees s' r')
    (hflags : r'.conditions.flags = r.conditions.flags ++ base) : Similar files base r r' := by
  refine ⟨?_, ?_, ?_, ?_, ?_, hflags, ?_, h.around⟩
  · rw [hr.macros, hr'.macros, h.macros]
  · rw [hr.cache, hr'.cache]
    exact h.cache
  · rw [hr.failure, hr'.failure, h.failure]
  · rw [hr.part, hr'.part, h.part]
  · rw [meaningful_of_tokens hr.tokens, meaningful_of_tokens hr'.tokens, h.meaningful]
  · rw [hr.lineStart, hr'.lineStart, h.lineStart]

theorem Similar.report (h : Similar files base s s') (d d' : Diagnostic) :
    Similar files base (s.report d) (s'.report d') :=
  h.agrees (agrees_report s d) (agrees_report s' d') h.flags

theorem conditions_flushInactive (s : State) (uri : String) :
    (s.flushInactive uri).conditions = s.conditions := by
  unfold flushInactive
  split <;> rfl

theorem conditions_settle (s : State) (uri : String) :
    (s.settle uri).conditions = s.conditions := by
  unfold settle
  split
  · exact conditions_flushInactive s uri
  · rfl

theorem conditions_finish (s : State) (uri : String) :
    (s.finish uri).conditions = s.conditions := by
  have h : ∀ (openers : List Token) (s : State),
      (openers.foldl reportUnclosed s).conditions = s.conditions := by
    intro openers
    induction openers with
    | nil => intro s; rfl
    | cons t openers ih => exact fun s => ih (s.reportUnclosed t)
  rw [finish, h, conditions_flushInactive]

theorem Similar.settle (h : Similar files base s s') (uri uri' : String) :
    Similar files base (s.settle uri) (s'.settle uri') := by
  apply h.agrees (agrees_settle s uri) (agrees_settle s' uri')
  rw [conditions_settle, conditions_settle, h.flags]

theorem Similar.finish (h : Similar files base s s') (uri uri' : String) :
    Similar files base (s.finish uri) (s'.finish uri') := by
  apply h.agrees (agrees_finish s uri) (agrees_finish s' uri')
  rw [conditions_finish, conditions_finish, h.flags]

/-! #### Tokens -/

theorem meaningful_emit (s : State) (t : Token) :
    (s.emit t).meaningful =
      s.meaningful ++ if t.kind.isTrivia then [] else [(t.kind, t.text)] := by
  unfold State.meaningful emit
  cases ht : t.kind.isTrivia <;> simp [ht]

theorem Similar.emit_advance (h : Similar files base s s') (t t' : Token)
    (hkind : t'.kind = t.kind) (htext : t'.text = t.text) (cs : List Char) :
    Similar files base ((s.emit t).advance cs) ((s'.emit t').advance cs) := by
  refine ⟨h.macros, h.cache, h.failure, h.part, ?_, h.flags, rfl, h.around⟩
  change (s'.emit t').meaningful = (s.emit t).meaningful
  rw [meaningful_emit, meaningful_emit, h.meaningful, hkind, htext]

/-- What a token that means nothing holds does not matter. -/
theorem Similar.emit_trivia (h : Similar files base s s') (t t' : Token)
    (ht : t.kind.isTrivia = true) (ht' : t'.kind.isTrivia = true) (cs cs' : List Char) :
    Similar files base ((s.emit t).advance cs) ((s'.emit t').advance cs') := by
  refine ⟨h.macros, h.cache, h.failure, h.part, ?_, h.flags, rfl, h.around⟩
  change (s'.emit t').meaningful = (s.emit t).meaningful
  rw [meaningful_emit, meaningful_emit, h.meaningful, ht, ht']
  rfl

theorem Similar.inactiveLine (h : Similar files base s s') (uri uri' : String)
    (line line' : List Char) :
    Similar files base (s.inactiveLine uri line) (s'.inactiveLine uri' line') := by
  have hemit := h.emit_trivia (s.tokenHere uri .inactive line) (s'.tokenHere uri' .inactive line')
    rfl rfl line line'
  exact ⟨hemit.macros, hemit.cache, hemit.failure, hemit.part, hemit.meaningful, hemit.flags, rfl, h.around⟩

theorem Similar.plain (h : Similar files base s s') (uri uri' : String) (l : Lexeme) :
    Similar files base (s.plain uri l) (s'.plain uri' l) := by
  have hemit := h.emit_advance (s.tokenHere uri l.kind l.text)
    (s'.tokenHere uri' l.kind l.text) rfl rfl l.text
  have hpart : Similar files base
      { (s.emit (s.tokenHere uri l.kind l.text)).advance l.text with
        part := Expansion.partAfter s.part l }
      { (s'.emit (s'.tokenHere uri' l.kind l.text)).advance l.text with
        part := Expansion.partAfter s'.part l } :=
    ⟨hemit.macros, hemit.cache, hemit.failure, by rw [h.part], hemit.meaningful, hemit.flags, rfl, h.around⟩
  apply hpart.agrees (agrees_plain s uri l) (agrees_plain s' uri' l)
  rw [conditions_plain, conditions_plain, h.flags]

/-- The tokens of a replacement text count wherever the macro is referred to. -/
theorem meaningful_expand (s : State) (uri : String) (m : Macro) (word : List Char) :
    (s.expand uri m word).meaningful = s.meaningful ++
      ((Expansion.ofMacro s.macros s.part m).lexemes.filter (!·.kind.isTrivia)).map
        fun l => (l.kind, String.ofList l.text) := by
  have hlexemes : ∀ (marker : Token) (ls : List Lexeme),
      ((ls.map (expandedToken marker)).filter (!·.kind.isTrivia)).map (fun t => (t.kind, t.text)) =
        (ls.filter (!·.kind.isTrivia)).map fun l => (l.kind, String.ofList l.text) := by
    intro marker ls
    rw [List.filter_map, List.map_map]
    rfl
  unfold State.expand State.meaningful
  simp only [Array.toList_append, Array.toList_push, List.filter_append, List.map_append, hlexemes]
  simp [tokenHere, TokenKind.isTrivia]

theorem Similar.expand (h : Similar files base s s') (uri uri' : String) {m m' : Macro}
    (hname : m'.name = m.name) (hvalue : m'.value = m.value) (word : List Char) :
    Similar files base (s.expand uri m word) (s'.expand uri' m' word) := by
  have hexpansion : Expansion.ofMacro s'.macros s'.part m' =
      Expansion.ofMacro s.macros s.part m := by
    rw [h.part, Expansion.ofMacro_congr h.macros hname hvalue]
  refine ⟨h.macros, h.cache, h.failure, ?_, ?_, h.flags, rfl, h.around⟩
  · exact congrArg Expansion.part hexpansion
  · rw [meaningful_expand, meaningful_expand, hexpansion, h.meaningful]

theorem Similar.element (h : Similar files base s s') (uri uri' : String) (l : Lexeme) :
    Similar files base (s.element uri l) (s'.element uri' l) := by
  unfold State.element
  obtain ⟨hm, hm'⟩ | ⟨m, m', hm, hm', hname, hvalue⟩ :=
    Expansion.reference?_of_meanings h.macros [] l
  · rw [hm, hm']
    exact h.plain uri uri' l
  · rw [hm, hm']
    exact h.expand uri uri' hname hvalue l.text

/-! #### Directives -/

theorem Similar.openCondition (h : Similar files base s s') (t t' : Token) (outcome : Bool) :
    Similar files base (s.openCondition t outcome) (s'.openCondition t' outcome) :=
  h.agrees (agrees_openCondition s t outcome) (agrees_openCondition s' t' outcome)
    (Conditional.flags_push h.flags h.around outcome t t')

theorem Similar.define (h : Similar files base s s') (t t' : Token) (name value : String) :
    Similar files base (s.define t name value) (s'.define t' name value) := by
  unfold State.define
  obtain ⟨⟨e, he⟩, e', he'⟩ | ⟨u, u', hu, hu', hmeanings⟩ :=
    MacroTable.define_of_meanings h.macros name value (some t.location) (some t'.location)
  · rw [he, he']
    exact h.report _ _
  · rw [hu, hu']
    exact ⟨hmeanings, h.cache, h.failure, h.part, h.meaningful, h.flags, h.lineStart, h.around⟩

theorem Similar.undefine (h : Similar files base s s') (t t' : Token) (name : String) :
    Similar files base (s.undefine t name) (s'.undefine t' name) := by
  unfold State.undefine
  rw [MacroTable.contains_congr h.macros]
  split
  · exact ⟨MacroTable.meanings_erase_congr h.macros name, h.cache, h.failure, h.part, h.meaningful,
      h.flags, h.lineStart, h.around⟩
  · exact h.report _ _

theorem Similar.turnCondition (h : Similar files base s s')
    (hopen : s.conditions.conditions = [] → base = []) (src src' : Source) (t t' : Token) :
    Similar files base (s.turnCondition src t) (s'.turnCondition src' t') := by
  unfold State.turnCondition Conditional.invert
  obtain ⟨hc, hc'⟩ | ⟨d, d', outer, outer', hc, hc', houtcome, houter⟩ :=
    Conditional.cases_of_flags h.flags hopen
  · rw [hc, hc']
    exact h.report _ _
  · rw [hc, hc']
    apply Similar.settle
    apply h.agrees (agrees_conditions s _) (agrees_conditions s' _)
    change (!d'.outcome, (Conditional.mk outer').active && !d'.outcome) ::
      (Conditional.mk outer').flags = _
    rw [houtcome, Conditional.active_of_flags houter h.around, houter]
    rfl

theorem conditions_closeCondition (s : State) (src : Source) (t : Token) :
    (s.closeCondition src t).conditions = ⟨s.conditions.conditions.tail⟩ := by
  unfold closeCondition Conditional.pop
  cases hc : s.conditions.conditions with
  | nil =>
    change s.conditions = ⟨[]⟩
    rw [← hc]
  | cons d outer =>
    dsimp only
    rw [conditions_settle]
    split <;> rfl

theorem Similar.closeCondition (h : Similar files base s s')
    (hopen : s.conditions.conditions = [] → base = []) (src src' : Source) (t t' : Token) :
    Similar files base (s.closeCondition src t) (s'.closeCondition src' t') := by
  apply h.agrees (agrees_closeCondition s src t) (agrees_closeCondition s' src' t')
  rw [conditions_closeCondition, conditions_closeCondition]
  obtain ⟨hc, hc'⟩ | ⟨d, d', outer, outer', hc, hc', -, houter⟩ :=
    Conditional.cases_of_flags h.flags hopen
  · rw [hc, hc', hopen hc]
    rfl
  · rw [hc, hc']
    exact houter

theorem Similar.refuse (h : Similar files base s s') (t t' : Token) (word : Option DirectiveWord)
    (e : DirectiveError) : Similar files base (s.refuse t word e) (s'.refuse t' word e) := by
  unfold State.refuse
  have hfail := h.report (.ofFailure "invalid-directive" (e.toFailure (some t.location)) t)
    (.ofFailure "invalid-directive" (e.toFailure (some t'.location)) t')
  dsimp only
  split
  · exact hfail.openCondition t t' true
  · exact hfail

/-- Directives that read no file do the same on both sides if they find an open condition where
they need one. -/
theorem Similar.carryOut (h : Similar files base s s') (σ : Setting) (src src' : Source)
    (nested nested' : Option Reader) (t t' : Token) {d : Directive} (hd : d.word ≠ .inclusion)
    (hopen : d = .otherwise ∨ d = .endif → s.conditions.conditions = [] → base = []) :
    Similar files base (s.carryOut σ src nested t d) (s'.carryOut σ src' nested' t' d) := by
  cases d with
  | define name value => exact h.define t t' name value
  | undef name => exact h.undefine t t' name
  | inclusion path => exact absurd rfl hd
  | condition name negated =>
    simp only [State.carryOut, MacroTable.contains_congr h.macros]
    exact (h.openCondition t t' _).settle src.uri src'.uri
  | otherwise => exact h.turnCondition (hopen (Or.inl rfl)) src src' t t'
  | endif => exact h.closeCondition (hopen (Or.inr rfl)) src src' t t'

/-- Two `#` lines that are read alike do the same on both sides if the directive on them, when
carried out, does. -/
theorem Similar.directiveLine (h : Similar files base s s') (σ : Setting) (src src' : Source)
    (nested nested' : Option Reader) {line line' : List Char}
    (hword : Directive.wordOf ('#' :: line') = Directive.wordOf ('#' :: line))
    (hsame : Directive.parse ('#' :: line') = Directive.parse ('#' :: line))
    (hcarry : ∀ d, Directive.parse ('#' :: line) = .ok d →
      s.conditions.active = true ∨ d.word.isConditional = true →
      ∀ r r' t t', r.conditions = s.conditions → Similar files base r r' →
        Similar files base (r.carryOut σ src nested t d) (r'.carryOut σ src' nested' t' d)) :
    Similar files base (s.directiveLine σ src nested ('#' :: line))
      (s'.directiveLine σ src' nested' ('#' :: line')) := by
  unfold State.directiveLine
  dsimp only
  rw [h.active, hword]
  split
  · exact h.inactiveLine src.uri src'.uri _ _
  · rename_i hcount
    unfold State.activeDirective
    dsimp only
    have hemit : ∀ kind : TokenKind, kind.isTrivia = true → Similar files base
        ((s.emit (s.tokenHere src.uri kind ('#' :: line))).advance ('#' :: line))
        ((s'.emit (s'.tokenHere src'.uri kind ('#' :: line'))).advance ('#' :: line')) :=
      fun kind hkind => h.emit_trivia _ _ hkind hkind _ _
    have hkind : ∀ word : Option DirectiveWord,
        TokenKind.isTrivia (if word.isSome then .directive else .inactive) = true := by
      intro word
      cases word <;> rfl
    rw [hsame]
    cases hparse : Directive.parse ('#' :: line) with
    | error e => exact (hemit _ (hkind _)).refuse _ _ _ e
    | ok d =>
      refine hcarry d hparse ?_ _ _ _ _ rfl (hemit _ (hkind _))
      rw [Directive.word_of_parse hparse] at hcount
      cases ha : s.conditions.active with
      | true => exact Or.inl rfl
      | false => exact Or.inr (by simpa [ha] using hcount)

/-! #### Inclusion -/

theorem Similar.enter (h : Similar files [] s s') : Similar files [] s.enter s'.enter :=
  ⟨h.macros, h.cache, h.failure, h.part, h.meaningful, rfl, rfl, h.around⟩

theorem Similar.leave (h : Similar files [] s s') (hr : Similar files [] r r') :
    Similar files [] (s.leave r) (s'.leave r') :=
  ⟨hr.macros, hr.cache, hr.failure, hr.part, hr.meaningful, h.flags, h.lineStart, h.around⟩

/-- Reading leads from similar states to similar states. -/
def Respects (files : FileTree) (read : Reader) : Prop :=
  ∀ src cs s s', Similar files [] s s' → Similar files [] (read src cs s) (read src cs s')

theorem Similar.read_cache (h : Similar files base s s') (asked asked' : Array Path)
    (path : Path) :
    Similar files base { s with asked, cache := (s.cache.read files path).2 }
      { s' with asked := asked', cache := (s'.cache.read files path).2 } := by
  refine ⟨h.macros, ?_, h.failure, h.part, h.meaningful, h.flags, h.lineStart, h.around⟩
  intro q
  rw [IncludeCache.read_read, IncludeCache.read_read, h.cache]

theorem Similar.includePath (σ : Setting) {src : Source} {nested : Option Reader}
    (hread : ∀ read ∈ nested, Respects σ.files read) (h : Similar σ.files [] s s') (t t' : Token)
    (name : String) (path : Path) :
    Similar σ.files [] (s.includePath σ src nested t name path)
      (s'.includePath σ src nested t' name path) := by
  unfold State.includePath
  split
  · exact h.report _ _
  · cases nested with
    | none => exact h.report _ _
    | some read =>
      dsimp only
      have hcache := h.read_cache (s.asked.push path) (s'.asked.push path) path
      have hresult := h.cache path
      generalize hc : s.cache.read σ.files path = outcome at *
      generalize hc' : s'.cache.read σ.files path = outcome' at *
      obtain ⟨result, cache⟩ := outcome
      obtain ⟨result', cache'⟩ := outcome'
      obtain rfl : result' = result := hresult
      cases result' with
      | error fault => exact hcache.report _ _
      | ok text => exact hcache.leave (hread read rfl _ _ _ _ hcache.enter)

theorem Similar.includeFile (σ : Setting) {src : Source} {nested : Option Reader}
    (hread : ∀ read ∈ nested, Respects σ.files read) (h : Similar σ.files [] s s') (t t' : Token)
    (name : String) :
    Similar σ.files [] (s.includeFile σ src nested t name)
      (s'.includeFile σ src nested t' name) := by
  unfold State.includeFile
  rw [MacroTable.substitute_congr h.macros, h.failure]
  cases s.failure with
  | some e => exact h
  | none =>
    cases σ.locate src (s.macros.substitute name) with
    | error e =>
      dsimp only
      exact ⟨h.macros, h.cache, rfl, h.part, h.meaningful, h.flags, h.lineStart, h.around⟩
    | ok path => exact h.includePath σ hread t t' _ path

/-- Every directive does the same on both sides if there are no conditions around one of them. -/
theorem Similar.carryOut_of_respects (σ : Setting) {src : Source} {nested : Option Reader}
    (hread : ∀ read ∈ nested, Respects σ.files read) (h : Similar σ.files [] s s') (t t' : Token)
    (d : Directive) :
    Similar σ.files [] (s.carryOut σ src nested t d) (s'.carryOut σ src nested t' d) := by
  by_cases hd : d.word = .inclusion
  · cases d with
    | inclusion name => exact h.includeFile σ hread t t' name
    | condition name negated => cases negated <;> cases hd
    | _ => cases hd
  · exact h.carryOut σ src src nested nested t t' hd fun _ _ => rfl

/-- One piece after the other is taken by both sides. -/
theorem Similar.take {directives : Bool} {text rest : List Char} {p : Piece} (σ : Setting)
    {src : Source} {nested : Option Reader} (hread : ∀ read ∈ nested, Respects σ.files read)
    (h : Similar σ.files [] s s') (hnext : Next directives s text p rest) :
    Similar σ.files [] (s.take σ src nested p) (s'.take σ src nested p) := by
  cases hnext with
  | newline => exact ⟨h.macros, h.cache, h.failure, h.part, h.meaningful, h.flags, rfl, h.around⟩
  | space => exact ⟨h.macros, h.cache, h.failure, h.part, h.meaningful, h.flags, h.lineStart, h.around⟩
  | inactive => exact h.inactiveLine src.uri src.uri _ _
  | element => exact h.element src.uri src.uri _
  | directive =>
    exact h.directiveLine σ src src nested nested rfl rfl
      fun d _ _ r r' t t' _ hr => hr.carryOut_of_respects σ hread t t' d

end State

/-! ### Whole texts -/

variable {directives : Bool} {s s' : State} {text rest : List Char} {p : Piece}

/-- Similar states have the same piece before them. -/
theorem Next.similar {files : FileTree} {base : List (Bool × Bool)}
    (hnext : Next directives s text p rest) (h : State.Similar files base s s') :
    Next directives s' text p rest := by
  cases hnext with
  | newline rest => exact .newline rest
  | space rest hc => exact .space rest hc
  | directive hd hs hline hrest => exact .directive hd (h.lineStart.trans hs) hline hrest
  | inactive hn hc hs hd ha hline hrest =>
    exact .inactive hn hc (h.lineStart.trans hs) hd (h.active.trans ha) hline hrest
  | @element c cs hn hc hs =>
    have hnext' : Next directives s' (c :: cs) (.element (Lexeme.head s'.part c cs))
        (Lexeme.tail s'.part c cs) := by
      apply Next.element hn hc
      rw [h.lineStart, h.active]
      exact hs
    rw [h.part] at hnext'
    exact hnext'

theorem run_similar (σ : Setting) (src : Source) (nested : Option Reader)
    (hread : ∀ read ∈ nested, State.Respects σ.files read) (cs : List Char) :
    State.Similar σ.files [] s s' →
      State.Similar σ.files [] (run σ src nested s cs) (run σ src nested s' cs) := by
  induction s, cs using run_induction σ src nested generalizing s' with
  | nil s =>
    intro h
    rw [run_nil, run_nil]
    exact h
  | next s text p rest hnext ih =>
    intro h
    rw [run_of_next σ src nested hnext, run_of_next σ src nested (hnext.similar h)]
    exact ih (h.take σ hread hnext)

/-- However deep files are included, places do not matter to what is read. -/
theorem text_respects (σ : Setting) (n : Nat) : State.Respects σ.files (Scan.text σ n) := by
  induction n with
  | zero =>
    intro src cs s s' h
    exact (run_similar σ src none (by simp) cs h).finish src.uri src.uri
  | succ n ih =>
    intro src cs s s' h
    have hread : ∀ read ∈ some (Scan.text σ n), State.Respects σ.files read := by
      intro read hr
      rw [← Option.some.inj hr]
      exact ih
    exact (run_similar σ src _ hread cs h).finish src.uri src.uri

end Scan

end Pearl
