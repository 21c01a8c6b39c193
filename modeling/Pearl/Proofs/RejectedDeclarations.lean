import Pearl.Proofs.StatementClauses

namespace Pearl

namespace Event

def opensUnit : Event → Bool
  | openUnit .. => true
  | _ => false

/-- The event is one of the declarations in a statement that may have several. -/
def isItem : Event → Bool
  | declare .. | parameter .. => true
  | _ => false

/-- Where a declaration may stand in a statement. -/
theorem Composed.declaration_cases {w : Word} {front back : List Event} {e : Event}
    (h : Composed w (front ++ e :: back)) (he : e.isDeclaration = true) :
    (e.isItem = false ∧ Only isPlain front ∧ back = []) ∨
    Only inDeclaration (front ++ e :: back) ∨
    (∃ isTask name, front = [] ∧ e = .openUnit isTask name ∧ Only inHead back) ∨
    ∃ isTask name inner, front = .openUnit isTask name :: inner ∧
      Only inHead (inner ++ e :: back) := by
  have hsingle : ∀ {x : Event}, front ++ e :: back = [x] → x.isItem = false →
      e.isItem = false ∧ Only isPlain front ∧ back = [] := by
    intro x hevents hx
    obtain ⟨rfl, rfl, rfl⟩ : front = [] ∧ e = x ∧ back = [] := by
      simpa [List.append_eq_singleton_iff] using hevents
    exact ⟨hx, only_nil, rfl⟩
  generalize hevents : front ++ e :: back = events at h
  cases h with
  | declaration h => exact Or.inr (Or.inl h)
  | action h =>
    have hin : e.isAction = true := h.of_mem e (by simp [← hevents])
    cases e with
    | flaw | refer | operate | jump => cases he
    | _ => cases hin
  | label | loopVariable | opening | otherwise | closing => exact Or.inl (hsingle hevents rfl)
  | @moduleHead flaws h block name =>
    rcases List.eq_nil_or_concat back with rfl | ⟨inner, last, rfl⟩
    · obtain ⟨rfl, hlast⟩ := List.append_inj' hevents rfl
      cases hlast
      exact Or.inl ⟨rfl, h, rfl⟩
    · rw [List.concat_eq_append, ← List.cons_append, ← List.append_assoc] at hevents
      obtain ⟨rfl, -⟩ := List.append_inj' hevents rfl
      have hin : e.isPlain = true := h.of_mem e (by simp)
      cases e with
      | flaw | refer => cases he
      | _ => cases hin
  | @unitHead clauses isTask name h =>
    cases front with
    | nil =>
      cases hevents
      exact Or.inr (Or.inr (Or.inl ⟨isTask, name, rfl, rfl, h⟩))
    | cons first inner =>
      cases hevents
      exact Or.inr (Or.inr (Or.inr ⟨isTask, name, inner, rfl, h⟩))

end Event

namespace Resolution

namespace State

variable {s : State} {e : Event} {scope id : Nat} {new y : Symbol} {events front back : List Event}

/-! ### What is rejected -/

theorem get?_openFrame (s : State) (block : Block) (place : Nat) (symbol : Option Nat) (i : Nat)
    (name : String) :
    ((s.openFrame block place symbol).arena.scope i).get? name = (s.arena.scope i).get? name :=
  (grows_openFrame s block place symbol).others i name (by simp)

/-- A block whose name is told to be a duplicate gets the symbol that has the name. -/
theorem openFrame_of_told {s' : State} (harena : s'.arena = s.arena)
    (hsame : s'.duplicates = s.duplicates)
    (htold : s.duplicates < (s'.declareIn scope new).1.duplicates) (block : Block) (place : Nat) :
    ∃ id y, (s.arena.scope scope).get? new.name = some id ∧ s.symbol? id = some y ∧
      let declared := s'.declareIn scope new
      let opened := declared.1.openFrame block place (some declared.2)
      (∀ i name, (opened.arena.scope i).get? name = (s.arena.scope i).get? name) ∧
        opened.symbol? id = some y ∧ opened.unit? = some id := by
  rw [← hsame] at htold
  obtain ⟨id, y, hid, hy, hdeclare⟩ := declareIn_of_told htold
  rw [symbol?, harena] at hy
  rw [harena] at hid
  refine ⟨id, y, hid, hy, ?_⟩
  rw [hdeclare]
  refine ⟨?_, ?_, rfl⟩
  · intro i name
    rw [get?_openFrame, ← harena]
    rfl
  · change s'.arena.symbols[id]? = some y
    rw [harena]
    exact hy

/-- A procedure or task is declared, and then its block is opened. -/
theorem openUnit_eq (s : State) (isTask : Bool) (name : Occurrence) :
    ∃ s' : State, s'.arena = s.arena ∧ s'.duplicates = s.duplicates ∧
      let declared :=
        s'.declareIn s.unitScope (newSymbol name (if isTask then .task else .proc) {})
      s.step (.openUnit isTask name) = declared.1.openFrame
        (if isTask then .task else .procedure) name.place (some declared.2) := by
  let cause := Cause.nestedUnit (if isTask then Block.task else .procedure) name.name
  have hscope : (if s.atModuleLevel then s else s.report cause name.place).unitScope =
      s.unitScope := by
    split <;> rfl
  refine ⟨if s.atModuleLevel then s else s.report cause name.place, ?_, ?_, ?_⟩
  · split <;> rfl
  · exact duplicates_reportUnless s _ (by simp [cause, Cause.code]) name.place
  · rw [← hscope]
    rfl

/-- A declaration that is told to be a duplicate: there is a symbol that has the name, no entry
changes, and neither does the symbol, unless it is that of the procedure or task whose parameter is
declared. -/
theorem exists_holder (h : s.skeleton.InStep) (hdeclared : s.declared? e = some (scope, new))
    (hreject : s.Rejects e) :
    ∃ id y, (s.arena.scope scope).get? new.name = some id ∧ s.symbol? id = some y ∧
      (∀ i name, ((s.step e).arena.scope i).get? name = (s.arena.scope i).get? name) ∧
      (s.step e).symbol? id = some (s.updated id y e) ∧
      (e.opensUnit = true → (s.step e).unit? = some id) := by
  have hkept : e.isClause = true → ∀ i name,
      ((s.step e).arena.scope i).get? name = (s.arena.scope i).get? name := by
    intro he i name
    refine (get?_step h he i name).resolve_right ?_
    rintro ⟨-, -, -, haccepted⟩
    exact haccepted hreject
  cases e with
  | declare name kind attributes =>
    cases hdeclared
    obtain ⟨id, y, hid, hy, -⟩ := declareIn_of_told hreject
    exact ⟨id, y, hid, hy, hkept rfl, symbol?_step rfl hy,
      fun hopens => absurd hopens Bool.false_ne_true⟩
  | parameter name kind attributes text =>
    cases hdeclared
    rw [Rejects, step, duplicates_modifyUnit] at hreject
    obtain ⟨id, y, hid, hy, -⟩ := declareIn_of_told hreject
    exact ⟨id, y, hid, hy, hkept rfl, symbol?_step rfl hy,
      fun hopens => absurd hopens Bool.false_ne_true⟩
  | label name =>
    cases hdeclared
    rw [Rejects, step, label_eq s name rfl] at hreject
    obtain ⟨id, y, hid, hy, hdeclare⟩ := declareIn_of_told hreject
    refine ⟨id, y, hid, hy, ?_, ?_, fun hopens => absurd hopens Bool.false_ne_true⟩
    · intro i other
      rw [step, label_eq s name hdeclare]
      rfl
    · rw [step, label_eq s name hdeclare, updated_eq_self rfl rfl]
      exact hy
  | openModule block place name =>
    cases name with
    | none => cases hdeclared
    | some n =>
      cases hdeclared
      have hsame : (if s.frames.isEmpty then s
          else s.report (.misplacedModule block) place).duplicates = s.duplicates :=
        duplicates_reportUnless s _ (by simp [Cause.code]) place
      have harena : (if s.frames.isEmpty then s
          else s.report (.misplacedModule block) place).arena = s.arena := by
        split <;> rfl
      obtain ⟨id, y, hid, hy, hentries, hsymbol, -⟩ :=
        openFrame_of_told harena hsame hreject block n.place
      refine ⟨id, y, hid, hy, hentries, ?_, fun hopens => absurd hopens Bool.false_ne_true⟩
      rw [updated_eq_self rfl rfl]
      exact hsymbol
  | openUnit isTask name =>
    cases hdeclared
    obtain ⟨s', harena, hsame, hstep⟩ := openUnit_eq s isTask name
    rw [Rejects, hstep] at hreject
    obtain ⟨id, y, hid, hy, hentries, hsymbol, hunit⟩ :=
      openFrame_of_told harena hsame hreject (if isTask then .task else .procedure) name.place
    rw [hstep]
    refine ⟨id, y, hid, hy, hentries, ?_, fun _ => hunit⟩
    rw [updated_eq_self rfl rfl]
    exact hsymbol
  | _ => cases hdeclared

/-! ### The rest of the statement -/

theorem isDeclaration_of_declared (h : s.declared? e = some (scope, new)) :
    e.isDeclaration = true := by
  cases e with
  | declare | label | openModule | openUnit | parameter => rfl
  | _ => cases h

/-- On the way through the events the symbol keeps everything but its attributes, which change
by `f`, and its use, which is noted if one of the events refers to it; and the scope keeps its
entries, unless `items` is set and the events declare names in it. -/
structure Spares (s : State) (events : List Event) (scope id : Nat) (items : Bool)
    (f : Attributes → Attributes) : Prop where
  symbol : ∀ y, s.symbol? id = some y → ∃ used,
    (events.foldl step s).symbol? id = some { y with attributes := f y.attributes, used } ∧
      (used = true ↔ y.used = true ∨ s.ReadIn events id)
  entries : ∀ name,
    ((events.foldl step s).arena.scope scope).get? name = (s.arena.scope scope).get? name ∨
      items = true ∧ s.DeclaredIn events scope name

/-- What clauses spare. -/
theorem spares_of_clauses (h : s.skeleton.InStep) (hevents : Event.Only Event.isClause events)
    {items : Bool} (hitems : ∀ name, s.DeclaredIn events scope name → items = true)
    {f : Attributes → Attributes}
    (hf : ∀ a, (if s.unit? = some id then events.foldl Event.amend a else a) = f a) :
    s.Spares events scope id items f := by
  constructor
  · intro y hy
    rw [← hf]
    exact symbol?_foldl hevents hy
  · intro name
    exact (get?_foldl h hevents scope name).imp_right fun hother => ⟨hitems name hother, hother⟩

theorem spares_nil (s : State) (scope id : Nat) (items : Bool) :
    s.Spares [] scope id items fun a => a := by
  constructor
  · intro y hy
    exact ⟨y.used, hy, by simp [ReadIn]⟩
  · exact fun name => Or.inl rfl

/-- Declarations leave the attributes alone of symbols that are there. -/
theorem spares_of_declarations (h : s.skeleton.InStep)
    (hevents : Event.Only Event.inDeclaration events) {items : Bool}
    (hitems : ∀ name, s.DeclaredIn events scope name → items = true) :
    s.Spares events scope id items fun a => a := by
  refine spares_of_clauses h (hevents.mono Event.isClause_of_inDeclaration) hitems fun a => ?_
  rw [Event.foldl_amend_of_only hevents, ite_self]

/-- References and flaws declare nothing. -/
theorem not_declaredIn_of_plain (hevents : Event.Only Event.isPlain events) {i : Nat}
    {name : String} : ¬s.DeclaredIn events i name := by
  rintro ⟨front, e, back, rfl, new, hdeclared, -, -⟩
  have he : e.isPlain = true := hevents.of_mem e (by simp)
  cases e with
  | flaw | refer => cases hdeclared
  | _ => cases he

/-- What is known about a statement in which a declaration is told to be a duplicate, where the
symbol of the number `id` has the name. -/
structure Framed (s : State) (front : List Event) (e : Event) (back : List Event)
    (scope id : Nat) : Prop where
  earlier : s.Spares front scope id e.isItem fun a => a
  still : ∀ y, (front.foldl step s).updated id y e = y
  later : ((front.foldl step s).step e).Spares back scope id e.isItem fun a =>
    if e.opensUnit then back.foldl Event.amend a else a

/-- Labels and modules are the last of their statements. -/
theorem framed_of_last (h : s.skeleton.InStep)
    (hdeclared : (front.foldl step s).declared? e = some (scope, new)) (hitem : e.isItem = false)
    (hfront : Event.Only Event.isPlain front) : Framed s front e [] scope id := by
  refine ⟨?_, ?_, ?_⟩
  · refine spares_of_declarations h (hfront.mono Event.inDeclaration_of_isPlain) ?_
    exact fun name hname => absurd hname (not_declaredIn_of_plain hfront)
  · intro y
    cases e with
    | declare | parameter => cases hitem
    | label | openModule | openUnit => exact updated_eq_self rfl rfl
    | _ => cases hdeclared
  · simpa using spares_nil _ _ _ _

theorem framed_of_declaration (h : s.skeleton.InStep)
    (hdeclared : (front.foldl step s).declared? e = some (scope, new))
    (hevents : Event.Only Event.inDeclaration (front ++ e :: back)) :
    Framed s front e back scope id := by
  have he : e.inDeclaration = true := hevents.of_mem e (by simp)
  have hback : Event.Only Event.inDeclaration back :=
    ⟨fun e he => hevents.of_mem e (by simp [he])⟩
  have hlater := (foldl_step_inv (front ++ [e]) h).1
  rw [List.foldl_append] at hlater
  cases e with
  | declare name kind attributes =>
    exact ⟨spares_of_declarations h hevents.left fun _ _ => rfl,
      fun y => updated_eq_self rfl rfl, spares_of_declarations hlater hback fun _ _ => rfl⟩
  | flaw | refer => cases hdeclared
  | _ => cases he

/-- The head of a procedure or task changes the symbol that has the name. -/
theorem framed_of_unit (h : s.skeleton.InStep) {isTask : Bool} {name : Occurrence}
    (hdeclared : s.declared? (.openUnit isTask name) = some (scope, new))
    (hunit : (s.step (.openUnit isTask name)).unit? = some id)
    (hback : Event.Only Event.inHead back) :
    Framed s [] (.openUnit isTask name) back scope id := by
  have hclauses := hback.mono Event.isClause_of_inHead
  have hlater := (foldl_step_inv [.openUnit isTask name] h).1
  refine ⟨spares_nil _ _ _ _, fun y => updated_eq_self rfl rfl, ?_⟩
  refine spares_of_clauses hlater hclauses ?_ fun a => if_pos hunit
  -- the parameters have a scope of their own
  intro other hother
  have hcurrent := (hother.eq_current hclauses).trans (current_openUnit s isTask name)
  cases hdeclared
  exact absurd hcurrent (Nat.ne_of_lt (lt_of_mem_stack h (unitScope_mem h)))

/-- While a head is read, its symbol has its name in another scope than the parameters. -/
theorem unit?_entry (h : s.skeleton.InStep) (isTask : Bool) (name : Occurrence)
    (hevents : Event.Only Event.inHead events) :
    let inside := events.foldl step (s.step (.openUnit isTask name))
    ∃ unit, inside.unit? = some unit ∧
      (inside.arena.scope s.unitScope).get? name.name = some unit ∧
      s.unitScope ≠ inside.arena.current := by
  intro inside
  have hclauses := hevents.mono Event.isClause_of_inHead
  have hlt := lt_of_mem_stack h (unitScope_mem h)
  have hbooks : inside.books = (s.step (.openUnit isTask name)).books := books_foldl hclauses
  obtain ⟨s', harena, -, hstep⟩ := openUnit_eq s isTask name
  generalize hdeclared : s'.declareIn s.unitScope
    (newSymbol name (if isTask then .task else .proc) {}) = declared at hstep
  have hentry : (declared.1.arena.scope s.unitScope).get? name.name = some declared.2 := by
    rw [← hdeclared]
    exact get?_declareIn_self (by rw [harena]; exact hlt) _
  refine ⟨declared.2, ?_, ?_, ?_⟩
  · rw [unit?_of_books hbooks, hstep]
    rfl
  · have hopen : ((s.step (.openUnit isTask name)).arena.scope s.unitScope).get? name.name =
        some declared.2 := by
      rw [hstep, get?_openFrame]
      exact hentry
    rw [← hopen]
    have hin := (foldl_step_inv [.openUnit isTask name] h).1
    refine (get?_foldl hin hclauses s.unitScope name.name).resolve_right ?_
    intro hlater
    exact Nat.ne_of_lt hlt ((hlater.eq_current hclauses).trans (current_openUnit s isTask name))
  · rw [current_of_books hbooks, current_openUnit]
    exact Nat.ne_of_lt hlt

/-- Parameters are no symbols of procedures and tasks whose heads are read. -/
theorem unit?_ne_of_entry {prior inner : List Event} {isTask : Bool} {name : Occurrence}
    (hevents : Event.Only Event.inHead inner)
    (hs : inner.foldl step ((ofEvents prior).step (.openUnit isTask name)) = s) {other : String}
    (hid : (s.arena.scope s.arena.current).get? other = some id) : s.unit? ≠ some id := by
  have hrun : ofEvents (prior ++ .openUnit isTask name :: inner) = s := by
    rw [← hs, ofEvents, List.foldl_append]
    rfl
  obtain ⟨_, _, hprior⟩ := exists_history prior
  obtain ⟨_, _, hhistory⟩ := exists_history (prior ++ .openUnit isTask name :: inner)
  obtain ⟨unit, hunit, hentry, hscope⟩ := unit?_entry hprior.inStep isTask name hevents
  rw [hs] at hunit hentry hscope
  intro hsame
  rw [hunit] at hsame
  cases hsame
  -- one symbol would be declared in two scopes
  obtain ⟨c, hc, hinner, -⟩ := hhistory.entry s.arena.current other id (hrun ▸ hid)
  obtain ⟨c', hc', houter, -⟩ := hhistory.entry _ name.name id (hrun ▸ hentry)
  rw [hc] at hc'
  cases hc'
  exact hscope (houter.symm.trans hinner)

/-- The name of a procedure or task changes no symbol that is there, and no entry but its own. -/
theorem spares_openUnit (h : s.skeleton.InStep) {isTask : Bool} {name : Occurrence}
    (hscope : scope ≠ s.unitScope) {items : Bool}
    (hevents : (s.step (.openUnit isTask name)).Spares events scope id items fun a => a) :
    s.Spares (.openUnit isTask name :: events) scope id items fun a => a := by
  obtain ⟨s', harena, -, hstep⟩ := openUnit_eq s isTask name
  constructor
  · intro y hy
    have hopened : (s.step (.openUnit isTask name)).symbol? id = some y := by
      rw [hstep]
      refine symbol?_declareIn (s := s') ?_ _ _
      rw [symbol?, harena]
      exact hy
    obtain ⟨used, hafter, hused⟩ := hevents.symbol y hopened
    refine ⟨used, hafter, ?_⟩
    rw [hused, readIn_cons]
    simp [reads]
  · intro other
    have hopened : ((s.step (.openUnit isTask name)).arena.scope scope).get? other =
        (s.arena.scope scope).get? other := by
      have hlt : s.unitScope < s'.arena.scopes.size := by
        rw [harena]
        exact lt_of_mem_stack h (unitScope_mem h)
      rw [hstep, get?_openFrame, ← harena]
      exact (get?_declareIn hlt _ scope other).resolve_right fun hsame => hscope hsame.1
    rw [← hopened]
    exact (hevents.entries other).imp_right fun hitem => ⟨hitem.1, hitem.2.cons⟩

theorem framed_of_parameter {prior inner : List Event} {isTask : Bool} {name : Occurrence}
    (hs : inner.foldl step ((ofEvents prior).step (.openUnit isTask name)) = s)
    (hdeclared : s.declared? e = some (scope, new))
    (hid : (s.arena.scope scope).get? new.name = some id)
    (hevents : Event.Only Event.inHead (inner ++ e :: back)) :
    Framed (ofEvents prior) (.openUnit isTask name :: inner) e back scope id := by
  obtain ⟨_, _, hprior⟩ := exists_history prior
  have hopen := (foldl_step_inv [.openUnit isTask name] hprior.inStep).1
  have hin : s.skeleton.InStep := hs ▸ (foldl_step_inv inner hopen).1
  have hclauses := hevents.mono Event.isClause_of_inHead
  have hback : Event.Only Event.isClause back := ⟨fun e he => hclauses.of_mem e (by simp [he])⟩
  have he : e.inHead = true := hevents.of_mem e (by simp)
  obtain ⟨_, -, -, hscope⟩ := unit?_entry hprior.inStep isTask name hevents.left
  rw [hs] at hscope
  cases e with
  | parameter p kind attributes text =>
    cases hdeclared
    have hne := unit?_ne_of_entry hevents.left hs hid
    have hopened : s.unit? = ((ofEvents prior).step (.openUnit isTask name)).unit? :=
      unit?_of_books (hs ▸ books_foldl hclauses.left)
    refine ⟨?_, ?_, ?_⟩
    · refine spares_openUnit hprior.inStep hscope.symm ?_
      exact spares_of_clauses hopen hclauses.left (fun _ _ => rfl) fun a => if_neg (hopened ▸ hne)
    · intro y
      rw [List.foldl_cons, hs]
      simp [updated, hne, reads]
    · rw [List.foldl_cons, hs]
      have hlater := (foldl_step_inv [.parameter p kind attributes text] hin).1
      have htold : (s.step (.parameter p kind attributes text)).unit? = s.unit? :=
        unit?_of_books (books_step rfl)
      exact spares_of_clauses hlater hback (fun _ _ => rfl) fun a => if_neg (htold ▸ hne)
  | flaw | refer | result | exported => cases hdeclared
  | _ => cases he

end State

open State

variable {words : List Word} {prev : Option Word} {start : Bool} {w : Word} {rest : List Word}
  {s : State} {front back : List Event} {e : Event} {scope : Nat} {new : Symbol}

/-- A declaration that is told to be a duplicate changes no entry of a scope, and not the symbol
that has its name. Neither does the rest of its statement, with two exceptions: it may declare other
names and refer to the symbol, which is a use then; and what stands in the head of a procedure or
task is added to the symbol that has the name, though it is that of another declaration. -/
theorem rejected_declaration_spares (h : Boundary words prev start (w :: rest) s)
    (hevents : (Event.statement prev start w rest).1.events = front ++ e :: back)
    (hdeclared : (front.foldl step s).declared? e = some (scope, new))
    (hreject : (front.foldl step s).Rejects e) :
    let before := front.foldl step s
    let told := before.step e
    ∃ id y, (before.arena.scope scope).get? new.name = some id ∧ before.symbol? id = some y ∧
      s.Spares front scope id e.isItem (fun a => a) ∧
      told.symbol? id = some y ∧
      (∀ i name, (told.arena.scope i).get? name = (before.arena.scope i).get? name) ∧
      told.Spares back scope id e.isItem fun a =>
        if e.opensUnit then back.foldl Event.amend a else a := by
  intro before told
  have hin : before.skeleton.InStep := (foldl_step_inv front h.inStep).1
  obtain ⟨id, y, hid, hy, hkept, hsymbol, hunit⟩ := exists_holder hin hdeclared hreject
  have hframed : Framed s front e back scope id := by
    have hcomposed := Event.statement_composed prev start w rest
    rw [hevents] at hcomposed
    rcases hcomposed.declaration_cases (isDeclaration_of_declared hdeclared) with
      ⟨hitem, hplain, rfl⟩ | hall | ⟨isTask, name, rfl, rfl, hback⟩ |
      ⟨isTask, name, inner, rfl, hall⟩
    · exact framed_of_last h.inStep hdeclared hitem hplain
    · exact framed_of_declaration h.inStep hdeclared hall
    · exact framed_of_unit h.inStep hdeclared (hunit rfl) hback
    · obtain ⟨prior, -, rfl⟩ := h.exists_moment
      exact framed_of_parameter rfl hdeclared hid hall
  rw [hframed.still] at hsymbol
  exact ⟨id, y, hid, hy, hframed.earlier, hsymbol, hkept, hframed.later⟩

/-- In `DCL X FIXED, X FLOAT INIT(X), Y FIXED;` the first item keeps its type. -/
theorem rejected_declaration_spares_first_item :
    let first : Event := .declare ⟨"X", 1⟩ .var { typeName := some "FIXED" }
    let second : Event := .declare ⟨"X", 4⟩ .var { typeName := some "FLOAT", isInit := true }
    let third : Event := .declare ⟨"Y", 11⟩ .var { typeName := some "FIXED" }
    let before := ofEvents [first, .refer ⟨"X", 8⟩ false false]
    ∃ id y used, (before.arena.scope 0).get? "X" = some id ∧ before.symbol? id = some y ∧
      y.attributes.typeName = some "FIXED" ∧ (before.step second).symbol? id = some y ∧
      ((before.step second).step third).symbol? id = some { y with used } := by
  intro first second third before
  let word : Word := ⟨.keyword, "DCL", 0⟩
  let rest : List Word :=
    [⟨.identifier, "X", 1⟩, ⟨.keyword, "FIXED", 2⟩, ⟨.symbol, ",", 3⟩, ⟨.identifier, "X", 4⟩,
      ⟨.keyword, "FLOAT", 5⟩, ⟨.keyword, "INIT", 6⟩, ⟨.symbol, "(", 7⟩, ⟨.identifier, "X", 8⟩,
      ⟨.symbol, ")", 9⟩, ⟨.symbol, ",", 10⟩, ⟨.identifier, "Y", 11⟩, ⟨.keyword, "FIXED", 12⟩,
      ⟨.symbol, ";", 13⟩]
  have hevents : (Event.statement none true word rest).1.events =
      [first, .refer ⟨"X", 8⟩ false false] ++ second :: [third] := by
    decide +kernel
  have hreject : before.Rejects second := by
    unfold Rejects
    decide +kernel
  have hfirst : Boundary (word :: rest) none true (word :: rest) {} := .first
  obtain ⟨id, y, hid, hy, -, htold, -, hspares⟩ :=
    rejected_declaration_spares hfirst hevents rfl hreject
  have htype : (before.symbol? 0).map (·.attributes.typeName) = some (some "FIXED") := by
    decide +kernel
  have hzero : (before.arena.scope 0).get? "X" = some 0 := by decide +kernel
  obtain rfl : 0 = id := Option.some.inj (hzero.symm.trans hid)
  rw [show before.symbol? 0 = some y from hy] at htype
  obtain ⟨used, hafter, -⟩ := hspares.symbol y htold
  exact ⟨0, y, used, hid, hy, Option.some.inj htype, htold, hafter⟩

/-- A variable gets parameters and a result, and becomes visible elsewhere, by the head of a
procedure that is told to be a duplicate. -/
theorem rejected_head_changes_symbol :
    let src : Scan.Source := ⟨"file:///ws/a", none, []⟩
    let scan := Scan.document { files := { cwd := Path.ofString "/ws" }, options := {} } src {}
      .problem "DCL P FIXED; P: PROC (A FIXED) RETURNS(FLOAT) GLOBAL; END;".toList
    let words := Word.ofTokens (Word.significant scan.tokens.toList)
    let name : Event := .openUnit false ⟨"P", 4⟩
    let head : List Event :=
      [.parameter ⟨"A", 8⟩ .var { typeName := some "FIXED", isParameter := true } "A FIXED",
        .result "FLOAT", .exported]
    let y : Symbol := ⟨"P", 1, .var, { typeName := some "FIXED" }, false⟩
    ∃ prev start w rest s, Boundary words prev start (w :: rest) s ∧
      (Event.statement prev start w rest).1.events = name :: head ∧
      s.declared? name = some (0, newSymbol ⟨"P", 4⟩ .proc {}) ∧ s.Rejects name ∧
      (s.arena.scope 0).get? "P" = some 0 ∧ s.symbol? 0 = some y ∧
      (head.foldl step (s.step name)).symbol? 0 = some { y with
        attributes := { y.attributes with
          parameters := ["A FIXED"], returns := some "FLOAT", isGlobal := true } } := by
  intro src scan words name head y
  let rest : List Word :=
    [⟨.symbol, ":", 5⟩, ⟨.keyword, "PROC", 6⟩, ⟨.symbol, "(", 7⟩, ⟨.identifier, "A", 8⟩,
      ⟨.keyword, "FIXED", 9⟩, ⟨.symbol, ")", 10⟩, ⟨.keyword, "RETURNS", 11⟩, ⟨.symbol, "(", 12⟩,
      ⟨.keyword, "FLOAT", 13⟩, ⟨.symbol, ")", 14⟩, ⟨.keyword, "GLOBAL", 15⟩, ⟨.symbol, ";", 16⟩,
      ⟨.keyword, "END", 17⟩, ⟨.symbol, ";", 18⟩]
  let word : Word := ⟨.keyword, "DCL", 0⟩
  let declaration : List Word :=
    [⟨.identifier, "P", 1⟩, ⟨.keyword, "FIXED", 2⟩, ⟨.symbol, ";", 3⟩, ⟨.identifier, "P", 4⟩]
  have hwords : words = word :: (declaration ++ rest) := by decide +kernel
  have hnext := (@Boundary.first (word :: (declaration ++ rest))).next
  have hread : (Event.statement none true word (declaration ++ rest)).1.events =
      [.declare ⟨"P", 1⟩ .var { typeName := some "FIXED" }] := by
    decide +kernel
  have hrest : (Event.statement none true word (declaration ++ rest)).1.rest =
      ⟨.identifier, "P", 4⟩ :: rest := by
    decide +kernel
  rw [hread, hrest] at hnext
  rw [hwords]
  refine ⟨_, _, _, _, _, hnext, ?_, rfl, ?_, ?_, ?_, ?_⟩
  · decide +kernel
  · unfold Rejects
    decide +kernel
  · decide +kernel
  · decide +kernel
  · decide +kernel

end Resolution

end Pearl
