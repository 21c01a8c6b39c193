import Pearl.Proofs.LabelScopes

namespace Pearl

namespace Event

/-- What an event tells about the procedure or task in whose head it stands. -/
def amend (a : Attributes) : Event → Attributes
  | parameter _ _ _ text => { a with parameters := a.parameters ++ [text] }
  | result text => { a with returns := some text }
  | exported => { a with isGlobal := true }
  | _ => a

/-- What may follow a declaration in its statement, or be one that stands there. -/
def isClause : Event → Bool
  | declare .. | parameter .. | result _ | exported => true
  | e => e.isPlain

theorem isClause_of_inDeclaration (e : Event) (h : e.inDeclaration = true) : e.isClause = true := by
  cases e with
  | declare | flaw | refer => rfl
  | _ => cases h

theorem isClause_of_inHead (e : Event) (h : e.inHead = true) : e.isClause = true := by
  cases e with
  | parameter | result | exported | flaw | refer => rfl
  | _ => cases h

theorem amend_of_inDeclaration {e : Event} (h : e.inDeclaration = true) (a : Attributes) :
    amend a e = a := by
  cases e with
  | parameter | result | exported => cases h
  | _ => rfl

theorem foldl_amend_of_only {events : List Event} (h : Only inDeclaration events)
    (a : Attributes) : events.foldl amend a = a := by
  induction events with
  | nil => rfl
  | cons e events ih =>
    rw [List.foldl_cons, amend_of_inDeclaration (h.of_mem e List.mem_cons_self)]
    exact ih ⟨fun e he => h.of_mem e (List.mem_cons_of_mem _ he)⟩

end Event

namespace Resolution

namespace State

/-! ### Declarations and how they are told -/

/-- The symbol of the innermost block: that of a procedure or task while its head is read. -/
def unit? (s : State) : Option Nat := s.frames.head?.bind (·.symbol)

/-- What an event declares, and in which scope. The variable of a loop is left out, for it is
declared in a scope of its own. -/
def declared? (s : State) : Event → Option (Nat × Symbol)
  | .declare name kind attributes => some (s.arena.current, newSymbol name kind attributes)
  | .parameter name kind attributes _ => some (s.arena.current, newSymbol name kind attributes)
  | .label name => some (s.labelScope, newSymbol name .label {})
  | .openModule _ _ (some name) => some (0, newSymbol name .module {})
  | .openUnit isTask name =>
    some (s.unitScope, newSymbol name (if isTask then .task else .proc) {})
  | _ => none

/-- How many declarations have been told to be duplicates. -/
def duplicates (s : State) : Nat :=
  s.findings.toList.countP fun f => f.cause.code = "duplicate-declaration"

/-- The event is told to be a duplicate declaration. -/
def Rejects (s : State) (e : Event) : Prop := s.duplicates < (s.step e).duplicates

variable {s : State} {e : Event} {scope id : Nat} {new y : Symbol}

theorem duplicates_report (s : State) (cause : Cause) (place : Nat) :
    (s.report cause place).duplicates =
      s.duplicates + if cause.code = "duplicate-declaration" then 1 else 0 := by
  simp [duplicates, report, List.countP_append, List.countP_singleton]

theorem duplicates_reportUnless (s : State) (p : Prop) [Decidable p] {cause : Cause}
    (hcause : cause.code ≠ "duplicate-declaration") (place : Nat) :
    (if p then s else s.report cause place).duplicates = s.duplicates := by
  split
  · rfl
  · rw [duplicates_report, if_neg hcause, Nat.add_zero]

/-- What a declaration does: it adds a symbol, or the name has one and is told, with nothing else
changed. -/
theorem declareIn_cases (s : State) (scope : Nat) (new : Symbol) :
    (∃ used, s.declareIn scope new =
      (s.introduce scope { new with used }, s.arena.symbols.size)) ∨
    ∃ id, (s.arena.scope scope).get? new.name = some id ∧
      (s.declareIn scope new = (s, id) ∨ ∃ y, s.symbol? id = some y ∧
        s.declareIn scope new =
          (s.report (.duplicate new.name y.declaredAt) new.declaredAt, id)) := by
  unfold declareIn
  split
  · exact Or.inl ⟨new.used, rfl⟩
  · rename_i id hid
    split
    · rename_i y hy
      split
      · exact Or.inl ⟨new.used || y.used, rfl⟩
      · exact Or.inr ⟨id, hid, Or.inr ⟨y, hy, rfl⟩⟩
    · exact Or.inr ⟨id, hid, Or.inl rfl⟩

theorem declareIn_of_told (h : s.duplicates < (s.declareIn scope new).1.duplicates) :
    ∃ id y, (s.arena.scope scope).get? new.name = some id ∧ s.symbol? id = some y ∧
      s.declareIn scope new = (s.report (.duplicate new.name y.declaredAt) new.declaredAt, id) := by
  obtain ⟨used, hd⟩ | ⟨id, hid, hd | ⟨y, hy, hd⟩⟩ := s.declareIn_cases scope new
  · rw [hd] at h
    exact absurd h (Nat.lt_irrefl s.duplicates)
  · rw [hd] at h
    exact absurd h (Nat.lt_irrefl s.duplicates)
  · exact ⟨id, y, hid, hy, hd⟩

theorem get?_introduce (hscope : scope < s.arena.scopes.size) (y : Symbol) (i : Nat)
    (name : String) :
    ((s.introduce scope y).arena.scope i).get? name =
      if i = scope ∧ name = y.name then some s.arena.symbols.size
      else (s.arena.scope i).get? name :=
  Arena.get?_add s.arena hscope y i name

/-- After a declaration the name stands for the symbol that is given. -/
theorem get?_declareIn_self (hscope : scope < s.arena.scopes.size) (new : Symbol) :
    ((s.declareIn scope new).1.arena.scope scope).get? new.name =
      some (s.declareIn scope new).2 := by
  obtain ⟨used, hd⟩ | ⟨id, hid, hd | ⟨y, -, hd⟩⟩ := s.declareIn_cases scope new
  · rw [hd, get?_introduce hscope, if_pos ⟨rfl, rfl⟩]
  · rw [hd]
    exact hid
  · rw [hd]
    exact hid

/-- A declaration changes its own entry only, and that only if it is not told to be a duplicate. -/
theorem get?_declareIn (hscope : scope < s.arena.scopes.size) (new : Symbol) (i : Nat)
    (name : String) :
    ((s.declareIn scope new).1.arena.scope i).get? name = (s.arena.scope i).get? name ∨
      i = scope ∧ new.name = name ∧ (s.declareIn scope new).1.duplicates = s.duplicates := by
  obtain ⟨used, hd⟩ | ⟨id, hid, hd | ⟨y, -, hd⟩⟩ := s.declareIn_cases scope new
  · rw [hd, get?_introduce hscope]
    split
    · rename_i hsame
      exact Or.inr ⟨hsame.1, hsame.2.symm, rfl⟩
    · exact Or.inl rfl
  · rw [hd]
    exact Or.inl rfl
  · rw [hd]
    exact Or.inl rfl

theorem symbol?_declareIn (hy : s.symbol? id = some y) (scope : Nat) (new : Symbol) :
    (s.declareIn scope new).1.symbol? id = some y := by
  obtain ⟨used, hd⟩ | ⟨_, -, hd | ⟨_, -, hd⟩⟩ := s.declareIn_cases scope new
  · have hlt := (Array.getElem?_eq_some_iff.mp hy).1
    rw [hd]
    change (s.arena.symbols.push _)[id]? = some y
    rw [Array.getElem?_push, if_neg (Nat.ne_of_lt hlt)]
    exact hy
  · rw [hd]
    exact hy
  · rw [hd]
    exact hy

theorem symbol?_modifyUnit (hy : s.symbol? id = some y) (f : Attributes → Attributes) :
    (s.modifyUnit f).symbol? id = some { y with
      attributes := if s.unit? = some id then f y.attributes else y.attributes } := by
  unfold modifyUnit
  rw [show s.frames.head?.bind (·.symbol) = s.unit? from rfl]
  cases s.unit? with
  | none => simpa using hy
  | some u =>
    change (s.arena.symbols.modify u _)[id]? = _
    rw [Array.getElem?_modify, show s.arena.symbols[id]? = some y from hy]
    by_cases hu : u = id
    · simp [hu]
    · simp [hu]

theorem scope_modifyUnit (s : State) (f : Attributes → Attributes) (i : Nat) :
    (s.modifyUnit f).arena.scope i = s.arena.scope i := by
  unfold modifyUnit
  split <;> rfl

theorem duplicates_modifyUnit (s : State) (f : Attributes → Attributes) :
    (s.modifyUnit f).duplicates = s.duplicates := by
  unfold modifyUnit
  split <;> rfl

theorem unit?_of_books {s' : State} (h : s'.books = s.books) : s'.unit? = s.unit? := by
  have hframes : s'.frames = s.frames := congrArg Books.frames h
  rw [unit?, hframes, unit?]

theorem current_of_books {s' : State} (h : s'.books = s.books) :
    s'.arena.current = s.arena.current := by
  have hstack : s'.arena.stack = s.arena.stack := congrArg Books.stack h
  rw [Arena.current, hstack, Arena.current]

/-- A procedure or task has a scope that was not there. -/
theorem current_openUnit (s : State) (isTask : Bool) (name : Occurrence) :
    (s.step (.openUnit isTask name)).arena.current = s.arena.scopes.size := by
  obtain ⟨frame, -, hbooks⟩ := books_openUnit s isTask name
  have hstack : (s.step (.openUnit isTask name)).arena.stack =
      s.arena.scopes.size :: s.arena.stack := congrArg Books.stack hbooks
  rw [Arena.current, hstack, List.headD_cons]

/-! ### Clauses -/

/-- The event refers to the symbol, and not only to assign to it. -/
def reads (s : State) (id : Nat) : Event → Bool
  | .refer name false _ => s.arena.lookup name.name = some id
  | _ => false

theorem books_step (he : e.isClause = true) : (s.step e).books = s.books := by
  cases e with
  | flaw f place => rfl
  | refer name write call => exact books_refer s name write call
  | declare name kind attributes => exact books_declareIn s _ _
  | parameter name kind attributes text =>
    exact (books_modifyUnit _ _).trans (books_declareIn s _ _)
  | result text => exact books_modifyUnit s _
  | exported => exact books_modifyUnit s _
  | _ => cases he

def updated (s : State) (id : Nat) (y : Symbol) (e : Event) : Symbol :=
  { y with
    attributes := if s.unit? = some id then Event.amend y.attributes e else y.attributes
    used := y.used || s.reads id e }

theorem updated_eq_self (hamend : Event.amend y.attributes e = y.attributes)
    (hreads : s.reads id e = false) : s.updated id y e = y := by
  rw [updated, hamend, hreads, ite_self, Bool.or_false]

theorem symbol?_refer (hy : s.symbol? id = some y) (name : Occurrence) (write call : Bool) :
    (s.refer name write call).1.symbol? id = some (s.updated id y (.refer name write call)) := by
  unfold refer
  cases hlookup : s.arena.lookup name.name with
  | none =>
    have hreads : s.reads id (.refer name write call) = false := by
      cases write <;> simp [reads, hlookup]
    rw [updated_eq_self rfl hreads]
    dsimp only
    split <;> exact hy
  | some other =>
    cases write with
    | true =>
      rw [updated_eq_self rfl rfl]
      exact hy
    | false =>
      change ((s.link name.place other).markUsed other).symbol? id = _
      rw [symbol?_markUsed, show (s.link name.place other).symbol? id = some y from hy]
      by_cases hid : id = other
      · simp [updated, Event.amend, reads, hlookup, hid]
      · have hreads : s.reads id (.refer name false call) = false := by
          simp [reads, hlookup, Ne.symm hid]
        rw [updated_eq_self rfl hreads, Option.map_some, if_neg hid]

/-- What a clause does to a symbol that is there. -/
theorem symbol?_step (he : e.isClause = true) (hy : s.symbol? id = some y) :
    (s.step e).symbol? id = some (s.updated id y e) := by
  cases e with
  | flaw f place =>
    rw [updated_eq_self rfl rfl]
    exact hy
  | refer name write call => exact symbol?_refer hy name write call
  | declare name kind attributes =>
    rw [updated_eq_self rfl rfl]
    exact symbol?_declareIn hy _ _
  | parameter name kind attributes text =>
    have hdeclared := symbol?_declareIn hy s.arena.current (newSymbol name kind attributes)
    have hunit := unit?_of_books
      (books_declareIn s s.arena.current (newSymbol name kind attributes))
    change (modifyUnit (s.declareIn _ _).1 _).symbol? id = _
    rw [symbol?_modifyUnit hdeclared, hunit]
    simp [updated, Event.amend, reads]
  | result text =>
    refine (symbol?_modifyUnit hy _).trans ?_
    simp [updated, Event.amend, reads]
  | exported =>
    refine (symbol?_modifyUnit hy _).trans ?_
    simp [updated, Event.amend, reads]
  | _ => cases he

/-- A clause changes the entry of the name that it declares only, and that only if it is not told to
be a duplicate. -/
theorem get?_step (h : s.skeleton.InStep) (he : e.isClause = true) (i : Nat) (name : String) :
    ((s.step e).arena.scope i).get? name = (s.arena.scope i).get? name ∨
      ∃ new, s.declared? e = some (i, new) ∧ new.name = name ∧ ¬s.Rejects e := by
  have hcurrent := lt_of_mem_stack h (current_mem_stack h)
  cases e with
  | flaw f place => exact Or.inl rfl
  | refer other write call =>
    refine Or.inl ?_
    change ((s.refer other write call).1.arena.scope i).get? name = _
    unfold refer
    split
    · cases write <;> rfl
    · split <;> rfl
  | declare o kind attributes =>
    refine (get?_declareIn hcurrent (newSymbol o kind attributes) i name).imp_right ?_
    rintro ⟨rfl, hname, hsame⟩
    exact ⟨_, rfl, hname, fun hlt => Nat.ne_of_gt hlt hsame⟩
  | parameter o kind attributes text =>
    change ((modifyUnit (s.declareIn _ _).1 _).arena.scope i).get? name = _ ∨ _
    rw [scope_modifyUnit]
    refine (get?_declareIn hcurrent (newSymbol o kind attributes) i name).imp_right ?_
    rintro ⟨rfl, hname, hsame⟩
    exact ⟨_, rfl, hname, fun hlt => Nat.ne_of_gt hlt ((duplicates_modifyUnit _ _).trans hsame)⟩
  | result text => exact Or.inl (congrArg (Scope.get? · name) (scope_modifyUnit s _ i))
  | exported => exact Or.inl (congrArg (Scope.get? · name) (scope_modifyUnit s _ i))
  | _ => cases he

/-! ### Clauses one after the other -/

variable {events : List Event}

/-- On the way through the events one of them refers to the symbol, and not only to assign to it. -/
def ReadIn (s : State) (events : List Event) (id : Nat) : Prop :=
  ∃ front e back, events = front ++ e :: back ∧ (front.foldl step s).reads id e = true

/-- On the way through the events the name is declared in the scope, and not told to be a
duplicate. -/
def DeclaredIn (s : State) (events : List Event) (i : Nat) (name : String) : Prop :=
  ∃ front e back, events = front ++ e :: back ∧ ∃ new,
    (front.foldl step s).declared? e = some (i, new) ∧ new.name = name ∧
      ¬(front.foldl step s).Rejects e

theorem readIn_cons {id : Nat} :
    s.ReadIn (e :: events) id ↔ s.reads id e = true ∨ (s.step e).ReadIn events id := by
  constructor
  · rintro ⟨front, e', back, hsplit, hreads⟩
    cases front with
    | nil =>
      cases hsplit
      exact Or.inl hreads
    | cons first front =>
      cases hsplit
      exact Or.inr ⟨front, e', back, rfl, hreads⟩
  · rintro (hreads | ⟨front, e', back, rfl, hreads⟩)
    · exact ⟨[], e, events, rfl, hreads⟩
    · exact ⟨e :: front, e', back, rfl, hreads⟩

theorem DeclaredIn.cons {i : Nat} {name : String} (h : (s.step e).DeclaredIn events i name) :
    s.DeclaredIn (e :: events) i name := by
  obtain ⟨front, e', back, rfl, hdeclared⟩ := h
  exact ⟨e :: front, e', back, rfl, hdeclared⟩

theorem books_foldl (hevents : Event.Only Event.isClause events) :
    (events.foldl step s).books = s.books := by
  induction events using List.reverseRecOn with
  | nil => rfl
  | append_singleton events e ih =>
    rw [List.foldl_append]
    exact (books_step (hevents.of_mem e (by simp))).trans (ih hevents.left)

theorem symbol?_foldl (hevents : Event.Only Event.isClause events) (hy : s.symbol? id = some y) :
    ∃ used, (events.foldl step s).symbol? id = some { y with
        attributes :=
          if s.unit? = some id then events.foldl Event.amend y.attributes else y.attributes
        used } ∧
      (used = true ↔ y.used = true ∨ s.ReadIn events id) := by
  induction events using List.reverseRecOn with
  | nil =>
    refine ⟨y.used, ?_, ?_⟩
    · simpa using hy
    · simp [ReadIn]
  | append_singleton events e ih =>
    obtain ⟨used, hbefore, hused⟩ := ih hevents.left
    have hunit := unit?_of_books (books_foldl (s := s) hevents.left)
    have hstep := symbol?_step (hevents.of_mem e (by simp)) hbefore
    refine ⟨used || (events.foldl step s).reads id e, ?_, ?_⟩
    · rw [List.foldl_append, List.foldl_append, List.foldl_cons, List.foldl_nil, hstep, updated,
        hunit]
      split <;> rfl
    · rw [Bool.or_eq_true, hused, or_assoc]
      exact or_congr_right exists_moment_concat.symm

theorem get?_foldl (h : s.skeleton.InStep) (hevents : Event.Only Event.isClause events) (i : Nat)
    (name : String) :
    ((events.foldl step s).arena.scope i).get? name = (s.arena.scope i).get? name ∨
      s.DeclaredIn events i name := by
  induction events using List.reverseRecOn with
  | nil => exact Or.inl rfl
  | append_singleton events e ih =>
    have hin := (foldl_step_inv events h).1
    rw [DeclaredIn, exists_moment_concat, List.foldl_append]
    rcases get?_step hin (hevents.of_mem e (by simp)) i name with hsame | hnow
    · rcases ih hevents.left with hbefore | hearlier
      · exact Or.inl (hsame.trans hbefore)
      · exact Or.inr (Or.inl hearlier)
    · exact Or.inr (Or.inr hnow)

/-- Clauses declare in the innermost scope, which stays the same. -/
theorem DeclaredIn.eq_current {i : Nat} {name : String} (h : s.DeclaredIn events i name)
    (hevents : Event.Only Event.isClause events) : i = s.arena.current := by
  obtain ⟨front, e, back, rfl, new, hdeclared, -, -⟩ := h
  have hcurrent := current_of_books (books_foldl (s := s) hevents.left)
  have he : e.isClause = true := hevents.of_mem e (by simp)
  rw [← hcurrent]
  cases e with
  | declare | parameter =>
    cases hdeclared
    rfl
  | flaw | refer | result | exported => cases hdeclared
  | _ => cases he

end State

end Resolution

end Pearl
