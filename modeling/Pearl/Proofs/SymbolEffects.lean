import Pearl.Proofs.EventNames
import Pearl.Proofs.OpenScopes

namespace Pearl

/-! ### Scopes and symbols -/

theorem Scope.get?_insert (s : Scope) (name : String) (id : Nat) (other : String) :
    (s.insert name id).get? other = if other = name then some id else s.get? other :=
  Entries.lookup_assign name id s.entries other

namespace Arena

theorem scope_push (a : Arena) (keyword : Option String) (i : Nat) :
    (a.push keyword).scope i = if i = a.scopes.size then { keyword } else a.scope i := by
  simp only [scope, push, Array.getD_eq_getD_getElem?, Array.getElem?_push]
  split <;> rfl

theorem entries_push (a : Arena) (keyword : Option String) (i : Nat) :
    ((a.push keyword).scope i).entries = (a.scope i).entries := by
  rw [scope_push]
  split
  · rename_i hi
    rw [scope, Array.getD_eq_getD_getElem?, hi, Array.getElem?_eq_none (Nat.le_refl _)]
    rfl
  · rfl

theorem scope_add (a : Arena) {scope : Nat} (hscope : scope < a.scopes.size) (y : Symbol)
    (i : Nat) :
    (a.add scope y).scope i =
      if i = scope then (a.scope i).insert y.name a.symbols.size else a.scope i := by
  simp only [Arena.scope, add, Array.getD_eq_getD_getElem?, Array.getElem?_modify]
  by_cases hi : i = scope
  · subst hi
    simp [hscope]
  · rw [if_neg (Ne.symm hi), if_neg hi]

theorem get?_add (a : Arena) {scope : Nat} (hscope : scope < a.scopes.size) (y : Symbol) (i : Nat)
    (name : String) :
    ((a.add scope y).scope i).get? name =
      if i = scope ∧ name = y.name then some a.symbols.size else (a.scope i).get? name := by
  rw [scope_add a hscope]
  by_cases hi : i = scope
  · rw [if_pos hi, Scope.get?_insert]
    by_cases hname : name = y.name
    · rw [if_pos hname, if_pos ⟨hi, hname⟩]
    · rw [if_neg hname, if_neg fun h => hname h.2]
  · rw [if_neg hi, if_neg fun h => hi h.1]

/-- No scope holds a name twice. -/
def Distinct (a : Arena) : Prop := ∀ i, ((a.scope i).entries.map (·.1)).Nodup

theorem Distinct.add {a : Arena} (h : a.Distinct) {scope : Nat} (hscope : scope < a.scopes.size)
    (y : Symbol) : (a.add scope y).Distinct := by
  intro i
  rw [scope_add a hscope]
  split
  · change ((Entries.assign y.name a.symbols.size (a.scope i).entries).map (·.1)).Nodup
    rw [Entries.names_assign]
    split
    · exact h i
    · rename_i hfree
      exact List.nodup_append.mpr ⟨h i, List.pairwise_singleton _ _, by grind⟩
  · exact h i

end Arena

/-- The symbol at a later time, whether it has been used by then or not. -/
structure Symbol.Becomes (y y' : Symbol) : Prop where
  name : y'.name = y.name
  declaredAt : y'.declaredAt = y.declaredAt
  kind : y'.kind = y.kind
  isSpecification : y'.attributes.isSpecification = y.attributes.isSpecification
  isGlobal : y.attributes.isGlobal = true → y'.attributes.isGlobal = true

theorem Symbol.Becomes.refl (y : Symbol) : y.Becomes y := ⟨rfl, rfl, rfl, rfl, id⟩

theorem Symbol.Becomes.trans {y y' y'' : Symbol} (h : y.Becomes y') (h' : y'.Becomes y'') :
    y.Becomes y'' :=
  ⟨h'.name.trans h.name, h'.declaredAt.trans h.declaredAt, h'.kind.trans h.kind,
    h'.isSpecification.trans h.isSpecification, fun hg => h'.isGlobal (h.isGlobal hg)⟩

namespace Event

def isDeclaration : Event → Bool
  | declare .. | label _ | openModule .. | openUnit .. | parameter .. | loopVariable _ => true
  | _ => false

/-- The event brings the variable of a loop. -/
def isLoopVariable : Event → Bool
  | loopVariable _ => true
  | _ => false

/-- The event declares its name as visible elsewhere. -/
def declaresGlobal : Event → Bool
  | declare _ _ a | parameter _ _ a _ => a.isGlobal
  | _ => false

theorem isLoopVariable_iff {e : Event} {o : Occurrence} (ho : e.occurrence? = some o) :
    e.isLoopVariable = true ↔ e = .loopVariable o := by
  constructor
  · intro hloop
    cases e with
    | loopVariable o' =>
      cases ho
      rfl
    | _ => cases hloop
  · rintro rfl
    rfl

theorem isReference_of_isDeclaration {e : Event} (h : e.isDeclaration = true) :
    e.isReference = false := by
  cases e with
  | refer => cases h
  | operate => cases h
  | _ => rfl

end Event

namespace Resolution

/-! ### What happens to symbols and links -/

/-- A symbol that is added to a scope, and the event that brought its name. -/
structure Creation where
  event : Event
  scope : Nat
  symbol : Symbol

/-- A name that is found to stand for a symbol, and the event that brought it. -/
structure Use where
  event : Event
  place : Nat
  id : Nat

/-- To be the target of an assignment is no use. -/
def Use.counts (u : Use) : Bool := !u.event.isAssignment

namespace State

/-- From `s` to `s'` at most one symbol is added, its name is linked to it, and then names are
found to stand for symbols that were there. -/
structure Grows (s s' : State) (new : Option Creation) (uses : List Use) : Prop where
  size : s'.arena.symbols.size = s.arena.symbols.size + new.toList.length
  kept : ∀ id y, s.symbol? id = some y → ∃ y', s'.symbol? id = some y' ∧ y.Becomes y' ∧
    (y'.used = true ↔ y.used = true ∨ ∃ u ∈ uses, u.id = id ∧ u.counts = true)
  added : ∀ c ∈ new, ∃ y, s'.symbol? s.arena.symbols.size = some y ∧ c.symbol.Becomes y ∧
    y.used = c.symbol.used
  entry : ∀ c ∈ new, (s'.arena.scope c.scope).get? c.symbol.name = some s.arena.symbols.size
  others : ∀ i name, (∀ c ∈ new, ¬(i = c.scope ∧ name = c.symbol.name)) →
    (s'.arena.scope i).get? name = (s.arena.scope i).get? name
  links : s'.links.toList = s.links.toList ++
    new.toList.map (fun c => (c.symbol.declaredAt, s.arena.symbols.size)) ++
    uses.map fun u => (u.place, u.id)
  alone : new = none ∨ uses = []
  distinct : s.arena.Distinct → s'.arena.Distinct

variable {s s' s'' : State} {new : Option Creation} {uses uses' : List Use}

/-- Nothing happens to symbols, names and links. -/
theorem Grows.of_eq (hsymbols : s'.arena.symbols = s.arena.symbols)
    (hscopes : ∀ i, (s'.arena.scope i).entries = (s.arena.scope i).entries)
    (hlinks : s'.links = s.links) : Grows s s' none [] := by
  refine ⟨by rw [hsymbols]; rfl, ?_, by simp, by simp, ?_, ?_, Or.inl rfl, ?_⟩
  · intro id y hy
    exact ⟨y, by rw [symbol?, hsymbols]; exact hy, .refl y, by simp⟩
  · intro i name _
    rw [Scope.get?, hscopes]
    rfl
  · rw [hlinks]
    simp
  · intro h i
    rw [hscopes]
    exact h i

theorem Grows.refl (s : State) : Grows s s none [] := .of_eq rfl (fun _ => rfl) rfl

theorem grows_report (s : State) (cause : Cause) (place : Nat) :
    Grows s (s.report cause place) none [] := .of_eq rfl (fun _ => rfl) rfl

theorem grows_reportUnless (s : State) (p : Prop) [Decidable p] (cause : Cause) (place : Nat) :
    Grows s (if p then s else s.report cause place) none [] := by
  split
  · exact .refl s
  · exact grows_report s cause place

theorem Grows.trans (h : Grows s s' none uses) (h' : Grows s' s'' new uses')
    (hnew : new = none ∨ uses = []) : Grows s s'' new (uses ++ uses') := by
  have hsize : s'.arena.symbols.size = s.arena.symbols.size := h.size
  refine ⟨by rw [h'.size, hsize], ?_, ?_, ?_, ?_, ?_, ?_, fun hd => h'.distinct (h.distinct hd)⟩
  · intro id y hy
    obtain ⟨y', hy', hbecomes, hused⟩ := h.kept id y hy
    obtain ⟨y'', hy'', hbecomes', hused'⟩ := h'.kept id y' hy'
    refine ⟨y'', hy'', hbecomes.trans hbecomes', ?_⟩
    rw [hused', hused]
    simp only [List.mem_append, or_and_right, exists_or, or_assoc]
  · rw [← hsize]
    exact h'.added
  · rw [← hsize]
    exact h'.entry
  · intro i name hfree
    rw [h'.others i name hfree, h.others i name (by simp)]
  · rw [h'.links, h.links, hsize]
    rcases hnew with rfl | rfl
    · simp
    · simp
  · rcases hnew with rfl | rfl
    · exact Or.inl rfl
    · exact h'.alone

theorem Grows.trans_quiet (h : Grows s s' new uses) (h' : Grows s' s'' none []) :
    Grows s s'' new uses := by
  refine ⟨by rw [h'.size, h.size]; rfl, ?_, ?_, ?_, ?_, ?_, h.alone,
    fun hd => h'.distinct (h.distinct hd)⟩
  · intro id y hy
    obtain ⟨y', hy', hbecomes, hused⟩ := h.kept id y hy
    obtain ⟨y'', hy'', hbecomes', hused'⟩ := h'.kept id y' hy'
    refine ⟨y'', hy'', hbecomes.trans hbecomes', ?_⟩
    rw [hused', hused]
    simp
  · intro c hc
    obtain ⟨y, hy, hbecomes, hused⟩ := h.added c hc
    obtain ⟨y', hy', hbecomes', hused'⟩ := h'.kept _ y hy
    refine ⟨y', hy', hbecomes.trans hbecomes', ?_⟩
    rw [← hused]
    apply Bool.eq_iff_iff.mpr
    rw [hused']
    simp
  · intro c hc
    rw [h'.others _ _ (by simp), h.entry c hc]
  · intro i name hfree
    rw [h'.others i name (by simp), h.others i name hfree]
  · rw [h'.links, h.links]
    simp

/-! ### Operations -/

theorem grows_openFrame (s : State) (block : Block) (place : Nat) (symbol : Option Nat) :
    Grows s (s.openFrame block place symbol) none [] :=
  .of_eq rfl (Arena.entries_push s.arena _) rfl

theorem grows_closeFrame (s : State) (place : Nat) : Grows s (s.closeFrame place) none [] := by
  unfold closeFrame Arena.pop
  split
  · rename_i frame outer i arena hframes hpop
    split at hpop
    · cases hpop
      exact .of_eq rfl (fun _ => rfl) rfl
    · cases hpop
  · exact .refl s

theorem grows_introduce (s : State) {scope : Nat} (hscope : scope < s.arena.scopes.size)
    (e : Event) (new : Symbol) :
    Grows s (s.introduce scope new) (some ⟨e, scope, new⟩) [] := by
  have hsymbols : (s.introduce scope new).arena.symbols = s.arena.symbols.push new := rfl
  have hlookup : ∀ i name, ((s.introduce scope new).arena.scope i).get? name = _ :=
    Arena.get?_add s.arena hscope new
  refine ⟨by rw [hsymbols, Array.size_push]; rfl, ?_, ?_, ?_, ?_, ?_, Or.inr rfl,
    fun hd => hd.add hscope new⟩
  · intro id y hy
    refine ⟨y, ?_, .refl y, by simp⟩
    rw [symbol?, hsymbols, Array.getElem?_push, if_neg]
    · exact hy
    · have hlt := (Array.getElem?_eq_some_iff.mp hy).1
      omega
  · rintro c ⟨⟩
    refine ⟨new, ?_, .refl new, rfl⟩
    rw [symbol?, hsymbols, Array.getElem?_push_size]
  · rintro c ⟨⟩
    rw [hlookup, if_pos ⟨rfl, rfl⟩]
  · intro i name hfree
    rw [hlookup, if_neg (hfree _ rfl)]
  · simp [introduce, link]

/-- What an event declares: nothing if the name is taken, and else the symbol, which inherits the
uses of a specification that it carries out. -/
inductive Declares (s : State) (e : Event) (scope : Nat) (new : Symbol) :
    Option Creation → Prop where
  | taken : Declares s e scope new none
  | fresh (hfree : (s.arena.scope scope).get? new.name = none) :
      Declares s e scope new (some ⟨e, scope, new⟩)
  | carried {id : Nat} {earlier : Symbol} (hid : (s.arena.scope scope).get? new.name = some id)
      (hsymbol : s.symbol? id = some earlier) (hcarries : carriesOut earlier new = true) :
      Declares s e scope new (some ⟨e, scope, { new with used := new.used || earlier.used }⟩)

theorem grows_declareIn (s : State) {scope : Nat} (hscope : scope < s.arena.scopes.size)
    (e : Event) (new : Symbol) :
    ∃ c, Declares s e scope new c ∧ Grows s (s.declareIn scope new).1 c [] := by
  unfold declareIn
  split
  · rename_i hfree
    exact ⟨_, .fresh hfree, grows_introduce s hscope e new⟩
  · rename_i id hid
    split
    · rename_i earlier hsymbol
      split
      · rename_i hcarries
        exact ⟨_, .carried hid hsymbol hcarries, grows_introduce s hscope e _⟩
      · exact ⟨none, .taken, grows_report s _ _⟩
    · exact ⟨none, .taken, .refl s⟩

theorem symbol?_markUsed (s : State) (id other : Nat) :
    (s.markUsed id).symbol? other =
      (s.symbol? other).map fun y => if other = id then { y with used := true } else y := by
  change (s.arena.symbols.modify id _)[other]? = _
  rw [Array.getElem?_modify]
  by_cases h : other = id
  · subst h
    rw [if_pos rfl]
    cases hy : s.arena.symbols[other]? <;> simp [symbol?, hy]
  · rw [if_neg (Ne.symm h)]
    cases hy : s.arena.symbols[other]? <;> simp [symbol?, hy, h]

theorem grows_link (s : State) {e : Event} (he : e.isAssignment = true) (place id : Nat) :
    Grows s (s.link place id) none [⟨e, place, id⟩] := by
  refine ⟨rfl, ?_, by simp, by simp, fun _ _ _ => rfl, by simp [link], Or.inl rfl, fun hd => hd⟩
  intro other y hy
  exact ⟨y, hy, .refl y, by simp [Use.counts, he]⟩

theorem grows_land (s : State) {e : Event} (he : e.isAssignment = false) (place id : Nat) :
    Grows s (s.land place id) none [⟨e, place, id⟩] := by
  refine ⟨?_, ?_, by simp, by simp, fun _ _ _ => rfl, by simp [land, link, markUsed], Or.inl rfl,
    fun hd => hd⟩
  · simp [land, markUsed, Arena.markUsed, Arena.modifySymbol, link]
  · intro other y hy
    refine ⟨if other = id then { y with used := true } else y, ?_, ?_, ?_⟩
    · rw [land, symbol?_markUsed]
      change (s.symbol? other).map _ = _
      rw [hy]
      rfl
    · split
      · exact ⟨rfl, rfl, rfl, rfl, fun h => h⟩
      · exact .refl y
    · by_cases h : other = id
      · simp [h, Use.counts, he]
      · simp [h, Ne.symm h]

theorem grows_refer (s : State) {e : Event} {name : Occurrence} {write : Bool} (call : Bool)
    (he : e.isAssignment = write) :
    (∃ id, s.arena.lookup name.name = some id ∧
      Grows s (s.refer name write call).1 none [⟨e, name.place, id⟩]) ∨
    Grows s (s.refer name write call).1 none [] := by
  unfold refer
  split
  · rename_i id hid
    refine Or.inl ⟨id, hid, ?_⟩
    cases write with
    | true => exact grows_link s he name.place id
    | false => exact grows_land s he name.place id
  · split
    · exact Or.inr (.of_eq rfl (fun _ => rfl) rfl)
    · exact Or.inr (grows_report s _ _)

theorem grows_operate (s : State) {e : Event} (he : e.isAssignment = false) (keyword : String)
    (kind : SymbolKind) (name : Occurrence) :
    (∃ id, s.arena.lookup name.name = some id ∧
      Grows s (s.operate keyword kind name) none [⟨e, name.place, id⟩]) ∨
    Grows s (s.operate keyword kind name) none [] := by
  have hcheck : Grows (s.refer name false (keyword = "CALL")).1 (s.operate keyword kind name)
      none [] := by
    unfold operate
    dsimp only
    split
    · split
      · exact .refl _
      · exact grows_report _ _ _
    · exact .refl _
  obtain ⟨id, hid, hrefer⟩ | hrefer := grows_refer s (keyword = "CALL") he
  · exact Or.inl ⟨id, hid, hrefer.trans_quiet hcheck⟩
  · exact Or.inr (hrefer.trans_quiet hcheck)

/-- The attributes of a unit may grow. -/
theorem grows_modifyUnit (s : State) {f : Attributes → Attributes}
    (hspec : ∀ a, (f a).isSpecification = a.isSpecification)
    (hglobal : ∀ a, a.isGlobal = true → (f a).isGlobal = true) :
    Grows s (s.modifyUnit f) none [] := by
  unfold modifyUnit
  split
  · rename_i unit _
    refine ⟨by simp [Arena.modifySymbol], ?_, by simp, by simp, fun _ _ _ => rfl, by simp,
      Or.inl rfl, fun hd => hd⟩
    intro id y hy
    change ∃ y', (s.arena.symbols.modify unit _)[id]? = some y' ∧ _
    rw [Array.getElem?_modify, show s.arena.symbols[id]? = some y from hy]
    by_cases h : unit = id
    · rw [if_pos h]
      exact ⟨_, rfl, ⟨rfl, rfl, rfl, hspec _, hglobal _⟩, by simp⟩
    · rw [if_neg h]
      exact ⟨y, rfl, .refl y, by simp⟩
  · exact .refl s

/-! ### Jumps -/

/-- Jumps are resolved one after the other, where `P` tells what a label may stand for. -/
theorem grows_foldl_land {f : State → String × Nat → State} {P : State → String → Nat → Prop}
    (hf : ∀ s jump, (∃ id, P s jump.1 id ∧ f s jump = s.land jump.2 id) ∨
      ∃ cause place, f s jump = s.report cause place)
    (hland : ∀ s place id name other, P (s.land place id) name other → P s name other)
    (hreport : ∀ s cause place name other, P (s.report cause place) name other → P s name other)
    (jumps : List (String × Nat)) (s : State) :
    ∃ uses, Grows s (jumps.foldl f s) none uses ∧
      (uses.map (·.event)).Sublist (jumps.map Books.jumpTo) ∧
      ∀ u ∈ uses, ∃ name, u.event = .jump ⟨name, u.place⟩ ∧ P s name u.id := by
  induction jumps generalizing s with
  | nil => exact ⟨[], .refl s, .slnil, by simp⟩
  | cons jump jumps ih =>
    obtain ⟨uses, hgrows, hsub, huses⟩ := ih (f s jump)
    rw [List.foldl_cons]
    obtain ⟨id, hid, hstep⟩ | ⟨cause, place, hstep⟩ := hf s jump
    · rw [hstep] at hgrows huses ⊢
      have hone : Grows s (s.land jump.2 id) none [⟨Books.jumpTo jump, jump.2, id⟩] :=
        grows_land s rfl jump.2 id
      refine ⟨⟨Books.jumpTo jump, jump.2, id⟩ :: uses, hone.trans hgrows (Or.inl rfl),
        hsub.cons_cons _, ?_⟩
      intro u hu
      rcases List.mem_cons.mp hu with rfl | hu
      · exact ⟨jump.1, rfl, hid⟩
      · obtain ⟨name, hname, hP⟩ := huses u hu
        exact ⟨name, hname, hland _ _ _ _ _ hP⟩
    · rw [hstep] at hgrows huses ⊢
      refine ⟨uses, (grows_report s cause place).trans hgrows (Or.inl rfl), hsub.cons _, ?_⟩
      intro u hu
      obtain ⟨name, hname, hP⟩ := huses u hu
      exact ⟨name, hname, hreport _ _ _ _ _ hP⟩

/-- The jumps out of a body lead to names of its scope. -/
theorem grows_foldl_landInBody (place : Nat) (jumps : List (String × Nat)) (s : State) :
    ∃ uses, Grows s (jumps.foldl (landInBody place) s) none uses ∧
      (uses.map (·.event)).Sublist (jumps.map Books.jumpTo) ∧
      ∀ u ∈ uses, ∃ name, u.event = .jump ⟨name, u.place⟩ ∧
        (s.arena.scope s.arena.current).get? name = some u.id := by
  refine grows_foldl_land (P := fun s name id =>
    (s.arena.scope s.arena.current).get? name = some id) ?_ (fun _ _ _ _ _ h => h)
    (fun _ _ _ _ _ h => h) jumps s
  intro s jump
  unfold landInBody
  split
  · rename_i id hid
    exact Or.inl ⟨id, (Option.filter_eq_some_iff.mp hid).1, rfl⟩
  · exact Or.inr ⟨_, _, rfl⟩

/-- The other jumps lead to the labels outside of procedures and tasks. -/
theorem grows_foldl_landOutside (jumps : List (String × Nat)) (s : State) :
    ∃ uses, Grows s (jumps.foldl landOutside s) none uses ∧
      (uses.map (·.event)).Sublist (jumps.map Books.jumpTo) ∧
      ∀ u ∈ uses, ∃ name, u.event = .jump ⟨name, u.place⟩ ∧
        s.outerLabels.lookup name = some u.id := by
  refine grows_foldl_land (P := fun s name id => s.outerLabels.lookup name = some id) ?_
    (fun _ _ _ _ _ h => h) (fun _ _ _ _ _ h => h) jumps s
  intro s jump
  unfold landOutside
  split
  · rename_i id hid
    exact Or.inl ⟨id, hid, rfl⟩
  · exact Or.inr ⟨_, _, rfl⟩

/-! ### Events -/

/-- A symbol may be added like this: it has the name that its event brought, it may take the place
of a specification only, and it counts as used if it is visible elsewhere, counts the rounds of a
loop, or inherits uses. -/
structure Creates (s : State) (c : Creation) : Prop where
  declares : c.event.isDeclaration = true
  name : c.event.occurrence? = some ⟨c.symbol.name, c.symbol.declaredAt⟩
  isGlobal : c.symbol.attributes.isGlobal = c.event.declaresGlobal
  loop : c.event.isLoopVariable = true → c.symbol.attributes.isSpecification = false
  replaces : ∀ old, (s.arena.scope c.scope).get? c.symbol.name = some old →
    ∃ z, s.symbol? old = some z ∧ carriesOut z c.symbol = true
  used : c.symbol.used = true ↔
    c.symbol.kind.isExported = true ∨ c.event.declaresGlobal = true ∨
    c.event.isLoopVariable = true ∨
    ∃ old z, (s.arena.scope c.scope).get? c.symbol.name = some old ∧ s.symbol? old = some z ∧
      z.used = true

/-- An event may find a name to stand for a symbol: its own name, in the scopes that are open, or
the target of a jump, in some scope. -/
inductive Resolves (s : State) (e : Event) (u : Use) : Prop where
  | refer {name : String} (he : u.event = e) (href : e.isReference = true)
      (ho : e.occurrence? = some ⟨name, u.place⟩) (hid : s.arena.lookup name = some u.id)
  | jump {name : String} (he : u.event = .jump ⟨name, u.place⟩)
      (hid : ∃ i, (s.arena.scope i).get? name = some u.id)

/-- The name stands in some scope for a label that is no specification. -/
def LabelOf (s : State) (name : String) (id : Nat) : Prop :=
  ∃ i y, (s.arena.scope i).get? name = some id ∧ s.symbol? id = some y ∧
    y.attributes.isSpecification = false

/-- What an event does to symbols and links. The event and those that were outstanding are
accounted for: each is outstanding still, or brought one symbol or one use, or is dropped. -/
structure Effect (s : State) (e : Event) (s' : State) (new : Option Creation) (uses : List Use) :
    Prop extends Grows s s' new uses where
  creates : ∀ c ∈ new, Creates s c
  resolves : ∀ u ∈ uses, Resolves s e u
  account : (s'.books.outstanding ++ (new.toList.map (·.event) ++ uses.map (·.event))).Subperm
    (s.books.outstanding ++ [e])
  labels : ∀ l ∈ s'.outerLabels, l ∈ s.outerLabels ∨ s'.LabelOf l.1 l.2

theorem labels_of_eq (h : s'.books.outerLabels = s.books.outerLabels) :
    ∀ l ∈ s'.outerLabels, l ∈ s.outerLabels ∨ s'.LabelOf l.1 l.2 := by
  intro l hl
  have hl' : l ∈ s'.books.outerLabels := hl
  rw [h] at hl'
  exact Or.inl hl'

/-- An event may do nothing of the kind. -/
theorem Grows.effect {e : Event} (h : Grows s s' none [])
    (hbooks : s'.books.outstanding.Subperm (s.books.outstanding ++ [e]))
    (hlabels : s'.books.outerLabels = s.books.outerLabels) :
    ∃ new uses, Effect s e s' new uses :=
  ⟨none, [], h, by simp, by simp, by simpa using hbooks, labels_of_eq hlabels⟩

theorem Grows.effect_of_books {e : Event} (h : Grows s s' none []) (hbooks : s'.books = s.books) :
    ∃ new uses, Effect s e s' new uses := by
  refine h.effect ?_ (by rw [hbooks])
  rw [hbooks]
  exact (List.sublist_append_left _ _).subperm

theorem lt_of_mem_stack (h : s.skeleton.InStep) {i : Nat} (hi : i ∈ s.arena.stack) :
    i < s.arena.scopes.size := by
  have hmem : s.skeleton.keywords[i]? ∈
      s.skeleton.blocks.map (fun b => some (some b.keyword)) ++ [some none] := by
    rw [← h.paired]
    exact List.mem_map_of_mem hi
  by_contra hge
  have hlength : s.skeleton.keywords.length = s.arena.scopes.size := by simp [skeleton]
  rw [List.getElem?_eq_none (by omega)] at hmem
  simp at hmem

theorem zero_mem_stack (h : s.skeleton.InStep) : 0 ∈ s.arena.stack :=
  List.mem_of_getLast? h.root

theorem current_mem_stack (h : s.skeleton.InStep) : s.arena.current ∈ s.arena.stack := by
  have hzero := zero_mem_stack h
  rw [Arena.current]
  cases hstack : s.arena.stack with
  | nil =>
    rw [hstack] at hzero
    cases hzero
  | cons i outer => exact List.mem_cons_self

/-! #### Declarations -/

/-- A declaration adds its own symbol or none. -/
theorem Declares.creates {e : Event} {scope : Nat} {o : Occurrence} {kind : SymbolKind}
    {attributes : Attributes} (he : e.isDeclaration = true) (ho : e.occurrence? = some o)
    (hglobal : e.declaresGlobal = attributes.isGlobal) (hloop : e.isLoopVariable = false)
    (h : Declares s e scope (newSymbol o kind attributes) new) : ∀ c ∈ new, Creates s c := by
  cases h with
  | taken => simp
  | fresh hfree =>
    rintro c ⟨⟩
    have hname : (s.arena.scope scope).get? o.name = none := hfree
    refine ⟨he, ho, hglobal.symm, by simp [hloop], ?_, ?_⟩
    · intro old hold
      rw [show (s.arena.scope scope).get? o.name = some old from hold] at hname
      cases hname
    · simp [newSymbol, hglobal, hloop, hname, or_comm]
  | @carried id earlier hid hsymbol hcarries =>
    rintro c ⟨⟩
    have hname : (s.arena.scope scope).get? o.name = some id := hid
    refine ⟨he, ho, hglobal.symm, by simp [hloop], ?_, ?_⟩
    · intro old hold
      rw [show (s.arena.scope scope).get? o.name = some old from hold] at hname
      exact ⟨earlier, by rw [Option.some.inj hname]; exact hsymbol, hcarries⟩
    · simp [newSymbol, hglobal, hloop, hname, hsymbol, or_assoc, or_left_comm]

theorem Declares.of_arena {e : Event} {scope : Nat} {y : Symbol} (harena : s'.arena = s.arena)
    (h : Declares s' e scope y new) : Declares s e scope y new := by
  cases h with
  | taken => exact .taken
  | fresh hfree => exact .fresh (harena ▸ hfree)
  | carried hid hsymbol hcarries =>
    refine .carried (harena ▸ hid) ?_ hcarries
    rw [symbol?, ← harena]
    exact hsymbol

theorem Declares.event {e : Event} {scope : Nat} {y : Symbol} (h : Declares s e scope y new) :
    (new.toList.map (·.event)).Sublist [e] := by
  cases h with
  | taken => exact List.nil_sublist _
  | fresh => exact .refl _
  | carried => exact .refl _

/-- What a declaration does, with something before it and after it that leaves names alone. -/
theorem effect_declareIn {e : Event} {scope : Nat} {o : Occurrence} (kind : SymbolKind)
    (attributes : Attributes) (he : e.isDeclaration = true) (ho : e.occurrence? = some o)
    (hglobal : e.declaresGlobal = attributes.isGlobal) (hloop : e.isLoopVariable = false)
    (hbefore : Grows s s' none []) (harena : s'.arena = s.arena)
    (hscope : scope < s.arena.scopes.size)
    (hafter : Grows (s'.declareIn scope (newSymbol o kind attributes)).1 s'' none [])
    (hbooks : s''.books.outstanding = s.books.outstanding)
    (hlabels : ∀ l ∈ s''.outerLabels, l ∈ s.outerLabels ∨ s''.LabelOf l.1 l.2) :
    ∃ new uses, Effect s e s'' new uses := by
  obtain ⟨c, hdeclares, hgrows⟩ :=
    grows_declareIn s' (by rw [harena]; exact hscope) e (newSymbol o kind attributes)
  have hquiet := hbefore.trans (hgrows.trans_quiet hafter) (Or.inr rfl)
  have hcreates := (hdeclares.of_arena harena).creates he ho hglobal hloop
  refine ⟨c, [], hquiet, hcreates, by simp, ?_, hlabels⟩
  rw [hbooks, List.map_nil, List.append_nil]
  exact (hdeclares.event.append_left _).subperm

theorem bodyScope?_mem {i : Nat} (hscope : s.bodyScope? = some i) : i ∈ s.arena.stack := by
  obtain ⟨⟨frame, scope⟩, hfind, rfl⟩ := Option.map_eq_some_iff.mp hscope
  exact (List.of_mem_zip (List.mem_of_find?_eq_some hfind)).2

theorem unitScope_mem (h : s.skeleton.InStep) : s.unitScope ∈ s.arena.stack := by
  unfold unitScope
  split
  · cases hlevel : s.arena.stack.reverse[1]? with
    | none => exact zero_mem_stack h
    | some i => exact List.mem_reverse.mp (List.mem_of_getElem? hlevel)
  · exact zero_mem_stack h

/-- After a declaration the name has a meaning; a label that has the name of a new label is no
specification, for else the new one would have carried it out. -/
theorem labelOf_declareIn {scope : Nat} (hscope : scope < s.arena.scopes.size) (name : Occurrence)
    (hlabel : (s.declareIn scope (newSymbol name .label {})).1.isLabel
      (s.declareIn scope (newSymbol name .label {})).2 = true) :
    (s.declareIn scope (newSymbol name .label {})).1.LabelOf name.name
      (s.declareIn scope (newSymbol name .label {})).2 := by
  have hnew : ∀ y : Symbol, y.name = name.name → y.attributes.isSpecification = false →
      (s.introduce scope y).LabelOf name.name s.arena.symbols.size := by
    intro y hname hspec
    obtain ⟨y', hy', hbecomes, -⟩ := (grows_introduce s hscope (.label name) y).added _ rfl
    have hentry := (grows_introduce s hscope (.label name) y).entry _ rfl
    refine ⟨scope, y', hname ▸ hentry, hy', ?_⟩
    rw [hbecomes.isSpecification]
    exact hspec
  revert hlabel
  unfold declareIn
  split
  · exact fun _ => hnew _ rfl rfl
  · rename_i id hid
    split
    · rename_i earlier hsymbol
      split
      · exact fun _ => hnew _ rfl rfl
      · rename_i hcarries
        intro hlabel
        refine ⟨scope, earlier, hid, hsymbol, ?_⟩
        change (s.symbol? id).any _ = true at hlabel
        rw [hsymbol, Option.any_some, decide_eq_true_eq] at hlabel
        simpa [carriesOut, hlabel, newSymbol] using hcarries
    · rename_i hsymbol
      intro hlabel
      change (s.symbol? id).any _ = true at hlabel
      rw [hsymbol] at hlabel
      cases hlabel

theorem effect_label (h : s.skeleton.InStep) (name : Occurrence) :
    ∃ new uses, Effect s (.label name) (s.label name) new uses := by
  unfold label
  split
  · rename_i scope hscope
    have hbooks := books_declareIn s scope (newSymbol name .label {})
    exact effect_declareIn .label {} rfl rfl rfl rfl (.refl s) rfl
      (lt_of_mem_stack h (bodyScope?_mem hscope)) (.refl _) (by rw [hbooks])
      (labels_of_eq (by rw [hbooks]))
  · have hcurrent := lt_of_mem_stack h (current_mem_stack h)
    have hbooks := books_declareIn s s.arena.current (newSymbol name .label {})
    have hlabel := labelOf_declareIn hcurrent name
    unfold declare
    dsimp only
    generalize hd : s.declareIn s.arena.current (newSymbol name .label {}) = declared at *
    split
    · rename_i hnew
      rw [Bool.and_eq_true] at hnew
      have hout := congrArg Books.outstanding hbooks
      refine effect_declareIn .label {} rfl rfl rfl rfl (.refl s) rfl hcurrent ?_ hout ?_
      · rw [hd]
        exact .of_eq rfl (fun _ => rfl) rfl
      · intro l hl
        rcases List.mem_append.mp hl with hl | hl
        · exact (labels_of_eq (congrArg Books.outerLabels hbooks) l hl).imp_right fun h => h
        · rw [List.mem_singleton.mp hl]
          exact Or.inr (hlabel hnew.1)
    · refine effect_declareIn .label {} rfl rfl rfl rfl (.refl s) rfl hcurrent ?_ (by rw [hbooks])
        (labels_of_eq (by rw [hbooks]))
      rw [hd]
      exact .refl _

theorem effect_openModule (h : s.skeleton.InStep) (block : Block) (place : Nat)
    (name : Option Occurrence) :
    ∃ new uses, Effect s (.openModule block place name) (s.openModule block place name) new
      uses := by
  obtain ⟨frame, hjumps, hbooks⟩ := books_openModule s block place name
  have hout : (s.openModule block place name).books.outstanding = s.books.outstanding := by
    rw [hbooks, Books.outstanding_push _ hjumps]
  have hlabels : (s.openModule block place name).books.outerLabels = s.books.outerLabels := by
    rw [hbooks]
    rfl
  have hreport : Grows s
      (if s.frames.isEmpty then s else s.report (.misplacedModule block) place) none [] :=
    grows_reportUnless s _ _ _
  cases name with
  | none =>
    refine Grows.effect (hreport.trans_quiet (grows_openFrame _ _ _ _)) ?_ hlabels
    rw [hout]
    exact (List.sublist_append_left _ _).subperm
  | some o =>
    refine effect_declareIn .module {} rfl rfl rfl rfl hreport ?_
      (lt_of_mem_stack h (zero_mem_stack h)) (grows_openFrame _ _ _ _) hout (labels_of_eq hlabels)
    split <;> rfl

theorem effect_openUnit (h : s.skeleton.InStep) (isTask : Bool) (name : Occurrence) :
    ∃ new uses, Effect s (.openUnit isTask name) (s.openUnit isTask name) new uses := by
  obtain ⟨frame, hjumps, hbooks⟩ := books_openUnit s isTask name
  have hout : (s.openUnit isTask name).books.outstanding = s.books.outstanding := by
    rw [hbooks, Books.outstanding_push _ hjumps]
  have hlabels : (s.openUnit isTask name).books.outerLabels = s.books.outerLabels := by
    rw [hbooks]
    rfl
  have hreport : ∀ cause,
      Grows s (if s.atModuleLevel then s else s.report cause name.place) none [] :=
    fun cause => grows_reportUnless s _ cause _
  have harena : ∀ cause,
      (if s.atModuleLevel then s else s.report cause name.place).arena = s.arena := by
    intro cause
    split <;> rfl
  have hscope : ∀ cause,
      (if s.atModuleLevel then s else s.report cause name.place).unitScope = s.unitScope := by
    intro cause
    split <;> rfl
  refine effect_declareIn (if isTask then .task else .proc) {} rfl rfl rfl rfl
    (hreport (.nestedUnit (if isTask then .task else .procedure) name.name)) (harena _)
    (lt_of_mem_stack h (unitScope_mem h)) ?_ hout (labels_of_eq hlabels)
  unfold openUnit
  dsimp only
  rw [hscope]
  exact grows_openFrame _ _ _ _

/-! #### References and jumps -/

theorem Grows.effect_refer {e : Event} {o : Occurrence} {id : Nat} (href : e.isReference = true)
    (ho : e.occurrence? = some o) (hid : s.arena.lookup o.name = some id)
    (h : Grows s s' none [⟨e, o.place, id⟩]) (hbooks : s'.books = s.books) :
    ∃ new uses, Effect s e s' new uses := by
  refine ⟨none, _, h, by simp, ?_, ?_, labels_of_eq (by rw [hbooks])⟩
  · intro u hu
    rw [List.mem_singleton.mp hu]
    exact .refer rfl href ho hid
  · rw [hbooks]
    exact List.Subperm.refl _

theorem effect_jump (target : Occurrence) :
    ∃ new uses, Effect s (.jump target) (s.jump target) new uses := by
  unfold jump
  split
  · refine Grows.effect (.of_eq rfl (fun _ => rfl) rfl) ?_ rfl
    exact Books.outstanding_addJump s.books (target.name, target.place)
  · split
    · rename_i id hid
      obtain ⟨hlookup, -⟩ := Option.filter_eq_some_iff.mp hid
      obtain ⟨-, i, -, -, hi, -⟩ := List.findSome?_eq_some_iff.mp hlookup
      refine ⟨none, _, grows_land s (e := .jump target) rfl target.place id, by simp, ?_,
        List.Subperm.refl _, labels_of_eq rfl⟩
      intro u hu
      rw [List.mem_singleton.mp hu]
      exact .jump rfl ⟨i, hi⟩
    · refine Grows.effect (.of_eq rfl (fun _ => rfl) rfl) ?_ rfl
      exact (List.Perm.of_eq (Books.outstanding_append s.books (target.name, target.place))).subperm

/-! #### Blocks -/

/-- The variable of a loop counts as used from the start. -/
theorem Grows.markUsed {c : Creation} (h : Grows s s' (some c) []) :
    Grows s (s'.markUsed s.arena.symbols.size)
      (some ⟨c.event, c.scope, { c.symbol with used := true }⟩) [] := by
  have hsize := h.size
  refine ⟨?_, ?_, ?_, ?_, ?_, h.links, h.alone.imp_left nofun, h.distinct⟩
  · simpa [State.markUsed, Arena.markUsed, Arena.modifySymbol] using hsize
  · intro id y hy
    obtain ⟨y', hy', hbecomes, hused⟩ := h.kept id y hy
    refine ⟨y', ?_, hbecomes, hused⟩
    have hlt := (Array.getElem?_eq_some_iff.mp hy).1
    rw [symbol?_markUsed, hy', Option.map_some, if_neg (by omega)]
  · rintro _ ⟨⟩
    obtain ⟨y, hy, hbecomes, -⟩ := h.added c rfl
    refine ⟨{ y with used := true }, ?_, ?_, rfl⟩
    · rw [symbol?_markUsed, hy, Option.map_some, if_pos rfl]
    · exact ⟨hbecomes.name, hbecomes.declaredAt, hbecomes.kind, hbecomes.isSpecification,
        hbecomes.isGlobal⟩
  · rintro _ ⟨⟩
    exact h.entry c rfl
  · intro i name hfree
    apply h.others i name
    rintro _ ⟨⟩
    exact hfree ⟨c.event, c.scope, { c.symbol with used := true }⟩ rfl

/-- The variable that a loop has been waiting for is declared in the scope of the loop, where no
other name has been declared yet. -/
theorem effect_openLoop (place : Nat) {o : Occurrence} (hpending : s.pending = some o) :
    ∃ new uses, Effect s (.openBlock .loop place) (s.openBlock .loop place) new uses := by
  have hbooks := books_openBlock s .loop place
  have hopen := grows_openFrame s .loop place none
  have hsize : s.arena.scopes.size < (s.openFrame .loop place none).arena.scopes.size := by
    simp [openFrame, Arena.push]
  have hempty : ∀ name, ((s.openFrame .loop place none).arena.scope s.arena.scopes.size).get? name =
      none := by
    intro name
    change ((s.arena.push _).scope _).get? _ = _
    rw [Arena.scope_push, if_pos rfl]
    rfl
  -- in a new scope every name is free, so that the declaration cannot be refused
  have hdeclare : (s.openFrame .loop place none).declare o .var { typeName := some "FIXED" } =
      ((s.openFrame .loop place none).introduce s.arena.scopes.size
        (newSymbol o .var { typeName := some "FIXED" }), s.arena.symbols.size) := by
    change declareIn _ s.arena.scopes.size _ = _
    unfold declareIn
    rw [hempty]
    rfl
  have hgrows := hopen.trans
    (grows_introduce _ hsize (.loopVariable o) (newSymbol o .var { typeName := some "FIXED" }))
    (Or.inr rfl)
  have hafter : Grows s (s.openBlock .loop place)
      (some ⟨.loopVariable o, s.arena.scopes.size,
        { newSymbol o .var { typeName := some "FIXED" } with used := true }⟩) [] := by
    refine hgrows.markUsed.trans_quiet ?_
    unfold openBlock bindLoop
    rw [hpending]
    dsimp only
    rw [hdeclare]
    exact .of_eq rfl (fun _ => rfl) rfl
  have hfree : (s.arena.scope s.arena.scopes.size).get? o.name = none := by
    rw [← hempty o.name]
    exact (hopen.others _ _ (by simp)).symm
  refine ⟨_, _, hafter, ?_, by simp, ?_, labels_of_eq (by rw [hbooks]; rfl)⟩
  · rintro c ⟨⟩
    refine ⟨rfl, rfl, rfl, fun _ => rfl, ?_, by simp [Event.isLoopVariable]⟩
    intro old hold
    rw [show (s.arena.scope s.arena.scopes.size).get? o.name = some old from hold] at hfree
    cases hfree
  · -- what is accounted for is the variable that was outstanding, not the event at hand
    have hout : s.books.outstanding.Perm
        ((s.openBlock .loop place).books.outstanding ++ [.loopVariable o]) := by
      rw [Books.outstanding_of_pending (o := o) hpending, hbooks]
      exact (List.perm_append_singleton _ _).symm
    exact hout.symm.subperm.trans (List.sublist_append_left _ _).subperm

theorem effect_openBlock (block : Block) (place : Nat) :
    ∃ new uses, Effect s (.openBlock block place) (s.openBlock block place) new uses := by
  have hbooks := books_openBlock s block place
  have hquiet : (s.openFrame block place none).bindLoop block s.pending =
      s.openFrame block place none →
      ∃ new uses, Effect s (.openBlock block place) (s.openBlock block place) new uses := by
    intro hbind
    have hgrows : Grows (s.openFrame block place none) (s.openBlock block place) none [] := by
      rw [openBlock, hbind]
      exact .of_eq rfl (fun _ => rfl) rfl
    refine Grows.effect ((grows_openFrame s block place none).trans_quiet hgrows) ?_
      (by rw [hbooks]; rfl)
    rw [hbooks]
    exact ((Books.outstanding_settled _).trans (List.sublist_append_left _ _)).subperm
  cases block with
  | loop =>
    cases hpending : s.pending with
    | none => exact hquiet (by rw [hpending]; rfl)
    | some o => exact effect_openLoop place hpending
  | _ => exact hquiet rfl

theorem effect_otherwise (place : Nat) :
    ∃ new uses, Effect s (.otherwise place) (s.otherwise place) new uses := by
  have hbooks := books_otherwise s place
  have hgrows : Grows s (s.otherwise place) none [] := by
    unfold otherwise
    split
    · split
      · exact (grows_closeFrame s place).trans (grows_openFrame _ _ _ _) (Or.inl rfl)
      · exact grows_report s _ _
    · exact grows_report s _ _
  split at hbooks
  · refine hgrows.effect ?_ ?_
    · rw [hbooks, Books.outstanding_push _ rfl]
      exact ((Books.outstanding_pop _).trans (List.sublist_append_left _ _)).subperm
    · rw [hbooks]
      exact Books.outerLabels_pop _
  · exact hgrows.effect_of_books hbooks

/-- Closing a block resolves jumps that were kept for its end. -/
theorem grows_close {frame : Frame} {outer : List Frame} (hframes : s.frames = frame :: outer)
    {closer : Closer} (hblock : frame.block ∈ closer.openers) (place : Nat) :
    ∃ uses, Grows s (s.close closer place) none uses ∧
      (uses.map (·.event)).Sublist (frame.jumps.map Books.jumpTo) ∧
      ∀ u ∈ uses, ∃ name, u.event = .jump ⟨name, u.place⟩ ∧
        (s.arena.scope s.arena.current).get? name = some u.id := by
  have hclose : s.close closer place =
      let s' := if frame.block.isBody then frame.jumps.foldl (landInBody place) s else s
      { s'.closeFrame place with moduleEnded := s'.moduleEnded || closer = .modend } := by
    rw [close, hframes]
    exact if_pos (List.contains_iff_mem.mpr hblock)
  have hquiet : ∀ s' : State, Grows s' { s'.closeFrame place with
      moduleEnded := s'.moduleEnded || closer = .modend } none [] :=
    fun s' => (grows_closeFrame s' place).trans_quiet (.of_eq rfl (fun _ => rfl) rfl)
  rw [hclose]
  dsimp only
  split
  · obtain ⟨uses, hgrows, hsub, huses⟩ := grows_foldl_landInBody place frame.jumps s
    exact ⟨uses, hgrows.trans_quiet (hquiet _), hsub, huses⟩
  · exact ⟨[], hquiet s, List.nil_sublist _, by simp⟩

theorem effect_close (h : s.skeleton.InStep) (closer : Closer) (place : Nat) :
    ∃ new uses, Effect s (.close closer place) (s.close closer place) new uses := by
  by_cases hmem : ∀ frame ∈ s.frames.head?, frame.block ∉ closer.openers
  · rw [close_of_not_mem hmem]
    exact (grows_report s _ _).effect_of_books rfl
  · cases hframes : s.frames with
    | nil => simp [hframes] at hmem
    | cons frame outer =>
      have hblock : frame.block ∈ closer.openers := by simpa [hframes] using hmem
      have hbooks := books_close s closer place
      rw [endsIn_eq_true hframes hblock, if_pos rfl] at hbooks
      have hpop : s.books.pop.frames = outer := by
        rw [← books_closeFrame s place]
        exact (closeFrame_eq h hframes place).1
      obtain ⟨uses, hgrows, hsub, huses⟩ := grows_close hframes hblock place
      refine ⟨none, uses, hgrows, by simp, ?_, ?_, labels_of_eq ?_⟩
      · intro u hu
        obtain ⟨name, hname, hid⟩ := huses u hu
        exact .jump hname ⟨_, hid⟩
      · have hout : (s.close closer place).books.outstanding = s.books.pop.outstanding := by
          rw [hbooks]
          rfl
        rw [hout]
        have hkept := Books.outstanding_pop_perm (b := s.books) hframes hpop
        exact ((hsub.append_left _).subperm.trans hkept.subperm).trans
          (List.sublist_append_left _ _).subperm
      · rw [hbooks]
        exact Books.outerLabels_pop _

/-- What every event does to symbols and links. -/
theorem step_effect (h : s.skeleton.InStep) (e : Event) :
    ∃ new uses, Effect s e (s.step e) new uses := by
  have hcurrent := lt_of_mem_stack h (current_mem_stack h)
  cases e with
  | flaw f place => exact (grows_report s _ _).effect_of_books rfl
  | refer name write call =>
    have hbooks := books_refer s name write call
    obtain ⟨id, hid, hgrows⟩ | hgrows := grows_refer (e := .refer name write call) s call rfl
    · exact hgrows.effect_refer rfl rfl hid hbooks
    · exact hgrows.effect_of_books hbooks
  | operate keyword kind name =>
    have hbooks := books_operate s keyword kind name
    obtain ⟨id, hid, hgrows⟩ | hgrows :=
      grows_operate (e := .operate keyword kind name) s rfl keyword kind name
    · exact hgrows.effect_refer rfl rfl hid hbooks
    · exact hgrows.effect_of_books hbooks
  | declare name kind attributes =>
    have hbooks := books_declareIn s s.arena.current (newSymbol name kind attributes)
    exact effect_declareIn kind attributes rfl rfl rfl rfl (.refl s) rfl hcurrent (.refl _)
      (congrArg Books.outstanding hbooks) (labels_of_eq (congrArg Books.outerLabels hbooks))
  | label name => exact effect_label h name
  | jump target => exact effect_jump target
  | openModule block place name => exact effect_openModule h block place name
  | openUnit isTask name => exact effect_openUnit h isTask name
  | parameter name kind attributes text =>
    have hbooks : (s.step (.parameter name kind attributes text)).books = s.books :=
      (books_modifyUnit _ _).trans (books_declareIn s _ _)
    refine effect_declareIn kind attributes rfl rfl rfl rfl (.refl s) rfl hcurrent ?_
      (congrArg Books.outstanding hbooks) (labels_of_eq (congrArg Books.outerLabels hbooks))
    unfold step declare
    apply grows_modifyUnit
    · exact fun _ => rfl
    · exact fun _ h => h
  | result text =>
    have hgrows : Grows s (s.modifyUnit ({ · with returns := some text })) none [] :=
      grows_modifyUnit s (fun _ => rfl) fun _ h => h
    exact hgrows.effect_of_books (books_modifyUnit s _)
  | exported =>
    have hgrows : Grows s (s.modifyUnit ({ · with isGlobal := true })) none [] :=
      grows_modifyUnit s (fun _ => rfl) fun _ _ => rfl
    exact hgrows.effect_of_books (books_modifyUnit s _)
  | openBlock block place => exact effect_openBlock block place
  | loopVariable name =>
    exact Grows.effect (.of_eq rfl (fun _ => rfl) rfl) (Books.outstanding_wait s.books name) rfl
  | otherwise place => exact effect_otherwise place
  | close closer place => exact effect_close h closer place

end State

end Resolution

end Pearl
