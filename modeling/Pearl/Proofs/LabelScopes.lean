import Pearl.Proofs.StatementEvents
import Pearl.Proofs.SymbolSuccession

namespace Pearl.Resolution

/-! ### Moments of a run -/

def At (events : List Event) (e : Event) (P : State → Prop) : Prop :=
  ∃ before after, events = before ++ e :: after ∧ P (ofEvents before)

variable {events : List Event} {e : Event} {P : State → Prop}

theorem at_concat {e' : Event} :
    At (events ++ [e']) e P ↔ At events e P ∨ e = e' ∧ P (ofEvents events) := by
  have hform : ∀ events, At events e P ↔ ∃ before e' after, events = before ++ e' :: after ∧
      e = e' ∧ P (ofEvents before) := by
    intro events
    constructor
    · rintro ⟨before, after, hsplit, hP⟩
      exact ⟨before, e, after, hsplit, rfl, hP⟩
    · rintro ⟨before, _, after, hsplit, rfl, hP⟩
      exact ⟨before, after, hsplit, hP⟩
  rw [hform, hform]
  exact exists_moment_concat

theorem not_at_nil : ¬At [] e P := by
  rintro ⟨before, after, hsplit, -⟩
  exact absurd hsplit.symm (List.append_ne_nil_of_right_ne_nil before (List.cons_ne_nil e after))

theorem At.mem (h : At events e P) : e ∈ events := by
  obtain ⟨before, after, rfl, -⟩ := h
  simp

theorem At.append (h : At events e P) (more : List Event) : At (events ++ more) e P := by
  obtain ⟨before, after, rfl, hP⟩ := h
  exact ⟨before, after ++ more, by simp, hP⟩

theorem At.imp {Q : State → Prop} (h : At events e P) (hPQ : ∀ s, P s → Q s) : At events e Q := by
  obtain ⟨before, after, hsplit, hP⟩ := h
  exact ⟨before, after, hsplit, hPQ _ hP⟩

/-- The events in front of a boundary lead to its state. -/
theorem Boundary.exists_moment {words rest : List Word} {prev : Option Word} {start : Bool}
    {s : State} (h : Boundary words prev start rest s) :
    ∃ front, Event.ofWords words = front ++ Event.eventsAfter prev start rest ∧
      ofEvents front = s := by
  induction h with
  | first => exact ⟨[], rfl, rfl⟩
  | @next prev start w rest s h ih =>
    obtain ⟨front, hevents, rfl⟩ := ih
    refine ⟨front ++ (Event.statement prev start w rest).1.events, ?_, ?_⟩
    · rw [hevents, Event.eventsAfter, List.append_assoc]
    · rw [ofEvents, List.foldl_append]
      rfl

/-! ### The scopes of procedures and tasks -/

/-- The scope is that of a procedure or task, be it open or closed. -/
def Skeleton.IsBody (k : Skeleton) (i : Nat) : Prop :=
  ∃ block : Block, block.isBody = true ∧ k.keywords[i]? = some (some block.keyword)

theorem Skeleton.Moves.keywords_extend {k k' : Skeleton} {opened closed : Nat}
    (h : k.Moves opened closed k') : k.keywords <+: k'.keywords := by
  cases h with
  | stay => exact List.prefix_refl _
  | push b => exact List.prefix_append _ _
  | pop hne => exact List.prefix_refl _
  | turn hne b => exact List.prefix_append _ _

theorem block_eq_of_keyword {b b' : Block} (h : b.keyword = b'.keyword) : b = b' := by
  cases b <;> cases b' <;> simp_all [Block.keyword]

namespace State

variable {s s' : State}

/-- An open block and its scope have the same keyword. -/
theorem keyword_of_mem_zip (h : s.skeleton.InStep) {frame : Frame} {i : Nat}
    (hmem : (frame, i) ∈ s.frames.zip s.arena.stack) :
    s.skeleton.keywords[i]? = some (some frame.block.keyword) := by
  obtain ⟨n, hn⟩ := List.mem_iff_getElem?.mp hmem
  obtain ⟨hframe, hi⟩ := List.getElem?_zip_eq_some.mp hn
  have hpaired : s.arena.stack.map (s.skeleton.keywords[·]?) =
      (s.frames.map (·.block)).map (fun b => some (some b.keyword)) ++ [some none] := h.paired
  have hget := congrArg (·[n]?) hpaired
  have hlt : n < ((s.frames.map (·.block)).map fun b => some (some b.keyword)).length := by
    simpa using (List.getElem?_eq_some_iff.mp hframe).1
  rw [List.getElem?_append_left hlt] at hget
  simpa [hframe, hi] using hget

theorem mem_zip_of_bodyScope? {i : Nat} (h : s.bodyScope? = some i) :
    ∃ frame : Frame, frame.block.isBody = true ∧ (frame, i) ∈ s.frames.zip s.arena.stack := by
  obtain ⟨⟨frame, scope⟩, hfind, rfl⟩ := Option.map_eq_some_iff.mp h
  have hbody : (frame, scope).1.block.isBody = true :=
    List.find?_some (p := fun f : Frame × Nat => f.1.block.isBody) hfind
  exact ⟨frame, hbody, List.mem_of_find?_eq_some hfind⟩

theorem isBody_of_bodyScope? (h : s.skeleton.InStep) {i : Nat} (hi : s.bodyScope? = some i) :
    s.skeleton.IsBody i := by
  obtain ⟨frame, hbody, hmem⟩ := mem_zip_of_bodyScope? hi
  exact ⟨frame.block, hbody, keyword_of_mem_zip h hmem⟩

/-- Outside of procedures and tasks none of the open scopes is that of one. -/
theorem not_isBody_of_bodyScope? (h : s.skeleton.InStep) (hnone : s.bodyScope? = none) {i : Nat}
    (hi : i ∈ s.arena.stack) : ¬s.skeleton.IsBody i := by
  rintro ⟨block, hbody, hkeyword⟩
  obtain ⟨n, hn⟩ := List.mem_iff_getElem?.mp hi
  have hpaired : s.arena.stack.map (s.skeleton.keywords[·]?) =
      (s.frames.map (·.block)).map (fun b => some (some b.keyword)) ++ [some none] := h.paired
  have hget := congrArg (·[n]?) hpaired
  simp only [List.getElem?_map, hn, Option.map_some, hkeyword] at hget
  by_cases hlt : n < s.frames.length
  · have hpair : (s.frames.zip s.arena.stack)[n]? = some (s.frames[n], i) :=
      List.getElem?_zip_eq_some.mpr ⟨List.getElem?_eq_getElem hlt, hn⟩
    have hmem := List.mem_of_getElem? hpair
    have hsame := keyword_of_mem_zip h hmem
    rw [hkeyword] at hsame
    have hblock := block_eq_of_keyword (Option.some.inj (Option.some.inj hsame))
    have hno := List.find?_eq_none.mp (Option.map_eq_none_iff.mp hnone) _ hmem
    exact hno (hblock ▸ hbody)
  · rw [List.getElem?_append_right (by simpa using hlt)] at hget
    have hlast := List.mem_of_getElem? hget.symm
    simp at hlast

end State

/-- The scopes that there are keep their keywords. -/
theorem keywords_extend (events more : List Event) :
    (ofEvents events).skeleton.keywords <+: (ofEvents (events ++ more)).skeleton.keywords := by
  induction more using List.reverseRecOn with
  | nil => simp
  | append_singleton more e ih =>
    obtain ⟨made, used, h⟩ := exists_history (events ++ more)
    rw [← List.append_assoc, ofEvents_concat]
    exact ih.trans (State.step_moves h.inStep e).1.keywords_extend

theorem isBody_append {i : Nat} (hi : i < (ofEvents events).skeleton.keywords.length)
    (more : List Event) :
    (ofEvents (events ++ more)).skeleton.IsBody i ↔ (ofEvents events).skeleton.IsBody i := by
  obtain ⟨left, hleft⟩ := keywords_extend events more
  simp only [Skeleton.IsBody, ← hleft, List.getElem?_append_left hi]

/-! ### What declares labels -/

namespace State

variable {s s' : State}

def kinds (s : State) : List SymbolKind := s.arena.symbols.toList.map (·.kind)

theorem getElem?_kinds (s : State) (id : Nat) : s.kinds[id]? = (s.symbol? id).map (·.kind) := by
  simp [kinds, symbol?]

theorem length_kinds (s : State) : s.kinds.length = s.arena.symbols.size := by
  simp [kinds]

theorem Grows.kinds_eq {uses : List Use} (h : Grows s s' none uses) : s'.kinds = s.kinds := by
  have hsize : s'.arena.symbols.size = s.arena.symbols.size := h.size
  apply List.ext_getElem?
  intro id
  rw [getElem?_kinds, getElem?_kinds]
  cases hy : s.symbol? id with
  | none =>
    have hge := Array.getElem?_eq_none_iff.mp hy
    rw [show s'.symbol? id = none from Array.getElem?_eq_none_iff.mpr (by omega)]
  | some y =>
    obtain ⟨y', hy', hbecomes, -⟩ := h.kept id y hy
    rw [hy', Option.map_some, Option.map_some, hbecomes.kind]

/-- Symbols are added, and none of them is a label. -/
def AddsNoLabel (s s' : State) : Prop := ∃ ks, s'.kinds = s.kinds ++ ks ∧ SymbolKind.label ∉ ks

theorem Grows.addsNoLabel {uses : List Use} (h : Grows s s' none uses) : s.AddsNoLabel s' :=
  ⟨[], by rw [h.kinds_eq, List.append_nil], by simp⟩

theorem AddsNoLabel.trans {s'' : State} (h : s.AddsNoLabel s') (h' : s'.AddsNoLabel s'') :
    s.AddsNoLabel s'' := by
  obtain ⟨ks, hks, hnone⟩ := h
  obtain ⟨ks', hks', hnone'⟩ := h'
  exact ⟨ks ++ ks', by rw [hks', hks, List.append_assoc], by simp [hnone, hnone']⟩

theorem addsNoLabel_declareIn (s : State) (scope : Nat) (new : Symbol) (hkind : new.kind ≠ .label) :
    s.AddsNoLabel (s.declareIn scope new).1 := by
  have hintroduce : ∀ y : Symbol, y.kind = new.kind → s.AddsNoLabel (s.introduce scope y) := by
    intro y hy
    exact ⟨[y.kind], by simp [kinds, introduce, link, Arena.add], by simpa [hy] using hkind.symm⟩
  unfold declareIn
  split
  · exact hintroduce new rfl
  · split
    · split
      · exact hintroduce _ rfl
      · exact (grows_report s _ _).addsNoLabel
    · exact (Grows.refl s).addsNoLabel

theorem addsNoLabel_markUsed (s : State) (id : Nat) : s.AddsNoLabel (s.markUsed id) := by
  refine ⟨[], ?_, by simp⟩
  apply List.ext_getElem?
  intro other
  rw [List.append_nil, getElem?_kinds, getElem?_kinds, symbol?_markUsed, Option.map_map]
  congr 1
  funext y
  simp only [Function.comp_apply]
  split <;> rfl

/-- Labels are declared by their own events only. -/
theorem step_addsNoLabel (hlabel : ∀ l, e ≠ .label l) (he : e.declaresLabel = false) :
    s.AddsNoLabel (s.step e) := by
  cases e with
  | flaw f place => exact (grows_report s _ _).addsNoLabel
  | refer name write call =>
    obtain ⟨id, -, h⟩ | h := grows_refer (e := .refer name write call) s call rfl
    · exact h.addsNoLabel
    · exact h.addsNoLabel
  | operate keyword kind name =>
    obtain ⟨id, -, h⟩ | h :=
      grows_operate (e := .operate keyword kind name) s rfl keyword kind name
    · exact h.addsNoLabel
    · exact h.addsNoLabel
  | declare name kind attributes =>
    exact addsNoLabel_declareIn s _ (newSymbol name kind attributes) (of_decide_eq_false he)
  | label l => exact absurd rfl (hlabel l)
  | jump target =>
    have hquiet : ∀ {s' : State}, s'.arena = s.arena → s'.links = s.links → Grows s s' none [] :=
      fun harena hlinks => .of_eq (by rw [harena]) (by simp [harena]) hlinks
    change s.AddsNoLabel (s.jump target)
    unfold jump
    split
    · exact (hquiet rfl rfl).addsNoLabel
    · split
      · exact (grows_land s (e := .jump target) rfl _ _).addsNoLabel
      · exact (hquiet rfl rfl).addsNoLabel
  | openModule block place name =>
    change s.AddsNoLabel (s.openModule block place name)
    have hreport : Grows s
        (if s.frames.isEmpty then s else s.report (.misplacedModule block) place) none [] :=
      grows_reportUnless s _ _ _
    cases name with
    | none => exact (hreport.trans_quiet (grows_openFrame _ _ _ _)).addsNoLabel
    | some o =>
      have hdeclare := addsNoLabel_declareIn
        (if s.frames.isEmpty then s else s.report (.misplacedModule block) place) 0
        (newSymbol o .module {}) (by simp [newSymbol])
      exact (hreport.addsNoLabel.trans hdeclare).trans (grows_openFrame _ _ _ _).addsNoLabel
  | openUnit isTask name =>
    change s.AddsNoLabel (s.openUnit isTask name)
    unfold openUnit
    dsimp only
    refine (AddsNoLabel.trans ?_ (addsNoLabel_declareIn _ _ _ ?_)).trans
      (grows_openFrame _ _ _ _).addsNoLabel
    · exact (grows_reportUnless s _ _ _).addsNoLabel
    · cases isTask <;> simp [newSymbol]
  | parameter name kind attributes text =>
    have hdeclare := addsNoLabel_declareIn s s.arena.current (newSymbol name kind attributes)
      (of_decide_eq_false he)
    have hmodify : ∀ s : State, Grows s
        (s.modifyUnit fun a => { a with parameters := a.parameters ++ [text] }) none [] :=
      fun s => grows_modifyUnit s (fun _ => rfl) fun _ h => h
    exact hdeclare.trans (hmodify _).addsNoLabel
  | result text =>
    have hgrows : Grows s (s.modifyUnit ({ · with returns := some text })) none [] :=
      grows_modifyUnit s (fun _ => rfl) fun _ h => h
    exact hgrows.addsNoLabel
  | exported =>
    have hgrows : Grows s (s.modifyUnit ({ · with isGlobal := true })) none [] :=
      grows_modifyUnit s (fun _ => rfl) fun _ _ => rfl
    exact hgrows.addsNoLabel
  | openBlock block place =>
    have hbind : ∀ s : State, s.AddsNoLabel (s.bindLoop block s.pending) := by
      intro s
      unfold bindLoop
      split
      · exact (addsNoLabel_declareIn _ _ _ (by simp [newSymbol])).trans
          (addsNoLabel_markUsed _ _)
      · exact (Grows.refl s).addsNoLabel
    exact (grows_openFrame s block place none).addsNoLabel.trans (hbind _)
  | loopVariable name => exact (Grows.of_eq rfl (fun _ => rfl) rfl).addsNoLabel
  | otherwise place =>
    change s.AddsNoLabel (s.otherwise place)
    unfold otherwise
    split
    · split
      · exact (grows_closeFrame s place).addsNoLabel.trans (grows_openFrame _ _ _ _).addsNoLabel
      · exact (grows_report s _ _).addsNoLabel
    · exact (grows_report s _ _).addsNoLabel
  | close closer place =>
    change s.AddsNoLabel (s.close closer place)
    by_cases hmem : ∀ frame ∈ s.frames.head?, frame.block ∉ closer.openers
    · rw [close_of_not_mem hmem]
      exact (grows_report s _ _).addsNoLabel
    · cases hframes : s.frames with
      | nil => simp [hframes] at hmem
      | cons frame outer =>
        have hblock : frame.block ∈ closer.openers := by simpa [hframes] using hmem
        obtain ⟨uses, h, -, -⟩ := grows_close hframes hblock place
        exact h.addsNoLabel

/-! ### Labels and their symbols -/

/-- The number is that of the symbol which the label has declared. -/
def Denotes (s : State) (id : Nat) (l : Occurrence) : Prop :=
  ∃ y, s.symbol? id = some y ∧ (newSymbol l .label {}).Becomes y

/-- The label is accepted: nothing is told about it. -/
def Accepts (s : State) (l : Occurrence) : Prop := (s.step (.label l)).findings = s.findings

/-- The scope to which labels belong here: that of the innermost procedure or task, or that of the
innermost block. -/
def labelScope (s : State) : Nat := s.bodyScope?.getD s.arena.current

theorem labelScope_mem (h : s.skeleton.InStep) : s.labelScope ∈ s.arena.stack := by
  unfold labelScope
  cases hbody : s.bodyScope? with
  | none => exact current_mem_stack h
  | some i => exact bodyScope?_mem hbody

theorem Denotes.symbol {id : Nat} {l : Occurrence} (h : s.Denotes id l) {y : Symbol}
    (hy : s.symbol? id = some y) : y.kind = .label ∧ y.attributes.isSpecification = false := by
  obtain ⟨y', hy', hbecomes⟩ := h
  cases hy.symm.trans hy'
  exact ⟨hbecomes.kind, hbecomes.isSpecification⟩

theorem Grows.denotes {new : Option Creation} {uses : List Use} (h : Grows s s' new uses) {id : Nat}
    {l : Occurrence} (hd : s.Denotes id l) : s'.Denotes id l := by
  obtain ⟨y, hy, hbecomes⟩ := hd
  obtain ⟨y', hy', hbecomes', -⟩ := h.kept id y hy
  exact ⟨y', hy', hbecomes.trans hbecomes'⟩

/-- A label that a scope holds is never replaced, for it is no specification. -/
theorem Effect.entry_label {new : Option Creation} {uses : List Use} (h : Effect s e s' new uses)
    {i id : Nat} {l : Occurrence} (hentry : (s.arena.scope i).get? l.name = some id)
    (hd : s.Denotes id l) : (s'.arena.scope i).get? l.name = some id := by
  rw [h.others i l.name, hentry]
  rintro c hc ⟨rfl, hname⟩
  obtain ⟨z, hz, hcarries⟩ := (h.creates c hc).replaces id (hname ▸ hentry)
  have hspec := (isSpecification_of_carriesOut hcarries).1
  rw [(hd.symbol hz).2] at hspec
  cases hspec

/-- A label is a declaration; outside of procedures and tasks the first of each name is noted. -/
theorem label_eq (s : State) (l : Occurrence) {declared : State × Nat}
    (hd : s.declareIn s.labelScope (newSymbol l .label {}) = declared) :
    s.label l = { declared.1 with
      outerLabels := if s.bodyScope?.isNone && declared.1.isLabel declared.2 &&
        (s.outerLabels.lookup l.name).isNone then s.outerLabels ++ [(l.name, declared.2)]
        else s.outerLabels } := by
  have houter : declared.1.outerLabels = s.outerLabels := by
    rw [← hd]
    exact congrArg Books.outerLabels (books_declareIn s _ _)
  unfold label
  cases hbody : s.bodyScope? with
  | some i =>
    rw [labelScope, hbody, Option.getD_some] at hd
    simp only [hd, Option.isNone_some, Bool.false_and, Bool.false_eq_true, if_false, ← houter]
  | none =>
    rw [labelScope, hbody, Option.getD_none] at hd
    simp only [declare, hd, Option.isNone_none, Bool.true_and, houter]
    split
    · rfl
    · rw [← houter]

/-- What a label does where its name is free. -/
theorem label_of_free {l : Occurrence} (hfree : (s.arena.scope s.labelScope).get? l.name = none) :
    s.label l = { s.introduce s.labelScope (newSymbol l .label {}) with
      outerLabels := if s.bodyScope?.isNone && (s.outerLabels.lookup l.name).isNone then
        s.outerLabels ++ [(l.name, s.arena.symbols.size)] else s.outerLabels } := by
  have hdeclare : s.declareIn s.labelScope (newSymbol l .label {}) =
      (s.introduce s.labelScope (newSymbol l .label {}), s.arena.symbols.size) := by
    rw [declareIn, show (newSymbol l .label {}).name = l.name from rfl, hfree]
  have hlabel : (s.introduce s.labelScope (newSymbol l .label {})).isLabel
      s.arena.symbols.size = true := by
    simp [isLabel, symbol?, introduce, link, Arena.add, newSymbol]
  rw [label_eq s l hdeclare, hlabel, Bool.and_true]

theorem denotes_of_free {l : Occurrence}
    (hfree : (s.arena.scope s.labelScope).get? l.name = none) :
    (s.step (.label l)).Denotes s.arena.symbols.size l := by
  refine ⟨newSymbol l .label {}, ?_, .refl _⟩
  rw [step, label_of_free hfree]
  simp [symbol?, introduce, link, Arena.add]

theorem get?_of_free (h : s.skeleton.InStep) {l : Occurrence}
    (hfree : (s.arena.scope s.labelScope).get? l.name = none) (i : Nat) (name : String) :
    ((s.step (.label l)).arena.scope i).get? name =
      if i = s.labelScope ∧ name = l.name then some s.arena.symbols.size
      else (s.arena.scope i).get? name := by
  rw [step, label_of_free hfree]
  exact Arena.get?_add s.arena (lt_of_mem_stack h (labelScope_mem h)) (newSymbol l .label {}) i name

/-- What a label does where its name is taken. -/
theorem label_of_taken {l : Occurrence} {id : Nat} {y : Symbol}
    (hid : (s.arena.scope s.labelScope).get? l.name = some id) (hy : s.symbol? id = some y)
    (hcarries : carriesOut y (newSymbol l .label {}) = false) :
    s.label l = { s.report (.duplicate l.name y.declaredAt) l.place with
      outerLabels := if s.bodyScope?.isNone && s.isLabel id &&
        (s.outerLabels.lookup l.name).isNone then s.outerLabels ++ [(l.name, id)]
        else s.outerLabels } := by
  have hdeclare : s.declareIn s.labelScope (newSymbol l .label {}) =
      (s.report (.duplicate l.name y.declaredAt) l.place, id) := by
    rw [declareIn, show (newSymbol l .label {}).name = l.name from rfl, hid]
    dsimp only
    rw [hy]
    dsimp only
    rw [if_neg (by simp [hcarries])]
    rfl
  rw [label_eq s l hdeclare]
  rfl

end State

/-! ### What is kept for later -/

/-- The blocks change, and nothing else that is kept for later: each open block was open before, or
it is new, and so is its scope. -/
structure Books.Turns (b b' : Books) : Prop where
  jumps : b'.jumps = b.jumps
  outerLabels : b'.outerLabels = b.outerLabels
  pairs : ∀ p ∈ b'.frames.zip b'.stack,
    p ∈ b.frames.zip b.stack ∨ p.1.jumps = [] ∧ p.2 = b.scopes

namespace Books

variable {b : Books}

theorem turns_refl (b : Books) : b.Turns b := ⟨rfl, rfl, fun _ hp => Or.inl hp⟩

theorem turns_push (b : Books) {frame : Frame} (hjumps : frame.jumps = []) :
    b.Turns (b.push frame) := by
  refine ⟨rfl, rfl, ?_⟩
  intro p hp
  rcases List.mem_cons.mp hp with rfl | hp
  · exact Or.inr ⟨hjumps, rfl⟩
  · exact Or.inl hp

theorem turns_pop (b : Books) : b.Turns b.pop := by
  unfold pop
  split
  · rename_i frame frames i j stack hframes hstack
    refine ⟨rfl, rfl, ?_⟩
    intro p hp
    rw [hframes, hstack]
    exact Or.inl (List.mem_cons_of_mem _ hp)
  · exact turns_refl b

theorem scopes_pop (b : Books) : b.pop.scopes = b.scopes := by
  unfold pop
  split <;> rfl

theorem turns_pop_push (b : Books) {frame : Frame} (hjumps : frame.jumps = []) :
    b.Turns (b.pop.push frame) := by
  have hpop := turns_pop b
  have hpush := turns_push b.pop hjumps
  refine ⟨hpush.jumps.trans hpop.jumps, hpush.outerLabels.trans hpop.outerLabels, ?_⟩
  intro p hp
  rcases hpush.pairs p hp with hp | ⟨hnone, hnew⟩
  · exact hpop.pairs p hp
  · exact Or.inr ⟨hnone, hnew.trans (scopes_pop b)⟩

end Books

/-- All events but labels and jumps leave alone what is kept for later. -/
theorem State.step_turns (s : State) (hlabel : ∀ l, e ≠ .label l) (hjump : ∀ o, e ≠ .jump o) :
    s.books.Turns (s.step e).books := by
  have hbooks : ∀ {b : Books}, (s.step e).books = b → s.books.Turns b →
      s.books.Turns (s.step e).books := by
    rintro b rfl h
    exact h
  cases e with
  | flaw f place => exact Books.turns_refl _
  | refer name write call => exact hbooks (books_refer s name write call) (Books.turns_refl _)
  | operate keyword kind name =>
    exact hbooks (books_operate s keyword kind name) (Books.turns_refl _)
  | declare name kind attributes => exact hbooks (books_declareIn s _ _) (Books.turns_refl _)
  | label l => exact absurd rfl (hlabel l)
  | jump target => exact absurd rfl (hjump target)
  | parameter name kind attributes text =>
    exact hbooks ((books_modifyUnit _ _).trans (books_declareIn s _ _)) (Books.turns_refl _)
  | result text => exact hbooks (books_modifyUnit s _) (Books.turns_refl _)
  | exported => exact hbooks (books_modifyUnit s _) (Books.turns_refl _)
  | loopVariable name => exact ⟨rfl, rfl, fun _ hp => Or.inl hp⟩
  | openModule block place name =>
    obtain ⟨frame, hjumps, hb⟩ := books_openModule s block place name
    exact hbooks hb (Books.turns_push _ hjumps)
  | openUnit isTask name =>
    obtain ⟨frame, hjumps, hb⟩ := books_openUnit s isTask name
    exact hbooks hb (Books.turns_push _ hjumps)
  | openBlock block place =>
    have hpush : s.books.Turns (s.books.push ⟨block, place, none, []⟩) := Books.turns_push _ rfl
    exact hbooks (books_openBlock s block place) ⟨hpush.jumps, hpush.outerLabels, hpush.pairs⟩
  | otherwise place =>
    have hb := books_otherwise s place
    split at hb
    · exact hbooks hb (Books.turns_pop_push _ rfl)
    · exact hbooks hb (Books.turns_refl _)
  | close closer place =>
    have hb := books_close s closer place
    have hpop := Books.turns_pop s.books
    split at hb
    · exact hbooks hb ⟨hpop.jumps, hpop.outerLabels, hpop.pairs⟩
    · exact hbooks hb (Books.turns_refl _)

/-! ### Labels in a run -/

/-- Labels that belong to a scope were accepted in the procedure or task of the scope, if it is that
of one, and else outside of all of them. -/
theorem at_of_labelScope {i : Nat} (h : At events e fun s => s.labelScope = i ∧ P s) :
    ((ofEvents events).skeleton.IsBody i → At events e fun s => s.bodyScope? = some i ∧ P s) ∧
    (¬(ofEvents events).skeleton.IsBody i → At events e fun s => s.bodyScope? = none ∧ P s) := by
  obtain ⟨before, after, rfl, rfl, hP⟩ := h
  obtain ⟨made, used, hbefore⟩ := exists_history before
  have hmem := State.labelScope_mem hbefore.inStep
  have hlt : (ofEvents before).labelScope < (ofEvents before).skeleton.keywords.length := by
    simpa [State.skeleton] using State.lt_of_mem_stack hbefore.inStep hmem
  rw [isBody_append hlt]
  cases hbody : (ofEvents before).bodyScope? with
  | some j =>
    have hj : (ofEvents before).labelScope = j := by
      rw [State.labelScope, hbody]
      rfl
    rw [hj]
    refine ⟨fun _ => ⟨before, after, rfl, hbody, hP⟩, ?_⟩
    intro hno
    exact absurd (State.isBody_of_bodyScope? hbefore.inStep hbody) hno
  | none =>
    refine ⟨?_, fun _ => ⟨before, after, rfl, hbody, hP⟩⟩
    intro hyes
    exact absurd hyes (State.not_isBody_of_bodyScope? hbefore.inStep hbody hmem)

/-- What is known about the labels after some events. A label that a scope holds has been accepted
there; and the labels that are noted are, name by name, those that have been accepted outside of
procedures and tasks. -/
structure Labels (events : List Event) (s : State) : Prop where
  held : ∀ i name id y, (s.arena.scope i).get? name = some id → s.symbol? id = some y →
    y.kind = .label → ∃ l, l.name = name ∧ s.Denotes id l ∧
      At events (.label l) fun s => s.labelScope = i ∧ s.Accepts l
  noted : ∀ name id, s.outerLabels.lookup name = some id → ∃ l, l.name = name ∧ s.Denotes id l ∧
    At events (.label l) fun s => s.bodyScope? = none ∧ s.Accepts l
  known : ∀ l, At events (.label l) (fun s => s.bodyScope? = none ∧ s.Accepts l) →
    (s.outerLabels.lookup l.name).isSome = true

namespace Labels

variable {made : List Creation} {used : List Use}

/-- Where a label finds its name taken, it carries nothing out. -/
theorem carriesOut_eq_false {s : State} (hl : Labels events s) {i id : Nat} {y : Symbol}
    {l : Occurrence} (hid : (s.arena.scope i).get? l.name = some id) (hy : s.symbol? id = some y) :
    State.carriesOut y (State.newSymbol l .label {}) = false := by
  apply Bool.eq_false_iff.mpr
  intro hcarries
  obtain ⟨hspec, hkind, -⟩ := isSpecification_of_carriesOut hcarries
  obtain ⟨l', -, hd, -⟩ := hl.held i l.name id y hid hy hkind
  rw [(hd.symbol hy).2] at hspec
  cases hspec

/-- Events that are no labels. -/
theorem step_other (hl : Labels events (ofEvents events)) (h : History events made used)
    (hlabel : ∀ l, e ≠ .label l) (he : e.declaresLabel = false) :
    Labels (events ++ [e]) ((ofEvents events).step e) := by
  obtain ⟨new, uses, heffect⟩ := State.step_effect h.inStep e
  have houter : ((ofEvents events).step e).outerLabels = (ofEvents events).outerLabels := by
    by_cases hjump : ∃ o, e = .jump o
    · obtain ⟨o, rfl⟩ := hjump
      obtain hb | hb | hb := State.books_jump (ofEvents events) o <;>
        exact congrArg Books.outerLabels hb
    · exact (State.step_turns _ hlabel fun o ho => hjump ⟨o, ho⟩).outerLabels
  refine ⟨?_, ?_, ?_⟩
  · intro i name id y hid hy hkind
    -- the symbol was there before, for no label has been added
    obtain ⟨ks, hks, hnone⟩ := State.step_addsNoLabel (s := ofEvents events) hlabel he
    have hlt : id < (ofEvents events).arena.symbols.size := by
      by_contra hge
      have hget := State.getElem?_kinds ((ofEvents events).step e) id
      rw [hks, hy, List.getElem?_append_right (by rw [State.length_kinds]; omega), Option.map_some,
        hkind] at hget
      exact hnone (List.mem_of_getElem? hget)
    have hold : ((ofEvents events).arena.scope i).get? name = some id := by
      by_contra hne
      have hsize := (heffect.eq_of_entry_ne hid hne).1
      omega
    have hz : (ofEvents events).symbol? id = some (ofEvents events).arena.symbols[id] :=
      Array.getElem?_eq_getElem hlt
    obtain ⟨y', hy', hbecomes, -⟩ := heffect.kept id _ hz
    cases hy.symm.trans hy'
    obtain ⟨l, hname, hd, hat⟩ := hl.held i name id _ hold hz (hbecomes.kind ▸ hkind)
    exact ⟨l, hname, heffect.denotes hd, hat.append _⟩
  · intro name id hid
    rw [houter] at hid
    obtain ⟨l, hname, hd, hat⟩ := hl.noted name id hid
    exact ⟨l, hname, heffect.denotes hd, hat.append _⟩
  · intro l hat
    rw [houter]
    rcases at_concat.mp hat with hat | ⟨heq, -⟩
    · exact hl.known l hat
    · exact absurd heq.symm (hlabel l)

/-- What a label adds to the labels that are noted: its name, if `cond` holds and no label of the
name has been noted before. -/
theorem of_outerLabels {s' : State} {l : Occurrence} {id : Nat} {cond : Bool}
    (hl : Labels events (ofEvents events))
    (hheld : ∀ i name id y, (s'.arena.scope i).get? name = some id → s'.symbol? id = some y →
      y.kind = .label → ∃ l', l'.name = name ∧ s'.Denotes id l' ∧
        At (events ++ [.label l]) (.label l') fun s => s.labelScope = i ∧ s.Accepts l')
    (hdenotes : ∀ id l', (ofEvents events).Denotes id l' → s'.Denotes id l')
    (houter : s'.outerLabels =
      if cond && ((ofEvents events).outerLabels.lookup l.name).isNone then
        (ofEvents events).outerLabels ++ [(l.name, id)] else (ofEvents events).outerLabels)
    (hnew : cond = true → ∃ l', l'.name = l.name ∧ s'.Denotes id l' ∧
      At (events ++ [.label l]) (.label l') fun s => s.bodyScope? = none ∧ s.Accepts l')
    (hcond : (ofEvents events).bodyScope? = none → (ofEvents events).Accepts l → cond = true) :
    Labels (events ++ [.label l]) s' := by
  have hlookup : ∀ name, s'.outerLabels.lookup name =
      ((ofEvents events).outerLabels.lookup name).or
        (if cond = true ∧ name = l.name then some id else none) := by
    intro name
    rw [houter]
    split
    · rename_i hadd
      rw [Bool.and_eq_true] at hadd
      rw [List.lookup_append, List.lookup_cons, List.lookup_nil]
      by_cases hname : name = l.name
      · simp [hname, hadd.1]
      · simp [hname, beq_false_of_ne hname]
    · rename_i hkeep
      by_cases hname : cond = true ∧ name = l.name
      · obtain ⟨htrue, rfl⟩ := hname
        rw [htrue, Bool.true_and, Bool.not_eq_true, Option.isNone_eq_false_iff] at hkeep
        obtain ⟨id', hid'⟩ := Option.isSome_iff_exists.mp hkeep
        rw [hid']
        rfl
      · rw [if_neg hname, Option.or_none]
  refine ⟨hheld, ?_, ?_⟩
  · intro name id' hid'
    rw [hlookup] at hid'
    rcases Option.or_eq_some_iff.mp hid' with hold | ⟨-, hnow⟩
    · obtain ⟨l', hname, hd, hat⟩ := hl.noted name id' hold
      exact ⟨l', hname, hdenotes _ _ hd, hat.append _⟩
    · split at hnow
      · rename_i hyes
        cases hnow
        obtain ⟨l', hname, hd, hat⟩ := hnew hyes.1
        exact ⟨l', hname.trans hyes.2.symm, hd, hat⟩
      · cases hnow
  · intro l' hat
    rw [hlookup, Option.isSome_or]
    rcases at_concat.mp hat with hat | ⟨heq, hbody, haccepts⟩
    · rw [hl.known l' hat, Bool.true_or]
    · cases heq
      rw [if_pos ⟨hcond hbody haccepts, rfl⟩]
      simp

/-- A label whose name is free is accepted. -/
theorem step_free (hl : Labels events (ofEvents events)) (h : History events made used)
    {l : Occurrence} (hfree : ((ofEvents events).arena.scope
      (ofEvents events).labelScope).get? l.name = none) :
    Labels (events ++ [.label l]) ((ofEvents events).step (.label l)) := by
  obtain ⟨new, uses, heffect⟩ := State.step_effect h.inStep (.label l)
  have hstep : (ofEvents events).step (.label l) = _ := State.label_of_free hfree
  have hnow := State.denotes_of_free hfree
  have haccepts : (ofEvents events).Accepts l := by
    rw [State.Accepts, hstep]
    rfl
  refine hl.of_outerLabels ?_ (fun _ _ => heffect.denotes) (congrArg State.outerLabels hstep) ?_ ?_
  · intro i name id y hid hy hkind
    rw [State.get?_of_free h.inStep hfree] at hid
    split at hid
    · rename_i hsame
      cases hid
      exact ⟨l, hsame.2.symm, hnow, at_concat.mpr (Or.inr ⟨rfl, hsame.1.symm, haccepts⟩)⟩
    · obtain ⟨c, hc, -⟩ := h.entry i name id hid
      obtain ⟨z, hz, -⟩ := h.symbol id c hc
      obtain ⟨y', hy', hbecomes, -⟩ := heffect.kept id z hz
      cases hy.symm.trans hy'
      obtain ⟨l', hname, hd, hat⟩ := hl.held i name id z hid hz (hbecomes.kind ▸ hkind)
      exact ⟨l', hname, heffect.denotes hd, hat.append _⟩
  · intro hbody
    rw [Option.isNone_iff_eq_none] at hbody
    exact ⟨l, rfl, hnow, at_concat.mpr (Or.inr ⟨rfl, hbody, haccepts⟩)⟩
  · intro hbody _
    rw [hbody]
    rfl

theorem not_accepts_of_taken (hl : Labels events (ofEvents events)) {l : Occurrence} {id : Nat}
    {y : Symbol} (hid : ((ofEvents events).arena.scope
      (ofEvents events).labelScope).get? l.name = some id)
    (hy : (ofEvents events).symbol? id = some y) : ¬(ofEvents events).Accepts l := by
  intro haccepts
  have hstep : (ofEvents events).step (.label l) = _ :=
    State.label_of_taken hid hy (hl.carriesOut_eq_false hid hy)
  rw [State.Accepts, hstep] at haccepts
  have hsize := congrArg Array.size haccepts
  simp [State.report] at hsize

/-- A label whose name is taken changes nothing but the findings. -/
theorem step_taken (hl : Labels events (ofEvents events)) (h : History events made used)
    {l : Occurrence} {id : Nat} {y : Symbol} (hid : ((ofEvents events).arena.scope
      (ofEvents events).labelScope).get? l.name = some id)
    (hy : (ofEvents events).symbol? id = some y) :
    Labels (events ++ [.label l]) ((ofEvents events).step (.label l)) := by
  have hstep : (ofEvents events).step (.label l) = _ :=
    State.label_of_taken hid hy (hl.carriesOut_eq_false hid hy)
  have harena : ((ofEvents events).step (.label l)).arena = (ofEvents events).arena := by
    rw [hstep]
    rfl
  have hsymbol : ((ofEvents events).step (.label l)).symbol? = (ofEvents events).symbol? := by
    funext id
    rw [State.symbol?, harena]
    rfl
  have hdenotes : ∀ id l', (ofEvents events).Denotes id l' →
      ((ofEvents events).step (.label l)).Denotes id l' := by
    rintro id l' ⟨y, hy, hbecomes⟩
    exact ⟨y, by rw [hsymbol, hy], hbecomes⟩
  have hheld : ∀ i name id y, ((ofEvents events).arena.scope i).get? name = some id →
      (ofEvents events).symbol? id = some y → y.kind = .label →
      ∃ l', l'.name = name ∧ ((ofEvents events).step (.label l)).Denotes id l' ∧
        At events (.label l') fun s => s.labelScope = i ∧ s.Accepts l' := by
    intro i name id y hid hy hkind
    obtain ⟨l', hname, hd, hat⟩ := hl.held i name id y hid hy hkind
    exact ⟨l', hname, hdenotes _ _ hd, hat⟩
  refine hl.of_outerLabels ?_ hdenotes (congrArg State.outerLabels hstep) ?_ ?_
  · rw [harena, hsymbol]
    intro i name id y hid hy hkind
    obtain ⟨l', hname, hd, hat⟩ := hheld i name id y hid hy hkind
    exact ⟨l', hname, hd, hat.append _⟩
  · intro hcond
    rw [Bool.and_eq_true, Option.isNone_iff_eq_none] at hcond
    obtain ⟨hbody, hlabel⟩ := hcond
    rw [State.isLabel, hy, Option.any_some, decide_eq_true_eq] at hlabel
    obtain ⟨l', hname, hd, hat⟩ := hheld _ _ id y hid hy hlabel
    have hmem := State.labelScope_mem h.inStep
    have hno := State.not_isBody_of_bodyScope? h.inStep hbody hmem
    exact ⟨l', hname, hd, ((at_of_labelScope hat).2 hno).append _⟩
  · intro _ haccepts
    exact absurd haccepts (hl.not_accepts_of_taken hid hy)

theorem step (hl : Labels events (ofEvents events)) (h : History events made used)
    (he : e.declaresLabel = false) : Labels (events ++ [e]) ((ofEvents events).step e) := by
  by_cases hlabel : ∃ l, e = .label l
  · obtain ⟨l, rfl⟩ := hlabel
    cases hid : ((ofEvents events).arena.scope (ofEvents events).labelScope).get? l.name with
    | none => exact hl.step_free h hid
    | some id =>
      obtain ⟨c, hc, -⟩ := h.entry _ _ id hid
      obtain ⟨y, hy, -⟩ := h.symbol id c hc
      exact hl.step_taken h hid hy
  · exact hl.step_other h (fun l hl => hlabel ⟨l, hl⟩) he

end Labels

theorem labels_ofEvents (hevents : ∀ e ∈ events, e.declaresLabel = false) :
    Labels events (ofEvents events) := by
  induction events using List.reverseRecOn with
  | nil =>
    refine ⟨?_, ?_, fun l hat => absurd hat not_at_nil⟩
    · intro i name id y hid
      obtain ⟨c, hc, -⟩ := history_nil.entry i name id hid
      cases hc
    · intro name id hid
      cases hid
  | append_singleton events e ih =>
    obtain ⟨made, used, h⟩ := exists_history events
    rw [ofEvents_concat]
    exact (ih fun e he => hevents e (List.mem_append_left _ he)).step h (hevents e (by simp))

/-- A label that was accepted is held by its scope ever after. -/
theorem exists_entry_of_accepted (hevents : ∀ e ∈ events, e.declaresLabel = false) {i : Nat}
    {l : Occurrence} (hat : At events (.label l) fun s => s.labelScope = i ∧ s.Accepts l) :
    ∃ id, ((ofEvents events).arena.scope i).get? l.name = some id ∧
      (ofEvents events).Denotes id l := by
  induction events using List.reverseRecOn with
  | nil => exact absurd hat not_at_nil
  | append_singleton events e ih =>
    have hbefore : ∀ e ∈ events, e.declaresLabel = false :=
      fun e he => hevents e (List.mem_append_left _ he)
    obtain ⟨made, used, h⟩ := exists_history events
    rw [ofEvents_concat]
    rcases at_concat.mp hat with hat | ⟨rfl, rfl, haccepts⟩
    · obtain ⟨id, hid, hd⟩ := ih hbefore hat
      obtain ⟨new, uses, heffect⟩ := State.step_effect h.inStep e
      exact ⟨id, heffect.entry_label hid hd, heffect.denotes hd⟩
    · cases hid : ((ofEvents events).arena.scope (ofEvents events).labelScope).get? l.name with
      | none =>
        refine ⟨_, ?_, State.denotes_of_free hid⟩
        rw [State.get?_of_free h.inStep hid, if_pos ⟨rfl, rfl⟩]
      | some id =>
        obtain ⟨c, hc, -⟩ := h.entry _ _ id hid
        obtain ⟨y, hy, -⟩ := h.symbol id c hc
        exact absurd haccepts ((labels_ofEvents hbefore).not_accepts_of_taken hid hy)

end Pearl.Resolution
