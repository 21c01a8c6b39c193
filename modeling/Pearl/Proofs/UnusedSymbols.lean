import Mathlib.Data.List.Nodup
import Pearl.Proofs.AssignmentTargets
import Pearl.Proofs.SymbolSuccession

namespace Pearl

namespace Scope

variable {s : Scope} {name : String} {id : Nat}

theorem mem_of_get? (h : s.get? name = some id) : (name, id) ∈ s.entries :=
  Entries.mem_of_lookup h

theorem get?_of_mem (hdistinct : (s.entries.map (·.1)).Nodup) (h : (name, id) ∈ s.entries) :
    s.get? name = some id := Entries.lookup_of_mem hdistinct h

end Scope

namespace Resolution

/-! ### The sweep -/

def unusedFinding (y : Symbol) : Finding := ⟨.unused y.kind y.name, y.declaredAt⟩

def State.held (s : State) (scope : Nat) : List Nat := (s.arena.scope scope).entries.map (·.2)

namespace State

variable {s : State}

theorem findings_foldl_reportUnused (symbols : List Symbol) (s : State) :
    (symbols.foldl reportUnused s).findings.toList =
      s.findings.toList ++ symbols.map unusedFinding := by
  induction symbols generalizing s with
  | nil => simp
  | cons y symbols ih =>
    rw [List.foldl_cons, ih]
    simp [reportUnused, report, unusedFinding]

/-- The sweep tells of the unused symbols that the scopes hold, scope by scope. -/
theorem findings_sweep (s : State) :
    s.sweep.findings.toList = s.findings.toList ++
      ((s.arena.closed ++ s.openSwept).flatMap s.held).filterMap fun id =>
        ((s.symbol? id).filter (·.isUnused)).map unusedFinding := by
  have hscope : ∀ scope, (s.arena.unused scope).map unusedFinding =
      (s.held scope).filterMap fun id =>
        ((s.symbol? id).filter (·.isUnused)).map unusedFinding := by
    intro scope
    rw [Arena.unused, held, ← List.filterMap_eq_filter, List.filterMap_filterMap,
      List.map_filterMap, List.filterMap_map]
    apply List.filterMap_congr
    intro entry _
    change _ = ((s.arena.symbols[entry.2]?).filter _).map _
    cases s.arena.symbols[entry.2]? with
    | none => rfl
    | some y => cases hy : y.isUnused <;> simp [Option.guard, Option.filter_some, hy]
  have hfold : ∀ (scopes : List Nat) (s' : State),
      (scopes.foldl (fun s' scope => (s.arena.unused scope).foldl reportUnused s')
        s').findings.toList = s'.findings.toList ++ scopes.flatMap fun scope =>
          (s.held scope).filterMap fun id =>
            ((s.symbol? id).filter (·.isUnused)).map unusedFinding := by
    intro scopes
    induction scopes with
    | nil => simp
    | cons scope scopes ih =>
      intro s'
      rw [List.foldl_cons, ih, findings_foldl_reportUnused, hscope, List.flatMap_cons,
        List.append_assoc]
  rw [List.filterMap_flatMap]
  exact hfold _ { s with arena := s.arena.takeClosed.2 }

/-- The state at the end, before the sweep. -/
def settled (s : State) : State :=
  let landed := s.jumps.foldl landOutside s
  landed.frames.foldl reportUnclosed landed

theorem books_settled (s : State) : s.settled.books = s.books := by
  have hland : ∀ (s : State) (jump : String × Nat), (landOutside s jump).books = s.books := by
    intro s jump
    unfold landOutside
    split <;> rfl
  have hreport := foldl_eq (g := books) (f := reportUnclosed) (fun _ _ => rfl)
  exact (hreport _ _).trans (foldl_eq hland _ s)

theorem swept_congr {s' : State} (h : s'.books = s.books) :
    s'.arena.closed ++ s'.openSwept = s.arena.closed ++ s.openSwept := by
  have hframes : s'.frames = s.frames := congrArg Books.frames h
  have hended : s'.moduleEnded = s.moduleEnded := congrArg Books.moduleEnded h
  have hstack : s'.arena.stack = s.arena.stack := congrArg Books.stack h
  have hclosed : s'.arena.closed = s.arena.closed := congrArg Books.closed h
  have hmodule : s'.inModule = s.inModule := by rw [inModule, hframes, inModule]
  have hunit : s'.unitScope = s.unitScope := by rw [unitScope, hmodule, hstack, unitScope]
  rw [openSwept, hended, hmodule, hunit, hclosed, openSwept]

theorem sweep_eq (s : State) :
    s.sweep.arena = s.arena.takeClosed.2 ∧ s.sweep.frames = s.frames ∧ s.sweep.links = s.links := by
  have hscope : ∀ (symbols : List Symbol) (s : State),
      ((symbols.foldl reportUnused s).arena, (symbols.foldl reportUnused s).frames,
        (symbols.foldl reportUnused s).links) = (s.arena, s.frames, s.links) :=
    foldl_eq (g := fun s => (s.arena, s.frames, s.links)) fun _ _ => rfl
  have hsweep := foldl_eq (g := fun s => (s.arena, s.frames, s.links))
    (f := fun s' scope => (s.arena.unused scope).foldl reportUnused s')
    (fun s' scope => hscope _ s') (s.arena.closed ++ s.openSwept)
    { s with arena := s.arena.takeClosed.2 }
  simp only [Prod.mk.injEq] at hsweep
  exact hsweep

theorem code_ne_of_isPassing {c : Cause} (h : isPassing c) : c.code ≠ "unused-symbol" := by
  cases c with
  | unused => cases h
  | _ => simp [Cause.code]

/-- Before the sweep nothing is told to be unused. -/
theorem code_ne_of_mem_settled (h : Reports isPassing {} s) {f : Finding}
    (hf : f ∈ s.settled.findings.toList) : f.cause.code ≠ "unused-symbol" := by
  obtain ⟨fs, hfs, hpassing⟩ := h.trans (keeps_foldl keeps_landOutside s.jumps s).reports
  rw [settled, findings_foldl_reportUnclosed, hfs] at hf
  rcases List.mem_append.mp hf with hf | hf
  · exact code_ne_of_isPassing (hpassing f hf)
  · obtain ⟨frame, -, rfl⟩ := List.mem_map.mp hf
    simp [Cause.code]

/-! ### The scopes that are searched -/

theorem stack_reverse_of_inStep (h : s.skeleton.InStep) : s.arena.stack.reverse.head? = some 0 := by
  rw [List.head?_reverse]
  exact h.root

theorem level_of_inModule (h : s.skeleton.InStep) (hmodule : s.inModule = true) :
    s.arena.atLevel 1 = .ok s.unitScope ∧ s.arena.stack.reverse[1]? = some s.unitScope := by
  have hdepth : s.frames.length + 1 = s.arena.stack.length := (aligned_of_inStep h).depth
  have hframes : 0 < s.frames.length := by
    apply List.length_pos_iff.mpr
    intro hnil
    rw [inModule, hnil] at hmodule
    cases hmodule
  have hlevel : s.arena.stack.reverse[1]? = s.arena.stack[s.arena.stack.length - 1 - 1]? :=
    List.getElem?_reverse (by omega)
  obtain ⟨i, hi⟩ : ∃ i, s.arena.stack[s.arena.stack.length - 1 - 1]? = some i :=
    ⟨_, List.getElem?_eq_getElem (by omega)⟩
  have hunit : s.unitScope = i := by
    rw [unitScope, if_pos hmodule, hlevel, hi]
    rfl
  rw [hunit]
  refine ⟨atLevel_of_getElem? s.arena 1 _ ?_ hi, hlevel.trans hi⟩
  change _ = s.arena.stack.length
  omega

/-- The open scopes that are searched are the outermost ones. -/
theorem openSwept_outermost (h : s.skeleton.InStep) : s.openSwept <+: s.arena.stack.reverse := by
  have hroot := stack_reverse_of_inStep h
  obtain ⟨rest, hrest⟩ := List.head?_eq_some_iff.mp hroot
  unfold openSwept
  split
  · exact List.nil_prefix
  · split
    · rename_i hmodule
      have hlevel := (level_of_inModule h hmodule).2
      rw [hrest, List.getElem?_cons_succ] at hlevel
      cases rest with
      | nil => cases hlevel
      | cons i rest =>
        cases hlevel
        rw [hrest]
        exact ⟨rest, rfl⟩
    · rw [hrest]
      exact ⟨rest, rfl⟩

theorem nodup_swept (h : s.skeleton.InStep) (hpartition : s.books.Partition) :
    (s.arena.closed ++ s.openSwept).Nodup := by
  have hall : (s.arena.closed ++ s.arena.stack.reverse).Nodup :=
    ((List.reverse_perm s.arena.stack).append_left _).nodup_iff.mpr hpartition.nodup
  exact hall.sublist ((openSwept_outermost h).sublist.append_left _)

end State

/-- A module has been ended. -/
def ModuleEnds (events : List Event) : Prop :=
  ∃ before e after, events = before ++ e :: after ∧ (ofEvents before).endsModule e = true

theorem moduleEnded_iff (events : List Event) :
    (ofEvents events).moduleEnded = true ↔ ModuleEnds events := by
  induction events using List.reverseRecOn with
  | nil =>
    refine ⟨nofun, ?_⟩
    rintro ⟨before, e, after, hsplit, -⟩
    exact absurd hsplit.symm (List.append_ne_nil_of_right_ne_nil before (List.cons_ne_nil e after))
  | append_singleton events e ih =>
    obtain ⟨made, used, h⟩ := exists_history events
    have hstep : ((ofEvents events).step e).moduleEnded =
        ((ofEvents events).moduleEnded || (ofEvents events).endsModule e) :=
      (State.step_partition _ h.partition e).2
    rw [ofEvents_concat, hstep, Bool.or_eq_true, ih]
    exact exists_moment_concat.symm

/-- The scope is to be searched for names that nobody uses: it has been closed; or no module has
been ended, and it is the global scope or that of the module, which is still open. -/
def Searched (events : List Event) (final : State) (scope : Nat) : Prop :=
  scope < final.arena.scopes.size ∧ scope ∉ final.arena.stack ∨
  ¬ModuleEnds events ∧ (scope = 0 ∨ final.inModule = true ∧ final.arena.atLevel 1 = .ok scope)

variable {events : List Event} {made : List Creation} {used uses : List Use} {s : State}

theorem mem_swept_iff (h : History events made used) {scope : Nat} :
    scope ∈ (ofEvents events).arena.closed ++ (ofEvents events).openSwept ↔
      Searched events (ofEvents events) scope := by
  have hclosed : scope ∈ (ofEvents events).arena.closed ↔
      scope < (ofEvents events).arena.scopes.size ∧ scope ∉ (ofEvents events).arena.stack := by
    have hmem : scope ∈ (ofEvents events).arena.closed ∨ scope ∈ (ofEvents events).arena.stack ↔
        scope < (ofEvents events).arena.scopes.size := h.partition.mem_iff
    rw [← hmem]
    constructor
    · intro hc
      refine ⟨Or.inl hc, ?_⟩
      intro hopen
      exact (List.nodup_append.mp h.partition.nodup).2.2 scope hc scope hopen rfl
    · rintro ⟨hor, hopen⟩
      exact hor.resolve_right hopen
  have hopen : scope ∈ (ofEvents events).openSwept ↔ ¬ModuleEnds events ∧
      (scope = 0 ∨ (ofEvents events).inModule = true ∧
        (ofEvents events).arena.atLevel 1 = .ok scope) := by
    rw [← moduleEnded_iff, State.openSwept]
    split
    · rename_i hended
      simp [hended]
    · rename_i hended
      split
      · rename_i hmodule
        rw [(State.level_of_inModule h.inStep hmodule).1]
        simp [hended, hmodule, eq_comm]
      · rename_i hmodule
        simp [hended, hmodule]
  rw [List.mem_append, hclosed, hopen, Searched]

/-! ### Symbols and the scopes that hold them -/

theorem Ledger.mem_held_iff (h : Ledger events s made used) {scope id : Nat} {y : Symbol}
    (hy : s.symbol? id = some y) :
    id ∈ s.held scope ↔ (s.arena.scope scope).get? y.name = some id := by
  constructor
  · intro hmem
    obtain ⟨⟨name, id'⟩, hentry, rfl⟩ := List.mem_map.mp hmem
    have hget := Scope.get?_of_mem (h.distinct scope) hentry
    obtain ⟨c, hc, -, hname⟩ := h.entry scope name id' hget
    obtain ⟨y', hy', hbecomes, -⟩ := h.symbol id' c hc
    cases hy.symm.trans hy'
    rw [hbecomes.name, hname]
    exact hget
  · intro hget
    exact List.mem_map_of_mem (Scope.mem_of_get? hget)

/-- No symbol is held twice. -/
theorem Ledger.nodup_held (h : Ledger events s made used) {scopes : List Nat}
    (hscopes : scopes.Nodup) : (scopes.flatMap s.held).Nodup := by
  have hentry : ∀ {scope : Nat} {entry : String × Nat}, entry ∈ (s.arena.scope scope).entries →
      ∃ c, made[entry.2]? = some c ∧ c.scope = scope ∧ c.symbol.name = entry.1 := by
    intro scope entry hmem
    exact h.entry scope entry.1 entry.2 (Scope.get?_of_mem (h.distinct scope) hmem)
  rw [List.nodup_flatMap]
  constructor
  · intro scope _
    have hnames := List.pairwise_map.mp (h.distinct scope)
    rw [State.held, List.Nodup, List.pairwise_map]
    refine hnames.imp_of_mem ?_
    intro entry entry' hmem hmem' hne heq
    obtain ⟨c, hc, -, hname⟩ := hentry hmem
    obtain ⟨c', hc', -, hname'⟩ := hentry hmem'
    rw [← heq] at hc'
    cases hc.symm.trans hc'
    exact hne (hname.symm.trans hname')
  · refine hscopes.imp ?_
    intro scope scope' hne id hmem hmem'
    obtain ⟨entry, hin, rfl⟩ := List.mem_map.mp hmem
    obtain ⟨entry', hin', heq⟩ := List.mem_map.mp hmem'
    obtain ⟨c, hc, hscope, -⟩ := hentry hin
    obtain ⟨c', hc', hscope', -⟩ := hentry hin'
    rw [heq] at hc'
    cases hc.symm.trans hc'
    exact hne (hscope.symm.trans hscope')

theorem Ledger.exists_made (h : Ledger events s made used) {id : Nat} {y : Symbol}
    (hy : s.symbol? id = some y) : ∃ c, made[id]? = some c ∧ c.symbol.Becomes y := by
  have hlt := (Array.getElem?_eq_some_iff.mp hy).1
  rw [h.size] at hlt
  have hc : made[id]? = some made[id] := List.getElem?_eq_getElem hlt
  obtain ⟨y', hy', hbecomes, -⟩ := h.symbol id _ hc
  cases hy.symm.trans hy'
  exact ⟨_, hc, hbecomes⟩

/-- A symbol is determined by the place of its name. -/
theorem Ledger.id_of_declaredAt (h : Ledger events s made used)
    (hnodup : (s.links.toList.map (·.1)).Nodup) {id id' : Nat} {y y' : Symbol}
    (hy : s.symbol? id = some y) (hy' : s.symbol? id' = some y')
    (hplace : y.declaredAt = y'.declaredAt) : id = id' := by
  have hown : ∀ {id : Nat} {y : Symbol}, s.symbol? id = some y →
      (y.declaredAt, id) ∈ s.links.toList := by
    intro id y hy
    obtain ⟨c, hc, hbecomes⟩ := h.exists_made hy
    refine h.links.mem_iff.mpr (List.mem_append_left _ (List.mem_map.mpr ⟨(c, id), ?_, ?_⟩))
    · exact List.mem_zipIdx_iff_getElem?.mpr hc
    · rw [hbecomes.declaredAt]
  exact congrArg Prod.snd (List.inj_on_of_nodup_map hnodup (hown hy) (hown hy') hplace)

/-- Of what is found for symbols that are all different, a test that fits one of them picks what is
found for it. -/
theorem filter_filterMap_eq {ids : List Nat} (hnodup : ids.Nodup) {g : Nat → Option Finding}
    {p : Finding → Bool} {id : Nat} (hp : ∀ i, ∀ f ∈ g i, p f = true ↔ i = id) :
    (ids.filterMap g).filter p = if id ∈ ids then (g id).toList else [] := by
  induction ids with
  | nil => rfl
  | cons i ids ih =>
    obtain ⟨hi, htail⟩ := List.nodup_cons.mp hnodup
    by_cases hid : i = id
    · subst hid
      rw [if_neg hi] at ih
      rw [if_pos List.mem_cons_self]
      cases hg : g i with
      | none => rw [List.filterMap_cons_none hg, ih htail, Option.toList_none]
      | some f =>
        rw [List.filterMap_cons_some hg, List.filter_cons_of_pos ((hp i f hg).mpr rfl), ih htail,
          Option.toList_some]
    · have hmem : id ∈ i :: ids ↔ id ∈ ids := by simp [Ne.symm hid]
      rw [if_congr hmem rfl rfl, ← ih htail]
      cases hg : g i with
      | none => rw [List.filterMap_cons_none hg]
      | some f =>
        rw [List.filterMap_cons_some hg, List.filter_cons_of_neg fun hf => hid ((hp i f hg).mp hf)]

/-! ### Names that are never used -/

/-- No name stands for the symbol but the one that declares it, and targets of assignments. -/
def OnlyAssigned (words : List Word) (final : State) (id : Nat) (y : Symbol) : Prop :=
  ∀ place, (place, id) ∈ final.links.toList → place = y.declaredAt ∨ Assigned words place

/-- Nobody uses the symbol: it is held by a scope that is searched, it is no module, procedure or
task, it is not visible elsewhere and counts no loop, and names stand for it, or for a specification
whose place it took, only where they are declared or assigned to. -/
structure NeverUsed (words : List Word) (id : Nat) (y : Symbol) : Prop where
  held : ∃ scope, Searched (Event.ofWords words) (program words true) scope ∧
    ((program words true).arena.scope scope).get? y.name = some id
  kind : y.kind.isExported = false
  isGlobal : y.attributes.isGlobal = false
  loop : .loopVariable ⟨y.name, y.declaredAt⟩ ∉ Event.ofWords words
  links : OnlyAssigned words (program words true) id y
  specification : ∀ old z, Replaces (Event.ofWords words) id old →
    (program words true).symbol? old = some z → OnlyAssigned words (program words true) old z

/-- The symbol took the place of a specification that had been made visible elsewhere. -/
def SpecifiedGlobal (words : List Word) (id : Nat) : Prop :=
  ∃ old z e, Replaces (Event.ofWords words) id old ∧
    (program words true).symbol? old = some z ∧ e ∈ Event.ofWords words ∧
    e.occurrence? = some ⟨z.name, z.declaredAt⟩ ∧ e.declaresGlobal = true

/-- All that is known at the end of a program. -/
structure Ending (words : List Word) (made : List Creation) (used uses : List Use) : Prop where
  inOrder : Word.InOrder words
  history : History (Event.ofWords words) made used
  succession : Succession (Event.ofWords words) made
  ledger : Ledger (Event.ofWords words) (program words true) made (used ++ uses)
  account : (made.map (·.event) ++ (used ++ uses).map (·.event)).Subperm (Event.ofWords words)
  labels : ∀ u ∈ uses, ∃ c, made[u.id]? = some c ∧ c.symbol.attributes.isSpecification = false

theorem exists_ending {words : List Word} (hwords : Word.InOrder words) :
    ∃ made used uses, Ending words made used uses := by
  obtain ⟨made, used, h, hs⟩ := exists_succession (Event.ofWords words)
  obtain ⟨uses, hledger, haccount, hlabels⟩ := h.finish true
  exact ⟨made, used, uses, hwords, h, hs, hledger, haccount, hlabels⟩

namespace Ending

variable {words : List Word} {id : Nat} {y : Symbol} {c : Creation}

theorem nodup_places (h : Ending words made used uses) :
    ((Event.occurrences (Event.ofWords words)).map (·.place)).Nodup :=
  (Event.eventsAfter_reads none true words).nodup h.inOrder

theorem event_mem (h : Ending words made used uses) (hc : made[id]? = some c) :
    c.event ∈ Event.ofWords words :=
  h.account.subset
    (List.mem_append_left _ (List.mem_map_of_mem (List.mem_of_getElem? hc)))

theorem use_mem (h : Ending words made used uses) {u : Use} (hu : u ∈ used ++ uses) :
    u.event ∈ Event.ofWords words :=
  h.account.subset (List.mem_append_right _ (List.mem_map_of_mem hu))

/-- The event that tells the name of a symbol at its place is the one that declared it. -/
theorem event_eq (h : Ending words made used uses) (hc : made[id]? = some c)
    (hbecomes : c.symbol.Becomes y) {e : Event} (he : e ∈ Event.ofWords words)
    {o : Occurrence} (ho : e.occurrence? = some o) (hplace : o.place = y.declaredAt) :
    e = c.event := by
  have hname := (h.ledger.named c (List.mem_of_getElem? hc)).2
  exact Event.eq_of_place h.nodup_places he (h.event_mem hc) ho hname
    (hplace.trans hbecomes.declaredAt)

/-- The uses that count are the links that are neither a declaration nor an assignment. -/
theorem referenced_iff (h : Ending words made used uses)
    (hy : (program words true).symbol? id = some y) :
    Referenced (used ++ uses) id ↔ ¬OnlyAssigned words (program words true) id y := by
  obtain ⟨c, hc, hbecomes⟩ := h.ledger.exists_made hy
  constructor
  · rintro ⟨u, hu, rfl, hcounts⟩ honly
    obtain ⟨c', hc', ho, hmoment⟩ := h.ledger.justified u hu
    cases hc.symm.trans hc'
    have hlink : (u.place, u.id) ∈ (program words true).links.toList :=
      h.ledger.links.mem_iff.mpr (List.mem_append_right _ (List.mem_map_of_mem hu))
    rcases honly u.place hlink with hplace | hassigned
    · -- an event that declares a name resolves none
      have hdeclares := (h.ledger.named c (List.mem_of_getElem? hc)).1
      rw [← h.event_eq hc hbecomes (h.use_mem hu) ho hplace] at hdeclares
      rcases hmoment with hjump | ⟨href, -⟩
      · rw [hjump] at hdeclares
        cases hdeclares
      · rw [Event.isReference_of_isDeclaration hdeclares] at href
        cases href
    · rw [Use.counts, (isAssignment_iff h.inOrder (h.use_mem hu) ho).mpr hassigned] at hcounts
      cases hcounts
  · intro hnot
    by_contra hnone
    apply hnot
    intro place hlink
    obtain ⟨c', hc', rfl⟩ | ⟨u, hu, rfl, rfl⟩ := h.ledger.link_cases hlink
    · cases hc.symm.trans hc'
      exact Or.inl hbecomes.declaredAt.symm
    · obtain ⟨c', -, ho, -⟩ := h.ledger.justified u hu
      have hassign : u.event.isAssignment = true := by
        by_contra hno
        exact hnone ⟨u, hu, rfl, by simp [Use.counts, hno]⟩
      exact Or.inr ((isAssignment_iff h.inOrder (h.use_mem hu) ho).mp hassign)

theorem isLoopVariable_iff (h : Ending words made used uses) (hc : made[id]? = some c)
    (hbecomes : c.symbol.Becomes y) :
    c.event.isLoopVariable = true ↔
      .loopVariable ⟨y.name, y.declaredAt⟩ ∈ Event.ofWords words := by
  constructor
  · intro hloop
    have hname := (h.ledger.named c (List.mem_of_getElem? hc)).2
    rw [hbecomes.name, hbecomes.declaredAt, ← (Event.isLoopVariable_iff hname).mp hloop]
    exact h.event_mem hc
  · intro hmem
    rw [← h.event_eq hc hbecomes hmem rfl rfl]
    rfl

theorem specifiedGlobal_iff (h : Ending words made used uses) :
    SpecifiedGlobal words id ↔ ∃ old d, Replaces (Event.ofWords words) id old ∧
      made[old]? = some d ∧ d.event.declaresGlobal = true := by
  constructor
  · rintro ⟨old, z, e, hr, hz, he, ho, hglobal⟩
    obtain ⟨d, hd, hbecomes⟩ := h.ledger.exists_made hz
    rw [h.event_eq hd hbecomes he ho rfl] at hglobal
    exact ⟨old, d, hr, hd, hglobal⟩
  · rintro ⟨old, d, hr, hd, hglobal⟩
    obtain ⟨z, hz, hbecomes, -⟩ := h.ledger.symbol old d hd
    have hname := (h.ledger.named d (List.mem_of_getElem? hd)).2
    rw [← hbecomes.name, ← hbecomes.declaredAt] at hname
    exact ⟨old, z, d.event, hr, hz, h.event_mem hd, hname, hglobal⟩

/-- A symbol that a scope to be searched holds is unused exactly if nobody uses it, unless it took
the place of a specification that had been made visible elsewhere. -/
theorem isUnused_iff (h : Ending words made used uses)
    (hy : (program words true).symbol? id = some y)
    (hheld : ∃ scope, Searched (Event.ofWords words) (program words true) scope ∧
      ((program words true).arena.scope scope).get? y.name = some id) :
    y.isUnused = true ↔ NeverUsed words id y ∧ ¬SpecifiedGlobal words id := by
  obtain ⟨c, hc, hbecomes⟩ := h.ledger.exists_made hy
  have hused := h.succession.used_iff h.history h.ledger h.labels hc hy
  rw [Symbol.isUnused, Bool.and_eq_true, Bool.not_eq_true', Bool.not_eq_true']
  constructor
  · rintro ⟨hunused, hglobal⟩
    have hnone := mt hused.mpr (Bool.eq_false_iff.mp hunused)
    simp only [not_or] at hnone
    obtain ⟨hkind, -, hloop, href, hold⟩ := hnone
    refine ⟨⟨hheld, ?_, hglobal, ?_, ?_, ?_⟩, ?_⟩
    · rw [hbecomes.kind]
      exact Bool.eq_false_iff.mpr hkind
    · exact fun hmem => hloop ((h.isLoopVariable_iff hc hbecomes).mpr hmem)
    · exact not_not.mp (mt (h.referenced_iff hy).mpr href)
    · intro old z hr hz
      obtain ⟨d, hd, -⟩ := h.ledger.exists_made hz
      by_contra honly
      exact hold ⟨old, d, hr, hd, Or.inr ((h.referenced_iff hz).mpr honly)⟩
    · intro hspecified
      obtain ⟨old, d, hr, hd, hspec⟩ := h.specifiedGlobal_iff.mp hspecified
      exact hold ⟨old, d, hr, hd, Or.inl hspec⟩
  · rintro ⟨hnever, hspecified⟩
    refine ⟨Bool.eq_false_iff.mpr ?_, hnever.isGlobal⟩
    intro htrue
    rcases hused.mp htrue with hkind | hglobal | hloop | href | ⟨old, d, hr, hd, hspec | href⟩
    · rw [← hbecomes.kind, hnever.kind] at hkind
      cases hkind
    · -- what was declared visible elsewhere stays so up to the end
      rw [← h.succession.isGlobal c (List.mem_of_getElem? hc)] at hglobal
      have hvisible := hbecomes.isGlobal hglobal
      rw [hnever.isGlobal] at hvisible
      cases hvisible
    · exact hnever.loop ((h.isLoopVariable_iff hc hbecomes).mp hloop)
    · exact (h.referenced_iff hy).mp href hnever.links
    · exact hspecified (h.specifiedGlobal_iff.mpr ⟨old, d, hr, hd, hspec⟩)
    · obtain ⟨z, hz, -⟩ := h.ledger.symbol old d hd
      exact (h.referenced_iff hz).mp href (hnever.specification old z hr hz)

end Ending

/-! ### What is told -/

/-- What is told about unused names at a place. -/
def State.unusedAt (s : State) (place : Nat) : List Finding :=
  s.findings.toList.filter fun f => f.cause.code = "unused-symbol" && f.place = place

namespace Ending

variable {words : List Word} {id : Nat} {y : Symbol}

/-- The symbols that are looked at, scope by scope. -/
def searchedSymbols (words : List Word) : List Nat :=
  ((ofWords words).arena.closed ++ (ofWords words).openSwept).flatMap (program words true).held

theorem mem_searchedSymbols_iff (h : Ending words made used uses)
    (hy : (program words true).symbol? id = some y) :
    id ∈ searchedSymbols words ↔
      ∃ scope, Searched (Event.ofWords words) (program words true) scope ∧
        ((program words true).arena.scope scope).get? y.name = some id := by
  have hbooks := State.books_settled (ofWords words)
  obtain ⟨harena, hframes, -⟩ := State.sweep_eq (ofWords words).settled
  have hstack : (program words true).arena.stack = (ofWords words).arena.stack :=
    (congrArg Arena.stack harena).trans (congrArg Books.stack hbooks)
  have hsize : (program words true).arena.scopes.size = (ofWords words).arena.scopes.size :=
    (congrArg (·.scopes.size) harena).trans (congrArg Books.scopes hbooks)
  have hframes : (program words true).frames = (ofWords words).frames :=
    hframes.trans (congrArg Books.frames hbooks)
  have hsearched : ∀ scope, Searched (Event.ofWords words) (program words true) scope ↔
      Searched (Event.ofWords words) (ofWords words) scope := by
    intro scope
    simp only [Searched, State.inModule, Arena.atLevel, Arena.depth, hstack, hsize, hframes]
  simp only [searchedSymbols, List.mem_flatMap, h.ledger.mem_held_iff hy, hsearched]
  exact exists_congr fun scope => and_congr_left fun _ => mem_swept_iff h.history

theorem findings_eq (words : List Word) :
    (program words true).findings.toList = (ofWords words).settled.findings.toList ++
      (searchedSymbols words).filterMap fun id =>
        (((program words true).symbol? id).filter (·.isUnused)).map unusedFinding := by
  have harena : (program words true).arena = (ofWords words).settled.arena.takeClosed.2 :=
    (State.sweep_eq _).1
  have hheld : (program words true).held = (ofWords words).settled.held := by
    funext scope
    rw [State.held, harena]
    rfl
  have hsymbol : (program words true).symbol? = (ofWords words).settled.symbol? := by
    funext id
    rw [State.symbol?, harena]
    rfl
  have hswept := State.swept_congr (State.books_settled (ofWords words))
  rw [searchedSymbols, hheld, hsymbol, ← hswept]
  exact State.findings_sweep (ofWords words).settled

/-- What is told at the place of a symbol's name is about the symbol. -/
theorem unusedAt_eq (h : Ending words made used uses)
    (hy : (program words true).symbol? id = some y) :
    (program words true).unusedAt y.declaredAt =
      if id ∈ searchedSymbols words then ((some y).filter (·.isUnused)).map unusedFinding |>.toList
      else [] := by
  have hpassing := (foldl_step_inv (Event.ofWords words) history_nil.inStep).2.2
  have hbefore : (ofWords words).settled.findings.toList.filter
      (fun f => f.cause.code = "unused-symbol" && f.place = y.declaredAt) = [] := by
    rw [List.filter_eq_nil_iff]
    intro f hf hp
    simp only [Bool.and_eq_true, decide_eq_true_eq] at hp
    exact State.code_ne_of_mem_settled hpassing hf hp.1
  have hnodup := h.ledger.nodup_links h.account h.nodup_places
  have hids : (searchedSymbols words).Nodup :=
    h.ledger.nodup_held (State.nodup_swept h.history.inStep h.history.partition)
  rw [State.unusedAt, findings_eq, List.filter_append, hbefore, List.nil_append, ← hy]
  -- no two symbols have their names at the same place
  apply filter_filterMap_eq hids
  intro i f hf
  obtain ⟨y', hy', rfl⟩ := Option.map_eq_some_iff.mp hf
  obtain ⟨hy', -⟩ := Option.filter_eq_some_iff.mp hy'
  constructor
  · intro hp
    simp only [Bool.and_eq_true, decide_eq_true_eq] at hp
    exact h.ledger.id_of_declaredAt hnodup hy' hy hp.2
  · rintro rfl
    cases hy.symm.trans hy'
    simp [unusedFinding, Cause.code]

end Ending

/-- A name is told to be unused, once and at its own place, exactly if nobody uses it, and the
specification whose place it took, if any, had not been made visible elsewhere. No other name is
told to be unused. -/
theorem unused_told_iff (tokens : List Token) :
    let words := Word.ofTokens (Word.significant tokens)
    let final := program words true
    (∀ id y, final.symbol? id = some y →
      (NeverUsed words id y ∧ ¬SpecifiedGlobal words id →
        final.unusedAt y.declaredAt = [⟨.unused y.kind y.name, y.declaredAt⟩]) ∧
      (¬(NeverUsed words id y ∧ ¬SpecifiedGlobal words id) →
        final.unusedAt y.declaredAt = [])) ∧
    ∀ f ∈ final.findings.toList, f.cause.code = "unused-symbol" →
      ∃ id y, final.symbol? id = some y ∧ f = ⟨.unused y.kind y.name, y.declaredAt⟩ := by
  intro words final
  obtain ⟨made, used, uses, h⟩ := exists_ending (Word.inOrder_ofTokens (Word.significant tokens))
  refine ⟨?_, ?_⟩
  · intro id y hy
    rw [h.unusedAt_eq hy]
    have hmem := h.mem_searchedSymbols_iff hy
    constructor
    · intro hnever
      have hheld := hnever.1.held
      have hunused := (h.isUnused_iff hy hheld).mpr hnever
      rw [if_pos (hmem.mpr hheld), Option.filter_some, if_pos hunused]
      rfl
    · intro hnot
      split
      · rename_i hsearched
        have hunused := mt (h.isUnused_iff hy (hmem.mp hsearched)).mp hnot
        rw [Option.filter_some, if_neg hunused]
        rfl
      · rfl
  · intro f hf hcode
    have hpassing := (foldl_step_inv (Event.ofWords words) history_nil.inStep).2.2
    rw [show final.findings.toList = _ from Ending.findings_eq words] at hf
    rcases List.mem_append.mp hf with hf | hf
    · exact absurd hcode (State.code_ne_of_mem_settled hpassing hf)
    · obtain ⟨id, -, hid⟩ := List.mem_filterMap.mp hf
      obtain ⟨y, hy, rfl⟩ := Option.map_eq_some_iff.mp hid
      exact ⟨id, y, (Option.filter_eq_some_iff.mp hy).1, rfl⟩

/-- A variable that is specified, assigned to and then declared is told to be unused. -/
theorem unused_told_iff_assigned :
    let scan := Scan.document { files := { cwd := Path.ofString "/ws" }, options := {} }
      ⟨"file:///ws/a", none, []⟩ {} .problem
      "MODULE M; SPC X FIXED; X := 1; DCL X FIXED; MODEND;".toList
    let words := Word.ofTokens (Word.significant scan.tokens.toList)
    let final := program words true
    ∃ y, final.symbol? 2 = some y ∧ NeverUsed words 2 y ∧ ¬SpecifiedGlobal words 2 ∧
      final.unusedAt 12 = [⟨.unused .var "X", 12⟩] := by
  intro scan words final
  obtain ⟨hsymbol, hlinks, hassign, hglobal, hloop, hsize, hclosed, hentry⟩ :
      final.symbol? 2 = some ⟨"X", 12, .var, { typeName := some "FIXED" }, false⟩ ∧
      (∀ l ∈ final.links.toList,
        (final.symbol? l.2).map (·.declaredAt) = some l.1 ∨ l.1 = 7) ∧
      Event.refer ⟨"X", 7⟩ true false ∈ Event.ofWords words ∧
      (∀ e ∈ Event.ofWords words, e.declaresGlobal = false) ∧
      Event.loopVariable ⟨"X", 12⟩ ∉ Event.ofWords words ∧
      1 < final.arena.scopes.size ∧ 1 ∉ final.arena.stack ∧
      (final.arena.scope 1).get? "X" = some 2 := by
    decide +kernel
  have hassigned : Assigned words 7 :=
    (isAssignment_iff (Word.inOrder_ofTokens _) hassign rfl).mp rfl
  have honly : ∀ id y, final.symbol? id = some y → OnlyAssigned words final id y := by
    intro id y hy place hlink
    rcases hlinks _ hlink with hown | hplace
    · rw [hy] at hown
      exact Or.inl (Option.some.inj hown).symm
    · rw [show place = 7 from hplace]
      exact Or.inr hassigned
  have hnever : NeverUsed words 2 ⟨"X", 12, .var, { typeName := some "FIXED" }, false⟩ :=
    ⟨⟨1, Or.inl ⟨hsize, hclosed⟩, hentry⟩, rfl, rfl, hloop, honly 2 _ hsymbol,
      fun old z _ hz => honly old z hz⟩
  have hspecified : ¬SpecifiedGlobal words 2 := by
    rintro ⟨-, z, e, -, -, he, -, hdeclares⟩
    rw [hglobal e he] at hdeclares
    cases hdeclares
  have h := (unused_told_iff scan.tokens.toList).1 2 _ hsymbol
  exact ⟨_, hsymbol, hnever, hspecified, h.1 ⟨hnever, hspecified⟩⟩

/-- That nobody uses a name is not enough: a variable that was specified as visible elsewhere
counts as used, though its declaration does not make it so. -/
theorem unused_not_told_of_specified :
    let scan := Scan.document { files := { cwd := Path.ofString "/ws" }, options := {} }
      ⟨"file:///ws/a", none, []⟩ {} .problem
      "MODULE M; SPC X FIXED GLOBAL; DCL X FIXED; MODEND;".toList
    let words := Word.ofTokens (Word.significant scan.tokens.toList)
    let final := program words true
    ∃ y, final.symbol? 2 = some y ∧ NeverUsed words 2 y ∧ final.unusedAt y.declaredAt = [] := by
  intro scan words final
  obtain ⟨hsymbol, hlinks, htold, hloop, hsize, hclosed, hentry⟩ :
      final.symbol? 2 = some ⟨"X", 9, .var, { typeName := some "FIXED" }, true⟩ ∧
      (∀ l ∈ final.links.toList, (final.symbol? l.2).map (·.declaredAt) = some l.1) ∧
      final.unusedAt 9 = [] ∧ Event.loopVariable ⟨"X", 9⟩ ∉ Event.ofWords words ∧
      1 < final.arena.scopes.size ∧ 1 ∉ final.arena.stack ∧
      (final.arena.scope 1).get? "X" = some 2 := by
    decide +kernel
  have honly : ∀ id y, final.symbol? id = some y → OnlyAssigned words final id y := by
    intro id y hy place hlink
    have hown := hlinks _ hlink
    rw [hy] at hown
    exact Or.inl (Option.some.inj hown).symm
  exact ⟨_, hsymbol, ⟨⟨1, Or.inl ⟨hsize, hclosed⟩, hentry⟩, rfl, rfl, hloop, honly 2 _ hsymbol,
    fun old z _ hz => honly old z hz⟩, htold⟩

end Resolution

end Pearl
