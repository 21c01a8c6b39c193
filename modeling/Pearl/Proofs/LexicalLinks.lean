import Mathlib.Data.List.Induction
import Pearl.Proofs.BlockNesting
import Pearl.Proofs.SymbolEffects
import Pearl.Scan.Run

namespace Pearl.Resolution

namespace State

variable {s s' : State} {new : Option Creation} {uses : List Use}

/-- The name stands for the symbol here: of the open scopes that hold the name, the innermost one
holds it for the symbol. -/
def Sees (s : State) (name : String) (id : Nat) : Prop :=
  ∃ inner scope outer, s.arena.stack = inner ++ scope :: outer ∧ scope ∉ s.arena.closed ∧
    (s.arena.scope scope).get? name = some id ∧ ∀ i ∈ inner, (s.arena.scope i).get? name = none

theorem sees_of_lookup (h : s.books.Partition) {name : String} {id : Nat}
    (hid : s.arena.lookup name = some id) : s.Sees name id := by
  obtain ⟨inner, scope, outer, hstack, hscope, hinner⟩ := List.findSome?_eq_some_iff.mp hid
  have hopen : scope ∈ s.arena.stack := by
    rw [hstack]
    simp
  refine ⟨inner, scope, outer, hstack, ?_, hscope, hinner⟩
  intro hclosed
  exact (List.nodup_append.mp h.nodup).2.2 scope hclosed scope hopen rfl

end State

/-! ### The history of a run -/

/-- A use is justified by a moment of the run: the event resolved its name to a symbol that had
been declared before, or it was a jump to the name of the symbol. -/
def Use.Justified (events : List Event) (made : List Creation) (u : Use) : Prop :=
  ∃ c, made[u.id]? = some c ∧ u.event.occurrence? = some ⟨c.symbol.name, u.place⟩ ∧
    (u.event = .jump ⟨c.symbol.name, u.place⟩ ∨
      u.event.isReference = true ∧ ∃ before after, events = before ++ u.event :: after ∧
        c.event ∈ before ∧ (ofEvents before).Sees c.symbol.name u.id)

theorem Use.Justified.mono {events : List Event} {made : List Creation} {u : Use}
    (h : u.Justified events made) (more : List Event) (made' : List Creation) :
    u.Justified (events ++ more) (made ++ made') := by
  obtain ⟨c, hc, ho, h⟩ := h
  have hlt := (List.getElem?_eq_some_iff.mp hc).1
  refine ⟨c, by rw [List.getElem?_append_left hlt, hc], ho, h.imp_right ?_⟩
  rintro ⟨href, before, after, rfl, hbefore, hsees⟩
  exact ⟨href, before, after ++ more, by simp, hbefore, hsees⟩

/-- The symbols and links of a state, by what was made and used on the way to it. -/
structure Ledger (events : List Event) (s : State) (made : List Creation) (used : List Use) :
    Prop where
  size : s.arena.symbols.size = made.length
  symbol : ∀ id c, made[id]? = some c → ∃ y, s.symbol? id = some y ∧ c.symbol.Becomes y ∧
    (y.used = true ↔ c.symbol.used = true ∨ ∃ u ∈ used, u.id = id ∧ u.counts = true)
  links : s.links.toList.Perm (made.zipIdx.map (fun c => (c.1.symbol.declaredAt, c.2)) ++
    used.map fun u => (u.place, u.id))
  entry : ∀ i name id, (s.arena.scope i).get? name = some id →
    ∃ c, made[id]? = some c ∧ c.scope = i ∧ c.symbol.name = name
  named : ∀ c ∈ made, c.event.isDeclaration = true ∧
    c.event.occurrence? = some ⟨c.symbol.name, c.symbol.declaredAt⟩
  justified : ∀ u ∈ used, u.Justified events made
  distinct : s.arena.Distinct

namespace Ledger

variable {events : List Event} {s s' : State} {made : List Creation} {used uses : List Use}
  {new : Option Creation}

theorem id_lt (h : Ledger events s made used) {u : Use} (hu : u ∈ used) : u.id < made.length := by
  obtain ⟨c, hc, -⟩ := h.justified u hu
  exact (List.getElem?_eq_some_iff.mp hc).1

theorem getElem?_append_toList {id : Nat} {c : Creation}
    (hc : (made ++ new.toList)[id]? = some c) :
    made[id]? = some c ∨ id = made.length ∧ new = some c := by
  by_cases hlt : id < made.length
  · rw [List.getElem?_append_left hlt] at hc
    exact Or.inl hc
  · rw [List.getElem?_append_right (by omega)] at hc
    cases new with
    | none => cases hc
    | some c' =>
      have hlt' := (List.getElem?_eq_some_iff.mp hc).1
      have hid : id = made.length := by
        simp only [Option.toList_some, List.length_singleton] at hlt'
        omega
      subst hid
      simpa using hc

theorem symbol_grows (h : Ledger events s made used) (hg : s.Grows s' new uses)
    (hids : ∀ u ∈ uses, u.id < made.length) {id : Nat} {c : Creation}
    (hc : (made ++ new.toList)[id]? = some c) :
    ∃ y, s'.symbol? id = some y ∧ c.symbol.Becomes y ∧
      (y.used = true ↔ c.symbol.used = true ∨ ∃ u ∈ used ++ uses, u.id = id ∧ u.counts = true) := by
  obtain hold | ⟨rfl, rfl⟩ := getElem?_append_toList hc
  · obtain ⟨y, hy, hbecomes, hused⟩ := h.symbol id c hold
    obtain ⟨y', hy', hbecomes', hused'⟩ := hg.kept id y hy
    refine ⟨y', hy', hbecomes.trans hbecomes', ?_⟩
    rw [hused', hused]
    simp only [List.mem_append, or_and_right, exists_or, or_assoc]
  · obtain ⟨y, hy, hbecomes, hused⟩ := hg.added c rfl
    rw [h.size] at hy
    refine ⟨y, hy, hbecomes, ?_⟩
    rw [hused]
    refine ⟨Or.inl, fun hor => hor.resolve_right ?_⟩
    -- the new symbol is too young to have been used
    rintro ⟨u, hu, hid, -⟩
    have hlt := (List.mem_append.mp hu).elim h.id_lt (hids u)
    omega

theorem links_grows (h : Ledger events s made used) (hg : s.Grows s' new uses) :
    s'.links.toList.Perm
      ((made ++ new.toList).zipIdx.map (fun c => (c.1.symbol.declaredAt, c.2)) ++
        (used ++ uses).map fun u => (u.place, u.id)) := by
  have hnew : (new.toList.zipIdx made.length).map (fun c => (c.1.symbol.declaredAt, c.2)) =
      new.toList.map fun c => (c.symbol.declaredAt, s.arena.symbols.size) := by
    rw [h.size]
    cases new <;> rfl
  rw [hg.links, List.zipIdx_append, List.map_append, Nat.zero_add, hnew, List.map_append]
  refine ((h.links.append_right _).append_right _).trans ?_
  simp only [List.append_assoc]
  refine List.Perm.append_left _ ?_
  rw [← List.append_assoc, ← List.append_assoc]
  exact List.perm_append_comm.append_right _

theorem entry_grows (h : Ledger events s made used) (hg : s.Grows s' new uses) {i id : Nat}
    {name : String} (hid : (s'.arena.scope i).get? name = some id) :
    ∃ c, (made ++ new.toList)[id]? = some c ∧ c.scope = i ∧ c.symbol.name = name := by
  by_cases hnew : ∀ c ∈ new, ¬(i = c.scope ∧ name = c.symbol.name)
  · rw [hg.others i name hnew] at hid
    obtain ⟨c, hc, hscope, hname⟩ := h.entry i name id hid
    have hlt := (List.getElem?_eq_some_iff.mp hc).1
    exact ⟨c, by rw [List.getElem?_append_left hlt, hc], hscope, hname⟩
  · push Not at hnew
    obtain ⟨c, hc, rfl, rfl⟩ := hnew
    rw [hg.entry c hc, h.size] at hid
    cases hid
    cases hc
    exact ⟨c, by simp, rfl, rfl⟩

/-- What is added to a state is added to its ledger. -/
theorem grows (h : Ledger events s made used) (hg : s.Grows s' new uses) (more : List Event)
    (hcreates : ∀ c ∈ new, s.Creates c) (huses : ∀ u ∈ uses, u.Justified (events ++ more) made) :
    Ledger (events ++ more) s' (made ++ new.toList) (used ++ uses) := by
  refine ⟨?_, ?_, h.links_grows hg, ?_, ?_, ?_, hg.distinct h.distinct⟩
  · rw [hg.size, h.size, List.length_append]
  · intro id c hc
    refine h.symbol_grows hg ?_ hc
    intro u hu
    obtain ⟨c, hc, -⟩ := huses u hu
    exact (List.getElem?_eq_some_iff.mp hc).1
  · intro i name id hid
    exact h.entry_grows hg hid
  · intro c hc
    rcases List.mem_append.mp hc with hc | hc
    · exact h.named c hc
    · have hnew := hcreates c (Option.mem_toList.mp hc)
      exact ⟨hnew.declares, hnew.name⟩
  · intro u hu
    rcases List.mem_append.mp hu with hu | hu
    · exact (h.justified u hu).mono more _
    · have hmore := (huses u hu).mono [] new.toList
      rwa [List.append_nil] at hmore

end Ledger

/-- What is known about the state after some events. Every event is accounted for at most once: its
name may be outstanding, or have brought a symbol, or a use. -/
structure History (events : List Event) (made : List Creation) (used : List Use) : Prop
    extends Ledger events (ofEvents events) made used where
  inStep : (ofEvents events).skeleton.InStep
  partition : (ofEvents events).books.Partition
  account : ((ofEvents events).books.outstanding ++
    (made.map (·.event) ++ used.map (·.event))).Subperm events
  labels : ∀ l ∈ (ofEvents events).outerLabels, ∃ c, made[l.2]? = some c ∧ c.symbol.name = l.1 ∧
    c.symbol.attributes.isSpecification = false

theorem ofEvents_concat (events : List Event) (e : Event) :
    ofEvents (events ++ [e]) = (ofEvents events).step e := by
  rw [ofEvents, List.foldl_append]
  rfl

/-- Two accounts one after the other. -/
theorem account_trans {out out' made new used uses events events' : List Event}
    (h' : (out' ++ (new ++ uses)).Subperm (out ++ events'))
    (h : (out ++ (made ++ used)).Subperm events) :
    (out' ++ ((made ++ new) ++ (used ++ uses))).Subperm (events ++ events') := by
  have hfirst : (out' ++ ((made ++ new) ++ (used ++ uses))).Perm
      ((out' ++ (new ++ uses)) ++ (made ++ used)) := by
    rw [List.perm_iff_count]
    intro e
    simp only [List.count_append]
    omega
  have hlast : ((out ++ events') ++ (made ++ used)).Perm ((out ++ (made ++ used)) ++ events') := by
    rw [List.perm_iff_count]
    intro e
    simp only [List.count_append]
    omega
  have hmid := (List.subperm_append_right (made ++ used)).mpr h'
  have hend := (List.subperm_append_right events').mpr h
  exact hfirst.subperm.trans (hmid.trans (hlast.subperm.trans hend))

namespace History

variable {events : List Event} {made : List Creation} {used uses : List Use} {e : Event}
  {new : Option Creation}

theorem mem_events (h : History events made used) {c : Creation} (hc : c ∈ made) :
    c.event ∈ events := by
  apply h.account.subset
  simp only [List.mem_append, List.mem_map]
  exact Or.inr (Or.inl ⟨c, hc, rfl⟩)

theorem justified_of_resolves (h : History events made used) {u : Use}
    (hu : (ofEvents events).Resolves e u) : u.Justified (events ++ [e]) made := by
  cases hu with
  | @refer name he href ho hid =>
    have hsees := State.sees_of_lookup h.partition hid
    have ⟨_, i, _, _, _, hi, _⟩ := hsees
    obtain ⟨c, hc, -, rfl⟩ := h.entry i name u.id hi
    refine ⟨c, hc, he ▸ ho, Or.inr ⟨he ▸ href, events, [], by rw [he], ?_, hsees⟩⟩
    exact h.mem_events (List.mem_of_getElem? hc)
  | @jump name he hid =>
    obtain ⟨i, hi⟩ := hid
    obtain ⟨c, hc, -, rfl⟩ := h.entry i name u.id hi
    exact ⟨c, hc, by rw [he]; rfl, Or.inl he⟩

theorem step (h : History events made used)
    (he : (ofEvents events).Effect e ((ofEvents events).step e) new uses) :
    History (events ++ [e]) (made ++ new.toList) (used ++ uses) := by
  have hledger := h.grows he.toGrows [e] he.creates fun u hu =>
    h.justified_of_resolves (he.resolves u hu)
  rw [← ofEvents_concat] at hledger
  refine ⟨hledger, ?_, ?_, ?_, ?_⟩
  · rw [ofEvents_concat]
    exact h.inStep.moves (State.step_moves h.inStep e).1
  · rw [ofEvents_concat]
    exact (State.step_partition _ h.partition e).1
  · rw [ofEvents_concat, List.map_append, List.map_append]
    exact account_trans he.account h.account
  · rw [ofEvents_concat]
    intro l hl
    rcases he.labels l hl with hl | ⟨i, y, hi, hy, hspec⟩
    · obtain ⟨c, hc, hname, hspec⟩ := h.labels l hl
      have hlt := (List.getElem?_eq_some_iff.mp hc).1
      exact ⟨c, by rw [List.getElem?_append_left hlt, hc], hname, hspec⟩
    · rw [← ofEvents_concat] at hi hy
      obtain ⟨c, hc, -, hname⟩ := hledger.entry i l.1 l.2 hi
      obtain ⟨y', hy', hbecomes, -⟩ := hledger.symbol l.2 c hc
      cases hy.symm.trans hy'
      exact ⟨c, hc, hname, hbecomes.isSpecification ▸ hspec⟩

end History

theorem history_nil : History [] [] [] := by
  have hempty : ∀ i, ((ofEvents []).arena.scope i).entries = [] := by
    intro i
    cases i with
    | zero => rfl
    | succ i => rfl
  refine ⟨⟨rfl, by simp, List.Perm.nil, ?_, by simp, by simp, ?_⟩, ⟨rfl, rfl⟩, List.Perm.refl _,
    List.Subperm.refl _, by simp [ofEvents]⟩
  · intro i name id hid
    rw [Scope.get?, hempty] at hid
    cases hid
  · intro i
    rw [hempty]
    exact .nil

theorem exists_history (events : List Event) : ∃ made used, History events made used := by
  induction events using List.reverseRecOn with
  | nil => exact ⟨[], [], history_nil⟩
  | append_singleton events e ih =>
    obtain ⟨made, used, h⟩ := ih
    obtain ⟨new, uses, he⟩ := State.step_effect h.inStep e
    exact ⟨_, _, h.step he⟩

/-! ### The end of a program -/

theorem State.grows_foldl_quiet {α : Type} {f : State → α → State}
    (hf : ∀ (s : State) x, s.Grows (f s x) none []) (xs : List α) (s : State) :
    s.Grows (xs.foldl f s) none [] := by
  induction xs generalizing s with
  | nil => exact .refl s
  | cons x xs ih => exact (hf s x).trans_quiet (ih (f s x))

theorem State.grows_sweep (s : State) : s.Grows s.sweep none [] := by
  have hscope : ∀ (symbols : List Symbol) (s : State),
      s.Grows (symbols.foldl reportUnused s) none [] :=
    grows_foldl_quiet fun s _ => grows_report s _ _
  have htaken : s.Grows { s with arena := s.arena.takeClosed.2 } none [] :=
    .of_eq rfl (fun _ => rfl) rfl
  exact htaken.trans_quiet (grows_foldl_quiet (fun s scope => hscope _ s) _ _)

/-- After the jumps that were left are resolved, nothing happens to symbols and links. -/
theorem State.grows_finish (s : State) (unused : Bool) :
    (s.jumps.foldl landOutside s).Grows (s.finish unused) none [] := by
  have hunclosed : ∀ s : State, Grows s (s.frames.foldl reportUnclosed s) none [] :=
    fun s => grows_foldl_quiet (fun s _ => grows_report s _ _) _ s
  unfold finish
  dsimp only
  split
  · exact (hunclosed _).trans_quiet (grows_sweep _)
  · exact hunclosed _

variable {events : List Event} {s : State} {made : List Creation} {used : List Use}

/-- At the end the jumps that were left bring uses of labels, each its own. -/
theorem History.finish (h : History events made used) (unused : Bool) :
    ∃ uses, Ledger events ((ofEvents events).finish unused) made (used ++ uses) ∧
      (made.map (·.event) ++ (used ++ uses).map (·.event)).Subperm events ∧
      ∀ u ∈ uses, ∃ c, made[u.id]? = some c ∧ c.symbol.attributes.isSpecification = false := by
  obtain ⟨uses, hgrows, hsub, huses⟩ :=
    State.grows_foldl_landOutside (ofEvents events).jumps (ofEvents events)
  have hlabel : ∀ u ∈ uses, ∃ c, made[u.id]? = some c ∧
      u.event = .jump ⟨c.symbol.name, u.place⟩ ∧ c.symbol.attributes.isSpecification = false := by
    intro u hu
    obtain ⟨name, hname, hlookup⟩ := huses u hu
    obtain ⟨l₁, l₂, houter, -⟩ := List.lookup_eq_some_iff.mp hlookup
    obtain ⟨c, hc, hcname, hspec⟩ := h.labels (name, u.id) (by rw [houter]; simp)
    exact ⟨c, hc, hcname ▸ hname, hspec⟩
  refine ⟨uses, ?_, ?_, ?_⟩
  · have hfinish := h.grows (hgrows.trans_quiet (State.grows_finish _ unused)) [] (by simp) (by
      intro u hu
      obtain ⟨c, hc, hevent, -⟩ := hlabel u hu
      exact ⟨c, hc, by rw [hevent]; rfl, Or.inl hevent⟩)
    simpa using hfinish
  · have hleft : (uses.map (·.event)).Subperm (ofEvents events).books.outstanding :=
      (hsub.trans (List.sublist_append_right _ _)).subperm
    have hmoved : (made.map (·.event) ++ (used ++ uses).map (·.event)).Perm
        (uses.map (·.event) ++ (made.map (·.event) ++ used.map (·.event))) := by
      rw [List.map_append, ← List.append_assoc]
      exact List.perm_append_comm
    exact hmoved.subperm.trans (((List.subperm_append_right _).mpr hleft).trans h.account)
  · intro u hu
    obtain ⟨c, hc, -, hspec⟩ := hlabel u hu
    exact ⟨c, hc, hspec⟩

/-! ### Names and their places -/

theorem map_place_occurrences {α : Type} {event : α → Event} {place : α → Nat} {xs : List α}
    (h : ∀ x ∈ xs, ∃ name, (event x).occurrence? = some ⟨name, place x⟩) :
    (Event.occurrences (xs.map event)).map (·.place) = xs.map place := by
  rw [Event.occurrences, List.filterMap_map, List.map_filterMap, ← List.filterMap_eq_map]
  apply List.filterMap_congr
  intro x hx
  obtain ⟨name, hname⟩ := h x hx
  simp [hname]

/-- The links stand at the places of the names that were declared or used. -/
theorem Ledger.map_place_links (h : Ledger events s made used) :
    (s.links.toList.map (·.1)).Perm
      ((Event.occurrences (made.map (·.event) ++ used.map (·.event))).map (·.place)) := by
  have hmade : (Event.occurrences (made.map (·.event))).map (·.place) =
      made.map (·.symbol.declaredAt) :=
    map_place_occurrences fun c hc => ⟨_, (h.named c hc).2⟩
  have hused : (Event.occurrences (used.map (·.event))).map (·.place) = used.map (·.place) := by
    apply map_place_occurrences
    intro u hu
    obtain ⟨c, -, ho, -⟩ := h.justified u hu
    exact ⟨_, ho⟩
  have hown : (made.zipIdx.map fun c => (c.1.symbol.declaredAt, c.2)).map (·.1) =
      made.map (·.symbol.declaredAt) := by
    rw [List.map_map, ← List.zipIdx_map_fst 0 made, List.map_map, List.zipIdx_map_fst]
    rfl
  rw [Event.occurrences_append, List.map_append, hmade, hused, ← hown]
  refine (h.links.map _).trans (List.Perm.of_eq ?_)
  rw [List.map_append, List.map_map, List.map_map]
  rfl

theorem subperm_filterMap {α β : Type} {xs ys : List α} (h : xs.Subperm ys) (f : α → Option β) :
    (xs.filterMap f).Subperm (ys.filterMap f) := by
  obtain ⟨l, hperm, hsub⟩ := h
  exact ⟨l.filterMap f, hperm.filterMap f, hsub.filterMap f⟩

/-- If no place is told twice, none is linked twice. -/
theorem Ledger.nodup_links (h : Ledger events s made used)
    (haccount : (made.map (·.event) ++ used.map (·.event)).Subperm events)
    (hevents : ((Event.occurrences events).map (·.place)).Nodup) :
    (s.links.toList.map (·.1)).Nodup := by
  obtain ⟨l, hperm, hsub⟩ := subperm_filterMap haccount Event.occurrence?
  have hnodup : (l.map (·.place)).Nodup := hevents.sublist (hsub.map _)
  exact (h.map_place_links.trans (hperm.map _).symm).nodup_iff.mpr hnodup

/-- The name of an event stands among the tokens. -/
theorem exists_token {tokens : List Token} {o : Occurrence}
    (ho : o ∈ Event.occurrences (Event.ofWords (Word.ofTokens tokens))) :
    ∃ t, tokens[o.place]? = some t ∧ t.kind = .identifier ∧ t.text = o.name := by
  obtain ⟨w, hw, hname, rfl⟩ := Event.exists_word_of_mem (Event.eventsAfter_reads none true _) ho
  obtain ⟨⟨t, place⟩, ht, rfl⟩ := List.mem_map.mp hw
  exact ⟨t, List.mem_zipIdx_iff_getElem?.mp ht, of_decide_eq_true hname, rfl⟩

/-- A link is that of a symbol's own name, or of a use. -/
theorem Ledger.link_cases (h : Ledger events s made used) {place id : Nat}
    (hlink : (place, id) ∈ s.links.toList) :
    (∃ c, made[id]? = some c ∧ place = c.symbol.declaredAt) ∨
      ∃ u ∈ used, place = u.place ∧ id = u.id := by
  rcases List.mem_append.mp (h.links.mem_iff.mp hlink) with hown | huse
  · obtain ⟨⟨c, i⟩, hc, heq⟩ := List.mem_map.mp hown
    cases heq
    exact Or.inl ⟨c, List.mem_zipIdx_iff_getElem?.mp hc, rfl⟩
  · obtain ⟨u, hu, heq⟩ := List.mem_map.mp huse
    cases heq
    exact Or.inr ⟨u, hu, rfl, rfl⟩

/-- A name that is resolved stands behind every name that was declared before. -/
theorem place_lt_of_mem (hordered : events.Pairwise Event.Precedes) {before after : List Event}
    {e e' : Event} (hsplit : events = before ++ e' :: after) (he : e ∈ before)
    (hdeclares : e.isDeclaration = true) (href : e'.isReference = true) {o o' : Occurrence}
    (ho : e.occurrence? = some o) (ho' : e'.occurrence? = some o') : o.place < o'.place := by
  rw [hsplit] at hordered
  have hprecedes := (List.pairwise_append.mp hordered).2.2 e he e' List.mem_cons_self
  exact hprecedes (Event.isReference_of_isDeclaration hdeclares) href o ho o' ho'

/-- Links follow the scopes. No token is linked twice; a token that is linked to a symbol is an
identifier and has its name; and unless it is the token that declares the symbol, or the target of
a jump, it stands behind that token, and at the moment when it was resolved the scope that held the
symbol was open, and no open scope inside of that one held the name. -/
theorem links_follow_scopes (tokens : List Token) (unused : Bool) :
    let counted := Word.significant tokens
    let events := Event.ofWords (Word.ofTokens counted)
    let final := program (Word.ofTokens counted) unused
    (final.links.toList.map (·.1)).Nodup ∧
    ∀ place id, (place, id) ∈ final.links.toList →
      ∃ y t, final.symbol? id = some y ∧ counted[place]? = some t ∧ t.kind = .identifier ∧
        t.text = y.name ∧
        (place ≠ y.declaredAt → .jump ⟨y.name, place⟩ ∉ events →
          y.declaredAt < place ∧ ∃ before e after, events = before ++ e :: after ∧
            e.isReference = true ∧ e.occurrence? = some ⟨y.name, place⟩ ∧
            (ofEvents before).Sees y.name id) := by
  intro counted events final
  have hreads : Event.Reads True (Word.ofTokens counted) events [] :=
    Event.eventsAfter_reads none true _
  have horder := Word.inOrder_ofTokens counted
  obtain ⟨made, used, h⟩ := exists_history events
  obtain ⟨uses, hledger, haccount, -⟩ := h.finish unused
  have htoken : ∀ {e : Event} {o : Occurrence},
      e ∈ made.map (·.event) ++ (used ++ uses).map (·.event) → e.occurrence? = some o →
      ∃ t, counted[o.place]? = some t ∧ t.kind = .identifier ∧ t.text = o.name := by
    intro e o he ho
    exact exists_token (List.mem_filterMap.mpr ⟨e, haccount.subset he, ho⟩)
  refine ⟨hledger.nodup_links haccount (hreads.nodup horder), ?_⟩
  intro place id hlink
  obtain ⟨c, hc, rfl⟩ | ⟨u, hu, rfl, rfl⟩ := hledger.link_cases hlink
  · obtain ⟨y, hy, hbecomes, -⟩ := hledger.symbol id c hc
    have hmem := List.mem_of_getElem? hc
    obtain ⟨t, ht, hkind, htext⟩ :=
      htoken (List.mem_append_left _ (List.mem_map_of_mem hmem)) (hledger.named c hmem).2
    refine ⟨y, t, hy, ht, hkind, htext.trans hbecomes.name.symm, ?_⟩
    intro hne
    exact absurd hbecomes.declaredAt.symm hne
  · obtain ⟨c, hc, ho, hmoment⟩ := hledger.justified u hu
    obtain ⟨y, hy, hbecomes, -⟩ := hledger.symbol u.id c hc
    obtain ⟨t, ht, hkind, htext⟩ := htoken (List.mem_append_right _ (List.mem_map_of_mem hu)) ho
    refine ⟨y, t, hy, ht, hkind, htext.trans hbecomes.name.symm, ?_⟩
    intro _ hjump
    rw [hbecomes.name] at hjump ⊢
    rw [hbecomes.declaredAt]
    obtain hevent | ⟨href, before, after, hsplit, hbefore, hsees⟩ := hmoment
    · have hmem := haccount.subset (List.mem_append_right _ (List.mem_map_of_mem hu))
      exact absurd (hevent ▸ hmem) hjump
    · have hnamed := hledger.named c (List.mem_of_getElem? hc)
      have hlt := place_lt_of_mem (hreads.ordered horder) hsplit hbefore hnamed.1 href hnamed.2 ho
      exact ⟨hlt, before, u.event, after, hsplit, href, ho, hsees⟩

/-- A variable of a block hides one of the same name, up to the end of the block. -/
theorem links_follow_scopes_hidden :
    let src : Scan.Source := ⟨"file:///ws/a", none, []⟩
    let scan := Scan.document { files := { cwd := Path.ofString "/ws" }, options := {} } src {}
      .problem "DCL X FIXED; BEGIN DCL X FIXED; X := X; END; X := 1;".toList
    let words := Word.ofTokens (Word.significant scan.tokens.toList)
    let final := program words true
    final.links.toList = [(1, 0), (6, 1), (9, 1), (11, 1), (15, 0)] ∧
    (final.links.toList.map (·.1)).Nodup ∧
    ∃ before e after, Event.ofWords words = before ++ e :: after ∧
      e.occurrence? = some ⟨"X", 11⟩ ∧ (ofEvents before).Sees "X" 1 := by
  intro src scan words final
  obtain ⟨hlinks, hinner, hjump⟩ :
      final.links.toList = [(1, 0), (6, 1), (9, 1), (11, 1), (15, 0)] ∧
      (final.symbol? 1).map (fun y => (y.name, y.declaredAt)) = some ("X", 6) ∧
      Event.jump ⟨"X", 11⟩ ∉ Event.ofWords words := by
    decide +kernel
  have h := links_follow_scopes scan.tokens.toList true
  have hlink : (11, 1) ∈ final.links.toList := by
    rw [hlinks]
    decide
  obtain ⟨y, t, hy, -, -, -, hmoment⟩ := h.2 11 1 hlink
  rw [show final.symbol? 1 = some y from hy] at hinner
  have hname : y.name = "X" := congrArg Prod.fst (Option.some.inj hinner)
  have hplace : y.declaredAt = 6 := congrArg Prod.snd (Option.some.inj hinner)
  rw [hname, hplace] at hmoment
  obtain ⟨-, before, e, after, hsplit, -, ho, hsees⟩ := hmoment (by decide) hjump
  exact ⟨hlinks, h.1, before, e, after, hsplit, ho, hsees⟩

end Pearl.Resolution
