import Pearl.Proofs.LexicalLinks

namespace Pearl.Resolution

open State (carriesOut)

/-! ### Specifications that are carried out -/

/-- What is true at some moment of a run was true before the last event, or is true at it. -/
theorem exists_moment_concat {P : List Event → Event → Prop} {events : List Event} {e : Event} :
    (∃ before e' after, events ++ [e] = before ++ e' :: after ∧ P before e') ↔
      (∃ before e' after, events = before ++ e' :: after ∧ P before e') ∨ P events e := by
  constructor
  · rintro ⟨before, e', after, hsplit, hP⟩
    rcases List.eq_nil_or_concat after with rfl | ⟨left, last, rfl⟩
    · obtain ⟨rfl, hlast⟩ := List.append_inj' hsplit rfl
      cases hlast
      exact Or.inr hP
    · rw [List.concat_eq_append, ← List.cons_append, ← List.append_assoc] at hsplit
      obtain ⟨rfl, -⟩ := List.append_inj' hsplit rfl
      exact Or.inl ⟨before, e', left, rfl, hP⟩
  · rintro (⟨before, e', after, rfl, hP⟩ | hP)
    · exact ⟨before, e', after ++ [e], by simp, hP⟩
    · exact ⟨events, e, [], rfl, hP⟩

/-- A declaration takes the place of an earlier one: in some scope a name stood for `old`, and
after the next event it stands for `id`. -/
def Replaces (events : List Event) (id old : Nat) : Prop :=
  ∃ before e after, events = before ++ e :: after ∧ ∃ i name, old ≠ id ∧
    ((ofEvents before).arena.scope i).get? name = some old ∧
    (((ofEvents before).step e).arena.scope i).get? name = some id

variable {events : List Event} {made : List Creation} {used uses : List Use} {e : Event}
  {new : Option Creation} {id old : Nat}

theorem replaces_concat :
    Replaces (events ++ [e]) id old ↔ Replaces events id old ∨ ∃ i name, old ≠ id ∧
      ((ofEvents events).arena.scope i).get? name = some old ∧
      (((ofEvents events).step e).arena.scope i).get? name = some id :=
  exists_moment_concat

theorem State.Resolves.exists_entry {s : State} {u : Use} (h : s.Resolves e u) :
    ∃ i name, (s.arena.scope i).get? name = some u.id := by
  cases h with
  | @refer name he href ho hid =>
    obtain ⟨-, i, -, -, hi, -⟩ := List.findSome?_eq_some_iff.mp hid
    exact ⟨i, name, hi⟩
  | @jump name he hid =>
    obtain ⟨i, hi⟩ := hid
    exact ⟨i, name, hi⟩

/-- A name changes its meaning only by the symbol that is added. -/
theorem State.Grows.eq_of_entry_ne {s s' : State} (h : s.Grows s' new uses) {i : Nat}
    {name : String} (hid : (s'.arena.scope i).get? name = some id)
    (hne : (s.arena.scope i).get? name ≠ some id) :
    id = s.arena.symbols.size ∧ ∃ c, new = some c ∧ i = c.scope ∧ name = c.symbol.name := by
  by_cases hnew : ∀ c ∈ new, ¬(i = c.scope ∧ name = c.symbol.name)
  · rw [h.others i name hnew] at hid
    exact absurd hid hne
  · push Not at hnew
    obtain ⟨c, hc, rfl, rfl⟩ := hnew
    rw [h.entry c hc] at hid
    exact ⟨(Option.some.inj hid).symm, c, hc, rfl, rfl⟩

theorem carriesOut_congr {y y' z : Symbol} (h : y.Becomes y') :
    carriesOut y' z = carriesOut y z := by
  rw [carriesOut, carriesOut, h.isSpecification, h.kind]

/-- What took the place of what. A symbol that was replaced was a specification; it is gone from
all scopes, and its uses, which are all it will ever have, have been inherited. -/
structure Succession (events : List Event) (made : List Creation) : Prop where
  isGlobal : ∀ c ∈ made, c.symbol.attributes.isGlobal = c.event.declaresGlobal
  loop : ∀ c ∈ made, c.event.isLoopVariable = true → c.symbol.attributes.isSpecification = false
  replaced : ∀ id old, Replaces events id old → ∃ c d, made[id]? = some c ∧
    made[old]? = some d ∧ carriesOut d.symbol c.symbol = true
  gone : ∀ id old, Replaces events id old →
    ∀ i name, ((ofEvents events).arena.scope i).get? name ≠ some old
  used : ∀ id c, made[id]? = some c → (c.symbol.used = true ↔ c.symbol.kind.isExported = true ∨
    c.event.declaresGlobal = true ∨ c.event.isLoopVariable = true ∨
    ∃ old z, Replaces events id old ∧ (ofEvents events).symbol? old = some z ∧ z.used = true)

namespace Succession

/-- What is replaced by the last event. -/
theorem replaces_now (h : History events made used)
    (he : (ofEvents events).Effect e ((ofEvents events).step e) new uses) {i : Nat} {name : String}
    (hne : old ≠ id) (hold : ((ofEvents events).arena.scope i).get? name = some old)
    (hid : (((ofEvents events).step e).arena.scope i).get? name = some id) :
    id = made.length ∧ ∃ c, new = some c ∧
      ((ofEvents events).arena.scope c.scope).get? c.symbol.name = some old := by
  have hchanged : ((ofEvents events).arena.scope i).get? name ≠ some id := by
    rw [hold]
    intro heq
    exact hne (Option.some.inj heq)
  obtain ⟨hsize, c, hc, rfl, rfl⟩ := he.eq_of_entry_ne hid hchanged
  exact ⟨hsize.trans h.size, c, hc, hold⟩

theorem replaced_concat (hs : Succession events made) (h : History events made used)
    (he : (ofEvents events).Effect e ((ofEvents events).step e) new uses)
    (hr : Replaces (events ++ [e]) id old) :
    ∃ c d, (made ++ new.toList)[id]? = some c ∧ (made ++ new.toList)[old]? = some d ∧
      carriesOut d.symbol c.symbol = true := by
  have hkept : ∀ {i : Nat} {c : Creation}, made[i]? = some c →
      (made ++ new.toList)[i]? = some c := by
    intro i c hc
    rw [List.getElem?_append_left (List.getElem?_eq_some_iff.mp hc).1, hc]
  obtain hr | ⟨i, name, hne, hold, hid⟩ := replaces_concat.mp hr
  · obtain ⟨c, d, hc, hd, hcarries⟩ := hs.replaced id old hr
    exact ⟨c, d, hkept hc, hkept hd, hcarries⟩
  · obtain ⟨rfl, c, rfl, hentry⟩ := replaces_now h he hne hold hid
    obtain ⟨z, hz, hcarries⟩ := (he.creates c rfl).replaces old hentry
    obtain ⟨d, hd, -⟩ := h.entry _ _ _ hentry
    obtain ⟨z', hz', hbecomes, -⟩ := h.symbol old d hd
    cases hz.symm.trans hz'
    refine ⟨c, d, by simp, hkept hd, ?_⟩
    rw [← carriesOut_congr hbecomes]
    exact hcarries

theorem gone_concat (hs : Succession events made) (h : History events made used)
    (he : (ofEvents events).Effect e ((ofEvents events).step e) new uses)
    (hr : Replaces (events ++ [e]) id old) (i : Nat) (name : String) :
    (((ofEvents events).step e).arena.scope i).get? name ≠ some old := by
  intro hfound
  by_cases hbefore : ((ofEvents events).arena.scope i).get? name = some old
  · obtain hr | ⟨i', name', hne, hold, hid⟩ := replaces_concat.mp hr
    · exact hs.gone id old hr i name hbefore
    · -- the scope and the name of a symbol are those it was made with
      obtain ⟨d, hd, rfl, rfl⟩ := h.entry i name old hbefore
      obtain ⟨d', hd', hscope, hname⟩ := h.entry i' name' old hold
      cases hd.symm.trans hd'
      rw [hscope, hname, hid] at hfound
      exact hne (Option.some.inj hfound).symm
  · obtain ⟨hsize, -⟩ := he.eq_of_entry_ne hfound hbefore
    rw [h.size] at hsize
    subst hsize
    obtain hr | ⟨i', name', hne, hold, hid⟩ := replaces_concat.mp hr
    · obtain ⟨-, d, -, hd, -⟩ := hs.replaced id _ hr
      exact absurd (List.getElem?_eq_some_iff.mp hd).1 (Nat.lt_irrefl _)
    · obtain ⟨d, hd, -⟩ := h.entry i' name' _ hold
      exact absurd (List.getElem?_eq_some_iff.mp hd).1 (Nat.lt_irrefl _)

/-- A symbol that was there inherits nothing more, and what it inherited from gets no more uses. -/
theorem used_kept (hs : Succession events made) (h : History events made used)
    (he : (ofEvents events).Effect e ((ofEvents events).step e) new uses) (hid : id < made.length) :
    (∃ old z, Replaces events id old ∧ (ofEvents events).symbol? old = some z ∧ z.used = true) ↔
      ∃ old z, Replaces (events ++ [e]) id old ∧
        ((ofEvents events).step e).symbol? old = some z ∧ z.used = true := by
  constructor
  · rintro ⟨old, z, hr, hz, hused⟩
    obtain ⟨z', hz', -, hused'⟩ := he.kept old z hz
    exact ⟨old, z', replaces_concat.mpr (Or.inl hr), hz', hused'.mpr (Or.inl hused)⟩
  · rintro ⟨old, z', hr, hz', hused'⟩
    obtain hr | ⟨i, name, hne, hold, hnew⟩ := replaces_concat.mp hr
    · obtain ⟨-, d, -, hd, -⟩ := hs.replaced id old hr
      obtain ⟨z, hz, -⟩ := h.symbol old d hd
      obtain ⟨z'', hz'', -, hiff⟩ := he.kept old z hz
      cases hz'.symm.trans hz''
      -- a name that resolves stands in some scope, and what was replaced stands in none
      refine ⟨old, z, hr, hz, (hiff.mp hused').resolve_right ?_⟩
      rintro ⟨u, hu, rfl, -⟩
      obtain ⟨i, name, hentry⟩ := (he.resolves u hu).exists_entry
      exact hs.gone id u.id hr i name hentry
    · obtain ⟨rfl, -⟩ := replaces_now h he hne hold hnew
      exact absurd hid (Nat.lt_irrefl _)

/-- The symbol that is added inherits from the one whose place it takes. -/
theorem used_added (hs : Succession events made) (h : History events made used) {c : Creation}
    (he : (ofEvents events).Effect e ((ofEvents events).step e) (some c) uses) :
    (∃ old z, ((ofEvents events).arena.scope c.scope).get? c.symbol.name = some old ∧
        (ofEvents events).symbol? old = some z ∧ z.used = true) ↔
      ∃ old z, Replaces (events ++ [e]) made.length old ∧
        ((ofEvents events).step e).symbol? old = some z ∧ z.used = true := by
  have huses : uses = [] := he.alone.resolve_left nofun
  have hsame : ∀ {old : Nat} {z : Symbol}, (ofEvents events).symbol? old = some z →
      ∃ z', ((ofEvents events).step e).symbol? old = some z' ∧
        (z'.used = true ↔ z.used = true) := by
    intro old z hz
    obtain ⟨z', hz', -, hused⟩ := he.kept old z hz
    refine ⟨z', hz', ?_⟩
    rw [hused, huses]
    simp
  constructor
  · rintro ⟨old, z, hentry, hz, hused⟩
    obtain ⟨z', hz', hiff⟩ := hsame hz
    obtain ⟨d, hd, -⟩ := h.entry _ _ _ hentry
    have hne : old ≠ made.length := Nat.ne_of_lt (List.getElem?_eq_some_iff.mp hd).1
    have hnow := he.entry c rfl
    rw [h.size] at hnow
    exact ⟨old, z', replaces_concat.mpr (Or.inr ⟨_, _, hne, hentry, hnow⟩), hz', hiff.mpr hused⟩
  · rintro ⟨old, z', hr, hz', hused⟩
    obtain hr | ⟨i, name, hne, hold, hnew⟩ := replaces_concat.mp hr
    · obtain ⟨c', -, hc', -⟩ := hs.replaced _ _ hr
      exact absurd (List.getElem?_eq_some_iff.mp hc').1 (Nat.lt_irrefl _)
    · obtain ⟨-, c', hc', hentry⟩ := replaces_now h he hne hold hnew
      cases hc'
      obtain ⟨d, hd, -⟩ := h.entry _ _ _ hentry
      obtain ⟨z, hz, -⟩ := h.symbol old d hd
      obtain ⟨z'', hz'', hiff⟩ := hsame hz
      cases hz'.symm.trans hz''
      exact ⟨old, z, hentry, hz, hiff.mp hused⟩

theorem step (hs : Succession events made) (h : History events made used)
    (he : (ofEvents events).Effect e ((ofEvents events).step e) new uses) :
    Succession (events ++ [e]) (made ++ new.toList) := by
  have hmade : ∀ {P : Creation → Prop}, (∀ c ∈ made, P c) → (∀ c ∈ new, P c) →
      ∀ c ∈ made ++ new.toList, P c := by
    intro P hold hnew c hc
    exact (List.mem_append.mp hc).elim (hold c) fun hc => hnew c (Option.mem_toList.mp hc)
  refine ⟨?_, ?_, ?_, ?_, ?_⟩
  · exact hmade hs.isGlobal fun c hc => (he.creates c hc).isGlobal
  · exact hmade hs.loop fun c hc => (he.creates c hc).loop
  · intro id old hr
    exact hs.replaced_concat h he hr
  · intro id old hr i name
    rw [ofEvents_concat]
    exact hs.gone_concat h he hr i name
  · intro id c hc
    rw [ofEvents_concat]
    obtain hold | ⟨rfl, rfl⟩ := Ledger.getElem?_append_toList hc
    · rw [hs.used id c hold, hs.used_kept h he (List.getElem?_eq_some_iff.mp hold).1]
    · rw [(he.creates c rfl).used, hs.used_added h he]

end Succession

theorem succession_nil : Succession [] [] := by
  have hnone : ∀ id old, ¬Replaces [] id old := by
    rintro id old ⟨before, e, after, hsplit, -⟩
    exact List.append_ne_nil_of_right_ne_nil before (List.cons_ne_nil e after) hsplit.symm
  refine ⟨by simp, by simp, ?_, ?_, by simp⟩
  · intro id old hr
    exact absurd hr (hnone id old)
  · intro id old hr
    exact absurd hr (hnone id old)

theorem exists_succession (events : List Event) :
    ∃ made used, History events made used ∧ Succession events made := by
  induction events using List.reverseRecOn with
  | nil => exact ⟨[], [], history_nil, succession_nil⟩
  | append_singleton events e ih =>
    obtain ⟨made, used, h, hs⟩ := ih
    obtain ⟨new, uses, he⟩ := State.step_effect h.inStep e
    exact ⟨_, _, h.step he, hs.step h he⟩

/-! ### What makes a symbol used -/

/-- Some use of the symbol counts. -/
def Referenced (used : List Use) (id : Nat) : Prop := ∃ u ∈ used, u.id = id ∧ u.counts = true

theorem referenced_append :
    Referenced (used ++ uses) id ↔ Referenced used id ∨ Referenced uses id := by
  simp only [Referenced, List.mem_append, or_and_right, exists_or]

theorem isSpecification_of_carriesOut {y z : Symbol} (h : carriesOut y z = true) :
    y.attributes.isSpecification = true ∧ y.kind = z.kind ∧
      z.attributes.isSpecification = false := by
  simp only [carriesOut, Bool.and_eq_true, decide_eq_true_eq, Bool.not_eq_true'] at h
  exact ⟨h.1.1, h.1.2, h.2⟩

namespace Succession

variable {c d : Creation}

/-- A specification that was carried out has no uses but its own: it inherited nothing, for it took
no symbol's place, and it is no variable of a loop. -/
theorem specification_used (hs : Succession events made) (h : History events made used)
    (hr : Replaces events id old) (hc : made[id]? = some c) (hd : made[old]? = some d) {z : Symbol}
    (hz : (ofEvents events).symbol? old = some z) :
    z.used = true ↔
      c.symbol.kind.isExported = true ∨ d.event.declaresGlobal = true ∨ Referenced used old := by
  obtain ⟨c', d', hc', hd', hcarries⟩ := hs.replaced id old hr
  cases hc.symm.trans hc'
  cases hd.symm.trans hd'
  obtain ⟨hspec, hkind, -⟩ := isSpecification_of_carriesOut hcarries
  have hloop : ¬d.event.isLoopVariable = true := by
    intro hloop
    rw [hs.loop d (List.mem_of_getElem? hd) hloop] at hspec
    cases hspec
  have hfirst : ¬∃ older z, Replaces events old older ∧
      (ofEvents events).symbol? older = some z ∧ z.used = true := by
    rintro ⟨older, -, hr', -⟩
    obtain ⟨d', d'', hd', -, hcarries'⟩ := hs.replaced old older hr'
    cases hd.symm.trans hd'
    rw [(isSpecification_of_carriesOut hcarries').2.2] at hspec
    cases hspec
  obtain ⟨z', hz', -, hused⟩ := h.symbol old d hd
  cases hz.symm.trans hz'
  rw [hused, hs.used old d hd, hkind]
  simp only [hloop, hfirst, or_false, or_assoc, Bool.false_eq_true, Referenced]

/-- At the end a symbol counts as used for these reasons, and no others. -/
theorem used_iff (hs : Succession events made) (h : History events made used) {final : State}
    (hledger : Ledger events final made (used ++ uses))
    (hlabels : ∀ u ∈ uses, ∃ c, made[u.id]? = some c ∧ c.symbol.attributes.isSpecification = false)
    (hc : made[id]? = some c) {y : Symbol} (hy : final.symbol? id = some y) :
    y.used = true ↔ c.symbol.kind.isExported = true ∨ c.event.declaresGlobal = true ∨
      c.event.isLoopVariable = true ∨ Referenced (used ++ uses) id ∨
      ∃ old d, Replaces events id old ∧ made[old]? = some d ∧
        (d.event.declaresGlobal = true ∨ Referenced (used ++ uses) old) := by
  -- the jumps that are left lead to labels, which carry nothing out
  have hlate : ∀ old, Replaces events id old → ¬Referenced uses old := by
    rintro old hr ⟨u, hu, rfl, -⟩
    obtain ⟨c', d, -, hd, hcarries⟩ := hs.replaced id u.id hr
    obtain ⟨d', hd', hspec⟩ := hlabels u hu
    cases hd.symm.trans hd'
    rw [(isSpecification_of_carriesOut hcarries).1] at hspec
    cases hspec
  have hinherited : (∃ old z, Replaces events id old ∧ (ofEvents events).symbol? old = some z ∧
      z.used = true) ↔ (c.symbol.kind.isExported = true ∧ ∃ old, Replaces events id old) ∨
      ∃ old d, Replaces events id old ∧ made[old]? = some d ∧
        (d.event.declaresGlobal = true ∨ Referenced (used ++ uses) old) := by
    constructor
    · rintro ⟨old, z, hr, hz, hused⟩
      obtain ⟨-, d, -, hd, -⟩ := hs.replaced id old hr
      rcases (hs.specification_used h hr hc hd hz).mp hused with hkind | hglobal | href
      · exact Or.inl ⟨hkind, old, hr⟩
      · exact Or.inr ⟨old, d, hr, hd, Or.inl hglobal⟩
      · exact Or.inr ⟨old, d, hr, hd, Or.inr (referenced_append.mpr (Or.inl href))⟩
    · rintro (⟨hkind, old, hr⟩ | ⟨old, d, hr, hd, hor⟩)
      · obtain ⟨-, d, -, hd, -⟩ := hs.replaced id old hr
        obtain ⟨z, hz, -⟩ := h.symbol old d hd
        exact ⟨old, z, hr, hz, (hs.specification_used h hr hc hd hz).mpr (Or.inl hkind)⟩
      · obtain ⟨z, hz, -⟩ := h.symbol old d hd
        refine ⟨old, z, hr, hz, (hs.specification_used h hr hc hd hz).mpr (Or.inr ?_)⟩
        exact hor.imp_right fun href => (referenced_append.mp href).resolve_right (hlate old hr)
  obtain ⟨y', hy', -, hused⟩ := hledger.symbol id c hc
  cases hy.symm.trans hy'
  rw [hused, hs.used id c hc, hinherited]
  constructor
  · rintro ((hkind | hglobal | hloop | ⟨hkind, -⟩ | hold) | href)
    · exact Or.inl hkind
    · exact Or.inr (Or.inl hglobal)
    · exact Or.inr (Or.inr (Or.inl hloop))
    · exact Or.inl hkind
    · exact Or.inr (Or.inr (Or.inr (Or.inr hold)))
    · exact Or.inr (Or.inr (Or.inr (Or.inl href)))
  · rintro (hkind | hglobal | hloop | href | hold)
    · exact Or.inl (Or.inl hkind)
    · exact Or.inl (Or.inr (Or.inl hglobal))
    · exact Or.inl (Or.inr (Or.inr (Or.inl hloop)))
    · exact Or.inr href
    · exact Or.inl (Or.inr (Or.inr (Or.inr (Or.inr hold))))

end Succession

end Pearl.Resolution
