import Pearl.Proofs.LexicalLinks
import Pearl.Proofs.StatementEvents

namespace Pearl

/-! ### Names and their values -/

namespace Entries

variable {α : Type} {entries : List (String × α)}

theorem nodup_assign (h : (entries.map (·.1)).Nodup) (name : String) (value : α) :
    ((assign name value entries).map (·.1)).Nodup := by
  rw [names_assign]
  split
  · exact h
  · rename_i hfree
    exact List.nodup_append.mpr ⟨h, List.pairwise_singleton _ _, by grind⟩

/-- Names that are assigned one after the other cover those that were there. -/
theorem lookup_foldl_assign (new : List (String × α)) (hnew : (new.map (·.1)).Nodup)
    (entries : List (String × α)) (name : String) :
    (new.foldl (fun names e => assign e.1 e.2 names) entries).lookup name =
      (new.lookup name).or (entries.lookup name) := by
  induction new generalizing entries with
  | nil => simp
  | cons e new ih =>
    obtain ⟨n, v⟩ := e
    rw [List.map_cons, List.nodup_cons] at hnew
    rw [List.foldl_cons, ih hnew.2, lookup_assign, List.lookup_cons]
    by_cases hname : name = n
    · have hnone : new.lookup n = none := by
        cases hlookup : new.lookup n with
        | none => rfl
        | some v' => exact absurd (List.mem_map_of_mem (mem_of_lookup hlookup)) hnew.1
      simp [hname, hnone]
    · have hb : (name == n) = false := by simpa using hname
      simp [hname, hb]

theorem nodup_foldl_assign (new : List (String × α)) (h : (entries.map (·.1)).Nodup) :
    ((new.foldl (fun names e => assign e.1 e.2 names) entries).map (·.1)).Nodup := by
  induction new generalizing entries with
  | nil => exact h
  | cons e new ih => exact ih (nodup_assign h e.1 e.2)

end Entries

namespace Arena

variable {a : Arena}

/-- The names with a meaning are those that are found, with the same meaning. -/
theorem lookup_visible (h : a.Distinct) (name : String) :
    a.visible.lookup name = a.lookup name := by
  unfold visible lookup
  induction a.stack with
  | nil => rfl
  | cons i outer ih =>
    rw [List.reverse_cons, List.foldl_append, List.foldl_cons, List.foldl_nil,
      Entries.lookup_foldl_assign _ (h i), ih, List.findSome?_cons]
    change ((a.scope i).get? name).or _ = _
    cases (a.scope i).get? name with
    | none => rfl
    | some id => rfl

theorem nodup_visible (a : Arena) : (a.visible.map (·.1)).Nodup := by
  unfold visible
  induction a.stack with
  | nil => exact .nil
  | cons i outer ih =>
    rw [List.reverse_cons, List.foldl_append]
    exact Entries.nodup_foldl_assign _ ih

end Arena

namespace Resolution

variable {s : State} {name : String} {id : Nat} {y : Symbol}

/-! ### What is visible -/

theorem State.nodup_visible (s : State) : (s.visible.map (·.1)).Nodup := by
  have hnames : ((s.arena.visible.filterMap fun e => (s.symbol? e.2).map (e.1, ·)).map
      (·.1)).Nodup := by
    refine List.pairwise_map.mpr (List.Pairwise.filterMap _ ?_
      (List.pairwise_map.mp s.arena.nodup_visible))
    intro e e' hne b hb b' hb'
    obtain ⟨y, -, rfl⟩ := Option.map_eq_some_iff.mp hb
    obtain ⟨y', -, rfl⟩ := Option.map_eq_some_iff.mp hb'
    exact hne
  unfold State.visible
  dsimp only
  split
  · rename_i o _
    split
    · exact hnames
    · rename_i hfree
      rw [List.map_append]
      refine List.nodup_append.mpr ⟨hnames, List.pairwise_singleton _ _, ?_⟩
      intro other hother last hlast heq
      rw [List.mem_singleton.mp hlast] at heq
      obtain ⟨⟨n, y⟩, hmem, rfl⟩ := List.mem_map.mp hother
      cases heq
      exact hfree (by rw [Entries.lookup_of_mem hnames hmem]; rfl)
  · exact hnames

/-- A name that is found is visible, with the symbol it stands for. -/
theorem State.mem_visible (h : s.arena.Distinct) (hid : s.arena.lookup name = some id)
    (hy : s.symbol? id = some y) : (name, y) ∈ s.visible := by
  have hmem : (name, y) ∈ s.arena.visible.filterMap fun e => (s.symbol? e.2).map (e.1, ·) := by
    apply List.mem_filterMap.mpr
    rw [← Arena.lookup_visible h] at hid
    exact ⟨(name, id), Entries.mem_of_lookup hid, by rw [hy]; rfl⟩
  unfold State.visible
  dsimp only
  split
  · split
    · exact hmem
    · exact List.mem_append_left _ hmem
  · exact hmem

theorem lookup_byName {names : List (String × Symbol)} (hdistinct : (names.map (·.1)).Nodup)
    (h : (name, y) ∈ names) : (byName names).lookup name = some y := by
  have hperm : (byName names).Perm names := List.mergeSort_perm names _
  apply Entries.lookup_of_mem
  · exact (hperm.map _).nodup_iff.mpr hdistinct
  · exact hperm.mem_iff.mpr h

/-! ### Symbols in the course of a run -/

theorem State.exists_becomes (hstep : s.skeleton.InStep) (hy : s.symbol? id = some y)
    (events : List Event) :
    ∃ y', (events.foldl State.step s).symbol? id = some y' ∧ y.Becomes y' := by
  induction events generalizing s y with
  | nil => exact ⟨y, hy, .refl y⟩
  | cons e events ih =>
    obtain ⟨new, uses, heffect⟩ := State.step_effect hstep e
    obtain ⟨y', hy', hbecomes, -⟩ := heffect.kept id y hy
    obtain ⟨y'', hy'', hbecomes'⟩ := ih (hstep.moves (State.step_moves hstep e).1) hy'
    exact ⟨y'', hy'', hbecomes.trans hbecomes'⟩

theorem State.exists_becomes_finish (hy : s.symbol? id = some y) (unused : Bool) :
    ∃ y', (s.finish unused).symbol? id = some y' ∧ y.Becomes y' := by
  obtain ⟨uses, hlands, -, -⟩ := State.grows_foldl_landOutside s.jumps s
  obtain ⟨y', hy', hbecomes, -⟩ := hlands.kept id y hy
  obtain ⟨y'', hy'', hbecomes', -⟩ := (State.grows_finish s unused).kept id y' hy'
  exact ⟨y'', hy'', hbecomes.trans hbecomes'⟩

theorem State.lookup_refer (s : State) (name : Occurrence) (write call : Bool) :
    (s.refer name write call).1.arena.lookup = s.arena.lookup := by
  unfold refer
  split
  · dsimp only
    split <;> rfl
  · split <;> rfl

/-- An action does not change what names stand for. -/
theorem State.lookup_step_action {e : Event} (he : e.isAction = true) (s : State) :
    (s.step e).arena.lookup = s.arena.lookup := by
  cases e with
  | flaw => rfl
  | refer name write call => exact s.lookup_refer name write call
  | operate keyword kind name =>
    rw [← s.lookup_refer name false (keyword = "CALL"), step, operate]
    dsimp only
    split
    · split <;> rfl
    · rfl
  | jump target =>
    rw [step, jump]
    split
    · rfl
    · split <;> rfl
  | _ => cases he

theorem State.lookup_foldl_actions {events : List Event} (h : Event.Only Event.isAction events)
    (s : State) : (events.foldl State.step s).arena.lookup = s.arena.lookup := by
  induction events generalizing s with
  | nil => rfl
  | cons e events ih =>
    have hrest : Event.Only Event.isAction events :=
      ⟨fun e' he' => h.of_mem e' (List.mem_cons_of_mem e he')⟩
    rw [List.foldl_cons, ih hrest, lookup_step_action (h.of_mem e List.mem_cons_self)]

theorem State.Sees.lookup_eq (h : s.Sees name id) : s.arena.lookup name = some id := by
  obtain ⟨inner, scope, outer, hstack, -, hscope, hinner⟩ := h
  exact List.findSome?_eq_some_iff.mpr ⟨inner, scope, outer, hstack, hscope, hinner⟩

/-- A name that is found stands for a symbol. -/
theorem History.exists_symbol {events : List Event} {made : List Creation} {used : List Use}
    (h : History events made used) (hid : (ofEvents events).arena.lookup name = some id) :
    ∃ y, (ofEvents events).symbol? id = some y := by
  obtain ⟨_, i, _, _, _, hi, _⟩ := State.sees_of_lookup h.partition hid
  obtain ⟨c, hc, -, -⟩ := h.entry i name id hi
  obtain ⟨y, hy, -⟩ := h.symbol id c hc
  exact ⟨y, hy⟩

/-- A name that is resolved behind the words in front of it is visible behind them, up to actions,
and stands for a symbol of the same kind that is declared at the same place. -/
theorem exists_visible {before more after : List Event} (hmore : Event.Only Event.isAction more)
    (hid : (ofEvents before).arena.lookup name = some id) {unused : Bool}
    (hy : ((ofEvents (before ++ after)).finish unused).symbol? id = some y) :
    ∃ y', (byName (ofEvents (before ++ more)).visible).lookup name = some y' ∧
      y'.kind = y.kind ∧ y'.declaredAt = y.declaredAt := by
  obtain ⟨made, used, h⟩ := exists_history before
  obtain ⟨z, hz⟩ := h.exists_symbol hid
  have hrun : ∀ events, ofEvents (before ++ events) = events.foldl State.step (ofEvents before) :=
    fun events => List.foldl_append
  obtain ⟨y₁, hy₁, hbecomes₁⟩ := State.exists_becomes h.inStep hz after
  rw [← hrun] at hy₁
  obtain ⟨y₂, hy₂, hbecomes₂⟩ := State.exists_becomes_finish hy₁ unused
  cases hy.symm.trans hy₂
  obtain ⟨y', hy', hbecomes'⟩ := State.exists_becomes h.inStep hz more
  rw [← hrun] at hy'
  have hlookup : (ofEvents (before ++ more)).arena.lookup name = some id := by
    rw [hrun, State.lookup_foldl_actions hmore, hid]
  obtain ⟨made', used', h'⟩ := exists_history (before ++ more)
  have hmem := State.mem_visible h'.distinct hlookup hy'
  refine ⟨y', lookup_byName (State.nodup_visible _) hmem, ?_, ?_⟩
  · rw [hbecomes'.kind, hbecomes₂.kind, hbecomes₁.kind]
  · rw [hbecomes'.declaredAt, hbecomes₂.declaredAt, hbecomes₁.declaredAt]

end Resolution

end Pearl
