import Mathlib.Data.List.Nodup
import Mathlib.Data.List.Perm.Subperm
import Mathlib.Logic.Relation
import Pearl.Proofs.IncludeNesting

namespace Pearl

namespace ExpansionFault

/-- A fault as it is told outside of the macros named, the innermost of them first. -/
def outside (names : List String) (f : ExpansionFault) : ExpansionFault :=
  names.foldl (fun f name => .within name f) f

@[simp] theorem code_outside (names : List String) (f : ExpansionFault) :
    (f.outside names).code = f.code := by
  induction names generalizing f with
  | nil => rfl
  | cons name names ih => exact ih (.within name f)

end ExpansionFault

theorem LexicalFault.code_ne_macroDepth (f : LexicalFault) : f.code ≠ "macro-depth" := by
  cases f with
  | unterminatedComment | unterminatedString => decide
  | illegalCharacter c => exact show "illegal-character" ≠ "macro-depth" by decide

namespace Expansion

/-- An expansion that goes on with what has come of a text within the macros named. -/
def gain (names : List String) (e inner : Expansion) : Expansion :=
  ⟨e.lexemes ++ inner.lexemes, inner.part, e.faults ++ inner.faults.map (.outside names)⟩

theorem gain_empty (names : List String) (e : Expansion) : e.gain names ⟨[], e.part, []⟩ = e := by
  simp [gain]

theorem gain_gain (names : List String) (e inner rest : Expansion) :
    (e.gain names inner).gain names rest =
      e.gain names (rest.after inner.lexemes inner.faults) := by
  simp [gain, after]

theorem gain_inside (name : String) (names : List String) (e inner : Expansion) :
    e.gain names (inner.inside name) = e.gain (name :: names) inner := by
  simp [gain, inside, ExpansionFault.outside, Function.comp_def]

theorem reference?_eq_some {t : MacroTable} {active : List String} {l : Lexeme} {m : Macro}
    (h : reference? t active l = some m) :
    l.isWord = true ∧ t.get? (String.ofList l.text) = some m ∧ m.name ∉ active := by
  unfold reference? at h
  split at h
  · rename_i hword
    obtain ⟨hget, hactive⟩ := Option.filter_eq_some_iff.mp h
    exact ⟨hword, hget, by simpa using hactive⟩
  · cases h

/-! ### Stages of an expansion -/

/-- A macro that is being expanded and what is left of its replacement text. -/
structure Level where
  name : String
  rest : List Char
  deriving DecidableEq, Repr

/-- A stage of an expansion: the macros that are being expanded, the innermost first, and what has
come of their texts so far. -/
structure Stage where
  levels : List Level
  result : Expansion
  deriving DecidableEq, Repr

namespace Stage

def names (x : Stage) : List String := x.levels.map (·.name)

def first (part : Part) (m : Macro) : Stage := ⟨[⟨m.name, m.value.toList⟩], ⟨[], part, []⟩⟩

/-- The next stage. A text that is used up gives way to the one around it, and a reference to the
replacement text of its macro. -/
def next (t : MacroTable) (x : Stage) : Option Stage :=
  match x.levels with
  | [] => none
  | ⟨_, []⟩ :: outer => some ⟨outer, x.result⟩
  | ⟨name, c :: cs⟩ :: outer =>
    if Lexeme.isSpace c || c = '\n' then some ⟨⟨name, cs⟩ :: outer, x.result⟩
    else
      let l := Lexeme.head x.result.part c cs
      let after := ⟨name, Lexeme.tail x.result.part c cs⟩ :: outer
      match reference? t x.names l with
      | some m =>
        if x.levels.length < maxDepth then
          some ⟨⟨m.name, m.value.toList⟩ :: after, x.result⟩
        else some ⟨after, x.result.gain x.names (refused m.name x.result.part)⟩
      | none =>
        some ⟨after, x.result.gain x.names
          ⟨if l.kind.isTrivia then [] else [l], partAfter x.result.part l,
            l.fault.toList.map .lexical⟩⟩

def Step (t : MacroTable) (x x' : Stage) : Prop := x.next t = some x'

instance (t : MacroTable) (x x' : Stage) : Decidable (Step t x x') :=
  inferInstanceAs (Decidable (x.next t = some x'))

/-- What a step does to the macros that are being expanded, and what it finds. -/
theorem Step.cases {t : MacroTable} {x x' : Stage} (h : Step t x x') :
    (x'.names = x.names ∨ x'.names = x.names.tail ∨
      ∃ m ∈ t.macros, m.name ∉ x.names ∧ x.names.length < maxDepth ∧
        x'.names = m.name :: x.names) ∧
    ∃ faults, x'.result.faults = x.result.faults ++ faults ∧
      ∀ f ∈ faults, f.code = "macro-depth" →
        ∃ m ∈ t.macros, m.name ∉ x.names ∧ maxDepth ≤ x.names.length := by
  obtain ⟨levels, result⟩ := x
  have hnone : ∃ faults, result.faults = result.faults ++ faults ∧
      ∀ f ∈ faults, f.code = "macro-depth" →
        ∃ m ∈ t.macros, m.name ∉ names ⟨levels, result⟩ ∧
          maxDepth ≤ (names ⟨levels, result⟩).length := ⟨[], by simp, by simp⟩
  have hlength : (names ⟨levels, result⟩).length = levels.length := List.length_map ..
  unfold Step next at h
  dsimp only at h
  split at h
  · cases h
  · cases h
    exact ⟨.inr (.inl rfl), hnone⟩
  · split at h
    · cases h
      exact ⟨.inl rfl, hnone⟩
    · split at h
      · rename_i m hm
        obtain ⟨-, hget, hactive⟩ := reference?_eq_some hm
        have hmem := List.mem_of_find?_eq_some hget
        split at h
        · rename_i hdepth
          cases h
          exact ⟨.inr (.inr ⟨m, hmem, hactive, hlength ▸ hdepth, rfl⟩), hnone⟩
        · rename_i hdepth
          cases h
          exact ⟨.inl rfl, _, rfl, fun _ _ _ => ⟨m, hmem, hactive, by omega⟩⟩
      · cases h
        refine ⟨.inl rfl, _, rfl, ?_⟩
        intro f hf hcode
        obtain ⟨f', hf', rfl⟩ := List.mem_map.mp hf
        obtain ⟨fault, -, rfl⟩ := List.mem_map.mp hf'
        rw [ExpansionFault.code_outside] at hcode
        exact absurd hcode fault.code_ne_macroDepth

/-- The macros that are being expanded are different ones of the table, as many as may be nested at
the most; and only a table with more of them is found too deep. -/
structure IsSound (t : MacroTable) (x : Stage) : Prop where
  nodup : x.names.Nodup
  defined : ∀ name ∈ x.names, ∃ m ∈ t.macros, m.name = name
  length_le : x.names.length ≤ maxDepth
  size : ∀ f ∈ x.result.faults, f.code = "macro-depth" → 33 ≤ t.size

theorem isSound_first {t : MacroTable} {m : Macro} (hm : m ∈ t.macros) (part : Part) :
    (first part m).IsSound t := by
  refine ⟨List.nodup_singleton _, ?_, by simp [first, names, maxDepth], by simp [first]⟩
  intro name hname
  exact ⟨m, hm, (List.mem_singleton.mp hname).symm⟩

/-- Different names of a table are no more than its macros. -/
theorem length_le_size {t : MacroTable} {names : List String} (hnodup : names.Nodup)
    (hdefined : ∀ name ∈ names, ∃ m ∈ t.macros, m.name = name) : names.length ≤ t.size := by
  have hsub : names ⊆ t.macros.map (·.name) := by
    intro name hname
    exact List.mem_map.mpr (hdefined name hname)
  have hle := (List.subperm_of_subset hnodup hsub).length_le
  rwa [List.length_map] at hle

theorem IsSound.step {t : MacroTable} {x x' : Stage} (h : x.IsSound t) (hstep : Step t x x') :
    x'.IsSound t := by
  obtain ⟨hnames, faults, hfaults, hdeep⟩ := hstep.cases
  have hsize : ∀ f ∈ x'.result.faults, f.code = "macro-depth" → 33 ≤ t.size := by
    intro f hf hcode
    rw [hfaults] at hf
    rcases List.mem_append.mp hf with hf | hf
    · exact h.size f hf hcode
    · -- the macros being expanded and the one that is refused are different ones of the table
      obtain ⟨m, hm, hactive, hlength⟩ := hdeep f hf hcode
      have hle : (m.name :: x.names).length ≤ t.size := by
        refine length_le_size (List.nodup_cons.mpr ⟨hactive, h.nodup⟩) ?_
        intro name hname
        rcases List.mem_cons.mp hname with rfl | hname
        · exact ⟨m, hm, rfl⟩
        · exact h.defined name hname
      have hdepth : maxDepth = 32 := rfl
      simp only [List.length_cons] at hle
      omega
  rcases hnames with hnames | hnames | ⟨m, hm, hactive, hlength, hnames⟩
  · exact ⟨hnames ▸ h.nodup, hnames ▸ h.defined, hnames ▸ h.length_le, hsize⟩
  · refine ⟨hnames ▸ h.nodup.tail, ?_, ?_, hsize⟩
    · rw [hnames]
      exact fun name hname => h.defined name (List.mem_of_mem_tail hname)
    · rw [hnames, List.length_tail]
      exact (Nat.sub_le ..).trans h.length_le
  · refine ⟨?_, ?_, ?_, hsize⟩
    · rw [hnames]
      exact List.nodup_cons.mpr ⟨hactive, h.nodup⟩
    · rw [hnames]
      intro name hname
      rcases List.mem_cons.mp hname with rfl | hname
      · exact ⟨m, hm, rfl⟩
      · exact h.defined name hname
    · rw [hnames]
      exact hlength

theorem IsSound.steps {t : MacroTable} {x x' : Stage} (h : x.IsSound t)
    (hsteps : Relation.ReflTransGen (Step t) x x') : x'.IsSound t := by
  induction hsteps with
  | refl => exact h
  | tail _ hstep ih => exact ih.step hstep

/-! ### The end of an expansion -/

section Element

variable {t : MacroTable} {name : String} {c : Char} {cs : List Char} {outer : List Level}
  {e : Expansion}

theorem step_enter (hc : ¬(Lexeme.isSpace c || c = '\n') = true) {m : Macro}
    (hm : reference? t (name :: outer.map (·.name)) (Lexeme.head e.part c cs) = some m)
    (hdepth : outer.length + 1 < maxDepth) :
    Step t ⟨⟨name, c :: cs⟩ :: outer, e⟩
      ⟨⟨m.name, m.value.toList⟩ :: ⟨name, Lexeme.tail e.part c cs⟩ :: outer, e⟩ := by
  simp only [Step, next, names, List.map_cons, List.length_cons, if_neg hc, hm, if_pos hdepth]

theorem step_refuse (hc : ¬(Lexeme.isSpace c || c = '\n') = true) {m : Macro}
    (hm : reference? t (name :: outer.map (·.name)) (Lexeme.head e.part c cs) = some m)
    (hdepth : ¬outer.length + 1 < maxDepth) :
    Step t ⟨⟨name, c :: cs⟩ :: outer, e⟩ ⟨⟨name, Lexeme.tail e.part c cs⟩ :: outer,
      e.gain (name :: outer.map (·.name)) (refused m.name e.part)⟩ := by
  simp only [Step, next, names, List.map_cons, List.length_cons, if_neg hc, hm, if_neg hdepth]

theorem step_plain (hc : ¬(Lexeme.isSpace c || c = '\n') = true)
    (hm : reference? t (name :: outer.map (·.name)) (Lexeme.head e.part c cs) = none) :
    Step t ⟨⟨name, c :: cs⟩ :: outer, e⟩ ⟨⟨name, Lexeme.tail e.part c cs⟩ :: outer,
      e.gain (name :: outer.map (·.name))
        ⟨if (Lexeme.head e.part c cs).kind.isTrivia then [] else [Lexeme.head e.part c cs],
          partAfter e.part (Lexeme.head e.part c cs),
          (Lexeme.head e.part c cs).fault.toList.map .lexical⟩⟩ := by
  simp only [Step, next, names, List.map_cons, if_neg hc, hm]

end Element

/-- The innermost text is read to its end as it would be by itself. -/
theorem steps_ofText (t : MacroTable) (active : List String) (part : Part) (cs : List Char) :
    ∀ (name : String) (outer : List Level) (e : Expansion),
      active = name :: outer.map (·.name) → e.part = part →
      Relation.ReflTransGen (Step t) ⟨⟨name, cs⟩ :: outer, e⟩
        ⟨outer, e.gain active (ofText t active part cs)⟩ := by
  fun_induction ofText t active part cs with
  | case1 active part =>
    rintro name outer e - rfl
    rw [gain_empty]
    exact .single rfl
  | case2 active part c cs hc ih =>
    intro name outer e hactive hpart
    have hstep : Step t ⟨⟨name, c :: cs⟩ :: outer, e⟩ ⟨⟨name, cs⟩ :: outer, e⟩ := if_pos hc
    exact .head hstep (ih name outer e hactive hpart)
  | case3 active part c cs hc l hlen m hm inner ihinner ihrest =>
    rintro name outer e rfl rfl
    have hsteps : Relation.ReflTransGen (Step t) ⟨⟨name, c :: cs⟩ :: outer, e⟩
        ⟨⟨name, Lexeme.tail e.part c cs⟩ :: outer,
          e.gain (name :: outer.map (·.name)) inner⟩ := by
      unfold inner
      by_cases hdepth : (name :: outer.map (·.name)).length < maxDepth
      · rw [dif_pos hdepth, gain_inside]
        exact .head (step_enter hc hm (by simpa using hdepth)) (ihinner hdepth m.name _ e rfl rfl)
      · rw [dif_neg hdepth]
        exact .single (step_refuse hc hm (by simpa using hdepth))
    rw [← gain_gain]
    exact hsteps.trans (ihrest name outer _ rfl rfl)
  | case4 active part c cs hc l hlen hm ih =>
    rintro name outer e rfl rfl
    have hgain := gain_gain (name :: outer.map (·.name)) e
      ⟨if l.kind.isTrivia then [] else [l], partAfter e.part l, l.fault.toList.map .lexical⟩
      (ofText t (name :: outer.map (·.name)) (partAfter e.part l) (Lexeme.tail e.part c cs))
    rw [← hgain]
    exact .head (step_plain hc hm) (ih name outer _ rfl rfl)

/-- There is only one next stage, so that all ways lead to the same end. -/
theorem end_unique {t : MacroTable} {x : Stage} {e e' : Expansion}
    (h : Relation.ReflTransGen (Step t) x ⟨[], e⟩)
    (h' : Relation.ReflTransGen (Step t) x ⟨[], e'⟩) : e = e' := by
  induction h using Relation.ReflTransGen.head_induction_on with
  | refl =>
    rcases h'.cases_head with h' | ⟨x', hstep, -⟩
    · cases h'
      rfl
    · cases hstep
  | head hstep _ ih =>
    rcases h'.cases_head with h' | ⟨x', hstep', hsteps⟩
    · rw [h'] at hstep
      cases hstep
    · cases (show some _ = some _ from hstep.symm.trans hstep')
      exact ih hsteps

/-- The expansion of a macro comes to its end with its result. -/
theorem steps_ofMacro (t : MacroTable) (part : Part) (m : Macro) :
    Relation.ReflTransGen (Step t) (first part m) ⟨[], ofMacro t part m⟩ := by
  have h := steps_ofText t [m.name] part m.value.toList m.name [] ⟨[], part, []⟩ rfl rfl
  rwa [← gain_inside, gain, show ExpansionFault.outside [] = id from rfl, List.map_id] at h

/-- From every stage on all texts are read to their ends. -/
theorem exists_end (t : MacroTable) (levels : List Level) (e : Expansion) :
    ∃ e', Relation.ReflTransGen (Step t) ⟨levels, e⟩ ⟨[], e'⟩ := by
  induction levels generalizing e with
  | nil => exact ⟨e, .refl⟩
  | cons level outer ih =>
    obtain ⟨e', h⟩ := ih (e.gain _ (ofText t _ e.part level.rest))
    exact ⟨e', (steps_ofText t _ e.part level.rest level.name outer e rfl rfl).trans h⟩

/-- However macros refer to one another, no expansion goes on for ever. -/
theorem wellFounded_step (t : MacroTable) : WellFounded fun x' x => Step t x x' := by
  refine ⟨fun ⟨levels, e⟩ => ?_⟩
  obtain ⟨e', h⟩ := exists_end t levels e
  generalize Stage.mk levels e = x at h
  -- there is only one next stage, so that the way to the end is the only way
  induction h using Relation.ReflTransGen.head_induction_on with
  | refl => exact ⟨_, fun x' (h : none = some x') => by cases h⟩
  | head hstep _ ih =>
    refine ⟨_, fun x' hstep' => ?_⟩
    cases (show some _ = some _ from hstep.symm.trans hstep')
    exact ih

end Stage

end Expansion

end Pearl
