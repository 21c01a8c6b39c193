import Pearl.Proofs.DirectiveSpelling
import Pearl.Proofs.QuotedArguments
import Pearl.Settings

namespace Pearl

open Text

/-! ### Names that directives accept -/

namespace Directive

theorem isName_of_macroName? {arg rest : List Char} {name : String}
    (h : macroName? arg = some (name, rest)) : isName name.toList = true := by
  unfold macroName? at h
  split at h
  · rename_i c cs
    split at h
    · rename_i hc
      cases h
      have hword := isWordChar_of_isAlpha hc
      simp [splitWord, hword, isName, hc]
    · cases h
  · cases h

theorem macroName?_of_definition? {arg : List Char} {name value : String}
    (h : definition? arg = some (name, value)) : ∃ rest, macroName? arg = some (name, rest) := by
  unfold definition? at h
  split at h
  · rename_i hname
    cases h
    exact ⟨_, hname⟩
  · rename_i hname
    dsimp only at h
    split at h
    · cases h
      exact ⟨_, hname⟩
    · cases h
  · cases h

/-- A line that defines nothing but a name. -/
theorem definition?_of_isName {name : String} (h : isName name.toList = true) :
    definition? name.toList = some (name, "") := by
  have hname := @macroName?_append name h [] (by simp)
  rw [List.append_nil] at hname
  rw [definition?, hname]

/-- Directives define the names that are an ASCII letter with word characters behind it. -/
theorem exists_define_iff (name : String) :
    (∃ line value, parse line = .ok (.define name value)) ↔ isName name.toList = true := by
  constructor
  · rintro ⟨line, value, h⟩
    obtain ⟨d, hd, heq⟩ := Option.map_eq_some_iff.mp (arguments?_of_parse h)
    obtain ⟨arg, -, harg⟩ := Option.bind_eq_some_iff.mp hd
    cases heq
    obtain ⟨rest, hname⟩ := macroName?_of_definition? harg
    exact isName_of_macroName? hname
  · intro h
    let l : Layout :=
      ⟨[], [' '], [], [], by simp, List.all_eq_true.mp (by decide), by simp, by simp, by simp⟩
    refine ⟨l.line .define name.toList, "", parse_line l .define (isArgument_of_isName h) ?_⟩
    intro line hline
    rw [arguments?, hline, Option.bind_some, definition?_of_isName h]
    rfl

end Directive

/-! ### Names that the settings accept -/

namespace Settings

theorem isMacroName_of_definition? {item name value : String}
    (h : definition? item = some (name, value)) : isMacroName name.toList = true := by
  unfold definition? at h
  dsimp only at h
  split at h
  · rename_i hname
    cases h
    rwa [String.toList_ofList]
  · cases h

/-- What each step keeps is kept by a fold that comes to its end. -/
theorem foldlM_preserves {α β ε : Type} {step : β → α → Except ε β} (P : β → Prop)
    (hstep : ∀ b a b', P b → step b a = .ok b' → P b') (items : List α) {b b' : β} (h : P b)
    (hfold : items.foldlM step b = .ok b') : P b' := by
  induction items generalizing b with
  | nil =>
    cases hfold
    exact h
  | cons a items ih =>
    rw [List.foldlM_cons] at hfold
    cases hnext : step b a with
    | error e =>
      rw [hnext] at hfold
      cases hfold
    | ok next =>
      rw [hnext] at hfold
      exact ih (hstep b a next h hnext) hfold

theorem isMacroName_of_definitions {items : List String} {values : List (String × String)}
    (h : definitions items = .ok values) :
    ∀ name ∈ values.map (·.1), isMacroName name.toList = true := by
  refine foldlM_preserves (fun values => ∀ name ∈ values.map (·.1), isMacroName name.toList = true)
    ?_ items (by simp) h
  intro values item values' hvalues hitem
  split at hitem
  · rename_i name value hdefinition
    cases hitem
    intro other hother
    rw [Entries.names_assign] at hother
    split at hother
    · exact hvalues other hother
    · rcases List.mem_append.mp hother with hother | hother
      · exact hvalues other hother
      · rw [List.mem_singleton.mp hother]
        exact isMacroName_of_definition? hdefinition
  · cases hitem

theorem isWordChar_of_isMacroName {cs : List Char} (h : isMacroName cs = true) :
    ∀ c ∈ cs, isWordChar c = true := by
  cases cs with
  | nil => cases h
  | cons c cs =>
    rw [isMacroName, Bool.and_eq_true, List.all_eq_true] at h
    exact h.2

/-- A name on its own is a definition. -/
theorem definition?_of_isMacroName {name : String} (h : isMacroName name.toList = true) :
    definition? name = some (name, "") := by
  have hword := isWordChar_of_isMacroName h
  have hblank : ∀ c ∈ name.toList, isBlank c = false :=
    fun c hc => isBlank_of_isWordChar (hword c hc)
  have hne : ∀ c ∈ name.toList, decide (c ≠ '=') = true := by
    intro c hc
    apply decide_eq_true
    rintro rfl
    exact absurd (hword _ hc) (by decide +kernel)
  have hsplit : splitFirst '=' name.toList = (name.toList, none) := by
    rw [splitFirst, List.dropWhile_eq_nil_iff.mpr hne, List.takeWhile_eq_self_iff.mpr hne]
  have htrim : trim name.toList = name.toList := by
    rw [trim, trimStart_of_head? fun c hc => hblank c (List.mem_of_mem_head? hc),
      trimEnd_of_getLast? fun c hc => hblank c (List.mem_of_getLast? hc)]
  rw [definition?, hsplit]
  simp only [htrim, h, if_true, String.ofList_toList]
  rfl

/-- The settings define the names that are a letter of any script with word characters behind it. -/
theorem exists_definitions_iff (name : String) :
    (∃ items values, definitions items = .ok values ∧ name ∈ values.map (·.1)) ↔
      isMacroName name.toList = true := by
  constructor
  · rintro ⟨items, values, h, hmem⟩
    exact isMacroName_of_definitions h name hmem
  · intro h
    refine ⟨[name], [(name, "")], ?_, by simp⟩
    simp only [definitions, List.foldlM_cons, definition?_of_isMacroName h]
    rfl

end Settings

/-- A name that a macro can be given, by a directive or by the settings. -/
def Definable (name : String) : Prop :=
  (∃ line value, Directive.parse line = .ok (.define name value)) ∨
    ∃ items values, Settings.definitions items = .ok values ∧ name ∈ values.map (·.1)

theorem Definable.isMacroName {name : String} (h : Definable name) :
    Settings.isMacroName name.toList = true := by
  rcases h with h | h
  · have hname := (Directive.exists_define_iff name).mp h
    have hword := Directive.isWordChar_of_isName hname
    cases hcs : name.toList with
    | nil =>
      rw [hcs] at hname
      cases hname
    | cons c cs =>
      rw [hcs] at hname hword
      rw [Directive.isName, Bool.and_eq_true] at hname
      rw [Settings.isMacroName, isLetter, hname.1, Bool.true_or, Bool.true_and]
      exact List.all_eq_true.mpr hword
  · exact (Settings.exists_definitions_iff name).mp h

/-! ### Names that the scanner finds -/

namespace Lexeme

/-- The only letters among the characters of names are those of ASCII. -/
theorem isAlpha_of_isLetter {c : Char} (hname : isNameChar c = true) (hletter : isLetter c = true) :
    c.isAlpha = true := by
  cases halpha : c.isAlpha with
  | true => rfl
  | false =>
    have hother : c.isDigit = true ∨ c = '_' := by
      simpa [isNameChar, Char.isAlphanum, halpha] using hname
    rw [isLetter, halpha, Bool.false_or] at hletter
    rcases hother with hdigit | rfl
    · rw [inRanges_eq_false (by decide +kernel) (inRanges_of_isDigit hdigit)] at hletter
      cases hletter
    · exact absurd hletter (by decide +kernel)

/-- A word of the scanner is made of ASCII letters, digits and underscores. -/
theorem isNameChar_of_isWord {part : Part} {c : Char} {cs : List Char}
    (h : (head part c cs).isWord = true) :
    ∀ d ∈ (head part c cs).text, isNameChar d = true := by
  have hc : c.isAlpha = true := h
  have htext : (head part c cs).text = c :: cs.takeWhile isNameChar := by
    change c :: cs.take (extent part c cs).extra = _
    rw [extra_of_isAlpha hc, run, ← List.prefix_iff_eq_take.mp (List.takeWhile_prefix _)]
  rw [htext]
  exact List.forall_mem_cons.mpr
    ⟨isNameChar_of_isAlpha hc, fun d hd => List.mem_takeWhile_imp hd⟩

/-- A name of such characters is one word. -/
theorem head_of_isNameChar {c : Char} (hc : c.isAlpha = true) {cs : List Char}
    (hcs : ∀ d ∈ cs, isNameChar d = true) (part : Part) :
    (head part c cs).text = c :: cs ∧ tail part c cs = [] := by
  have hextra : (extent part c cs).extra = cs.length := by
    rw [extra_of_isAlpha hc, run, List.takeWhile_eq_self_iff.mpr hcs]
  constructor
  · change c :: cs.take (extent part c cs).extra = _
    rw [hextra, List.take_length]
  · rw [tail, hextra, List.drop_length]

end Lexeme

namespace Scan

variable {σ : Setting} {src : Source} {nested : Option Reader} {m : Macro}

/-- A macro whose name has another character is referred to by no element. -/
theorem reference?_eq_none {c : Char} (hc : c ∈ m.name.toList)
    (hother : Lexeme.isNameChar c = false) (part : Part) (d : Char) (ds : List Char) :
    Expansion.reference? ⟨[m]⟩ [] (Lexeme.head part d ds) = none := by
  cases href : Expansion.reference? ⟨[m]⟩ [] (Lexeme.head part d ds) with
  | none => rfl
  | some m' =>
    obtain ⟨hword, hget, -⟩ := Expansion.reference?_eq_some href
    have hm' : m' = m := by simpa using List.mem_of_find?_eq_some hget
    have hname := MacroTable.name_of_get? hget
    rw [hm'] at hname
    rw [hname, String.toList_ofList] at hc
    rw [Lexeme.isNameChar_of_isWord hword c hc] at hother
    cases hother

/-- Only elements are read from a text of word characters in which all lines count. -/
theorem Next.eq_element {directives : Bool} {s : State} {text rest : List Char} {p : Piece}
    (h : Next directives s text p rest) (htext : ∀ c ∈ text, isWordChar c = true)
    (hactive : s.conditions.active = true) :
    ∃ c cs, text = c :: cs ∧ p = .element (Lexeme.head s.part c cs) ∧
      rest = Lexeme.tail s.part c cs := by
  have hnone : ∀ c ∈ text, c ≠ '\n' ∧ c ≠ '#' ∧ Lexeme.isSpace c = false := by
    intro c hc
    have hword := htext c hc
    refine ⟨?_, ?_, ?_⟩
    · rintro rfl
      exact absurd hword (by decide +kernel)
    · rintro rfl
      exact absurd hword (by decide +kernel)
    · by_contra hspace
      simp only [Bool.not_eq_false, Lexeme.isSpace, Bool.or_eq_true, decide_eq_true_eq] at hspace
      rcases hspace with (((rfl | rfl) | rfl) | rfl) | rfl <;>
        exact absurd hword (by decide +kernel)
  cases h with
  | newline => exact absurd rfl (hnone _ List.mem_cons_self).1
  | space rest hc => exact absurd hc (by simp [(hnone _ List.mem_cons_self).2.2])
  | directive => exact absurd rfl (hnone _ List.mem_cons_self).2.1
  | inactive hn hc hs hd ha => exact absurd hactive (by simp [ha])
  | @element c cs => exact ⟨c, cs, rfl, rfl, rfl⟩

/-- In the name of a macro that has another character, nothing refers to the macro. -/
theorem run_unreferenced {c : Char} (hc : c ∈ m.name.toList) (hother : Lexeme.isNameChar c = false)
    (s : State) (text : List Char) (htext : ∀ d ∈ text, isWordChar d = true)
    (hmacros : s.macros = ⟨[m]⟩) (hactive : s.conditions.active = true)
    (hs : ∀ t ∈ s.tokens, t.kind ≠ .reference) :
    ∀ t ∈ (run σ src nested s text).tokens, t.kind ≠ .reference := by
  induction s, text using run_induction σ src nested with
  | nil s =>
    rw [run_nil]
    exact hs
  | next s text p rest hnext ih =>
    rw [run_of_next σ src nested hnext]
    -- what is left stays a text of word characters, and no element of it is a reference
    obtain ⟨d, ds, rfl, rfl, rfl⟩ := hnext.eq_element htext hactive
    have htake : s.take σ src nested (.element (Lexeme.head s.part d ds)) =
        s.plain src.uri (Lexeme.head s.part d ds) := by
      change s.element src.uri _ = _
      rw [State.element, hmacros, reference?_eq_none hc hother]
    have hplain := State.agrees_plain s src.uri (Lexeme.head s.part d ds)
    rw [htake] at ih ⊢
    refine ih ?_ ?_ ?_ ?_
    · intro e he
      exact htext e (List.mem_cons_of_mem d (List.mem_of_mem_drop he))
    · rw [hplain.macros]
      exact hmacros
    · rw [State.conditions_plain]
      exact hactive
    · rw [hplain.tokens]
      intro t ht
      rcases Array.mem_push.mp ht with ht | rfl
      · exact hs t ht
      · intro hkind
        have helement := isElement_head s.part d ds
        rw [show (Lexeme.head s.part d ds).kind = .reference from hkind] at helement
        cases helement

/-- The name of a macro in such characters is read as one reference to it. -/
theorem run_name {name : String} (hname : Settings.isMacroName name.toList = true)
    (hchars : ∀ c ∈ name.toList, Lexeme.isNameChar c = true) {s : State} (hm : m.name = name)
    (hmacros : s.macros = ⟨[m]⟩) (hactive : s.conditions.active = true) :
    run σ src nested s name.toList = s.expand src.uri m name.toList := by
  cases hcs : name.toList with
  | nil =>
    rw [hcs] at hname
    cases hname
  | cons c cs =>
    rw [hcs] at hname hchars
    rw [Settings.isMacroName, Bool.and_eq_true] at hname
    obtain ⟨hfirst, hrest⟩ := List.forall_mem_cons.mp hchars
    -- the name starts with a letter, and the scanner knows no letter beyond ASCII
    have halpha := Lexeme.isAlpha_of_isLetter hfirst hname.1
    obtain ⟨htext, htail⟩ := Lexeme.head_of_isNameChar halpha hrest s.part
    obtain ⟨p, rest, hnext⟩ := exists_next σ.directives s c cs
    obtain ⟨c', cs', heq, rfl, rfl⟩ := hnext.eq_element (List.all_eq_true.mp hname.2) hactive
    cases heq
    have hreference : Expansion.reference? s.macros [] (Lexeme.head s.part c cs) = some m := by
      have hword : (Lexeme.head s.part c cs).isWord = true := halpha
      have hget : s.macros.get? (String.ofList (c :: cs)) = some m := by
        rw [← hcs, String.ofList_toList, hmacros]
        simp [MacroTable.get?, hm]
      rw [Expansion.reference?, if_pos hword, htext, hget]
      rfl
    rw [run_of_next σ src nested hnext, htail, run_nil]
    change s.element src.uri _ = _
    rw [State.element, hreference, htext]

def wholeReference (m : Macro) (uri : String) : Token :=
  { kind := .reference, text := m.name, uri, start := .zero, length := m.name.length
    expanded := some m }

/-- A macro can be referred to by its name if and only if the name is made of ASCII letters, digits
and underscores. Any other name that can be defined is never read as a reference, not even by
itself. -/
theorem definable_referenced_iff {name : String} (h : Definable name) (value : String)
    (place : Option Location) (σ : Setting) (n : Nat) (src : Source) (cache : IncludeCache)
    (part : Part) :
    let m : Macro := ⟨name, value, place⟩
    let s := text σ n src name.toList { macros := ⟨[m]⟩, cache, part }
    (wholeReference m src.uri ∈ s.tokens ↔ ∀ c ∈ name.toList, Lexeme.isNameChar c = true) ∧
      ((∃ c ∈ name.toList, Lexeme.isNameChar c = false) → ∀ t ∈ s.tokens, t.kind ≠ .reference) := by
  intro m s
  have hmacro := h.isMacroName
  have htokens : s.tokens = (run σ src (reader? σ n) { macros := ⟨[m]⟩, cache, part }
      name.toList).tokens := by
    rw [show s = _ from text_eq_run σ n src _ _]
    exact (State.agrees_finish _ _).tokens
  have hnever : (∃ c ∈ name.toList, Lexeme.isNameChar c = false) →
      ∀ t ∈ s.tokens, t.kind ≠ .reference := by
    rintro ⟨c, hc, hother⟩
    rw [htokens]
    exact run_unreferenced (m := m) hc hother _ _ (Settings.isWordChar_of_isMacroName hmacro) rfl
      rfl (by simp)
  refine ⟨⟨?_, ?_⟩, hnever⟩
  · intro hmem c hc
    by_contra hother
    exact hnever ⟨c, hc, by simpa using hother⟩ _ hmem rfl
  · intro hchars
    rw [htokens, run_name hmacro hchars (m := m) rfl rfl rfl]
    have hmarker : State.markerHere { macros := ⟨[m]⟩, cache, part } src.uri m name.toList =
        wholeReference m src.uri := by
      simp [State.markerHere, State.tokenHere, wholeReference, m, String.length_toList]
    refine Array.mem_append.mpr (.inl (Array.mem_push.mpr (.inr ?_)))
    exact hmarker.symm

/-- A keyword can be defined, and it is then read as a reference. -/
theorem definable_referenced_iff_keyword :
    Definable "IF" ∧
      wholeReference ⟨"IF", "A", none⟩ "<input>" ∈
        (text { files := { cwd := Path.ofString "/ws" } } 1 ⟨"<input>", none, []⟩ "IF".toList
          { macros := ⟨[⟨"IF", "A", none⟩]⟩, cache := {}, part := .problem }).tokens := by
  have h : Definable "IF" := .inl ((Directive.exists_define_iff _).mpr (by decide +kernel))
  exact ⟨h, (definable_referenced_iff h "A" none _ _ _ _ _).1.mpr (List.all_eq_true.mp (by decide))⟩

/-- Directives and settings accept a name in which the scanner finds no reference. -/
theorem definable_not_referenced :
    (∃ value, Directive.parse "#define Xä 1".toList = .ok (.define "Xä" value)) ∧
      Settings.definitions ["Xä=1"] = .ok [("Xä", "1")] ∧
      ∀ t ∈ (text { files := { cwd := Path.ofString "/ws" } } 1 ⟨"<input>", none, []⟩ "Xä".toList
          { macros := ⟨[⟨"Xä", "1", none⟩]⟩, cache := {}, part := .problem }).tokens,
        t.kind ≠ .reference := by
  refine ⟨⟨"1", by decide +kernel⟩, by decide +kernel, by decide +kernel⟩

end Scan

end Pearl
