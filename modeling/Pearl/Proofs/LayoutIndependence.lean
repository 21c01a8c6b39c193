import Mathlib.Data.List.Forall2
import Pearl.Analysis
import Pearl.Proofs.FindingPlaces

namespace Pearl

/-! ### Tokens without their layout -/

/-- What is left of a token without its layout. -/
def Token.spelling (t : Token) : TokenKind × String := (t.kind, t.text)

/-- The tokens that count have the same spellings, one by one. Where they stand, and what stands
between them, may differ. -/
def SameSpellings (tokens tokens' : List Token) : Prop :=
  (Word.significant tokens).map Token.spelling = (Word.significant tokens').map Token.spelling

instance (tokens tokens' : List Token) : Decidable (SameSpellings tokens tokens') :=
  inferInstanceAs (Decidable (_ = _))

variable {tokens tokens' : List Token}

theorem SameSpellings.length_eq (h : SameSpellings tokens tokens') :
    (Word.significant tokens).length = (Word.significant tokens').length := by
  have hlength := congrArg List.length h
  simpa only [List.length_map] using hlength

namespace Word

/-- Words are made of spellings only. -/
theorem ofTokens_eq (tokens : List Token) :
    ofTokens tokens =
      (tokens.map Token.spelling).zipIdx.map fun e => ⟨e.1.1, e.1.2, e.2⟩ := by
  rw [List.zipIdx_map, List.map_map]
  rfl

theorem place_lt_of_mem_ofTokens {w : Word} (h : w ∈ ofTokens tokens) :
    w.place < tokens.length := by
  obtain ⟨e, he, rfl⟩ := List.mem_map.mp h
  exact List.snd_lt_of_mem_zipIdx he

end Word

theorem SameSpellings.ofTokens_eq (h : SameSpellings tokens tokens') :
    Word.ofTokens (Word.significant tokens) = Word.ofTokens (Word.significant tokens') := by
  rw [Word.ofTokens_eq, Word.ofTokens_eq, h]

/-! ### Findings -/

/-- The finding covers exactly the token. -/
structure Diagnostic.IsAt (d : Diagnostic) (t : Token) : Prop where
  uri : d.uri = t.uri
  line : d.line = t.start.line
  column : d.column = t.start.column
  endLine : d.endLine = t.start.line
  endColumn : d.endColumn = t.start.column + max t.length 1

def locationText (counted : List Token) (place : Nat) : String :=
  ((counted[place]?).bind (·.location.render.toOption)).getD ""

/-- Two findings tell the same of the tokens at the same place. Only where a name has been declared
first is told in the terms of each list. -/
structure SameFinding (counted counted' : List Token) (d d' : Diagnostic) : Prop where
  severity : d.severity = d'.severity
  code : d.code = d'.code
  unnecessary : d.unnecessary = d'.unnecessary
  message : d.message = d'.message ∨ ∃ name first,
    d.message = (Cause.duplicate name first).message (locationText counted) ∧
    d'.message = (Cause.duplicate name first).message (locationText counted')
  place : ∃ (i : Nat) (t t' : Token), counted[i]? = some t ∧ counted'[i]? = some t' ∧
    d.IsAt t ∧ d'.IsAt t'

variable {counted counted' : List Token}

/-- The wording of a cause depends on places only for a name that is declared twice. -/
theorem Cause.message_cases (cause : Cause) (location location' : Nat → String) :
    cause.message location = cause.message location' ∨
      ∃ name first, cause = .duplicate name first := by
  cases cause with
  | duplicate name first => exact Or.inr ⟨name, first, rfl⟩
  | _ => exact Or.inl rfl

theorem Finding.toDiagnostic?_of_lt (f : Finding) (hplace : f.place < counted.length) :
    f.toDiagnostic? counted.toArray =
      some { Diagnostic.atToken f.cause.severity f.cause.code
          (f.cause.message (locationText counted)) counted[f.place] with
        unnecessary := f.cause.isUnnecessary } := by
  simp only [toDiagnostic?, List.getElem?_toArray, List.getElem?_eq_getElem hplace]
  rfl

/-- A finding in range is told of both lists. -/
theorem Finding.exists_sameFinding (f : Finding) (hplace : f.place < counted.length)
    (hplace' : f.place < counted'.length) :
    ∃ d d', f.toDiagnostic? counted.toArray = some d ∧
      f.toDiagnostic? counted'.toArray = some d' ∧ SameFinding counted counted' d d' := by
  have htoken := List.getElem?_eq_getElem hplace
  have htoken' := List.getElem?_eq_getElem hplace'
  refine ⟨_, _, f.toDiagnostic?_of_lt hplace, f.toDiagnostic?_of_lt hplace', rfl, rfl, rfl, ?_,
    f.place, _, _, htoken, htoken', ⟨rfl, rfl, rfl, rfl, rfl⟩, ⟨rfl, rfl, rfl, rfl, rfl⟩⟩
  rcases f.cause.message_cases (locationText counted) (locationText counted') with
    hsame | ⟨name, first, hcause⟩
  · exact Or.inl hsame
  · rw [hcause]
    exact Or.inr ⟨name, first, rfl, rfl⟩

/-- What is told of every element, is told of all of them in order. -/
theorem forall₂_filterMap {α β : Type} {f g : α → Option β} {R : β → β → Prop} {xs : List α}
    (h : ∀ x ∈ xs, ∃ a b, f x = some a ∧ g x = some b ∧ R a b) :
    (xs.filterMap f).length = xs.length ∧ List.Forall₂ R (xs.filterMap f) (xs.filterMap g) := by
  induction xs with
  | nil => exact ⟨rfl, .nil⟩
  | cons x xs ih =>
    obtain ⟨a, b, ha, hb, hab⟩ := h x List.mem_cons_self
    obtain ⟨hlength, hrest⟩ := ih fun x' hx' => h x' (List.mem_cons_of_mem x hx')
    rw [List.filterMap_cons_some ha, List.filterMap_cons_some hb]
    exact ⟨by rw [List.length_cons, List.length_cons, hlength], .cons hab hrest⟩

/-! ### Links -/

namespace LinkedToken

/-- The tokens that count are numbered, and linked by their numbers. -/
theorem filter_attach (definitions : Array (Option Nat)) (builtins : Array (Option Builtin))
    (place : Nat) (tokens : List Token) :
    (attach definitions builtins place tokens).filter (·.token.kind.isSignificant) =
      ((Word.significant tokens).zipIdx place).map fun e =>
        ⟨e.1, some e.2, definitions.getD e.2 none, builtins.getD e.2 none⟩ := by
  induction tokens generalizing place with
  | nil => rfl
  | cons t rest ih =>
    rw [attach]
    split
    · rename_i ht
      simp only [Word.significant, List.filter_cons, ht, if_true, List.zipIdx_cons, List.map_cons]
      rw [ih, Word.significant]
    · rename_i ht
      simp only [Word.significant, List.filter_cons, ht, if_false, Bool.false_eq_true]
      rw [ih, Word.significant]

end LinkedToken

/-- Two linked tokens have the same place among those that count, and stand for the same: for
symbols that are declared at the same place, or for the same predefined procedure. -/
structure SameLinks (counted counted' : List Token) (s s' : Resolution.State)
    (l l' : LinkedToken) : Prop where
  place : ∃ i : Nat, l.place = some i ∧ l'.place = some i ∧
    counted[i]? = some l.token ∧ counted'[i]? = some l'.token
  builtin : l.builtin = l'.builtin
  symbol : l.definition.bind s.symbol? = l'.definition.bind s'.symbol?
  site : ∀ y, l.definition.bind s.symbol? = some y →
    ∃ t t' : Token, counted[y.declaredAt]? = some t ∧ counted'[y.declaredAt]? = some t'

namespace Resolution

/-- Everything in a state stands at one of the tokens that count. -/
theorem within_ofTokens (counted : List Token) (unused : Bool) :
    (program (Word.ofTokens counted) unused).Within (· < counted.length) :=
  within_program (fun _ hw => Word.place_lt_of_mem_ofTokens hw) unused

theorem State.Within.forall₂_links {s : State}
    (hs : s.Within (· < (Word.significant tokens).length))
    (hlength : (Word.significant tokens).length = (Word.significant tokens').length) :
    List.Forall₂ (SameLinks (Word.significant tokens) (Word.significant tokens') s s)
      ((LinkedToken.ofResolution s tokens).filter (·.token.kind.isSignificant))
      ((LinkedToken.ofResolution s tokens').filter (·.token.kind.isSignificant)) := by
  rw [LinkedToken.ofResolution, LinkedToken.ofResolution, LinkedToken.filter_attach,
    LinkedToken.filter_attach]
  apply List.forall₂_iff_get.mpr
  refine ⟨by simp [hlength], ?_⟩
  intro i hi hi'
  simp only [List.length_map, List.length_zipIdx] at hi hi'
  simp only [List.get_eq_getElem, List.getElem_map, List.getElem_zipIdx, Nat.zero_add, hlength]
  refine ⟨⟨i, rfl, rfl, List.getElem?_eq_getElem hi, List.getElem?_eq_getElem hi'⟩, rfl, rfl, ?_⟩
  intro y hy
  obtain ⟨id, -, hid⟩ := Option.bind_eq_some_iff.mp hy
  have hlt := hs.symbols id y hid
  exact ⟨_, _, List.getElem?_eq_getElem hlt, List.getElem?_eq_getElem (hlength ▸ hlt)⟩

/-- The analysis of a program does not depend on its layout. Let two lists of tokens have the same
spellings. Then every finding is told, and the findings in the two lists are the same, one by one,
each at the token of the same place; the tokens that count stand for the same symbols and the same
predefined procedures; and what is known in the end of symbols, scopes and open blocks is the
same. -/
theorem layout_independent (h : SameSpellings tokens tokens') (unused : Bool) :
    let counted := Word.significant tokens
    let counted' := Word.significant tokens'
    let s := program (Word.ofTokens counted) unused
    let s' := program (Word.ofTokens counted') unused
    (s.diagnostics counted.toArray).length = s.findings.size ∧
    List.Forall₂ (SameFinding counted counted') (s.diagnostics counted.toArray)
      (s'.diagnostics counted'.toArray) ∧
    List.Forall₂ (SameLinks counted counted' s s')
      ((LinkedToken.ofResolution s tokens).filter (·.token.kind.isSignificant))
      ((LinkedToken.ofResolution s' tokens').filter (·.token.kind.isSignificant)) ∧
    s.arena = s'.arena ∧ s.frames = s'.frames := by
  intro counted counted' s s'
  have hlength : counted.length = counted'.length := h.length_eq
  have hsame : s = s' := by
    unfold s s' counted counted'
    rw [h.ofTokens_eq]
  have hwithin : s.Within (· < counted.length) := within_ofTokens counted unused
  have hfindings : ∀ f ∈ s.findings.toList, ∃ d d', f.toDiagnostic? counted.toArray = some d ∧
      f.toDiagnostic? counted'.toArray = some d' ∧ SameFinding counted counted' d d' := by
    intro f hf
    have hplace := hwithin.findings f (Array.mem_toList_iff.mp hf)
    exact f.exists_sameFinding hplace (hlength ▸ hplace)
  obtain ⟨hall, hdiagnostics⟩ := forall₂_filterMap hfindings
  rw [← hsame]
  exact ⟨hall, hdiagnostics, hwithin.forall₂_links hlength, rfl, rfl⟩

/-- A text and the same words in another layout, between comments and an illegal character. -/
theorem layout_independent_commented :
    let scan := fun uri text => (Scan.document
      { files := { cwd := Path.ofString "/ws" }, options := {} }
      ⟨uri, none, []⟩ {} .problem text).tokens.toList
    let tokens := scan "file:///ws/a" "DCL X FIXED; DCL X FIXED; Y := SIN(X);".toList
    let tokens' := scan "file:///ws/b"
      "DCL X ! first\n FIXED;\n\n/* again */ DCL X\n@ FIXED;\nY:=SIN(X) ;".toList
    let counted := Word.significant tokens
    let counted' := Word.significant tokens'
    let s := program (Word.ofTokens counted) true
    let s' := program (Word.ofTokens counted') true
    SameSpellings tokens tokens' ∧ tokens.length + 3 = tokens'.length ∧ s.findings.size = 2 ∧
    List.Forall₂ (SameFinding counted counted') (s.diagnostics counted.toArray)
      (s'.diagnostics counted'.toArray) ∧ s.arena = s'.arena := by
  intro scan tokens tokens' counted counted' s s'
  have hsame : SameSpellings tokens tokens' := by decide +kernel
  have hmore : tokens.length + 3 = tokens'.length := by decide +kernel
  have hcount : s.findings.size = 2 := by decide +kernel
  obtain ⟨-, hfindings, -, harena, -⟩ := layout_independent hsame true
  exact ⟨hsame, hmore, hcount, hfindings, harena⟩

end Resolution

end Pearl
