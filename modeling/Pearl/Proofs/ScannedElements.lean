import Pearl.Proofs.MacroSubstitution
import Pearl.Proofs.PartTracking

namespace Pearl

/-! ### Tokens that are elements -/

/-- The token is trivia, or it is written as an element of a text is. -/
def Token.IsElement (t : Token) : Prop :=
  t.kind.isTrivia = true ∨ ∃ part c cs, t.kind = (Lexeme.head part c cs).kind ∧
    t.text = String.ofList (Lexeme.head part c cs).text

/-- Replacement texts are made of elements, however they are nested. -/
theorem Expansion.exists_head_of_mem_ofText (t : MacroTable) (active : List String) (part : Part)
    (cs : List Char) : ∀ l ∈ (ofText t active part cs).lexemes,
      ∃ part' c cs', l = Lexeme.head part' c cs' := by
  fun_induction ofText t active part cs with
  | case1 => simp
  | case2 active part c cs hc ih => exact ih
  | case3 active part c cs hc l hlen m hm inner ihinner ihrest =>
    intro l' hl'
    rcases List.mem_append.mp hl' with hl' | hl'
    · unfold inner at hl'
      split at hl'
      · rename_i hd
        exact ihinner hd l' hl'
      · cases hl'
    · exact ihrest l' hl'
  | case4 active part c cs hc l hlen hm ih =>
    intro l' hl'
    rcases List.mem_append.mp hl' with hl' | hl'
    · split at hl'
      · cases hl'
      · exact ⟨part, c, cs, List.mem_singleton.mp hl'⟩
    · exact ih l' hl'

namespace Scan

theorem Piece.Gives.isElement {directives : Bool} {s : State} {text rest : List Char} {p : Piece}
    {uri : String} {own : List Token} (h : p.Gives s uri own)
    (hnext : Next directives s text p rest) : ∀ t ∈ own, t.IsElement := by
  intro t ht
  cases h with
  | newline | space => cases ht
  | directive | idle | inactive =>
    rw [List.mem_singleton.mp ht]
    exact .inl rfl
  | plain l =>
    rw [List.mem_singleton.mp ht]
    cases hnext with
    | element => exact .inr ⟨_, _, _, rfl, rfl⟩
  | reference l m =>
    rcases List.mem_cons.mp ht with rfl | ht
    · exact .inl rfl
    · obtain ⟨l', hl', rfl⟩ := List.mem_map.mp ht
      obtain ⟨part, c, cs, rfl⟩ := Expansion.exists_head_of_mem_ofText _ _ _ _ l' hl'
      exact .inr ⟨part, c, cs, rfl, rfl⟩

theorem run_adds_elements (σ : Setting) (src : Source) (nested : Option Reader)
    (hread : ∀ read ∈ nested, Reader.Gives Token.IsElement src read) (s : State) (cs : List Char) :
    State.Adds Token.IsElement s (run σ src nested s cs) := by
  induction s, cs using run_induction σ src nested with
  | nil s =>
    rw [run_nil]
    exact (State.Agrees.refl s).adds
  | next s text p rest h ih =>
    rw [run_of_next σ src nested h]
    refine State.Adds.trans ?_ ih
    obtain ⟨own, foreign, htokens, hown, hforeign⟩ := State.tokens_take σ src nested hread s p
    refine ⟨own ++ foreign, htokens, ?_⟩
    intro t ht
    exact (List.mem_append.mp ht).elim (hown.isElement h t) (hforeign t)

/-- By induction on the levels of inclusion: what a file adds is what its own text and the files
included in it add. -/
theorem text_adds_elements (σ : Setting) (n : Nat) (src : Source) (cs : List Char) (s : State) :
    State.Adds Token.IsElement s (text σ n src cs s) := by
  induction n generalizing src cs s with
  | zero =>
    rw [text]
    exact (run_adds_elements σ src none (by simp) s cs).trans (State.agrees_finish _ _).adds
  | succ n ih =>
    have hread : ∀ read ∈ some (text σ n), Reader.Gives Token.IsElement src read := by
      intro read hr path _ _ cs' s'
      rw [← Option.some.inj hr]
      exact ih (src.included path) cs' s'
    rw [text]
    exact (run_adds_elements σ src _ hread s cs).trans (State.agrees_finish _ _).adds

/-- All tokens of a document but trivia are elements, those of included files and of replacement
texts among them. -/
theorem isElement_of_mem_document {σ : Setting} {src : Source} {cache : IncludeCache} {part : Part}
    {cs : List Char} {t : Token} (ht : t ∈ (document σ src cache part cs).tokens) :
    t.IsElement := by
  obtain ⟨ts, htokens, hts⟩ := text_adds_elements σ (levels σ.options) src cs (initial σ cache part)
  rw [← Array.mem_toList_iff, document, htokens] at ht
  exact hts t (by simpa [initial] using ht)

end Scan

/-! ### How names, punctuation and numbers are written -/

namespace Lexeme

open Text

theorem take_run (p : Char → Bool) (cs : List Char) : cs.take (run p cs) = cs.takeWhile p :=
  (List.prefix_iff_eq_take.mp (List.takeWhile_prefix p)).symm

theorem not_mem_take_run (cs : List Char) : '_' ∉ cs.take (run isDecimalDigit cs) := by
  rw [take_run]
  intro h
  exact absurd (List.mem_takeWhile_imp h) (by decide +kernel)

theorem not_mem_fraction (cs : List Char) : '_' ∉ cs.take (fractionLength cs) := by
  unfold fractionLength
  split
  · simpa using not_mem_take_run _
  · simp

theorem not_mem_exponent (cs : List Char) : '_' ∉ cs.take (exponentLength cs) := by
  have hmark : ∀ {c d e : Char}, (c = d || c = e) = true → d ≠ '_' → e ≠ '_' → '_' ≠ c := by
    rintro c d e h hd he rfl
    simp [Ne.symm hd, Ne.symm he] at h
  unfold exponentLength
  split
  · simp
  · rename_i c cs
    split
    · rename_i hc
      have hletter := hmark hc (by decide) (by decide)
      split
      · simp
      · rename_i s ds
        split
        · rename_i hs
          have hsign := hmark hs (by decide) (by decide)
          have hdigits := not_mem_take_run ds
          split
          · simp
          · rename_i n hn
            rw [hn] at hdigits
            simp [hletter, hsign, hdigits]
        · have hdigits := not_mem_take_run (s :: ds)
          split
          · simp
          · rename_i n hn
            rw [hn] at hdigits
            simpa [hletter] using hdigits
    · simp

theorem not_mem_precision (cs : List Char) : '_' ∉ cs.take (precisionLength cs) := by
  unfold precisionLength
  split
  · rename_i cs
    have hdigits := not_mem_take_run cs
    dsimp only
    split
    · simp
    · rename_i n left hn hdrop
      rw [hn] at hdigits hdrop
      have htake : cs.take (n + 2) = cs.take (n + 1) ++ [')'] := by
        rw [show n + 2 = n + 1 + 1 from rfl, List.take_add, hdrop]
        rfl
      rw [show n + 3 = n + 2 + 1 from rfl, List.take_succ_cons, htake]
      simpa using hdigits
    · simp
  · simp

theorem not_mem_number (cs : List Char) : '_' ∉ cs.take (numberLength cs) := by
  unfold numberLength
  dsimp only
  rw [List.take_add, List.take_add, List.take_add]
  simp only [List.mem_append, not_or]
  refine ⟨⟨⟨not_mem_take_run cs, not_mem_fraction _⟩, not_mem_exponent _⟩, not_mem_precision _⟩

/-- How an element of a kind is written: a name is a letter and then characters of a name, and a
number starts with a digit and holds no underscore. -/
inductive Spelled : TokenKind → List Char → Prop where
  | name {kind : TokenKind} {c : Char} {cs : List Char}
      (hkind : kind = .keyword ∨ kind = .identifier) (hc : c.isAlpha = true)
      (hcs : ∀ d ∈ cs, isNameChar d = true) : Spelled kind (c :: cs)
  | symbol {c : Char} (hc : isSymbolChar c = true) : Spelled .symbol [c]
  | number {c : Char} {cs : List Char} (hc : c.isDigit = true) (hcs : '_' ∉ cs) :
      Spelled .number (c :: cs)

/-- Words that are no operators are names. -/
theorem spelled_head_of_isAlpha {part : Part} {c : Char} {cs : List Char} (hc : c.isAlpha = true)
    (hoperator : (head part c cs).kind ≠ .operator) :
    Spelled (head part c cs).kind (head part c cs).text := by
  have hkind : (head part c cs).kind = .keyword ∨ (head part c cs).kind = .identifier := by
    rw [kind_head_of_isAlpha hc, Keyword.classify] at hoperator ⊢
    split
    · exact .inl rfl
    · rename_i hkeyword
      rw [if_neg hkeyword] at hoperator
      split
      · rename_i hword
        exact absurd (if_pos hword) hoperator
      · exact .inr rfl
  have htext : (head part c cs).text = c :: cs.takeWhile isNameChar := by
    rw [head, extra_of_isAlpha hc, take_run]
  rw [htext]
  exact .name hkind hc fun d hd => List.mem_takeWhile_imp hd

/-- An element that counts in types and is no word is a number or punctuation. -/
theorem extent_cases {part : Part} {c : Char} {cs : List Char} (hc : c.isAlpha = false)
    (h : (extent part c cs).kind ∈ [.keyword, .identifier, .symbol, .number]) :
    (c.isDigit = true ∧ extent part c cs = { kind := .number, extra := numberLength cs }) ∨
      (isSymbolChar c = true ∧ extent part c cs = { kind := .symbol, extra := 0 }) := by
  revert h
  unfold extent
  rw [hc]
  split
  · simp
  · split
    · unfold blockCommentExtent
      split <;> simp
    · rw [if_neg Bool.false_ne_true]
      split
      · rename_i hdigit
        exact fun _ => .inl ⟨hdigit, rfl⟩
      · split
        · unfold quotedExtent
          split
          · simp
          · split <;> simp
        · unfold operatorExtent
          split
          · simp
          · split
            · simp
            · split
              · rename_i hsymbol
                exact fun _ => .inr ⟨hsymbol, rfl⟩
              · simp

/-- Names, punctuation and numbers are written as their kind tells. -/
theorem spelled_head {part : Part} {c : Char} {cs : List Char}
    (h : (head part c cs).kind ∈ [.keyword, .identifier, .symbol, .number]) :
    Spelled (head part c cs).kind (head part c cs).text := by
  cases hc : c.isAlpha with
  | true =>
    apply spelled_head_of_isAlpha hc
    intro hoperator
    rw [hoperator] at h
    simp at h
  | false =>
    rw [head]
    rcases extent_cases hc h with ⟨hdigit, hextent⟩ | ⟨hsymbol, hextent⟩
    · rw [hextent]
      exact .number hdigit (not_mem_number cs)
    · rw [hextent]
      exact .symbol hsymbol

end Lexeme

end Pearl
