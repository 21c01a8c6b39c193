import Pearl.Proofs.LosslessScan

namespace Pearl

/-- The token stands for a condition only: it is a line that does not count, or a directive that
opens, turns or closes a condition. -/
def Token.isErasable (t : Token) : Bool :=
  t.kind = .inactive ||
    (t.kind = .directive && (Scan.wordOf? t.text.toList).any (·.isConditional))

def TokenKind.isElement : TokenKind → Bool
  | inactive | reference | directive => false
  | _ => true

namespace Scan

/-- The token is erasable and stands in a document. -/
def isErasableIn (uri : String) (t : Token) : Bool := t.uri = uri && t.isErasable

/-! ### Texts with blanks in the place of tokens -/

/-- A text that starts at an offset, with a blank for every character that lies in a token. -/
def blanked (offset : Nat) (ts : List Token) (cs : List Char) : List Char :=
  cs.mapIdx fun i c =>
    if ts.any fun t => t.start.offset ≤ offset + i && offset + i < t.start.offset + t.length then
      ' '
    else c

@[simp] theorem length_blanked (offset : Nat) (ts : List Token) (cs : List Char) :
    (blanked offset ts cs).length = cs.length := List.length_mapIdx

@[simp] theorem blanked_nil (offset : Nat) (cs : List Char) : blanked offset [] cs = cs :=
  List.ext_getElem (length_blanked ..) (by simp [blanked])

theorem blanked_append (offset : Nat) (ts ts' : List Token) (a b : List Char)
    (hts : ∀ t ∈ ts, t.start.offset + t.length ≤ offset + a.length)
    (hts' : ∀ t ∈ ts', offset + a.length ≤ t.start.offset) :
    blanked offset (ts ++ ts') (a ++ b) =
      blanked offset ts a ++ blanked (offset + a.length) ts' b := by
  rw [blanked, blanked, blanked, List.mapIdx_append]
  congr 1
  · rw [List.mapIdx_eq_mapIdx_iff]
    intro i hi
    have hlater : (ts'.any fun t =>
        t.start.offset ≤ offset + i && offset + i < t.start.offset + t.length) = false := by
      rw [List.any_eq_false]
      intro t ht
      have hle := hts' t ht
      simp only [Bool.and_eq_true, decide_eq_true_eq]
      omega
    rw [List.any_append, hlater, Bool.or_false]
  · rw [List.mapIdx_eq_mapIdx_iff]
    intro i hi
    have hearlier : (ts.any fun t => t.start.offset ≤ offset + (i + a.length) &&
        offset + (i + a.length) < t.start.offset + t.length) = false := by
      rw [List.any_eq_false]
      intro t ht
      have hle := hts t ht
      simp only [Bool.and_eq_true, decide_eq_true_eq]
      omega
    have hshift : offset + a.length + i = offset + (i + a.length) := by omega
    rw [List.any_append, hearlier, Bool.false_or, hshift]

theorem blanked_singleton (t : Token) (cs : List Char) (hlength : t.length = cs.length) :
    blanked t.start.offset [t] cs = List.replicate cs.length ' ' := by
  refine List.eq_replicate_iff.mpr ⟨length_blanked .., ?_⟩
  intro c hc
  obtain ⟨i, hi, rfl⟩ := List.getElem_of_mem hc
  rw [length_blanked] at hi
  have hin : i < t.length := by omega
  simp [blanked, hin]

/-! ### Pieces that are there for a condition only -/

/-- The piece is a line that does not count or a directive on conditions. -/
def Piece.isErased (s : State) : Piece → Bool
  | .directive line => !(s.conditions.active && (wordOf? line).any (!·.isConditional))
  | .inactive _ => true
  | _ => false

theorem isElement_head (part : Part) (c : Char) (cs : List Char) :
    (Lexeme.head part c cs).kind.isElement = true := by
  have hword : ∀ word, (Keyword.classify word).isElement = true := by
    intro word
    unfold Keyword.classify
    split
    · rfl
    · split <;> rfl
  have hoperator : (Lexeme.operatorExtent part c cs).kind.isElement = true := by
    unfold Lexeme.operatorExtent
    split
    · rfl
    · split
      · rfl
      · split <;> rfl
  have hquoted : (Lexeme.quotedExtent cs).kind.isElement = true := by
    unfold Lexeme.quotedExtent
    split
    · rfl
    · split <;> rfl
  have hcomment : (Lexeme.blockCommentExtent cs).kind.isElement = true := by
    unfold Lexeme.blockCommentExtent
    split <;> rfl
  change (Lexeme.extent part c cs).kind.isElement = true
  unfold Lexeme.extent
  split
  · rfl
  split
  · exact hcomment
  split
  · exact hword _
  split
  · rfl
  split
  · exact hquoted
  · exact hoperator

theorem isErasableIn_of_isElement (uri : String) {t : Token} (h : t.kind.isElement = true) :
    isErasableIn uri t = false := by
  have hinactive : t.kind ≠ .inactive := by
    intro hk
    rw [hk] at h
    cases h
  have hdirective : t.kind ≠ .directive := by
    intro hk
    rw [hk] at h
    cases h
  simp [isErasableIn, Token.isErasable, hinactive, hdirective]

theorem isErasableIn_marker (s : State) (uri : String) (m : Macro) (word : List Char) :
    isErasableIn uri (s.markerHere uri m word) = false := by
  simp [isErasableIn, Token.isErasable, State.markerHere, State.tokenHere]

theorem isErasableIn_expanded (uri : String) (t : MacroTable) (part : Part) (m : Macro)
    (marker : Token) :
    ∀ e ∈ (Expansion.ofMacro t part m).lexemes.map (State.expandedToken marker),
      isErasableIn uri e = false := by
  intro e he
  obtain ⟨l, hl, rfl⟩ := List.mem_map.mp he
  have htrivia := Expansion.isTrivia_of_mem_ofText t [m.name] part m.value.toList l hl
  apply isErasableIn_of_isElement
  change l.kind.isElement = true
  cases hk : l.kind <;> rw [hk] at htrivia <;> first | rfl | cases htrivia

/-- An erased piece gives one token, which is erasable and as long as the piece. -/
theorem Piece.Gives.erased {s : State} {uri : String} {p : Piece} {own : List Token}
    (hown : p.Gives s uri own) (hp : p.isErased s = true) :
    ∃ t, own = [t] ∧ isErasableIn uri t = true ∧ t.start = s.position ∧
      t.length = p.chars.length := by
  cases hown with
  | newline | space | plain | reference => cases hp
  | @directive line word hw ha =>
    refine ⟨_, rfl, ?_, rfl, rfl⟩
    have hc : word.isConditional = true := by
      rcases ha with ha | ha
      · simpa [isErased, ha, hw] using hp
      · exact ha
    simp [isErasableIn, Token.isErasable, State.tokenHere, hw, hc]
  | idle | inactive =>
    refine ⟨_, rfl, ?_, rfl, rfl⟩
    simp [isErasableIn, Token.isErasable, State.tokenHere]

/-- The other pieces give no erasable token. -/
theorem Piece.Gives.kept {directives : Bool} {s : State} {text rest : List Char} {p : Piece}
    {uri : String} {own : List Token} (hown : p.Gives s uri own)
    (hnext : Next directives s text p rest) (hp : p.isErased s = false) :
    ∀ t ∈ own, isErasableIn uri t = false := by
  intro t ht
  cases hown with
  | newline | space => cases ht
  | inactive => cases hp
  | @directive line word hw ha =>
    rw [List.mem_singleton.mp ht]
    have hc : word.isConditional = false := by
      simp only [isErased, hw, Option.any_some, Bool.not_eq_false', Bool.and_eq_true,
        Bool.not_eq_true'] at hp
      exact hp.2
    simp [isErasableIn, Token.isErasable, State.tokenHere, hw, hc]
  | @idle line hw =>
    cases hword : wordOf? line with
    | none => simp [isErased, hword] at hp
    | some word => simp [isErased, (hw word hword).1] at hp
  | plain l =>
    rw [List.mem_singleton.mp ht]
    cases hnext with
    | element hn hc hs => exact isErasableIn_of_isElement uri (isElement_head ..)
  | reference l m =>
    rcases List.mem_cons.mp ht with rfl | ht
    · exact isErasableIn_marker s uri m l.text
    · exact isErasableIn_expanded uri s.macros s.part m _ t ht

theorem Next.not_mem_of_isErased {directives : Bool} {s : State} {text rest : List Char}
    {p : Piece} (hnext : Next directives s text p rest) (hp : p.isErased s = true) :
    '\n' ∉ p.chars ∧ Text.AtLineEnd rest := by
  cases hnext with
  | newline | space | element => cases hp
  | directive hd hs hline hrest => exact ⟨by simp [Piece.chars, hline], hrest⟩
  | inactive hn hc hs hd ha hline hrest => exact ⟨by simp [Piece.chars, hline, Ne.symm hn], hrest⟩

end Scan

end Pearl
