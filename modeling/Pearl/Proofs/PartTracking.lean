import Mathlib.Data.List.Induction
import Pearl.Proofs.LosslessScan
import Pearl.Proofs.MacroReach

namespace Pearl

/-! ### What tells the part of a module -/

/-- The part after a token: none but a keyword leads into another. -/
def Part.afterToken (p : Part) (t : Token) : Part :=
  if t.kind = .keyword then p.after t.text else p

namespace Token

def tellsPart (t : Token) : Bool :=
  t.kind = .keyword && (t.text = "SYSTEM" || t.text = "PROBLEM")

def isArrow (t : Token) : Bool := t.kind = .operator && ["<->", "->", "<-"].contains t.text

/-- Two tokens of one file that touch each other and are spelled as the halves of an arrow. -/
def SplitsArrow (t u : Token) : Prop :=
  t.isOwn = true ∧ u.isOwn = true ∧ t.uri = u.uri ∧
    t.start.offset + t.length = u.start.offset ∧
    (t.text = "-" ∧ u.text = ">" ∨ t.text = "<" ∧ u.text = "-")

theorem not_splitsArrow_of_text {t : Token} {cs : List Char} (htext : t.text = String.ofList cs)
    (hminus : cs ≠ ['-']) (hless : cs ≠ ['<']) (u : Token) : ¬t.SplitsArrow u := by
  have hchars : t.text.toList = cs := by rw [htext, String.toList_ofList]
  rintro ⟨-, -, -, -, ⟨hhalf, -⟩ | ⟨hhalf, -⟩⟩
  · rw [hhalf] at hchars
    exact hminus hchars.symm
  · rw [hhalf] at hchars
    exact hless hchars.symm

/-- Tokens in a row, from one part of a module to another: arrows stand in the system part, and
their halves in the problem part. -/
inductive Sectioned : Part → List Token → Part → Prop where
  | nil (p : Part) : Sectioned p [] p
  | cons {p q : Part} {t : Token} {ts : List Token} (harrow : t.isArrow = true → p = .system)
      (hsplit : ∀ u ∈ ts.head?, t.SplitsArrow u → p = .problem)
      (h : Sectioned (p.afterToken t) ts q) : Sectioned p (t :: ts) q

namespace Sectioned

variable {p q r : Part} {ts us : List Token}

/-- Rows of tokens that do not meet in the middle of an arrow make one. -/
theorem append (h : Sectioned p ts q) (h' : Sectioned q us r)
    (hmeet : ∀ t ∈ ts.getLast?, ∀ u ∈ us.head?, ¬t.SplitsArrow u) : Sectioned p (ts ++ us) r := by
  induction h with
  | nil => exact h'
  | @cons p q t ts harrow hsplit h ih =>
    cases ts with
    | nil =>
      cases h
      refine .cons harrow ?_ h'
      intro u hu hsplit
      exact absurd hsplit (hmeet t rfl u hu)
    | cons t' ts =>
      refine .cons harrow hsplit (ih h' ?_)
      intro u hu
      exact hmeet u (by rwa [List.getLast?_cons_cons])

theorem tail {before : List Token} (h : Sectioned p (before ++ ts) q) :
    Sectioned (before.foldl Part.afterToken p) ts q := by
  induction before generalizing p with
  | nil => exact h
  | cons t before ih =>
    cases h with
    | cons harrow hsplit h => exact ih h

end Sectioned

/-- The part that a row of tokens leads into is told by the last keyword in it that names one. -/
theorem foldl_afterToken (p : Part) (ts : List Token) :
    ts.foldl Part.afterToken p =
      match ts.reverse.find? tellsPart with
      | some k => Part.problem.after k.text
      | none => p := by
  induction ts using List.reverseRecOn with
  | nil => rfl
  | append_singleton ts t ih =>
    rw [List.foldl_append, List.reverse_append, List.reverse_singleton, List.singleton_append,
      List.find?_cons, List.foldl_cons, List.foldl_nil]
    cases ht : t.tellsPart with
    | true =>
      simp only [tellsPart, Bool.and_eq_true, Bool.or_eq_true, decide_eq_true_eq] at ht
      rcases ht with ⟨hk, htext | htext⟩
      · simp [Part.afterToken, hk, htext, Part.after]
      · simp [Part.afterToken, hk, htext, Part.after]
    | false =>
      have hsame : ∀ p : Part, p.afterToken t = p := by
        intro p
        unfold Part.afterToken
        split
        · rename_i hk
          simp only [tellsPart, hk, decide_true, Bool.true_and, Bool.or_eq_false_iff,
            decide_eq_false_iff_not] at ht
          rw [Part.after, if_neg ht.1, if_neg ht.2]
        · rfl
      rw [hsame, ih]

theorem exists_system {ts : List Token} (h : ts.foldl Part.afterToken .problem = .system) :
    ∃ k, ts.reverse.find? tellsPart = some k ∧ k.text = "SYSTEM" := by
  rw [foldl_afterToken] at h
  cases hk : ts.reverse.find? tellsPart with
  | none =>
    rw [hk] at h
    cases h
  | some k =>
    rw [hk] at h
    refine ⟨k, rfl, by_contra fun htext => ?_⟩
    simp [Part.after, htext] at h

theorem text_eq_problem {ts : List Token} {p : Part}
    (h : ts.foldl Part.afterToken p = .problem) {k : Token}
    (hk : ts.reverse.find? tellsPart = some k) : k.text = "PROBLEM" := by
  rw [foldl_afterToken, hk] at h
  have htells := List.find?_some hk
  simp only [tellsPart, Bool.and_eq_true, Bool.or_eq_true, decide_eq_true_eq] at htells
  rcases htells.2 with htext | htext
  · simp [Part.after, htext] at h
  · exact htext

end Token

/-! ### Elements and the part they are read in -/

namespace Lexeme

variable {part : Part} {c : Char} {cs : List Char}

/-- None but words are keywords. -/
theorem kind_head_ne_keyword (hc : c.isAlpha = false) : (head part c cs).kind ≠ .keyword := by
  change (extent part c cs).kind ≠ .keyword
  unfold extent
  split
  · simp
  · split
    · unfold blockCommentExtent
      split <;> simp
    · rw [if_neg (by simp [hc])]
      split
      · simp
      · split
        · unfold quotedExtent
          split
          · simp
          · split <;> simp
        · unfold operatorExtent
          split
          · simp
          · split
            · simp
            · split <;> simp

theorem kind_head_of_isAlpha (hc : c.isAlpha = true) :
    (head part c cs).kind = Keyword.classify (String.ofList (head part c cs).text) := by
  have hline : c ≠ '!' := by
    rintro rfl
    exact absurd hc (by decide)
  have hcomment : (c = '/' && cs.head? = some '*' : Bool) = false := by
    by_contra h
    simp only [Bool.not_eq_false, Bool.and_eq_true, decide_eq_true_eq] at h
    rw [h.1] at hc
    exact absurd hc (by decide)
  have hextent : extent part c cs =
      ⟨Keyword.classify (String.ofList (c :: cs.take (run isNameChar cs))), run isNameChar cs,
        none⟩ := by
    rw [extent, if_neg hline, hcomment, if_neg Bool.false_ne_true, if_pos hc]
  rw [head, hextent]

/-- An element leads into another part if it is a keyword that names one. -/
theorem partAfter_head (part : Part) (c : Char) (cs : List Char) :
    Expansion.partAfter part (head part c cs) =
      if (head part c cs).kind = .keyword then part.after (String.ofList (head part c cs).text)
      else part := by
  have hword : (head part c cs).isWord = c.isAlpha := rfl
  rw [Expansion.partAfter, hword]
  cases hc : c.isAlpha with
  | false => rw [if_neg Bool.false_ne_true, if_neg (kind_head_ne_keyword hc)]
  | true =>
    rw [if_pos rfl, kind_head_of_isAlpha hc]
    split
    · rfl
    · rename_i hk
      have hsystem : String.ofList (head part c cs).text ≠ "SYSTEM" := by
        intro h
        rw [h] at hk
        exact hk (by decide +kernel)
      have hproblem : String.ofList (head part c cs).text ≠ "PROBLEM" := by
        intro h
        rw [h] at hk
        exact hk (by decide +kernel)
      rw [Part.after, if_neg hsystem, if_neg hproblem]

/-- An element that starts as an arrow does is an operator of the part, or one character which no
such operator starts with. -/
theorem text_head_of_isArrow (hc : isArrow c = true) :
    (head part c cs).text ∈ longOperators part ∨
      (head part c cs).text = [c] ∧ tail part c cs = cs ∧
        ∀ op ∈ longOperators part, ¬op <+: c :: cs := by
  have hextent := extent_of_isArrow hc part cs
  cases hop : (longOperators part).find? (·.isPrefixOf (c :: cs)) with
  | some op =>
    left
    have hfound := List.find?_some hop
    have hstarts : op <+: c :: cs := List.isPrefixOf_iff_prefix.mp hfound
    have hmem := List.mem_of_find?_eq_some hop
    have htext : (head part c cs).text = op := by
      have hlong : (longOperators part).all (· ≠ []) = true := by cases part <;> decide
      have hne := List.all_eq_true.mp hlong op hmem
      rw [head, hextent, operatorExtent, hop]
      cases op with
      | nil => simp at hne
      | cons o op =>
        rw [List.cons_prefix_cons] at hstarts
        rw [hstarts.1]
        exact congrArg (c :: ·) (List.prefix_iff_eq_take.mp hstarts.2).symm
    rw [htext]
    exact hmem
  | none =>
    right
    have hextra : (operatorExtent part c cs).extra = 0 := by
      rw [operatorExtent, hop]
      dsimp only
      split
      · rfl
      · split <;> rfl
    rw [List.find?_eq_none] at hop
    refine ⟨?_, ?_, ?_⟩
    · rw [head, hextent, hextra, List.take_zero]
    · rw [tail, hextent, hextra, List.drop_zero]
    · intro op hmem hstarts
      exact hop op hmem (List.isPrefixOf_iff_prefix.mpr hstarts)

/-- Arrows are read in the system part only. -/
theorem part_of_arrow (h : (head part c cs).text ∈ [['<', '-', '>'], ['-', '>'], ['<', '-']]) :
    part = .system := by
  have hc : isArrow c = true := by
    have hfirst : some c ∈ [some '<', some '-', some '<'] := List.mem_map_of_mem (f := List.head?) h
    simp only [List.mem_cons, List.not_mem_nil, or_false, Option.some.injEq] at hfirst
    rcases hfirst with rfl | rfl | rfl <;> rfl
  cases part with
  | system => rfl
  | problem =>
    rcases text_head_of_isArrow hc with hmem | ⟨hone, -⟩
    · have hnone : ∀ op ∈ longOperators .problem,
          op ∉ [['<', '-', '>'], ['-', '>'], ['<', '-']] := by decide
      exact absurd h (hnone _ hmem)
    · rw [hone] at h
      simp at h

/-- In the system part an arrow is not read in two halves. -/
theorem head?_tail_of_half {d : Char} (harrow : [c, d] ∈ longOperators .system)
    (hhalf : [c] ∉ longOperators .system) (hc : isArrow c = true)
    (h : (head .system c cs).text = [c]) : (tail .system c cs).head? ≠ some d := by
  rcases text_head_of_isArrow hc with hmem | ⟨-, htail, hnone⟩
  · rw [h] at hmem
    exact absurd hmem hhalf
  · rw [htail]
    intro hd
    cases cs with
    | nil => cases hd
    | cons e cs =>
      obtain rfl := Option.some.inj hd
      exact hnone [c, e] harrow ⟨cs, rfl⟩

end Lexeme

namespace Scan

open Token

variable {p q : Part} {s s' : State} {uri : String}

/-! ### Replacement texts -/

/-- A token of a replacement text belongs to no arrow of a file. -/
theorem not_splitsArrow_expanded {marker : Token} {l : Lexeme}
    (hm : marker.expanded.isSome = true) (hl : l.kind.isTrivia = false) (u : Token) :
    ¬(State.expandedToken marker l).SplitsArrow u := by
  rintro ⟨hown, -⟩
  have hnone : marker.expanded.isNone = false := by simp [← Option.not_isSome, hm]
  simp only [State.expandedToken, Token.isOwn, hnone, Bool.false_or] at hown
  rw [of_decide_eq_true hown] at hl
  cases hl

/-- An element is read in the part that it needs, and leads to the part that its token tells. -/
theorem isArrow_head {part : Part} {c : Char} {cs : List Char} {t : Token}
    (hkind : t.kind = (Lexeme.head part c cs).kind)
    (htext : t.text = String.ofList (Lexeme.head part c cs).text) :
    (t.isArrow = true → part = .system) ∧
      part.afterToken t = Expansion.partAfter part (Lexeme.head part c cs) := by
  refine ⟨?_, ?_⟩
  · intro harrow
    simp only [Token.isArrow, Bool.and_eq_true, List.contains_eq_mem, decide_eq_true_eq] at harrow
    have htexts : ∀ text ∈ ["<->", "->", "<-"],
        text.toList ∈ [['<', '-', '>'], ['-', '>'], ['<', '-']] := by decide +kernel
    have hmem := htexts _ harrow.2
    rw [htext, String.toList_ofList] at hmem
    exact Lexeme.part_of_arrow hmem
  · rw [Lexeme.partAfter_head, Part.afterToken, hkind, htext]

/-- Replacement texts keep track of the part, however they are nested. -/
theorem sectioned_ofText {marker : Token} (hm : marker.expanded.isSome = true) (t : MacroTable)
    (active : List String) (part : Part) (cs : List Char) :
    Sectioned part ((Expansion.ofText t active part cs).lexemes.map (State.expandedToken marker))
      (Expansion.ofText t active part cs).part := by
  have hmeet : ∀ (ls : List Lexeme) (us : List Token), (∀ l ∈ ls, l.kind.isTrivia = false) →
      ∀ t ∈ (ls.map (State.expandedToken marker)).getLast?, ∀ u ∈ us.head?,
        ¬t.SplitsArrow u := by
    intro ls us hls t ht u _
    obtain ⟨l, hl, rfl⟩ := List.mem_map.mp (List.mem_of_mem_getLast? ht)
    exact not_splitsArrow_expanded hm (hls l hl) u
  fun_induction Expansion.ofText t active part cs with
  | case1 active part => exact .nil part
  | case2 active part c cs hc ih => exact ih
  | case3 active part c cs hc l hlen m hm' inner ihinner ihrest =>
    have hinner : Sectioned part (inner.lexemes.map (State.expandedToken marker)) inner.part ∧
        ∀ l ∈ inner.lexemes, l.kind.isTrivia = false := by
      unfold inner
      split
      · rename_i hd
        exact ⟨ihinner hd, Expansion.isTrivia_of_mem_ofText _ _ _ _⟩
      · exact ⟨.nil part, fun l hl => by cases hl⟩
    rw [Expansion.after, List.map_append]
    exact hinner.1.append ihrest (hmeet inner.lexemes _ hinner.2)
  | case4 active part c cs hc l hlen hm' ih =>
    obtain ⟨harrow, hafter⟩ := isArrow_head (t := State.expandedToken marker l) rfl rfl
    rw [Expansion.after, List.map_append]
    split
    · rename_i hk
      have hpart : Expansion.partAfter part l = part := by
        rw [Lexeme.partAfter_head, if_neg]
        intro hkeyword
        rw [show l.kind = .keyword from hkeyword] at hk
        cases hk
      rw [hpart] at ih ⊢
      exact ih
    · rename_i hk
      refine .cons harrow ?_ (hafter ▸ ih)
      intro u _ hsplit
      exact absurd hsplit (not_splitsArrow_expanded hm (Bool.eq_false_iff.mpr hk) u)

/-! ### Files that are included -/

/-- One state has the tokens of another and after them those of other files, which keep track of
the part. -/
def State.Visits (uri : String) (s s' : State) : Prop :=
  ∃ ts, s'.tokens.toList = s.tokens.toList ++ ts ∧ Sectioned s.part ts s'.part ∧
    ∀ t ∈ ts, t.uri ≠ uri

/-- Files that may be included from a text keep track of the part. -/
def Reader.Visits (uri : String) (src : Source) (read : Reader) : Prop :=
  ∀ path : Path, path.IsResolved → path ∉ src.chain →
    ∀ cs s, State.Visits uri s (read (src.included path) cs s)

namespace State

theorem visits_of_eq (htokens : s'.tokens = s.tokens) (hpart : s'.part = s.part) :
    Visits uri s s' :=
  ⟨[], by rw [htokens, List.append_nil], hpart ▸ .nil _, by simp⟩

theorem Agrees.visits (h : Agrees s s') : Visits uri s s' := visits_of_eq h.tokens h.part

theorem visits_includeFile (σ : Setting) (src : Source) (nested : Option Reader)
    (hread : ∀ read ∈ nested, Reader.Visits uri src read) (s : State) (t : Token)
    (name : String) : Visits uri s (s.includeFile σ src nested t name) := by
  cases inclusion_includeFile σ src nested s t name with
  | givenUp h | refused h =>
    rw [h]
    exact visits_of_eq rfl rfl
  | read hmem hpath hchain h =>
    rw [h]
    exact hread _ hmem _ hpath hchain _ _

theorem visits_carryOut (σ : Setting) (src : Source) (nested : Option Reader)
    (hread : ∀ read ∈ nested, Reader.Visits uri src read) (s : State) (t : Token)
    (d : Directive) : Visits uri s (s.carryOut σ src nested t d) := by
  cases d with
  | define name value =>
    simp only [carryOut, define]
    split <;> exact visits_of_eq rfl rfl
  | undef name =>
    simp only [carryOut, undefine]
    split <;> exact visits_of_eq rfl rfl
  | inclusion path => exact visits_includeFile σ src nested hread s t path
  | condition name negated =>
    exact (agrees_carryOut σ src nested s t (.condition name negated)
      (by cases negated <;> rfl)).visits
  | otherwise => exact (agrees_carryOut σ src nested s t .otherwise rfl).visits
  | endif => exact (agrees_carryOut σ src nested s t .endif rfl).visits

/-- A `#` line adds its own token, and after it those of the file that it includes, if it does. -/
theorem visits_directiveLine (σ : Setting) (src : Source) (nested : Option Reader)
    (hread : ∀ read ∈ nested, Reader.Visits uri src read) (s : State) (line : List Char) :
    ∃ kind, kind ≠ .keyword ∧ kind ≠ .operator ∧
      Visits uri (s.emit (s.tokenHere src.uri kind line)) (s.directiveLine σ src nested line) := by
  unfold directiveLine
  dsimp only
  split
  · exact ⟨.inactive, by decide, by decide, visits_of_eq rfl rfl⟩
  · generalize DirectiveWord.ofText? (Directive.wordOf line) = word
    refine ⟨if word.isSome then .directive else .inactive, ?_, ?_, ?_⟩
    · cases word <;> simp
    · cases word <;> simp
    · unfold activeDirective
      cases Directive.parse line with
      | error e => exact (agrees_refuse ((s.emit _).advance line) _ _ e).visits
      | ok d => exact visits_carryOut σ src nested hread ((s.emit _).advance line) _ d

end State

/-! ### Texts -/

/-- The first of the tokens that a text is read into belongs to the text, and not to a file that is
included. It does not stand before the text, and if it stands at its start, the text starts with
it. -/
def Opens (uri : String) (p : Position) (cs : List Char) (ts : List Token) : Prop :=
  ∀ u ∈ ts.head?, u.uri = uri ∧ p.offset ≤ u.start.offset ∧
    (u.start.offset = p.offset → u.text.toList <+: cs)

variable {directives : Bool} {text rest : List Char} {piece : Piece} {us : List Token}

theorem opens_tokenHere (hnext : Next directives s text piece rest) {t : Token}
    (huri : t.uri = uri) (hstart : t.start = s.position)
    (htext : t.text = String.ofList piece.chars) (ts : List Token) :
    Opens uri s.position text (t :: ts) := by
  intro u hu
  obtain rfl := Option.some.inj hu
  refine ⟨huri, by rw [hstart], fun _ => ?_⟩
  rw [htext, String.toList_ofList, ← hnext.chars_append]
  exact List.prefix_append _ _

/-- Behind a blank no token touches what stands before it. -/
theorem Opens.blank {c : Char} (h : Opens uri (s.position.next c) rest us) :
    Opens uri s.position (c :: rest) us := by
  intro u hu
  obtain ⟨huri, hle, -⟩ := h u hu
  rw [Position.offset_next] at hle
  exact ⟨huri, by omega, fun he => by omega⟩

/-- The second half of an arrow stands in the text right behind the first. -/
theorem head?_of_splitsArrow {kind : TokenKind} {cs : List Char} {u : Token}
    (hopens : Opens uri (s.position.advance cs) rest us) (hu : u ∈ us.head?)
    (hsplit : (s.tokenHere uri kind cs).SplitsArrow u) :
    cs = ['-'] ∧ rest.head? = some '>' ∨ cs = ['<'] ∧ rest.head? = some '-' := by
  obtain ⟨-, -, -, htouch, htexts⟩ := hsplit
  obtain ⟨-, -, hstart⟩ := hopens u hu
  have hstarts := hstart (by rw [Position.offset_advance]; exact htouch.symm)
  have hfirst : ∀ d : Char, u.text.toList = [d] → rest.head? = some d := by
    intro d hd
    rw [hd] at hstarts
    obtain ⟨after, rfl⟩ := hstarts
    rfl
  rcases htexts with ⟨ht, hu⟩ | ⟨ht, hu⟩
  · have hcs := congrArg String.toList ht
    rw [State.tokenHere, String.toList_ofList] at hcs
    exact Or.inl ⟨hcs, hfirst _ (by rw [hu]; rfl)⟩
  · have hcs := congrArg String.toList ht
    rw [State.tokenHere, String.toList_ofList] at hcs
    exact Or.inr ⟨hcs, hfirst _ (by rw [hu]; rfl)⟩

/-- A reference is read in one part and leads to the part at the end of the replacement text. -/
theorem sectioned_expand {l : Lexeme} {m : Macro}
    (hm : Expansion.reference? s.macros [] l = some m)
    (h : Sectioned (s.expand uri m l.text).part us q) :
    Sectioned s.part (s.markerHere uri m l.text ::
      ((Expansion.ofMacro s.macros s.part m).lexemes.map
        (State.expandedToken (s.markerHere uri m l.text)) ++ us)) q := by
  have hword := (Expansion.reference?_eq_some hm).1
  have hmarker : (s.markerHere uri m l.text).expanded.isSome = true := rfl
  have hinner := sectioned_ofText hmarker s.macros [m.name] s.part m.value.toList
  refine .cons (fun harrow => by cases harrow) ?_ (hinner.append h ?_)
  · intro u _ hsplit
    have hchar : ∀ c : Char, c.isAlpha = false → l.text ≠ [c] := by
      intro c hc htext
      rw [Lexeme.isWord, htext, List.head?_cons, Option.any_some, hc] at hword
      cases hword
    exact absurd hsplit (not_splitsArrow_of_text rfl (hchar '-' rfl) (hchar '<' rfl) u)
  · intro t ht u _
    obtain ⟨l', hl', rfl⟩ := List.mem_map.mp (List.mem_of_mem_getLast? ht)
    exact not_splitsArrow_expanded hmarker (Expansion.isTrivia_of_mem_ofText _ _ _ _ l' hl') u

/-- A piece of a text goes before what is read after it. -/
theorem sectioned_take (σ : Setting) (src : Source) (nested : Option Reader)
    (hread : ∀ read ∈ nested, Reader.Visits src.uri src read)
    (hnext : Next σ.directives s text piece rest)
    (h : Sectioned (s.take σ src nested piece).part us q)
    (hopens : Opens src.uri (s.take σ src nested piece).position rest us) :
    ∃ ts, (s.take σ src nested piece).tokens.toList = s.tokens.toList ++ ts ∧
      Sectioned s.part (ts ++ us) q ∧ Opens src.uri s.position text (ts ++ us) := by
  rw [State.position_take] at hopens
  cases hnext with
  | newline rest => exact ⟨[], by simp [State.take, State.newline], h, hopens.blank⟩
  | space rest hc => exact ⟨[], by simp [State.take, State.space], h, hopens.blank⟩
  | @directive line rest hd hs hline hrest =>
    obtain ⟨kind, hkeyword, hoperator, foreign, htokens, hforeign, huri⟩ :=
      State.visits_directiveLine σ src nested hread s ('#' :: line)
    refine ⟨s.tokenHere src.uri kind ('#' :: line) :: foreign, ?_, ?_,
      opens_tokenHere (.directive hd hs hline hrest) rfl rfl rfl _⟩
    · rw [State.take, htokens]
      simp [State.emit]
    · refine .cons ?_ ?_ ?_
      · intro harrow
        simp only [Token.isArrow, State.tokenHere, hoperator, decide_false, Bool.false_and] at harrow
        cases harrow
      · intro u _ hsplit
        exact absurd hsplit (not_splitsArrow_of_text rfl (by simp) (by simp) u)
      · have hpart : s.part.afterToken (s.tokenHere src.uri kind ('#' :: line)) = s.part :=
          if_neg hkeyword
        rw [hpart]
        apply hforeign.append h
        rintro t ht u hu ⟨-, -, hsame, -⟩
        exact huri t (List.mem_of_mem_getLast? ht) (hsame.trans (hopens u hu).1)
  | @inactive c line rest hn hc hs hd ha hline hrest =>
    refine ⟨[s.tokenHere src.uri .inactive (c :: line)], ?_, ?_,
      opens_tokenHere (.inactive hn hc hs hd ha hline hrest) rfl rfl rfl _⟩
    · simp [State.take, State.inactiveLine, State.addInactive, State.advance, State.emit]
    · refine .cons (fun harrow => by cases harrow) ?_ h
      intro u hu hsplit
      rcases head?_of_splitsArrow hopens hu hsplit with ⟨-, hhead⟩ | ⟨-, hhead⟩
      · exact absurd (hrest _ hhead) (by decide)
      · exact absurd (hrest _ hhead) (by decide)
  | @element c cs hn hc hs =>
    have hnext : Next σ.directives s (c :: cs) (.element (Lexeme.head s.part c cs))
        (Lexeme.tail s.part c cs) := .element hn hc hs
    cases hm : Expansion.reference? s.macros [] (Lexeme.head s.part c cs) with
    | some m =>
      have htake : s.take σ src nested (.element (Lexeme.head s.part c cs)) =
          s.expand src.uri m (Lexeme.head s.part c cs).text := by
        simp only [State.take, State.element, hm]
      rw [htake] at h ⊢
      refine ⟨s.markerHere src.uri m (Lexeme.head s.part c cs).text ::
        (Expansion.ofMacro s.macros s.part m).lexemes.map
          (State.expandedToken (s.markerHere src.uri m (Lexeme.head s.part c cs).text)), ?_,
        sectioned_expand hm h, opens_tokenHere hnext rfl rfl rfl _⟩
      simp [State.expand, State.advance, State.markerHere]
    | none =>
      have hplain := State.agrees_plain s src.uri (Lexeme.head s.part c cs)
      have htake : s.take σ src nested (.element (Lexeme.head s.part c cs)) =
          s.plain src.uri (Lexeme.head s.part c cs) := by
        simp only [State.take, State.element, hm]
      rw [htake] at h ⊢
      rw [hplain.part] at h
      obtain ⟨harrow, hafter⟩ := isArrow_head (t := s.tokenHere src.uri
        (Lexeme.head s.part c cs).kind (Lexeme.head s.part c cs).text) rfl rfl
      refine ⟨[s.tokenHere src.uri (Lexeme.head s.part c cs).kind (Lexeme.head s.part c cs).text],
        ?_, .cons harrow ?_ (hafter ▸ h), opens_tokenHere hnext rfl rfl rfl _⟩
      · rw [hplain.tokens]
        simp [State.emit, State.advance]
      · intro u hu hsplit
        cases hpart : s.part with
        | problem => rfl
        | system =>
          rw [hpart] at hopens hsplit
          rcases head?_of_splitsArrow hopens hu hsplit with ⟨htext, hhead⟩ | ⟨htext, hhead⟩
          · obtain rfl : c = '-' := (List.cons.inj htext).1
            exact absurd hhead
              (Lexeme.head?_tail_of_half (by decide) (by decide) (by decide) htext)
          · obtain rfl : c = '<' := (List.cons.inj htext).1
            exact absurd hhead
              (Lexeme.head?_tail_of_half (by decide) (by decide) (by decide) htext)

/-- A text and what it includes keep track of the part. -/
theorem run_sectioned (σ : Setting) (src : Source) (nested : Option Reader)
    (hread : ∀ read ∈ nested, Reader.Visits src.uri src read) (s : State) (cs : List Char) :
    ∃ ts, (run σ src nested s cs).tokens.toList = s.tokens.toList ++ ts ∧
      Sectioned s.part ts (run σ src nested s cs).part ∧ Opens src.uri s.position cs ts := by
  induction s, cs using run_induction σ src nested with
  | nil s =>
    rw [run_nil]
    exact ⟨[], (List.append_nil _).symm, .nil _, fun u hu => by cases hu⟩
  | next s text piece rest hnext ih =>
    obtain ⟨us, hus, hsections, hopens⟩ := ih
    obtain ⟨ts, hts, h⟩ := sectioned_take σ src nested hread hnext hsections hopens
    rw [run_of_next σ src nested hnext]
    exact ⟨ts ++ us, by rw [hus, hts, List.append_assoc], h⟩

/-- A file is not included from itself, under whatever name. -/
theorem bars_included (src : Source) {path : Path} (hpath : path.IsResolved) :
    (src.included path).Bars (src.included path).uri := by
  intro q hq hmem he
  have hround := Uri.toPath_ofPath q hq.1
  rw [he, show (src.included path).uri = Uri.ofPath path from rfl,
    Uri.toPath_ofPath path hpath.1] at hround
  exact hmem (by rw [← Except.ok.inj hround]; simp [Source.included])

/-- A file that is included keeps track of the part if those do that it includes in turn. -/
theorem visits_of_nested (σ : Setting) (n : Nat) {src : Source} (hbars : src.Bars uri)
    (hread : ∀ inner : Source, inner.Bars inner.uri →
      ∀ read ∈ reader? σ n, Reader.Visits inner.uri inner read) :
    Reader.Visits uri src (Scan.text σ n) := by
  intro path hpath hmem cs s
  obtain ⟨ts, hts, huri⟩ := text_gives_foreign σ n src hbars path hpath hmem cs s
  obtain ⟨us, hus, hsections, -⟩ := run_sectioned σ (src.included path) (reader? σ n)
    (hread _ (bars_included src hpath)) s cs
  rw [text_eq_run] at hts ⊢
  have hfinish := State.agrees_finish
    (run σ (src.included path) (reader? σ n) s cs) (src.included path).uri
  have hsame : ts = us := by
    rw [hfinish.tokens, hus] at hts
    exact (List.append_cancel_left hts).symm
  refine ⟨ts, hts, ?_, huri⟩
  rw [hfinish.part, hsame]
  exact hsections

/-- Files keep track of the part however deep they are included. -/
theorem reader?_visits (σ : Setting) (n : Nat) (src : Source) (hbars : src.Bars src.uri) :
    ∀ read ∈ reader? σ n, Reader.Visits src.uri src read := by
  induction n generalizing src with
  | zero => simp [reader?]
  | succ n ih =>
    intro read hr
    rw [← Option.some.inj hr]
    exact visits_of_nested σ n hbars ih

/-- The part of a module is tracked across files and macros. In the tokens of a document, those of
included files and of replacement texts among them, an arrow stands only where the last keyword
before it that names a part is `SYSTEM`; and the halves of an arrow follow each other in one file
without a gap only where that keyword is `PROBLEM`, or there is none. -/
theorem document_part_tracked (σ : Setting) (uri : String) (src : Source)
    (hsrc : Source.ofUri σ.files uri = .ok src) (cache : IncludeCache) (cs : List Char) :
    let tokens := (document σ src cache .problem cs).tokens.toList
    (∀ before t after, tokens = before ++ t :: after → t.kind = .operator →
      t.text ∈ ["<->", "->", "<-"] →
      ∃ k, before.reverse.find? tellsPart = some k ∧ k.text = "SYSTEM") ∧
    ∀ before t u after, tokens = before ++ t :: u :: after → t.SplitsArrow u →
      ∀ k, before.reverse.find? tellsPart = some k → k.text = "PROBLEM" := by
  intro tokens
  obtain ⟨rfl, hbars⟩ := bars_ofUri hsrc
  obtain ⟨ts, hts, hsections, -⟩ := run_sectioned σ src (reader? σ (levels σ.options))
    (reader?_visits σ _ src hbars) (initial σ cache .problem) cs
  have htokens : tokens = ts := by
    have hfinish := State.agrees_finish
      (run σ src (reader? σ (levels σ.options)) (initial σ cache .problem) cs) src.uri
    simp only [tokens, document, text_eq_run]
    rw [hfinish.tokens, hts]
    rfl
  rw [htokens]
  refine ⟨?_, ?_⟩
  · intro before t after hsplit hkind htext
    rw [hsplit] at hsections
    cases hsections.tail with
    | cons harrow => exact exists_system (harrow (by simp [Token.isArrow, hkind, htext]))
  · intro before t u after hsplit hhalves k hk
    rw [hsplit] at hsections
    cases hsections.tail with
    | cons _ hproblem => exact text_eq_problem (hproblem u rfl hhalves) hk

theorem document_part_tracked_across_files :
    let σ : Setting :=
      { files := {
          entries := [(Path.ofString "/ws/b", { content := .text "SYSTEM;" }),
            (Path.ofString "/ws/c", { content := .text "<-X;PROBLEM" })]
          cwd := Path.ofString "/ws" } }
    let src : Source :=
      ⟨"file:///ws/a", some (Path.ofString "/ws/a"), [Path.ofString "/ws/a"]⟩
    let cs := "#include \"b\"\nA\n#include \"c\"\n; ->".toList
    let tokens := (document σ src {} .problem cs).tokens.toList
    let arrow : Token := ⟨.operator, "<-", "file:///ws/c", ⟨0, 0, 0⟩, 2, none⟩
    let minus : Token := ⟨.operator, "-", "file:///ws/a", ⟨3, 2, 30⟩, 1, none⟩
    let greater : Token := ⟨.operator, ">", "file:///ws/a", ⟨3, 3, 31⟩, 1, none⟩
    Source.ofUri σ.files "file:///ws/a" = .ok src ∧
    (tokens = tokens.take 5 ++ arrow :: tokens.drop 6 ∧
      ∃ k, (tokens.take 5).reverse.find? tellsPart = some k ∧ k.text = "SYSTEM") ∧
    tokens = tokens.take 10 ++ minus :: greater :: [] ∧ minus.SplitsArrow greater ∧
      ∀ k, (tokens.take 10).reverse.find? tellsPart = some k → k.text = "PROBLEM" := by
  intro σ src cs tokens arrow minus greater
  have hsrc : Source.ofUri σ.files "file:///ws/a" = .ok src := by decide +kernel
  obtain ⟨harrows, hhalves⟩ := document_part_tracked σ "file:///ws/a" src hsrc {} cs
  have harrow : tokens = tokens.take 5 ++ arrow :: tokens.drop 6 := by decide +kernel
  have hsplit : tokens = tokens.take 10 ++ minus :: greater :: [] := by decide +kernel
  have hminus : minus.SplitsArrow greater := ⟨rfl, rfl, rfl, rfl, Or.inl ⟨rfl, rfl⟩⟩
  exact ⟨hsrc, ⟨harrow, harrows _ arrow _ harrow rfl (by decide)⟩, hsplit, hminus,
    hhalves _ minus greater [] hsplit hminus⟩

end Scan

end Pearl
