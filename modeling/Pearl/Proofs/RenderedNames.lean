import Mathlib.Data.List.Chain
import Pearl.Event.Declaration
import Pearl.Event.Header
import Pearl.Proofs.DirectiveWord
import Pearl.Proofs.ScannedElements

namespace Pearl

namespace Text

open Lexeme

/-! ### The names that are spelled in a text -/

/-- The longest runs of name characters in a text, as far as they start with a letter. -/
def letterRuns (cs : List Char) : List (List Char) :=
  (cs.splitOnP (!isNameChar ·)).filter (·.head?.any Char.isAlpha)

/-- The names that are spelled in a text: what a reader takes for names there. -/
def spelledNames (text : String) : List String := (letterRuns text.toList).map String.ofList

theorem letterRuns_nil : letterRuns [] = [] := rfl

/-- No run goes on over a character that no name holds. -/
theorem letterRuns_append_cons {c : Char} (hc : isNameChar c = false) (cs ds : List Char) :
    letterRuns (cs ++ c :: ds) = letterRuns cs ++ letterRuns ds := by
  rw [letterRuns, List.splitOnP_append_cons cs ds (by simp [hc]), List.filter_append, letterRuns,
    letterRuns]

theorem letterRuns_cons {c : Char} (hc : isNameChar c = false) (ds : List Char) :
    letterRuns (c :: ds) = letterRuns ds :=
  letterRuns_append_cons hc [] ds

/-- The runs of two texts stay apart if the second starts with a character that no name holds. -/
theorem letterRuns_append_of_head? {ds : List Char} (h : ∀ d ∈ ds.head?, isNameChar d = false)
    (cs : List Char) : letterRuns (cs ++ ds) = letterRuns cs ++ letterRuns ds := by
  cases ds with
  | nil => simp [letterRuns_nil]
  | cons d ds => rw [letterRuns_append_cons (h d rfl), letterRuns_cons (h d rfl)]

/-- The runs of two texts stay apart if the first ends with a character that no name holds. -/
theorem letterRuns_append_of_getLast? {cs : List Char}
    (h : ∀ c ∈ cs.getLast?, isNameChar c = false) (ds : List Char) :
    letterRuns (cs ++ ds) = letterRuns cs ++ letterRuns ds := by
  rcases List.eq_nil_or_concat cs with rfl | ⟨cs, c, rfl⟩
  · rfl
  · have hc : isNameChar c = false := h c (by simp)
    rw [List.concat_eq_append, List.append_assoc, List.singleton_append,
      letterRuns_append_cons hc, letterRuns_append_cons hc, letterRuns_nil, List.append_nil]

/-- A text of name characters is one run. -/
theorem letterRuns_of_isNameChar {c : Char} {cs : List Char}
    (h : ∀ d ∈ c :: cs, isNameChar d = true) :
    letterRuns (c :: cs) = if c.isAlpha then [c :: cs] else [] := by
  have hsplit : (c :: cs).splitOnP (!isNameChar ·) = [c :: cs] :=
    List.splitOnP_eq_singleton fun d hd => by rw [h d hd]; rfl
  rw [letterRuns, hsplit]
  cases hc : c.isAlpha <;> simp [hc]

/-- The run at the head of a text is told apart from those behind it. -/
theorem letterRuns_cons_of_isNameChar {c : Char} (hc : isNameChar c = true) (cs : List Char) :
    letterRuns (c :: cs) =
      (if c.isAlpha then [c :: cs.takeWhile isNameChar] else []) ++
        letterRuns (cs.dropWhile isNameChar) := by
  have hrun : ∀ d ∈ c :: cs.takeWhile isNameChar, isNameChar d = true :=
    List.forall_mem_cons.mpr ⟨hc, fun d hd => List.mem_takeWhile_imp hd⟩
  have hnext : ∀ d ∈ (cs.dropWhile isNameChar).head?, isNameChar d = false := by
    intro d hd
    have hnot := List.head?_dropWhile_not isNameChar cs
    rw [Option.mem_def.mp hd] at hnot
    simpa using hnot
  rw [← letterRuns_of_isNameChar hrun, ← letterRuns_append_of_head? hnext, List.cons_append,
    List.takeWhile_append_dropWhile]

theorem letterRuns_of_not_isAlpha {cs : List Char} (h : ∀ c ∈ cs, c.isAlpha = false) :
    letterRuns cs = [] := by
  induction hn : cs.length using Nat.strongRecOn generalizing cs with
  | _ n ih =>
    cases cs with
    | nil => rfl
    | cons c cs =>
      obtain ⟨hc, hcs⟩ := List.forall_mem_cons.mp h
      have hle := (List.dropWhile_sublist (l := cs) isNameChar).length_le
      rw [List.length_cons] at hn
      cases hname : isNameChar c with
      | false =>
        rw [letterRuns_cons hname]
        exact ih cs.length (by omega) hcs rfl
      | true =>
        rw [letterRuns_cons_of_isNameChar hname, hc, if_neg Bool.false_ne_true, List.nil_append]
        exact ih _ (by omega) (fun d hd => hcs d ((List.dropWhile_sublist _).subset hd)) rfl

/-! ### Runs that grow together -/

/-- A measure of runs that grows when two become one and when one becomes longer. -/
def weight (runs : List (List Char)) : Nat := (runs.map (2 * ·.length - 1)).sum

@[simp] theorem weight_nil : weight [] = 0 := rfl

@[simp] theorem weight_cons (r : List Char) (runs : List (List Char)) :
    weight (r :: runs) = (2 * r.length - 1) + weight runs := rfl

@[simp] theorem weight_append (runs runs' : List (List Char)) :
    weight (runs ++ runs') = weight runs + weight runs' := by
  simp [weight]

/-- Runs hold at least one character each. -/
theorem weight_letterRuns_pos {cs : List Char} (h : letterRuns cs ≠ []) :
    0 < weight (letterRuns cs) := by
  obtain ⟨r, runs, hruns⟩ := List.exists_cons_of_ne_nil h
  have hr : r ∈ letterRuns cs := hruns ▸ List.mem_cons_self
  have hhead := (List.mem_filter.mp hr).2
  rw [hruns, weight_cons]
  cases r with
  | nil => cases hhead
  | cons c r =>
    rw [List.length_cons]
    omega

/-- Runs that nothing keeps apart weigh more as one. -/
theorem weight_letterRuns_append_lt {c d : Char} {cs : List Char} (hc : c.isAlpha = true)
    (hcs : ∀ e ∈ cs, isNameChar e = true) (hd : isNameChar d = true) (ds : List Char) :
    weight [c :: cs] + weight (letterRuns (d :: ds)) <
      weight (letterRuns (c :: cs ++ d :: ds)) := by
  have hrun : (cs ++ d :: ds).takeWhile isNameChar = cs ++ d :: ds.takeWhile isNameChar := by
    rw [List.takeWhile_append_of_pos hcs, List.takeWhile_cons_of_pos hd]
  have hrest : (cs ++ d :: ds).dropWhile isNameChar = ds.dropWhile isNameChar := by
    rw [List.dropWhile_append_of_pos hcs, List.dropWhile_cons_of_pos hd]
  rw [List.cons_append, letterRuns_cons_of_isNameChar (isNameChar_of_isAlpha hc), if_pos hc, hrun,
    hrest, letterRuns_cons_of_isNameChar hd]
  split <;> simp <;> omega

/-! ### Characters of words -/

/-- Name characters but the underscore are letters and digits. -/
theorem isAlphanumeric_of_isNameChar {c : Char} (h : isNameChar c = true) (hline : c ≠ '_') :
    isAlphanumeric c = true := by
  simp only [isNameChar, Char.isAlphanum, Bool.or_eq_true, decide_eq_true_eq] at h
  rcases h with (h | h) | h
  · simp [isAlphanumeric, isLetter, h]
  · simp [isAlphanumeric, isNumeral, h]
  · exact absurd h hline

theorem not_isAlphanumeric_line : isAlphanumeric '_' = false := by decide +kernel

theorem isNameChar_of_isBlank {c : Char} (h : isBlank c = true) : isNameChar c = false := by
  by_contra hname
  have hword : isWordChar c = true := by
    by_cases hline : c = '_'
    · simp [isWordChar, hline]
    · simp [isWordChar, isAlphanumeric_of_isNameChar (by simpa using hname) hline]
  rw [isBlank_of_isWordChar hword] at h
  cases h

/-! ### Names in texts that are put together -/

theorem spelledNames_trimEndString (s : String) :
    spelledNames (trimEndString s) = spelledNames s := by
  obtain ⟨blanks, happend, hblanks⟩ := exists_trimEnd_append s.toList
  have hnone : letterRuns blanks = [] := by
    apply letterRuns_of_not_isAlpha
    intro c hc
    by_contra halpha
    have hname := isNameChar_of_isAlpha (by simpa using halpha)
    rw [isNameChar_of_isBlank (hblanks c hc)] at hname
    cases hname
  have hruns : letterRuns s.toList = letterRuns (trimEnd s.toList) := by
    have hhead : ∀ c ∈ blanks.head?, isNameChar c = false :=
      fun c hc => isNameChar_of_isBlank (hblanks c (List.mem_of_mem_head? hc))
    rw [← happend, letterRuns_append_of_head? hhead, hnone, List.append_nil, happend]
  rw [spelledNames, spelledNames, trimEndString, String.toList_ofList, hruns]

theorem spelledNames_of_toList {c : Char} (hc : isNameChar c = false) {s t u : String}
    (h : s.toList = t.toList ++ c :: u.toList) :
    spelledNames s = spelledNames t ++ spelledNames u := by
  rw [spelledNames, h, letterRuns_append_cons hc, List.map_append, spelledNames, spelledNames]

end Text

namespace Lexeme

open Text

variable {kind : TokenKind} {cs : List Char}

theorem isNameChar_of_isSymbolChar {c : Char} (h : isSymbolChar c = true) :
    isNameChar c = false := by
  have hall : (['(', ')', '[', ']', ',', ';', ':', '.'].any isNameChar) = false := by decide
  simpa using List.any_eq_false.mp hall c (List.contains_iff_mem.mp h)

theorem Spelled.ne_nil (h : Spelled kind cs) : cs ≠ [] := by
  cases h <;> exact List.cons_ne_nil _ _

/-- What is no punctuation starts with a letter or a digit. -/
theorem Spelled.head?_of_ne (h : Spelled kind cs) (hk : kind ≠ .symbol) :
    ∃ c, cs.head? = some c ∧ isNameChar c = true ∧ isAlphanumeric c = true := by
  cases h with
  | @name _ c cs hkind hc hcs =>
    exact ⟨c, rfl, isNameChar_of_isAlpha hc, by simp [isAlphanumeric, isLetter, hc]⟩
  | symbol => exact absurd rfl hk
  | @number c cs hc hcs =>
    have hname : isNameChar c = true := by simp [isNameChar, Char.isAlphanum, hc]
    exact ⟨c, rfl, hname, by simp [isAlphanumeric, isNumeral, hc]⟩

/-- Punctuation is one character, which no name holds. -/
theorem Spelled.of_symbol (h : Spelled kind cs) (hk : kind = .symbol) :
    ∃ c, cs = [c] ∧ isNameChar c = false := by
  cases h with
  | name hkind => simp [hk] at hkind
  | symbol hc => exact ⟨_, rfl, isNameChar_of_isSymbolChar hc⟩
  | number => cases hk

/-- None but names end with an underscore. -/
theorem Spelled.of_getLast? (h : Spelled kind cs) (hlast : cs.getLast? = some '_') :
    kind = .keyword ∨ kind = .identifier := by
  cases h with
  | name hkind => exact hkind
  | symbol hc =>
    cases hlast
    exact absurd hc (by decide)
  | @number c cs hc hcs =>
    have hmem := List.mem_of_getLast? hlast
    rcases List.mem_cons.mp hmem with rfl | hmem
    · exact absurd hc (by decide)
    · exact absurd hmem hcs

theorem Spelled.kind_cases (h : Spelled kind cs) :
    (kind = .keyword ∨ kind = .identifier) ∨ kind = .symbol ∨ kind = .number := by
  cases h with
  | name hkind => exact .inl hkind
  | symbol => exact .inr (.inl rfl)
  | number => exact .inr (.inr rfl)

/-- A name is a letter and then characters of a name. -/
theorem Spelled.of_name (h : Spelled kind cs) (hk : kind = .keyword ∨ kind = .identifier) :
    ∃ c ds, cs = c :: ds ∧ c.isAlpha = true ∧ ∀ d ∈ ds, isNameChar d = true := by
  cases h with
  | name hkind hc hcs => exact ⟨_, _, rfl, hc, hcs⟩
  | symbol | number => simp at hk

theorem Spelled.letterRuns_of_name (h : Spelled kind cs)
    (hk : kind = .keyword ∨ kind = .identifier) : letterRuns cs = [cs] := by
  obtain ⟨c, ds, rfl, hc, hds⟩ := h.of_name hk
  have hrun : ∀ d ∈ c :: ds, isNameChar d = true :=
    List.forall_mem_cons.mpr ⟨isNameChar_of_isAlpha hc, hds⟩
  rw [letterRuns_of_isNameChar hrun, if_pos hc]

theorem Spelled.letterRuns_of_symbol (h : Spelled kind cs) (hk : kind = .symbol) :
    letterRuns cs = [] := by
  obtain ⟨c, rfl, hc⟩ := h.of_symbol hk
  rw [letterRuns_cons hc, letterRuns_nil]

end Lexeme

namespace Word

open Text Lexeme

/-! ### Words in a row -/

/-- The word is a name: a keyword or a name that the programmer has chosen. -/
def isName (w : Word) : Bool := w.kind = .keyword || w.kind = .identifier

theorem isName_iff {w : Word} : w.isName = true ↔ w.kind = .keyword ∨ w.kind = .identifier := by
  simp [isName]

def nameTexts (words : List Word) : List String := (words.filter isName).map (·.text)

def nameRuns (words : List Word) : List (List Char) := (words.filter isName).map (·.text.toList)

theorem nameRuns_cons (w : Word) (words : List Word) :
    nameRuns (w :: words) = nameRuns [w] ++ nameRuns words := by
  rw [nameRuns, nameRuns, nameRuns, ← List.singleton_append, List.filter_append, List.map_append]

theorem nameRuns_of_isName {w : Word} (h : w.isName = true) : nameRuns [w] = [w.text.toList] := by
  rw [nameRuns, List.filter_cons_of_pos h]
  rfl

theorem nameRuns_of_not_isName {w : Word} (h : ¬w.isName = true) : nameRuns [w] = [] := by
  rw [nameRuns, List.filter_cons_of_neg h]
  rfl

theorem nameTexts_eq (words : List Word) : nameTexts words = (nameRuns words).map String.ofList := by
  simp [nameTexts, nameRuns]

/-- No name that ends with an underscore stands right before a name or a number, and no number
spells a name by itself. -/
def KeptApart (words : List Word) : Prop :=
  words.IsChain (fun w v => w.text.toList.getLast? = some '_' → v.kind = .symbol) ∧
    ∀ w ∈ words, w.kind = .number → spelledNames w.text = []

def joined (words : List Word) : List Char := joinAfter none (words.map (·.text.toList))

theorem render_eq (words : List Word) : render words = String.ofList (joined words) := by
  rw [render, joinTexts, joined, List.map_map]
  rfl

/-- A blank is put between two words if the one ends and the other starts with a letter or a
digit. -/
def gap (w : Word) (words : List Word) : List Char :=
  if w.text.toList.getLast?.any isAlphanumeric &&
    (words.head?.any fun v => v.text.toList.head?.any isAlphanumeric) then [' '] else []

theorem joined_cons {w : Word} {words : List Word} (hw : w.text.toList ≠ [])
    (hwords : ∀ v ∈ words.head?, v.text.toList ≠ []) :
    joined (w :: words) = w.text.toList ++ (gap w words ++ joined words) := by
  obtain ⟨c, hc⟩ : ∃ c, w.text.toList.getLast? = some c :=
    Option.isSome_iff_exists.mp (by simpa using hw)
  rw [joined, List.map_cons, joinAfter, hc, gap, hc]
  cases words with
  | nil => simp [joinAfter, joined]
  | cons v words =>
    obtain ⟨d, hd⟩ : ∃ d, v.text.toList.getLast? = some d :=
      Option.isSome_iff_exists.mp (by simpa using hwords v rfl)
    simp [joined, joinAfter, hd]

theorem head?_joined_cons {w : Word} (hw : w.text.toList ≠ []) (words : List Word) :
    (joined (w :: words)).head? = w.text.toList.head? := by
  obtain ⟨c, cs, hcs⟩ := List.exists_cons_of_ne_nil hw
  simp [joined, joinAfter, hcs]

theorem keptApart_cons {w : Word} {words : List Word} :
    KeptApart (w :: words) ↔
      ((∀ v ∈ words.head?, w.text.toList.getLast? = some '_' → v.kind = .symbol) ∧
        (w.kind = .number → letterRuns w.text.toList = [])) ∧ KeptApart words := by
  simp only [KeptApart, List.isChain_cons, List.forall_mem_cons, spelledNames, List.map_eq_nil_iff]
  tauto

/-! #### Words that are kept apart -/

section Spelled

variable {w : Word} {words : List Word}

/-- The runs of a word and of those behind it stay apart unless an underscore stands between
them. -/
theorem letterRuns_joined_cons (hw : Spelled w.kind w.text.toList)
    (hwords : ∀ v ∈ words.head?, Spelled v.kind v.text.toList)
    (hapart : ∀ v ∈ words.head?, w.text.toList.getLast? = some '_' → v.kind = .symbol) :
    letterRuns (joined (w :: words)) = letterRuns w.text.toList ++ letterRuns (joined words) := by
  rw [joined_cons hw.ne_nil fun v hv => (hwords v hv).ne_nil, gap]
  split
  · rw [List.singleton_append, letterRuns_append_cons (by decide)]
  · rename_i hgap
    rw [List.nil_append]
    cases words with
    | nil => simp [joined, joinAfter, letterRuns_nil]
    | cons v words =>
      have hv := hwords v rfl
      by_cases hsymbol : v.kind = .symbol
      · apply letterRuns_append_of_head?
        obtain ⟨c, hc, hname⟩ := hv.of_symbol hsymbol
        rw [head?_joined_cons hv.ne_nil, hc]
        simpa using hname
      · apply letterRuns_append_of_getLast?
        intro c hc
        by_contra hname
        -- the last character is neither an underscore nor one that a blank would follow
        have hline : c ≠ '_' := by
          rintro rfl
          exact hsymbol (hapart v rfl hc)
        have hlast := isAlphanumeric_of_isNameChar (by simpa using hname) hline
        obtain ⟨d, hd, -, hfirst⟩ := hv.head?_of_ne hsymbol
        apply hgap
        rw [Option.mem_def.mp hc, List.head?_cons, Option.any_some, Option.any_some, hd,
          Option.any_some, hlast, hfirst]
        rfl

/-- A name that ends with an underscore and the word behind it weigh more as one. -/
theorem weight_joined_cons_lt (hw : Spelled w.kind w.text.toList)
    (hwords : ∀ v ∈ words.head?, Spelled v.kind v.text.toList)
    (hline : w.text.toList.getLast? = some '_') {v : Word} (hv : v ∈ words.head?)
    (hsymbol : v.kind ≠ .symbol) :
    weight (nameRuns [w]) + weight (letterRuns (joined words)) <
      weight (letterRuns (joined (w :: words))) := by
  have hkind := hw.of_getLast? hline
  have hown : nameRuns [w] = [w.text.toList] := nameRuns_of_isName (isName_iff.mpr hkind)
  obtain ⟨c, cs, htext, hc, hcs⟩ := hw.of_name hkind
  obtain ⟨d, hd, hdname, -⟩ := (hwords v hv).head?_of_ne hsymbol
  obtain ⟨ds, hds⟩ : ∃ ds, joined words = d :: ds := by
    obtain ⟨words, rfl⟩ := List.head?_eq_some_iff.mp hv
    rw [← head?_joined_cons (hwords v hv).ne_nil words] at hd
    exact List.head?_eq_some_iff.mp hd
  have hjoined : joined (w :: words) = c :: cs ++ d :: ds := by
    rw [joined_cons hw.ne_nil fun v hv => (hwords v hv).ne_nil, gap, hline, Option.any_some,
      not_isAlphanumeric_line, Bool.false_and, if_neg Bool.false_ne_true, List.nil_append, hds,
      htext]
  rw [hown, hjoined, hds, htext]
  exact weight_letterRuns_append_lt hc hcs hdname ds

/-- The runs of a word are its names, unless it is a number that spells one. -/
theorem letterRuns_word (hw : Spelled w.kind w.text.toList)
    (hnumber : w.kind = .number → letterRuns w.text.toList = []) :
    letterRuns w.text.toList = nameRuns [w] := by
  by_cases hname : w.isName = true
  · rw [hw.letterRuns_of_name (isName_iff.mp hname), nameRuns_of_isName hname]
  · rw [nameRuns_of_not_isName hname]
    rcases hw.kind_cases with hkind | hsymbol | hkind
    · exact absurd (isName_iff.mpr hkind) hname
    · exact hw.letterRuns_of_symbol hsymbol
    · exact hnumber hkind

/-- By induction on the words: none of them runs into the next. -/
theorem letterRuns_joined (hwords : ∀ w ∈ words, Spelled w.kind w.text.toList)
    (h : KeptApart words) : letterRuns (joined words) = nameRuns words := by
  induction words with
  | nil => rfl
  | cons w words ih =>
    obtain ⟨hw, hwords⟩ := List.forall_mem_cons.mp hwords
    obtain ⟨⟨hapart, hnumber⟩, h⟩ := keptApart_cons.mp h
    rw [letterRuns_joined_cons hw (fun v hv => hwords v (List.mem_of_mem_head? hv)) hapart,
      letterRuns_word hw hnumber, ih hwords h, ← nameRuns_cons]

/-- By induction on the words: a word that runs into the next, and a number that spells a name,
make the runs heavier than the names, and no other word makes them lighter. -/
theorem weight_nameRuns_lt (hwords : ∀ w ∈ words, Spelled w.kind w.text.toList)
    (h : ¬KeptApart words) : weight (nameRuns words) < weight (letterRuns (joined words)) := by
  induction words with
  | nil => exact absurd ⟨.nil, by simp⟩ h
  | cons w words ih =>
    obtain ⟨hw, hwords⟩ := List.forall_mem_cons.mp hwords
    have hhead : ∀ v ∈ words.head?, Spelled v.kind v.text.toList :=
      fun v hv => hwords v (List.mem_of_mem_head? hv)
    have hrest : weight (nameRuns words) ≤ weight (letterRuns (joined words)) := by
      by_cases hkept : KeptApart words
      · rw [letterRuns_joined hwords hkept]
      · exact (ih hwords hkept).le
    rw [nameRuns_cons, weight_append]
    by_cases hapart : ∀ v ∈ words.head?, w.text.toList.getLast? = some '_' → v.kind = .symbol
    · rw [letterRuns_joined_cons hw hhead hapart, weight_append]
      by_cases hnumber : w.kind = .number → letterRuns w.text.toList = []
      · -- the word adds what it names, so those behind it are not kept apart
        have hlt := ih hwords fun hkept => h (keptApart_cons.mpr ⟨⟨hapart, hnumber⟩, hkept⟩)
        rw [letterRuns_word hw hnumber]
        omega
      · -- a number adds a run, and there is no name for it
        obtain ⟨hkind, hne⟩ := Classical.not_imp.mp hnumber
        have hpos := weight_letterRuns_pos hne
        have hnone : nameRuns [w] = [] := nameRuns_of_not_isName (by simp [isName, hkind])
        rw [hnone, weight_nil]
        omega
    · push Not at hapart
      obtain ⟨v, hv, hline, hsymbol⟩ := hapart
      have hlt := weight_joined_cons_lt hw hhead hline hv hsymbol
      omega

/-- The runs of words in a row are the names among them as far as they are kept apart. -/
theorem letterRuns_joined_iff (hwords : ∀ w ∈ words, Spelled w.kind w.text.toList) :
    letterRuns (joined words) = nameRuns words ↔ KeptApart words := by
  refine ⟨fun heq => ?_, letterRuns_joined hwords⟩
  by_contra hnot
  have hlt := weight_nameRuns_lt hwords hnot
  rw [heq] at hlt
  exact lt_irrefl _ hlt

end Spelled

/-! ### Texts that are shown -/

/-- The word has been scanned in some text, and types are made of words of its kind. -/
structure IsTypeWord (w : Word) : Prop where
  kind : w.kind ∈ [.keyword, .identifier, .symbol, .number]
  scanned : ∃ (σ : Scan.Setting) (src : Scan.Source) (cache : IncludeCache) (part : Part)
    (cs : List Char), ∃ t ∈ (Scan.document σ src cache part cs).tokens,
      t.kind = w.kind ∧ t.text = w.text

theorem IsTypeWord.spelled {w : Word} (h : w.IsTypeWord) : Spelled w.kind w.text.toList := by
  obtain ⟨σ, src, cache, part, cs, t, ht, hkind, htext⟩ := h.scanned
  have hmem := h.kind
  rw [← hkind] at hmem
  rw [← hkind, ← htext]
  rcases Scan.isElement_of_mem_document ht with htrivia | ⟨part, c, cs, hk, hx⟩
  · have hnone : ∀ k ∈ [TokenKind.keyword, .identifier, .symbol, .number], k.isTrivia = false := by
      decide
    rw [hnone _ hmem] at htrivia
    cases htrivia
  · rw [hk] at hmem ⊢
    rw [hx, String.toList_ofList]
    exact spelled_head hmem

/-- The tokens of a text that count, as words. -/
theorem isTypeWord_of_mem {σ : Scan.Setting} {src : Scan.Source} {cache : IncludeCache}
    {part : Part} {cs : List Char} {w : Word}
    (hw : w ∈ ofTokens (significant (Scan.document σ src cache part cs).tokens.toList))
    (hkind : w.kind ∈ [.keyword, .identifier, .symbol, .number]) : w.IsTypeWord := by
  obtain ⟨t, ht, rfl⟩ := List.mem_map.mp hw
  have hmem := List.mem_of_mem_filter (List.fst_mem_of_mem_zipIdx ht)
  exact ⟨hkind, σ, src, cache, part, cs, t.1, Array.mem_toList_iff.mp hmem, rfl, rfl⟩

variable {w : Word} {words : List Word}

theorem spelledNames_render_iff (hwords : ∀ w ∈ words, w.IsTypeWord) :
    spelledNames (render words) = nameTexts words ↔ KeptApart words := by
  rw [← letterRuns_joined_iff fun w hw => (hwords w hw).spelled, spelledNames, render_eq,
    String.toList_ofList, nameTexts_eq]
  exact List.map_inj_right fun cs ds => String.ofList_injective

/-- Numbers without letters spell no names. -/
theorem keptApart_iff_isChain
    (hnumber : ∀ w ∈ words, w.kind = .number → w.text.toList.any Char.isAlpha = false) :
    KeptApart words ↔
      words.IsChain fun w v => w.text.toList.getLast? = some '_' → v.kind = .symbol := by
  refine and_iff_left fun w hw hkind => ?_
  have hnone : ∀ c ∈ w.text.toList, c.isAlpha = false := by
    simpa using List.any_eq_false.mp (hnumber w hw hkind)
  rw [spelledNames, letterRuns_of_not_isAlpha hnone, List.map_nil]

theorem spelledNames_text (hw : w.IsTypeWord) (hname : w.isName = true) :
    spelledNames w.text = [w.text] := by
  rw [spelledNames, hw.spelled.letterRuns_of_name (isName_iff.mp hname)]
  simp

theorem nameTexts_cons (hname : w.isName = true) :
    nameTexts (w :: words) = w.text :: nameTexts words := by
  rw [nameTexts, List.filter_cons_of_pos hname, List.map_cons, nameTexts]

theorem spelledNames_parameter (hw : w.IsTypeWord) (hname : w.isName = true) (type : String) :
    spelledNames (trimEndString s!"{w.text} {type}") = w.text :: spelledNames type := by
  have hblank : (s!"{w.text} {type}").toList = w.text.toList ++ ' ' :: type.toList := by
    simp [toString]
  rw [spelledNames_trimEndString, spelledNames_of_toList (by decide) hblank,
    spelledNames_text hw hname, List.singleton_append]

theorem spelledNames_inBrackets (hw : w.IsTypeWord) (hname : w.isName = true) (inner : String) :
    spelledNames s!"{w.text}({inner})" = w.text :: spelledNames inner := by
  have hopen : (s!"{w.text}({inner})").toList = w.text.toList ++ '(' :: (inner ++ ")").toList := by
    simp [toString]
  have hclose : (inner ++ ")").toList = inner.toList ++ ')' :: "".toList := by simp
  rw [spelledNames_of_toList (by decide) hopen, spelledNames_of_toList (by decide) hclose,
    spelledNames_text hw hname]
  simp [spelledNames, letterRuns_nil]

/-- The texts that are shown for a parameter: how it is written, and its type. -/
theorem exists_parameter_of_mem {names : List Word}
    (hnames : ∀ n ∈ names, n.IsTypeWord ∧ n.isName = true) {e : Event}
    (he : e ∈ Event.parameterEvents names words) :
    ∃ n ∈ names, ∃ kind attributes shown, e = .parameter n.occurrence kind attributes shown ∧
      spelledNames shown = n.text :: spelledNames (render words) ∧
      spelledNames (attributes.typeName.getD "") = spelledNames (render words) := by
  obtain ⟨n, hn, rfl⟩ := List.mem_map.mp he
  obtain ⟨hword, hname⟩ := hnames n hn
  refine ⟨n, hn, _, _, _, rfl, spelledNames_parameter hword hname _, ?_⟩
  dsimp only
  split
  · rename_i hempty
    rw [hempty]
    rfl
  · rfl

/-- Rendered words spell just the names among them, in order, if and only if every name that ends
with an underscore stands at the end or before punctuation, and no number spells a name by itself,
which none without letters does. So do the texts of parameters and types that are shown. -/
theorem spelledNames_render (hwords : ∀ w ∈ words, w.IsTypeWord) :
    (spelledNames (render words) = nameTexts words ↔ KeptApart words) ∧
    ((∀ w ∈ words, w.kind = .number → w.text.toList.any Char.isAlpha = false) →
      (spelledNames (render words) = nameTexts words ↔
        words.IsChain fun w v => w.text.toList.getLast? = some '_' → v.kind = .symbol)) ∧
    (∀ names : List Word, (∀ n ∈ names, n.IsTypeWord ∧ n.isName = true) →
      ∀ e ∈ Event.parameterEvents names words, ∃ n ∈ names, ∃ kind attributes shown,
        e = .parameter n.occurrence kind attributes shown ∧
        (spelledNames shown = nameTexts (n :: words) ↔ KeptApart words) ∧
        (spelledNames (attributes.typeName.getD "") = nameTexts words ↔ KeptApart words)) ∧
    ∀ (rest : List Word) (g : Event.Group), Event.optionalGroup ["("] false rest = some g →
      g.inner = words →
      (spelledNames ((Event.groupText? rest).getD "") = nameTexts words ↔ KeptApart words) ∧
      ∀ w : Word, w.IsTypeWord → w.isName = true →
        (spelledNames (Event.typeText w rest) = nameTexts (w :: words) ↔ KeptApart words) := by
  have hiff := spelledNames_render_iff hwords
  refine ⟨hiff, fun hnumber => hiff.trans (keptApart_iff_isChain hnumber), ?_, ?_⟩
  · intro names hnames e he
    obtain ⟨n, hn, kind, attributes, shown, rfl, hshown, htype⟩ :=
      exists_parameter_of_mem hnames he
    refine ⟨n, hn, kind, attributes, shown, rfl, ?_, ?_⟩
    · rw [hshown, nameTexts_cons (hnames n hn).2, List.cons_inj_right, hiff]
    · rw [htype, hiff]
  · intro rest g hg hinner
    have htext : Event.groupText? rest = some (render words) := by
      rw [Event.groupText?, hg, Option.map_some, hinner]
    refine ⟨by rw [htext, Option.getD_some, hiff], fun w hw hname => ?_⟩
    have htype : Event.typeText w rest = s!"{w.text}({render words})" := by
      rw [Event.typeText, htext]
    rw [htype, spelledNames_inBrackets hw hname, nameTexts_cons hname, List.cons_inj_right, hiff]

/-- A parameter whose type has a name that ends with an underscore before a comma, and a number
before a keyword. -/
theorem spelledNames_render_kept_apart :
    let scan := Scan.document { files := { cwd := Path.ofString "/ws" } } ⟨"<input>", none, []⟩ {}
      .problem "Y X_ , FIXED(15) 7 IDENT".toList
    let words := ofTokens (significant scan.tokens.toList)
    let type := words.drop 1
    (∀ w ∈ words, w.IsTypeWord) ∧ render type = "X_,FIXED(15)7 IDENT" ∧
      spelledNames (render type) = ["X_", "FIXED", "IDENT"] ∧
      ∀ e ∈ Event.parameterEvents (words.take 1) type, ∃ name kind attributes shown,
        e = .parameter name kind attributes shown ∧
        spelledNames shown = ["Y", "X_", "FIXED", "IDENT"] := by
  intro scan words type
  have hscan : words = [⟨.identifier, "Y", 0⟩, ⟨.identifier, "X_", 1⟩, ⟨.symbol, ",", 2⟩,
      ⟨.keyword, "FIXED", 3⟩, ⟨.symbol, "(", 4⟩, ⟨.number, "15", 5⟩, ⟨.symbol, ")", 6⟩,
      ⟨.number, "7", 7⟩, ⟨.keyword, "IDENT", 8⟩] := by decide +kernel
  have hwords : ∀ w ∈ words, w.IsTypeWord :=
    fun w hw => isTypeWord_of_mem hw (by rw [hscan] at hw; revert w; decide +kernel)
  have htype : nameTexts type = ["X_", "FIXED", "IDENT"] := by
    dsimp only [type]
    rw [hscan]
    decide +kernel
  have hnames : ∀ n ∈ words.take 1, n.IsTypeWord ∧ n.isName = true := by
    intro n hn
    refine ⟨hwords n (List.mem_of_mem_take hn), ?_⟩
    rw [hscan] at hn
    rw [List.mem_singleton.mp hn]
    rfl
  obtain ⟨hrender, hinteger, hshown, -⟩ :=
    spelledNames_render fun w hw => hwords w (List.mem_of_mem_drop hw)
  have hkept : spelledNames (render type) = nameTexts type :=
    (hinteger (by rw [hscan]; decide +kernel)).mpr (by rw [hscan]; decide +kernel)
  refine ⟨hwords, ?_, hkept.trans htype, fun e he => ?_⟩
  · dsimp only [type]
    rw [hscan]
    decide +kernel
  · obtain ⟨n, hn, kind, attributes, shown, rfl, hnames', -⟩ := hshown _ hnames e he
    refine ⟨_, kind, attributes, shown, rfl, ?_⟩
    rw [hnames'.mpr (hrender.mp hkept), nameTexts_cons (hnames n hn).2, htype]
    rw [hscan] at hn
    rw [List.mem_singleton.mp hn]

/-- The type of a parameter runs into the word behind it. -/
theorem render_fuses :
    let scan := Scan.document { files := { cwd := Path.ofString "/ws" } } ⟨"<input>", none, []⟩ {}
      .problem "T_ IDENT".toList
    let words := ofTokens (significant scan.tokens.toList)
    (∀ w ∈ words, w.IsTypeWord) ∧ nameTexts words = ["T_", "IDENT"] ∧
      spelledNames (render words) = ["T_IDENT"] ∧
      Event.parameterEvents [⟨.identifier, "X", 0⟩] words =
        [.parameter ⟨"X", 0⟩ .var
          { typeName := some "T_IDENT", isParameter := true, isIdent := true } "X T_IDENT"] := by
  intro scan words
  have hscan : words = [⟨.identifier, "T_", 0⟩, ⟨.keyword, "IDENT", 1⟩] := by decide +kernel
  refine ⟨fun w hw => isTypeWord_of_mem hw (by rw [hscan] at hw; revert w; decide +kernel), ?_⟩
  rw [hscan]
  decide +kernel

end Word

end Pearl
