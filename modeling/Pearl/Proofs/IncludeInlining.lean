import Pearl.Proofs.ScanSimilarity

namespace Pearl

/-! ### A text with something after it -/

namespace Text

theorem splitLine_append_of_mem {cs : List Char} (h : '\n' ∈ cs) (rest : List Char) :
    (splitLine (cs ++ rest)).1 = (splitLine cs).1 := by
  induction cs with
  | nil => cases h
  | cons c cs ih =>
    simp only [splitLine, List.cons_append, List.takeWhile_cons] at ih ⊢
    by_cases hc : c = '\n'
    · simp [hc]
    · rw [ih ((List.mem_cons.mp h).resolve_left (Ne.symm hc))]

theorem splitLine_append_of_atLineEnd {rest : List Char} (h : AtLineEnd rest) (cs : List Char) :
    (splitLine (cs ++ rest)).1 = (splitLine cs).1 := by
  rw [splitLine, splitLine, takeWhile_append_of_head]
  intro c hc
  rw [h c hc]
  rfl

theorem AtLineEnd.append {cs rest : List Char} (h : AtLineEnd cs)
    (hline : (splitLine (cs ++ rest)).1 = (splitLine cs).1) : AtLineEnd (cs ++ rest) := by
  have hsplit : splitLine ([] ++ cs) = ([], cs) := splitLine_append List.not_mem_nil h
  rw [List.nil_append] at hsplit
  have happend := splitLine_append_self (cs ++ rest)
  rw [hline, hsplit, List.nil_append] at happend
  rw [← happend]
  exact atLineEnd_splitLine _

end Text

namespace Lexeme

open Text

/-- A comment that is closed stays as it is. -/
theorem commentExtent_append {cs : List Char} (h : (commentExtent cs).2 = true)
    (rest : List Char) :
    commentExtent (cs ++ rest) = commentExtent cs ∧ (commentExtent cs).1 ≤ cs.length := by
  fun_induction commentExtent cs with
  | case1 => cases h
  | case2 ds => exact ⟨rfl, by simp⟩
  | case3 c cs hclose r ih =>
    obtain ⟨hextent, hle⟩ := ih h
    refine ⟨?_, Nat.succ_le_succ hle⟩
    rw [List.cons_append, commentExtent_cons, hextent]
    rintro rfl
    cases cs with
    | nil => cases h
    | cons d ds =>
      intro hd
      exact hclose ds rfl (by rw [Option.some.inj hd])

/-- An element stays as it is if its line does and a comment is closed. -/
theorem extent_append_of_line {part : Part} {c : Char} {cs rest : List Char}
    (hfault : (extent part c cs).fault ≠ some .unterminatedComment)
    (hline : (splitLine (tail part c cs ++ rest)).1 = (splitLine (tail part c cs)).1) :
    extent part c (cs ++ rest) = extent part c cs ∧ (extent part c cs).extra ≤ cs.length := by
  cases hc : startsComment c cs with
  | false =>
    refine ⟨extent_eq_of_line hc ?_, extent_extra_le part c cs hc⟩
    have h := splitLine_append_congr hline (cs.take (extent part c cs).extra)
    rw [← List.append_assoc, tail, List.take_append_drop] at h
    exact h
  | true =>
    obtain ⟨rfl, ds, rfl⟩ := eq_of_startsComment hc
    rw [List.cons_append, extent_comment, extent_comment] at *
    have hclosed : (commentExtent ds).2 = true := by
      by_contra hopen
      simp [hopen] at hfault
    obtain ⟨hextent, hle⟩ := commentExtent_append hclosed rest
    rw [hextent]
    exact ⟨rfl, Nat.succ_le_succ hle⟩

theorem head_append {part : Part} {c : Char} {cs rest : List Char}
    (hfault : (head part c cs).fault ≠ some .unterminatedComment)
    (hline : (splitLine (tail part c cs ++ rest)).1 = (splitLine (tail part c cs)).1) :
    head part c (cs ++ rest) = head part c cs ∧
      tail part c (cs ++ rest) = tail part c cs ++ rest := by
  obtain ⟨hextent, hle⟩ := extent_append_of_line hfault hline
  rw [head, tail, hextent]
  refine ⟨?_, List.drop_append_of_le_length hle⟩
  rw [List.take_append_of_le_length hle, head]

theorem commentExtent_open {cs : List Char} (h : (commentExtent cs).2 = false) :
    (commentExtent cs).1 = cs.length := by
  fun_induction commentExtent cs with
  | case1 => rfl
  | case2 => cases h
  | case3 c cs hclose r ih => exact congrArg Nat.succ (ih h)

theorem startsComment_of_fault {part : Part} {c : Char} {cs : List Char}
    (h : (extent part c cs).fault = some .unterminatedComment) : startsComment c cs = true := by
  by_contra hc
  have hquoted : (quotedExtent cs).fault ≠ some .unterminatedComment := by
    unfold quotedExtent
    split
    · simp
    · split <;> simp
  have hoperator : (operatorExtent part c cs).fault ≠ some .unterminatedComment := by
    unfold operatorExtent
    split
    · simp
    · split
      · simp
      · split <;> simp
  unfold extent at h
  rw [show (decide (c = '/') && decide (cs.head? = some '*')) = false from
    Bool.eq_false_iff.mpr hc] at h
  split at h
  · cases h
  · rw [if_neg Bool.false_ne_true] at h
    split at h
    · cases h
    · split at h
      · cases h
      · split at h
        · exact hquoted h
        · exact hoperator h

/-- A comment that is not closed goes on to the end of the text. -/
theorem tail_eq_nil {part : Part} {c : Char} {cs : List Char}
    (h : (head part c cs).fault = some .unterminatedComment) : tail part c cs = [] := by
  obtain ⟨rfl, ds, rfl⟩ := eq_of_startsComment (startsComment_of_fault h)
  change (extent part '/' ('*' :: ds)).fault = _ at h
  rw [extent_comment] at h
  have hopen : (commentExtent ds).2 = false := by
    by_contra hclosed
    simp [hclosed] at h
  rw [tail, extent_comment, commentExtent_open hopen, List.drop_succ_cons, List.drop_length]

end Lexeme

theorem Conditional.snd_of_active {α : Type} {c : Conditional α} (h : c.active = true) :
    ∀ f ∈ c.flags.head?, f.2 = true := by
  obtain ⟨_ | ⟨d, outer⟩⟩ := c
  · intro f hf
    cases hf
  · rintro f ⟨⟩
    exact h

namespace Scan

variable {directives : Bool} {s : State} {text rest after : List Char} {p : Piece}

/-- A piece stays as it is if its line does and a comment is closed. -/
theorem Next.append (h : Next directives s text p rest)
    (hp : ∀ l, p = .element l → l.fault ≠ some .unterminatedComment)
    (hline : (Text.splitLine (rest ++ after)).1 = (Text.splitLine rest).1) :
    Next directives s (text ++ after) p (rest ++ after) := by
  cases h with
  | newline rest => exact .newline (rest ++ after)
  | space rest hc => exact .space (rest ++ after) hc
  | directive hd hs hl hrest =>
    rw [List.cons_append, List.append_assoc]
    exact .directive hd hs hl (hrest.append hline)
  | inactive hn hc hs hd ha hl hrest =>
    rw [List.cons_append, List.append_assoc]
    exact .inactive hn hc hs hd ha hl (hrest.append hline)
  | @element c cs hn hc hs =>
    obtain ⟨hhead, htail⟩ := Lexeme.head_append (hp _ rfl) hline
    rw [← hhead, ← htail]
    exact .element hn hc hs

variable {σ : Setting} {src : Source} {nested : Option Reader}

/-- A line that has been started is not finished without a line end. -/
theorem lineStart_run {cs : List Char} (hcs : '\n' ∉ cs) (hs : s.lineStart = false) :
    (run σ src nested s cs).lineStart = false := by
  induction s, cs using run_induction σ src nested with
  | nil s => rwa [run_nil]
  | next s text p rest hnext ih =>
    rw [run_of_next σ src nested hnext]
    rw [← hnext.chars_append, List.mem_append, not_or] at hcs
    apply ih hcs.2
    rw [State.lineStart_take]
    cases hnext with
    | newline => exact absurd (List.mem_singleton_self _) hcs.1
    | space => exact hs
    | directive | inactive | element => rfl

/-- A text that ends at the start of a line is read without regard to what follows it. -/
theorem run_append_of_lineStart {before : List Char}
    (h : (run σ src nested s before).lineStart = true) (after : List Char) :
    run σ src nested s (before ++ after) = run σ src nested (run σ src nested s before) after := by
  induction s, before using run_induction σ src nested with
  | nil s => rw [run_nil, List.nil_append]
  | next s text p rest hnext ih =>
    rw [run_of_next σ src nested hnext] at h ⊢
    have hstarted : (s.take σ src nested p).lineStart = false → '\n' ∈ rest := by
      intro hs
      by_contra hrest
      rw [lineStart_run hrest hs] at h
      cases h
    have hline : (s.take σ src nested p).lineStart = false →
        (Text.splitLine (rest ++ after)).1 = (Text.splitLine rest).1 :=
      fun hs => Text.splitLine_append_of_mem (hstarted hs) after
    rw [State.lineStart_take] at hstarted hline
    have happend : Next σ.directives s (text ++ after) p (rest ++ after) := by
      cases hnext with
      | newline rest => exact .newline (rest ++ after)
      | space rest hc => exact .space (rest ++ after) hc
      | directive hd hs hl hrest =>
        exact (Next.directive hd hs hl hrest).append (by simp) (hline rfl)
      | inactive hn hc hs hd ha hl hrest =>
        exact (Next.inactive hn hc hs hd ha hl hrest).append (by simp) (hline rfl)
      | element hn hc hs =>
        refine (Next.element hn hc hs).append ?_ (hline rfl)
        rintro l ⟨⟩ hfault
        -- An open comment would leave nothing to read, and no start of a line.
        have hmem := hstarted rfl
        rw [Lexeme.tail_eq_nil hfault] at hmem
        cases hmem
    rw [run_of_next σ src nested happend, ih h]

/-! ### Texts that can be read anywhere -/

/-- The piece reads no file, is complete, and needs no condition from before. -/
def Piece.IsSelfContained (s : State) : Piece → Prop
  | .directive line =>
    (∀ name, Directive.parse line = .ok (.inclusion name) → s.conditions.active = false) ∧
    (Directive.parse line = .ok .otherwise ∨ Directive.parse line = .ok .endif →
      s.conditions.conditions ≠ [])
  | .element l => l.fault ≠ some .unterminatedComment
  | _ => True

/-- From `s` on the text includes nothing, closes its comments, has no `#else` and no `#endif`
without a condition, and leaves no condition open. -/
inductive SelfContained (σ : Setting) (src : Source) : State → List Char → Prop where
  | nil {s : State} (hs : s.conditions.conditions = []) : SelfContained σ src s []
  | next {s : State} {text rest : List Char} {p : Piece} (hnext : Next σ.directives s text p rest)
      (hp : p.IsSelfContained s) (hrest : SelfContained σ src (s.take σ src none p) rest) :
      SelfContained σ src s text

theorem SelfContained.conditions_run (h : SelfContained σ src s text) :
    (run σ src none s text).conditions.conditions = [] := by
  induction h with
  | nil hs => rwa [run_nil]
  | next hnext _ _ ih => rwa [run_of_next σ src none hnext]

variable {files : FileTree} {base : List (Bool × Bool)} {s' : State}

/-- A self-contained piece is taken alike wherever the text stands. -/
theorem Piece.IsSelfContained.similar (hp : p.IsSelfContained s)
    (hnext : Next directives s text p rest) (h : State.Similar files base s s') (σ : Setting)
    (src src' : Source) (nested nested' : Option Reader) :
    State.Similar files base (s.take σ src nested p) (s'.take σ src' nested' p) := by
  cases hnext with
  | newline => exact ⟨h.macros, h.cache, h.failure, h.part, h.meaningful, h.flags, rfl, h.around⟩
  | space => exact ⟨h.macros, h.cache, h.failure, h.part, h.meaningful, h.flags, h.lineStart, h.around⟩
  | inactive => exact h.inactiveLine src.uri src'.uri _ _
  | element => exact h.element src.uri src'.uri _
  | @directive line rest hd hs hline hrest =>
    refine h.directiveLine σ src src' nested nested' rfl rfl ?_
    intro d hparse hcount r r' t t' hr hsimilar
    apply hsimilar.carryOut
    · intro hword
      cases d with
      | inclusion name =>
        rcases hcount with hactive | hcond
        · rw [hp.1 name hparse] at hactive
          cases hactive
        · cases hcond
      | condition name negated => cases negated <;> cases hword
      | _ => cases hword
    · rintro hd hempty
      rw [hr] at hempty
      refine absurd hempty (hp.2 ?_)
      rcases hd with rfl | rfl
      · exact Or.inl hparse
      · exact Or.inr hparse

/-- A self-contained text in front of the end of a line is read as if it stood alone. -/
theorem SelfContained.run_append (hself : SelfContained σ src s text)
    (h : State.Similar files base s s') (src' : Source) (nested' : Option Reader)
    (hafter : Text.AtLineEnd after) :
    ∃ r', run σ src' nested' s' (text ++ after) = run σ src' nested' r' after ∧
      State.Similar files base (run σ src none s text) r' := by
  induction hself generalizing s' with
  | nil hs => exact ⟨s', rfl, by rwa [run_nil]⟩
  | @next s text rest p hnext hp hrest ih =>
    have hnext' : Next σ.directives s' (text ++ after) p (rest ++ after) := by
      apply (hnext.similar h).append
      · rintro l rfl
        exact hp
      · exact Text.splitLine_append_of_atLineEnd hafter rest
    obtain ⟨r', hr', hsimilar⟩ := ih (hp.similar hnext h σ src src' none nested')
    refine ⟨r', ?_, ?_⟩
    · rw [run_of_next σ src' nested' hnext', hr']
    · rwa [run_of_next σ src none hnext]

/-! ### Inclusion in place -/

/-- In the state `s` the line `#line` counts and includes the text `file` found at `path`. -/
structure Includes (σ : Setting) (src : Source) (s : State) (line : List Char) (path : Path)
    (file : String) : Prop where
  directives : σ.directives = true
  start : s.lineStart = true
  active : s.conditions.active = true
  whole : '\n' ∉ line
  failure : s.failure = none
  name : ∃ name, Directive.parse ('#' :: line) = .ok (.inclusion name) ∧
    σ.locate src (s.macros.substitute name) = .ok path
  chain : path ∉ src.chain
  found : (s.cache.read σ.files path).1 = .ok file

theorem State.includeFile_of_read {path : Path} {file : String} {cache : IncludeCache}
    {name : String} (read : Reader) (t : Token)
    (hfailure : s.failure = none) (hpath : σ.locate src (s.macros.substitute name) = .ok path)
    (hchain : path ∉ src.chain) (hread : s.cache.read σ.files path = (.ok file, cache)) :
    s.includeFile σ src (some read) t name =
      State.leave { s with asked := s.asked.push path, cache }
        (read (src.included path) file.toList
          (State.enter { s with asked := s.asked.push path, cache })) := by
  rw [State.includeFile_of_locate hfailure hpath]
  unfold State.includePath
  rw [if_neg (by simpa using hchain)]
  dsimp only
  rw [hread]

/-- The file is read as the line says, in a state that differs from the present one in places. -/
theorem Includes.take {line : List Char} {path : Path} {file : String}
    (h : Includes σ src s line path file) (read : Reader) :
    ∃ r : State, State.Similar σ.files [] s.enter r.enter ∧ r.conditions = s.conditions ∧
      r.lineStart = false ∧
      s.take σ src (some read) (.directive ('#' :: line)) =
        r.leave (read (src.included path) file.toList r.enter) := by
  obtain ⟨name, hparse, hpath⟩ := h.name
  have hcache := IncludeCache.read_read s.cache σ.files path
  have hfound := h.found
  generalize hread : s.cache.read σ.files path = outcome at hcache hfound
  obtain ⟨result, cache⟩ := outcome
  obtain rfl : result = .ok file := hfound
  let t := s.tokenHere src.uri .directive ('#' :: line)
  refine ⟨{ (s.emit t).advance ('#' :: line) with asked := s.asked.push path, cache }, ?_, rfl,
    rfl, ?_⟩
  · refine ⟨rfl, hcache, rfl, rfl, ?_, rfl, rfl, by simp⟩
    exact (State.meaningful_emit s t).trans (List.append_nil _)
  · have hcarry := State.includeFile_of_read (s := (s.emit t).advance ('#' :: line)) read t
      h.failure hpath h.chain hread
    change s.directiveLine σ src (some read) ('#' :: line) = _
    rw [State.directiveLine, Directive.word_of_parse hparse, if_neg (by simp [h.active]),
      State.activeDirective, hparse]
    exact hcarry

/-- Where the reader of the file stands after it, and where it stands who read the text in place. -/
theorem State.Similar.leave_inlined {outer inner inner' plain : State}
    (h : State.Similar files [] plain inner)
    (h' : State.Similar files outer.conditions.flags plain inner')
    (hplain : plain.conditions.conditions = []) :
    State.Similar files [] (outer.leave inner) { inner' with lineStart := outer.lineStart } := by
  refine ⟨h'.macros.trans h.macros.symm, ?_, h'.failure.trans h.failure.symm,
    h'.part.trans h.part.symm, h'.meaningful.trans h.meaningful.symm, ?_, rfl, by simp⟩
  · intro path
    exact (h'.cache path).trans (h.cache path).symm
  · have hnone : plain.conditions.flags = [] := by rw [Conditional.flags, hplain, List.map_nil]
    have hflags := h'.flags
    rw [hnone, List.nil_append] at hflags
    rw [List.append_nil]
    exact hflags

/-- The file is read by a reader of its own, which starts with no condition open, or in place,
within the conditions around the line: both come to similar states. -/
theorem Includes.similar {line : List Char} {path : Path} {file : String} {n : Nat}
    (h : Includes σ src s line path file)
    (hself : SelfContained σ (src.included path) s.enter file.toList)
    (hafter : Text.AtLineEnd after) (nested : Option Reader) :
    ∃ inner, run σ src nested s (file.toList ++ after) = run σ src nested inner after ∧
      State.Similar σ.files []
        (s.take σ src (some (Scan.text σ n)) (.directive ('#' :: line)))
        { inner with lineStart := false } := by
  obtain ⟨r, henter, hconditions, hstart, htake⟩ := h.take (Scan.text σ n)
  obtain ⟨nested', htext, -, -⟩ := exists_nested σ n
  have hempty : Text.AtLineEnd [] := fun c hc => by cases hc
  obtain ⟨own, hown, hsimilar⟩ := hself.run_append henter (src.included path) nested' hempty
  rw [List.append_nil, run_nil] at hown
  have hplace : State.Similar σ.files r.conditions.flags s.enter s := by
    rw [hconditions]
    exact ⟨rfl, fun _ => rfl, rfl, rfl, rfl, rfl, h.start, Conditional.snd_of_active h.active⟩
  obtain ⟨inner, hinner, hsimilar'⟩ := hself.run_append hplace src nested hafter
  have hfinish : State.Similar σ.files [] (run σ (src.included path) none s.enter file.toList)
      (own.finish (src.included path).uri) := by
    apply hsimilar.agrees (State.Agrees.refl _) (State.agrees_finish own _)
    rw [State.conditions_finish, hsimilar.flags]
  have hleave := hfinish.leave_inlined hsimilar' hself.conditions_run
  rw [hstart] at hleave
  refine ⟨inner, hinner, ?_⟩
  rw [htake, htext, hown]
  exact hleave

/-- At the end of a line it does not matter what stands before on it. -/
theorem run_lineStart (σ : Setting) (src : Source) (nested : Option Reader) (s : State) (b : Bool)
    (hafter : Text.AtLineEnd after) :
    ∃ b', run σ src nested { s with lineStart := b } after =
      { run σ src nested s after with lineStart := b' } := by
  rcases hafter.eq_nil_or_cons with rfl | ⟨cs, rfl⟩
  · exact ⟨b, by rw [run_nil, run_nil]⟩
  · refine ⟨(run σ src nested s ('\n' :: cs)).lineStart, ?_⟩
    rw [run_of_next σ src nested (.newline cs), run_of_next σ src nested (.newline cs)]
    rfl

/-- To include a file is to have its text in place of the line, as far as the tokens that mean
something, the macros and the part of the module go; and if the one is given up behind the line, so
is the other. The text of the file has to be complete in itself; what stands before the line and
after it may be anything. -/
theorem document_inlined {cache : IncludeCache} {part : Part} {before line : List Char} {n : Nat}
    {path : Path} {file : String} (hlevels : levels σ.options = n + 1)
    (h : Includes σ src (run σ src (some (Scan.text σ n)) (initial σ cache part) before) line path
      file)
    (hself : SelfContained σ (src.included path)
      (run σ src (some (Scan.text σ n)) (initial σ cache part) before).enter file.toList)
    (hafter : Text.AtLineEnd after) :
    let full := document σ src cache part (before ++ ('#' :: line ++ after))
    let inlined := document σ src cache part (before ++ (file.toList ++ after))
    inlined.meaningful = full.meaningful ∧ inlined.macros.meanings = full.macros.meanings ∧
      inlined.part = full.part ∧ inlined.failure = full.failure := by
  intro full inlined
  have hdocument : ∀ cs, document σ src cache part (before ++ cs) =
      (run σ src (some (Scan.text σ n))
        (run σ src (some (Scan.text σ n)) (initial σ cache part) before) cs).finish src.uri := by
    intro cs
    rw [document, hlevels, Scan.text, run_append_of_lineStart h.start]
  generalize run σ src (some (Scan.text σ n)) (initial σ cache part) before = s
    at h hself hdocument
  obtain ⟨inner, hinner, hsimilar⟩ := h.similar hself hafter (some (Scan.text σ n))
  have hread : ∀ read ∈ some (Scan.text σ n), State.Respects σ.files read := by
    intro read hr
    rw [← Option.some.inj hr]
    exact text_respects σ n
  have hrest := run_similar σ src (some (Scan.text σ n)) hread after hsimilar
  have hnext : Next σ.directives s ('#' :: (line ++ after)) (.directive ('#' :: line)) after :=
    .directive h.directives h.start h.whole hafter
  obtain ⟨b, hb⟩ := run_lineStart σ src (some (Scan.text σ n)) inner false hafter
  rw [hb, ← hinner, ← run_of_next σ src _ hnext] at hrest
  have hfull : State.Agrees (run σ src (some (Scan.text σ n)) s ('#' :: (line ++ after))) full := by
    rw [show full = _ from hdocument _]
    exact State.agrees_finish _ src.uri
  have hinlined :
      State.Agrees (run σ src (some (Scan.text σ n)) s (file.toList ++ after)) inlined := by
    rw [show inlined = _ from hdocument _]
    exact State.agrees_finish _ src.uri
  refine ⟨?_, ?_, ?_, ?_⟩
  · rw [State.meaningful_of_tokens hfull.tokens, State.meaningful_of_tokens hinlined.tokens]
    exact hrest.meaningful
  · rw [hfull.macros, hinlined.macros]
    exact hrest.macros
  · rw [hfull.part, hinlined.part]
    exact hrest.part
  · rw [hfull.failure, hinlined.failure]
    exact hrest.failure

/-- A file named by a macro that defines another one under a condition of its own, included within
a condition of the document. -/
theorem document_inlined_nested_conditions :
    let σ : Setting :=
      { files := {
          entries := [(Path.ofString "/ws/b", { content := .text "#ifdef M\n#define N\n#endif" })]
          cwd := Path.ofString "/ws" } }
    let src : Source :=
      ⟨"file:///ws/a", some (Path.ofString "/ws/a"), [Path.ofString "/ws/a"]⟩
    let before := "#define M b\n#ifdef M\n ".toList
    let line := "include \"M\" ! once".toList
    let after := "\n#ifdef N\nX\n#endif\n#endif".toList
    let file := "#ifdef M\n#define N\n#endif"
    let full := document σ src {} .problem (before ++ ('#' :: line ++ after))
    let inlined := document σ src {} .problem (before ++ (file.toList ++ after))
    Includes σ src (run σ src (some (Scan.text σ 9)) (initial σ {} .problem) before) line
      (Path.ofString "/ws/b") file ∧
    inlined.meaningful = full.meaningful ∧ inlined.macros.meanings = full.macros.meanings ∧
    inlined.part = full.part ∧ inlined.failure = full.failure := by
  intro σ src before line after file full inlined
  have hlevels : levels σ.options = 9 + 1 := by decide +kernel
  have h : Includes σ src (run σ src (some (Scan.text σ 9)) (initial σ {} .problem) before) line
      (Path.ofString "/ws/b") file := by
    refine ⟨rfl, by decide +kernel, by decide +kernel, by decide +kernel, by decide +kernel,
      ⟨"M", ?_, ?_⟩, ?_, ?_⟩
    · decide +kernel
    · decide +kernel
    · decide +kernel
    · decide +kernel
  have hself : SelfContained σ (src.included (Path.ofString "/ws/b"))
      (run σ src (some (Scan.text σ 9)) (initial σ {} .problem) before).enter file.toList := by
    have hfile : file.toList = '#' :: ("ifdef M".toList ++
        '\n' :: '#' :: ("define N".toList ++ '\n' :: '#' :: ("endif".toList ++ []))) := by
      decide +kernel
    have hifdef : Directive.parse ('#' :: "ifdef M".toList) = .ok (.condition "M" false) := by
      decide +kernel
    have hdefine : Directive.parse ('#' :: "define N".toList) = .ok (.define "N" "") := by
      decide +kernel
    have hendif : Directive.parse ('#' :: "endif".toList) = .ok .endif := by decide +kernel
    have hnewline : ∀ cs, Text.AtLineEnd ('\n' :: cs) := fun cs c hc => (Option.some.inj hc).symm
    rw [hfile]
    refine .next (.directive rfl (by decide +kernel) (by decide +kernel) (hnewline _)) ?_ ?_
    · simp only [Piece.IsSelfContained, hifdef]
      exact ⟨fun _ hname => (by cases hname), by rintro (hd | hd) <;> cases hd⟩
    refine .next (.newline _) trivial ?_
    refine .next (.directive rfl (by decide +kernel) (by decide +kernel) (hnewline _)) ?_ ?_
    · simp only [Piece.IsSelfContained, hdefine]
      exact ⟨fun _ hname => (by cases hname), by rintro (hd | hd) <;> cases hd⟩
    refine .next (.newline _) trivial ?_
    refine .next (.directive rfl (by decide +kernel) (by decide +kernel) (fun c hc => by cases hc))
      ?_ (.nil (List.eq_nil_of_length_eq_zero (by decide +kernel)))
    refine ⟨fun _ hname => ?_, fun _ hnone => ?_⟩
    · rw [hendif] at hname
      cases hname
    · exact absurd (congrArg List.length hnone) (by decide +kernel)
  have hafter : Text.AtLineEnd after := fun c hc => (Option.some.inj hc).symm
  exact ⟨h, document_inlined hlevels h hself hafter⟩

end Scan

end Pearl
