import Pearl.Analysis
import Pearl.Proofs.ScanSimilarity

namespace Pearl

/-! ### Caches that tell the truth -/

namespace IncludeCache

/-- A text that is held for a path is the text of the file, unless the file has been modified
since. -/
def Faithful (c : IncludeCache) (files : FileTree) : Prop :=
  ∀ p f status, c.get? p = some f → files.stat p = .ok status → f.modified = status.modified →
    files.readText p = .ok f.text

variable {c c' : IncludeCache} {files : FileTree}

theorem faithful_empty (files : FileTree) : Faithful {} files := by
  intro p f status hf
  cases hf

/-- Entries that are forgotten do no harm. -/
theorem Faithful.mono (h : c.Faithful files)
    (hget : ∀ p f, c'.get? p = some f → c.get? p = some f) : c'.Faithful files := by
  intro p f status hf
  exact h p f status (hget p f hf)

theorem get?_invalidate_self (c : IncludeCache) (p : Path) : (c.invalidate p).get? p = none := by
  rw [get?, List.lookup_eq_none_iff]
  intro e he
  have hne : e.1 ≠ p := by simpa using (List.mem_filter.mp he).2
  simpa using Ne.symm hne

theorem Faithful.invalidate (h : c.Faithful files) (p : Path) :
    (c.invalidate p).Faithful files := by
  apply h.mono
  intro q f hf
  by_cases hq : q = p
  · rw [hq, get?_invalidate_self] at hf
    cases hf
  · rwa [get?_invalidate_of_ne c hq] at hf

theorem Faithful.insert (h : c.Faithful files) {p : Path} {f : CachedFile}
    (hf : files.readText p = .ok f.text) : (c.insert p f).Faithful files := by
  intro q g status hg hstat hmodified
  by_cases hq : q = p
  · rw [hq, get?_insert_self] at hg
    cases hg
    rw [hq]
    exact hf
  · rw [get?_insert_of_ne c f hq] at hg
    exact h q g status hg hstat hmodified

theorem Faithful.readAnew (h : c.Faithful files) (p : Path) (modified : Int) :
    (c.readAnew files p modified).2.Faithful files := by
  have hcount : Faithful { c with misses := c.misses + 1 } files := h.mono fun _ _ hf => hf
  unfold IncludeCache.readAnew
  dsimp only
  cases htext : files.readText p with
  | error e => exact hcount
  | ok text => exact hcount.insert htext

/-- Reading keeps a faithful cache faithful, whatever comes of it. -/
theorem Faithful.read (h : c.Faithful files) (p : Path) : (c.read files p).2.Faithful files := by
  unfold IncludeCache.read
  cases files.stat p with
  | error e =>
    cases e with
    | notFound => exact h.invalidate p
    | _ => exact h
  | ok status =>
    dsimp only
    cases c.get? p with
    | none => exact h.readAnew p status.modified
    | some f =>
      dsimp only
      split
      · exact h.mono fun _ _ hf => hf
      · exact h.readAnew p status.modified

theorem readAnew_eq_readDirectly {p : Path} {status : FileStatus}
    (hstat : files.stat p = .ok status) (c : IncludeCache) (modified : Int) :
    (c.readAnew files p modified).1 = readDirectly files p := by
  unfold IncludeCache.readAnew readDirectly
  rw [hstat]
  dsimp only
  cases files.readText p <;> rfl

/-- A faithful cache cannot be told from the file system. -/
theorem Faithful.read_eq_readDirectly (h : c.Faithful files) (p : Path) :
    (c.read files p).1 = readDirectly files p := by
  cases hstat : files.stat p with
  | error e =>
    simp only [IncludeCache.read, readDirectly, hstat]
    cases e <;> rfl
  | ok status =>
    have hanew := readAnew_eq_readDirectly hstat c status.modified
    simp only [IncludeCache.read, hstat]
    cases hf : c.get? p with
    | none => exact hanew
    | some f =>
      dsimp only
      split
      · rename_i hmodified
        have htext := h p f status hf hstat hmodified
        simp only [readDirectly, hstat, htext]
      · exact hanew

end IncludeCache

/-! ### Reading with one cache or another -/

namespace Scan

namespace State

def withCache (s : State) (c : IncludeCache) : State := { s with cache := c }

/-- Two states that differ at most in their caches, which are both faithful. -/
def Twin (files : FileTree) (s s' : State) : Prop :=
  s.cache.Faithful files ∧ ∃ c : IncludeCache, c.Faithful files ∧ s' = s.withCache c

variable {files : FileTree} {s s' r r' : State}

/-- What does not look at the cache leads from twins to twins. -/
theorem Twin.map (h : Twin files s s') (f : State → State)
    (hf : ∀ s c, f (s.withCache c) = (f s).withCache c) : Twin files (f s) (f s') := by
  obtain ⟨hs, c, hc, rfl⟩ := h
  have hsame : f s = (f s).withCache s.cache := hf s s.cache
  refine ⟨?_, c, hc, hf s c⟩
  rw [hsame]
  exact hs

variable (s : State) (c : IncludeCache)

@[simp] theorem withCache_macros : (s.withCache c).macros = s.macros := rfl
@[simp] theorem withCache_conditions : (s.withCache c).conditions = s.conditions := rfl

theorem flushInactive_withCache (uri : String) :
    (s.withCache c).flushInactive uri = (s.flushInactive uri).withCache c := by
  unfold flushInactive
  cases hi : s.inactive with
  | none => simp [withCache, hi]
  | some lines => simp [withCache, hi, report]

theorem settle_withCache (uri : String) :
    (s.withCache c).settle uri = (s.settle uri).withCache c := by
  unfold settle
  rw [withCache_conditions]
  split
  · exact flushInactive_withCache s c uri
  · rfl

theorem finish_withCache (uri : String) :
    (s.withCache c).finish uri = (s.finish uri).withCache c := by
  have hopeners : ∀ (openers : List Token) (s : State),
      openers.foldl reportUnclosed (s.withCache c) =
        (openers.foldl reportUnclosed s).withCache c := by
    intro openers
    induction openers with
    | nil => exact fun s => rfl
    | cons t openers ih => exact fun s => ih (s.reportUnclosed t)
  unfold finish
  dsimp only
  rw [flushInactive_withCache, withCache_conditions, hopeners]

theorem foldLines_withCache (uri : String) (first : Nat) :
    (s.withCache c).foldLines uri first = (s.foldLines uri first).withCache c := by
  unfold foldLines
  change (if first < s.position.line then _ else _) = _
  split <;> rfl

theorem reportFault_withCache (t : Token) (fault : Option LexicalFault) :
    (s.withCache c).reportFault t fault = (s.reportFault t fault).withCache c := by
  cases fault <;> rfl

theorem plain_withCache (uri : String) (l : Lexeme) :
    (s.withCache c).plain uri l = (s.plain uri l).withCache c := by
  have hnext : ∀ (t : Token) (part : Part), { ((s.withCache c).emit t).advance l.text with part } =
      withCache { (s.emit t).advance l.text with part } c := fun _ _ => rfl
  unfold plain
  dsimp only
  rw [hnext, foldLines_withCache, reportFault_withCache]
  rfl

theorem element_withCache (uri : String) (l : Lexeme) :
    (s.withCache c).element uri l = (s.element uri l).withCache c := by
  unfold element
  rw [withCache_macros]
  cases Expansion.reference? s.macros [] l with
  | none => exact plain_withCache s c uri l
  | some m => rfl

theorem define_withCache (t : Token) (name value : String) :
    (s.withCache c).define t name value = (s.define t name value).withCache c := by
  unfold define
  rw [withCache_macros]
  cases s.macros.define ⟨name, value, some t.location⟩ <;> rfl

theorem undefine_withCache (t : Token) (name : String) :
    (s.withCache c).undefine t name = (s.undefine t name).withCache c := by
  unfold undefine
  rw [withCache_macros]
  split <;> rfl

theorem turnCondition_withCache (src : Source) (t : Token) :
    (s.withCache c).turnCondition src t = (s.turnCondition src t).withCache c := by
  unfold turnCondition
  rw [withCache_conditions]
  cases s.conditions.invert with
  | error e => rfl
  | ok conditions => exact settle_withCache { s with conditions } c src.uri

theorem closeCondition_withCache (src : Source) (t : Token) :
    (s.withCache c).closeCondition src t = (s.closeCondition src t).withCache c := by
  unfold closeCondition
  rw [withCache_conditions]
  cases s.conditions.pop with
  | error e => rfl
  | ok popped =>
    obtain ⟨opener, conditions⟩ := popped
    have hsettle := fun r : State => settle_withCache r c src.uri
    dsimp only
    split
    · exact hsettle (State.fold { s with conditions } _)
    · exact hsettle { s with conditions }

theorem refuse_withCache (t : Token) (word : Option DirectiveWord) (e : DirectiveError) :
    (s.withCache c).refuse t word e = (s.refuse t word e).withCache c := by
  unfold refuse
  dsimp only
  split <;> rfl

variable {s c}

/-- Reading leads from twins to twins. -/
def Oblivious (files : FileTree) (read : Reader) : Prop :=
  ∀ src cs s s', Twin files s s' → Twin files (read src cs s) (read src cs s')

theorem Twin.leave (h : Twin files s s') (hr : Twin files r r') :
    Twin files (s.leave r) (s'.leave r') := by
  obtain ⟨-, c, -, rfl⟩ := h
  obtain ⟨hr, d, hd, rfl⟩ := hr
  exact ⟨hr, d, hd, rfl⟩

/-- Both sides read the same text, whichever of their caches holds it. -/
theorem Twin.includePath (σ : Setting) {src : Source} {nested : Option Reader}
    (hread : ∀ read ∈ nested, Oblivious σ.files read) (h : Twin σ.files s s') (t : Token)
    (name : String) (path : Path) :
    Twin σ.files (s.includePath σ src nested t name path)
      (s'.includePath σ src nested t name path) := by
  obtain ⟨hs, c, hc, rfl⟩ := h
  unfold State.includePath
  split
  · exact ⟨hs, c, hc, rfl⟩
  · cases nested with
    | none => exact ⟨hs, c, hc, rfl⟩
    | some read =>
      have hresult : (c.read σ.files path).1 = (s.cache.read σ.files path).1 := by
        rw [hc.read_eq_readDirectly, hs.read_eq_readDirectly]
      have hfaithful := hs.read path
      have hfaithful' := hc.read path
      dsimp only [withCache]
      generalize hcache : s.cache.read σ.files path = outcome at *
      generalize hcache' : c.read σ.files path = outcome' at *
      obtain ⟨result, cache⟩ := outcome
      obtain ⟨result', cache'⟩ := outcome'
      obtain rfl : result' = result := hresult
      cases result' with
      | error fault => exact ⟨hfaithful, cache', hfaithful', rfl⟩
      | ok text =>
        have htwin : Twin σ.files { s with asked := s.asked.push path, cache }
            { s with asked := s.asked.push path, cache := cache' } :=
          ⟨hfaithful, cache', hfaithful', rfl⟩
        exact htwin.leave (hread read rfl _ _ _ _ (htwin.map enter fun _ _ => rfl))

theorem Twin.includeFile (σ : Setting) {src : Source} {nested : Option Reader}
    (hread : ∀ read ∈ nested, Oblivious σ.files read) (h : Twin σ.files s s') (t : Token)
    (name : String) :
    Twin σ.files (s.includeFile σ src nested t name) (s'.includeFile σ src nested t name) := by
  have hsame : s'.macros.substitute name = s.macros.substitute name ∧ s'.failure = s.failure := by
    obtain ⟨-, c, -, rfl⟩ := h
    exact ⟨rfl, rfl⟩
  unfold State.includeFile
  rw [hsame.1, hsame.2]
  split
  · exact h
  · rename_i e _ _
    exact h.map (fun s => { s with failure := some e }) fun _ _ => rfl
  · exact h.includePath σ hread t _ _

theorem Twin.carryOut (σ : Setting) {src : Source} {nested : Option Reader}
    (hread : ∀ read ∈ nested, Oblivious σ.files read) (h : Twin σ.files s s') (t : Token)
    (d : Directive) :
    Twin σ.files (s.carryOut σ src nested t d) (s'.carryOut σ src nested t d) := by
  cases d with
  | define name value =>
    exact h.map (·.define t name value) fun s c => define_withCache s c t name value
  | undef name => exact h.map (·.undefine t name) fun s c => undefine_withCache s c t name
  | inclusion name => exact h.includeFile σ hread t name
  | condition name negated =>
    apply h.map (·.carryOut σ src nested t (.condition name negated))
    intro s c
    exact settle_withCache (s.openCondition t _) c src.uri
  | otherwise => exact h.map (·.turnCondition src t) fun s c => turnCondition_withCache s c src t
  | endif => exact h.map (·.closeCondition src t) fun s c => closeCondition_withCache s c src t

theorem Twin.directiveLine (σ : Setting) {src : Source} {nested : Option Reader}
    (hread : ∀ read ∈ nested, Oblivious σ.files read) (h : Twin σ.files s s')
    (line : List Char) :
    Twin σ.files (s.directiveLine σ src nested line) (s'.directiveLine σ src nested line) := by
  have hactive : s'.conditions.active = s.conditions.active := by
    obtain ⟨-, c, -, rfl⟩ := h
    rfl
  have htoken : ∀ kind, s'.tokenHere src.uri kind line = s.tokenHere src.uri kind line := by
    obtain ⟨-, c, -, rfl⟩ := h
    exact fun kind => rfl
  unfold State.directiveLine State.activeDirective
  dsimp only
  rw [hactive, htoken]
  split
  · exact h.map (·.inactiveLine src.uri line) fun _ _ => rfl
  · have hemit := fun t => h.map (fun s => (s.emit t).advance line) fun _ _ => rfl
    cases Directive.parse line with
    | error e => exact (hemit _).map (·.refuse _ _ e) fun s c => refuse_withCache s c _ _ e
    | ok d => exact (hemit _).carryOut σ hread _ d

theorem Twin.take (σ : Setting) {src : Source} {nested : Option Reader}
    (hread : ∀ read ∈ nested, Oblivious σ.files read) (h : Twin σ.files s s') (p : Piece) :
    Twin σ.files (s.take σ src nested p) (s'.take σ src nested p) := by
  cases p with
  | newline => exact h.map newline fun _ _ => rfl
  | space a => exact h.map (·.space a) fun _ _ => rfl
  | directive line => exact h.directiveLine σ hread line
  | inactive line => exact h.map (·.inactiveLine src.uri line) fun _ _ => rfl
  | element l => exact h.map (·.element src.uri l) fun s c => element_withCache s c src.uri l

end State

/-! ### Whole texts -/

variable {directives : Bool} {files : FileTree} {s s' : State} {text rest : List Char} {p : Piece}

/-- Twins have the same piece before them. -/
theorem Next.twin (hnext : Next directives s text p rest) (h : State.Twin files s s') :
    Next directives s' text p rest := by
  obtain ⟨-, c, -, rfl⟩ := h
  cases hnext with
  | newline rest => exact .newline rest
  | space rest hc => exact .space rest hc
  | directive hd hs hline hrest => exact .directive hd hs hline hrest
  | inactive hn hc hs hd ha hline hrest => exact .inactive hn hc hs hd ha hline hrest
  | element hn hc hs => exact .element (s := s.withCache c) hn hc hs

theorem run_twin (σ : Setting) (src : Source) (nested : Option Reader)
    (hread : ∀ read ∈ nested, State.Oblivious σ.files read) (cs : List Char) :
    State.Twin σ.files s s' →
      State.Twin σ.files (run σ src nested s cs) (run σ src nested s' cs) := by
  induction s, cs using run_induction σ src nested generalizing s' with
  | nil s =>
    intro h
    rw [run_nil, run_nil]
    exact h
  | next s text p rest hnext ih =>
    intro h
    rw [run_of_next σ src nested hnext, run_of_next σ src nested (hnext.twin h)]
    exact ih (h.take σ hread p)

/-- However deep files are included, it does not matter what a faithful cache holds. -/
theorem text_oblivious (σ : Setting) (n : Nat) : State.Oblivious σ.files (Scan.text σ n) := by
  induction n with
  | zero =>
    intro src cs s s' h
    have hrun := run_twin σ src none (by simp) cs h
    exact hrun.map (·.finish src.uri) fun s c => State.finish_withCache s c src.uri
  | succ n ih =>
    intro src cs s s' h
    have hread : ∀ read ∈ some (Scan.text σ n), State.Oblivious σ.files read := by
      intro read hr
      rw [← Option.some.inj hr]
      exact ih
    have hrun := run_twin σ src _ hread cs h
    exact hrun.map (·.finish src.uri) fun s c => State.finish_withCache s c src.uri

theorem document_twin (σ : Setting) (src : Source) {cache : IncludeCache}
    (hcache : cache.Faithful σ.files) (part : Part) (cs : List Char) :
    State.Twin σ.files (document σ src {} part cs) (document σ src cache part cs) := by
  apply text_oblivious σ
  exact ⟨IncludeCache.faithful_empty σ.files, cache, hcache, rfl⟩

end Scan

/-- An analysis with a faithful cache is the one with an empty cache, and leaves a faithful cache
behind. -/
theorem Analysis.attempt_of_faithful {files : FileTree} {cache : IncludeCache}
    (hcache : cache.Faithful files) (options : Options) (src : Scan.Source) (text : String)
    (version : Option Int) :
    (Analysis.attempt files options cache src text version).result =
        (Analysis.attempt files options {} src text version).result ∧
      (Analysis.attempt files options cache src text version).cache.Faithful files := by
  obtain ⟨-, c, hc, hscan⟩ :=
    Scan.document_twin { files, options } src hcache .problem text.toList
  unfold Analysis.attempt
  rw [hscan]
  refine ⟨?_, hc⟩
  unfold Scan.State.outcome
  dsimp only [Scan.State.withCache]
  cases (Scan.document { files, options } src {} .problem text.toList).failure <;> rfl

end Pearl
