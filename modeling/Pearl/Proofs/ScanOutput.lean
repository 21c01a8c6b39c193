import Pearl.Proofs.ScanPiece
import Pearl.Proofs.UriRoundTrip

namespace Pearl.Scan

/-- What reading leaves behind for good: nothing of it is looked at again while reading. -/
structure Output where
  tokens : Array Token
  folding : Array FoldingRegion
  diagnostics : Array Diagnostic

namespace State

def output (s : State) : Output := ⟨s.tokens, s.folding, s.diagnostics⟩

/-- The state without what it has left behind. -/
def bare (s : State) : State := { s with tokens := #[], folding := #[], diagnostics := #[] }

/-- The state with something left behind before all that it has left behind itself. -/
def prepend (o : Output) (s : State) : State :=
  { s with
    tokens := o.tokens ++ s.tokens
    folding := o.folding ++ s.folding
    diagnostics := o.diagnostics ++ s.diagnostics }

theorem prepend_output_bare (s : State) : s.bare.prepend s.output = s := by
  simp [bare, prepend, output]

variable (o : Output) (s : State)

@[simp] theorem prepend_macros : (s.prepend o).macros = s.macros := rfl
@[simp] theorem prepend_cache : (s.prepend o).cache = s.cache := rfl
@[simp] theorem prepend_failure : (s.prepend o).failure = s.failure := rfl
@[simp] theorem prepend_part : (s.prepend o).part = s.part := rfl
@[simp] theorem prepend_conditions : (s.prepend o).conditions = s.conditions := rfl
@[simp] theorem prepend_inactive : (s.prepend o).inactive = s.inactive := rfl
@[simp] theorem prepend_position : (s.prepend o).position = s.position := rfl

@[simp] theorem tokenHere_prepend (uri : String) (kind : TokenKind) (cs : List Char) :
    (s.prepend o).tokenHere uri kind cs = s.tokenHere uri kind cs := rfl

@[simp] theorem emit_prepend (t : Token) : (s.prepend o).emit t = (s.emit t).prepend o := by
  simp [emit, prepend]

@[simp] theorem report_prepend (d : Diagnostic) :
    (s.prepend o).report d = (s.report d).prepend o := by
  simp [report, prepend]

@[simp] theorem fold_prepend (r : FoldingRegion) : (s.prepend o).fold r = (s.fold r).prepend o := by
  simp [fold, prepend]

@[simp] theorem advance_prepend (cs : List Char) :
    (s.prepend o).advance cs = (s.advance cs).prepend o := rfl

@[simp] theorem flushInactive_prepend (uri : String) :
    (s.prepend o).flushInactive uri = (s.flushInactive uri).prepend o := by
  unfold flushInactive
  cases h : s.inactive with
  | none => simp [h]
  | some lines => simp [h, report, prepend]

@[simp] theorem inactiveLine_prepend (uri : String) (line : List Char) :
    (s.prepend o).inactiveLine uri line = (s.inactiveLine uri line).prepend o := by
  simp [inactiveLine, addInactive, advance, emit, prepend, tokenHere]

/-! ### Elements -/

@[simp] theorem foldLines_prepend (uri : String) (first : Nat) :
    (s.prepend o).foldLines uri first = (s.foldLines uri first).prepend o := by
  simp only [foldLines, prepend_position, fold_prepend]
  split <;> rfl

@[simp] theorem reportFault_prepend (t : Token) (fault : Option LexicalFault) :
    (s.prepend o).reportFault t fault = (s.reportFault t fault).prepend o := by
  cases fault with
  | none => rfl
  | some f => exact report_prepend o s _

@[simp] theorem plain_prepend (uri : String) (l : Lexeme) :
    (s.prepend o).plain uri l = (s.plain uri l).prepend o := by
  have h : ∀ t part, { ((s.prepend o).emit t).advance l.text with part } =
      prepend o { (s.emit t).advance l.text with part } := by
    intro t part
    rw [emit_prepend]
    rfl
  simp only [plain, h, tokenHere_prepend, prepend_part, prepend_position, foldLines_prepend,
    reportFault_prepend]

@[simp] theorem expand_prepend (uri : String) (m : Macro) (word : List Char) :
    (s.prepend o).expand uri m word = (s.expand uri m word).prepend o := by
  simp [expand, advance, prepend, tokenHere]

@[simp] theorem element_prepend (uri : String) (l : Lexeme) :
    (s.prepend o).element uri l = (s.element uri l).prepend o := by
  unfold element
  rw [prepend_macros]
  cases Expansion.reference? s.macros [] l with
  | none => exact plain_prepend o s uri l
  | some m => exact expand_prepend o s uri m l.text

/-! ### Directives -/

@[simp] theorem fail_prepend (code : String) (f : Failure) (t : Token) :
    (s.prepend o).fail code f t = (s.fail code f t).prepend o := report_prepend o s _

@[simp] theorem settle_prepend (uri : String) :
    (s.prepend o).settle uri = (s.settle uri).prepend o := by
  simp only [settle, prepend_conditions, flushInactive_prepend]
  split <;> rfl

@[simp] theorem openCondition_prepend (t : Token) (outcome : Bool) :
    (s.prepend o).openCondition t outcome = (s.openCondition t outcome).prepend o := rfl

theorem define_prepend (t : Token) (name value : String) :
    (s.prepend o).define t name value = (s.define t name value).prepend o := by
  unfold define
  rw [prepend_macros]
  cases s.macros.define ⟨name, value, some t.location⟩ with
  | error r => exact fail_prepend o s _ _ t
  | ok macros => rfl

theorem undefine_prepend (t : Token) (name : String) :
    (s.prepend o).undefine t name = (s.undefine t name).prepend o := by
  simp only [undefine, prepend_macros, report_prepend]
  split <;> rfl

theorem turnCondition_prepend (src : Source) (t : Token) :
    (s.prepend o).turnCondition src t = (s.turnCondition src t).prepend o := by
  unfold turnCondition
  rw [prepend_conditions]
  cases s.conditions.invert with
  | error e => exact fail_prepend o s _ _ t
  | ok conditions => exact settle_prepend o { s with conditions } src.uri

theorem closeCondition_prepend (src : Source) (t : Token) :
    (s.prepend o).closeCondition src t = (s.closeCondition src t).prepend o := by
  unfold closeCondition
  rw [prepend_conditions]
  cases s.conditions.pop with
  | error e => exact fail_prepend o s _ _ t
  | ok popped =>
    obtain ⟨opener, conditions⟩ := popped
    have h : { s.prepend o with conditions } = prepend o { s with conditions } := rfl
    simp only [h, fold_prepend]
    split <;> exact settle_prepend ..

/-- Reading depends on nothing that was left behind before it. -/
def Additive (read : Reader) : Prop :=
  ∀ o src cs s, read src cs (prepend o s) = (read src cs s).prepend o

theorem leave_prepend (inner : State) :
    (s.prepend o).leave (inner.prepend o) = (s.leave inner).prepend o := rfl

theorem includePath_prepend (σ : Setting) (src : Source) (nested : Option Reader)
    (hread : ∀ read ∈ nested, Additive read) (t : Token) (name : String) (path : Path) :
    (s.prepend o).includePath σ src nested t name path =
      (s.includePath σ src nested t name path).prepend o := by
  unfold includePath
  simp only [prepend_cache]
  rw [apply_ite (prepend o)]
  refine if_congr Iff.rfl (fail_prepend o s _ _ t) ?_
  cases nested with
  | none => exact fail_prepend o s _ _ t
  | some read =>
    dsimp only
    generalize s.cache.read σ.files _ = outcome
    obtain ⟨fault | text, cache⟩ := outcome
    · exact fail_prepend o { s with asked := _, cache } _ _ t
    · dsimp only
      rw [← leave_prepend, ← hread read rfl]
      rfl

theorem includeFile_prepend (σ : Setting) (src : Source) (nested : Option Reader)
    (hread : ∀ read ∈ nested, Additive read) (t : Token) (name : String) :
    (s.prepend o).includeFile σ src nested t name =
      (s.includeFile σ src nested t name).prepend o := by
  unfold includeFile
  rw [prepend_macros, prepend_failure]
  cases s.failure with
  | some e => rfl
  | none =>
    cases σ.locate src (s.macros.substitute name) with
    | error e => rfl
    | ok path => exact includePath_prepend o s σ src nested hread t _ path

theorem carryOut_prepend (σ : Setting) (src : Source) (nested : Option Reader)
    (hread : ∀ read ∈ nested, Additive read) (t : Token) (d : Directive) :
    (s.prepend o).carryOut σ src nested t d = (s.carryOut σ src nested t d).prepend o := by
  cases d with
  | define name value => exact define_prepend o s t name value
  | undef name => exact undefine_prepend o s t name
  | inclusion path => exact includeFile_prepend o s σ src nested hread t path
  | condition name negated => exact settle_prepend o (s.openCondition t _) src.uri
  | otherwise => exact turnCondition_prepend o s src t
  | endif => exact closeCondition_prepend o s src t

theorem refuse_prepend (t : Token) (word : Option DirectiveWord) (e : DirectiveError) :
    (s.prepend o).refuse t word e = (s.refuse t word e).prepend o := by
  simp only [refuse, fail_prepend, openCondition_prepend]
  split <;> rfl

theorem directiveLine_prepend (σ : Setting) (src : Source) (nested : Option Reader)
    (hread : ∀ read ∈ nested, Additive read) (line : List Char) :
    (s.prepend o).directiveLine σ src nested line =
      (s.directiveLine σ src nested line).prepend o := by
  simp only [directiveLine, activeDirective, prepend_conditions, inactiveLine_prepend,
    tokenHere_prepend, emit_prepend, advance_prepend]
  split
  · rfl
  · split
    · exact refuse_prepend ..
    · exact carryOut_prepend _ _ _ _ _ hread _ _

theorem take_prepend (σ : Setting) (src : Source) (nested : Option Reader)
    (hread : ∀ read ∈ nested, Additive read) (p : Piece) :
    (s.prepend o).take σ src nested p = (s.take σ src nested p).prepend o := by
  cases p with
  | newline => rfl
  | space c => rfl
  | directive line => exact directiveLine_prepend o s σ src nested hread line
  | inactive line => exact inactiveLine_prepend o s src.uri line
  | element l => exact element_prepend o s src.uri l

theorem reportUnclosed_prepend (t : Token) :
    (s.prepend o).reportUnclosed t = (s.reportUnclosed t).prepend o := report_prepend o s _

theorem finish_prepend (uri : String) : (s.prepend o).finish uri = (s.finish uri).prepend o := by
  have h : ∀ (openers : List Token) s, openers.foldl reportUnclosed (prepend o s) =
      (openers.foldl reportUnclosed s).prepend o := by
    intro openers
    induction openers with
    | nil => intro s; rfl
    | cons t openers ih =>
      intro s
      rw [List.foldl_cons, List.foldl_cons, reportUnclosed_prepend, ih]
  simp only [finish, flushInactive_prepend, prepend_conditions, h]

end State

/-! ### Whole texts -/

theorem Next.of_prepend {directives : Bool} {s : State} {o : Output} {text rest : List Char}
    {p : Piece} (h : Next directives s text p rest) :
    Next directives (s.prepend o) text p rest := by
  cases h with
  | newline rest => exact .newline rest
  | space rest hc => exact .space rest hc
  | directive hd hs hline hrest => exact .directive hd hs hline hrest
  | inactive hn hc hs hd ha hline hrest => exact .inactive hn hc hs hd ha hline hrest
  | element hn hc hs => exact .element (s := s.prepend o) hn hc hs

theorem run_prepend (σ : Setting) (src : Source) (nested : Option Reader)
    (hread : ∀ read ∈ nested, State.Additive read) (o : Output) (s : State) (cs : List Char) :
    run σ src nested (s.prepend o) cs = (run σ src nested s cs).prepend o := by
  induction s, cs using run_induction σ src nested with
  | nil s => rw [run_nil, run_nil]
  | next s text p rest h ih =>
    rw [run_of_next σ src nested h, run_of_next σ src nested h.of_prepend,
      State.take_prepend o s σ src nested hread, ih]

/-- However deep files are included, reading depends on nothing that was left behind before. -/
theorem text_additive (σ : Setting) (n : Nat) : State.Additive (text σ n) := by
  induction n with
  | zero =>
    intro o src cs s
    rw [text, run_prepend σ src none (by simp), State.finish_prepend, text]
  | succ n ih =>
    intro o src cs s
    have hread : ∀ read ∈ some (text σ n), State.Additive read := by
      intro read h
      rw [← Option.some.inj h]
      exact ih
    rw [text, run_prepend σ src _ hread, State.finish_prepend, text]

/-! ### What directives leave alone -/

namespace State

/-- Two states that differ at most in open conditions, in lines to be reported as inactive, in
regions to fold and in findings. -/
structure Agrees (s s' : State) : Prop where
  macros : s'.macros = s.macros
  cache : s'.cache = s.cache
  asked : s'.asked = s.asked
  failure : s'.failure = s.failure
  tokens : s'.tokens = s.tokens
  part : s'.part = s.part
  position : s'.position = s.position
  lineStart : s'.lineStart = s.lineStart

variable {s s' s'' : State}

theorem Agrees.refl (s : State) : Agrees s s := ⟨rfl, rfl, rfl, rfl, rfl, rfl, rfl, rfl⟩

theorem Agrees.trans (h : Agrees s s') (h' : Agrees s' s'') : Agrees s s'' :=
  ⟨h'.macros.trans h.macros, h'.cache.trans h.cache, h'.asked.trans h.asked,
    h'.failure.trans h.failure, h'.tokens.trans h.tokens, h'.part.trans h.part,
    h'.position.trans h.position, h'.lineStart.trans h.lineStart⟩

theorem agrees_report (s : State) (d : Diagnostic) : Agrees s (s.report d) :=
  ⟨rfl, rfl, rfl, rfl, rfl, rfl, rfl, rfl⟩

theorem agrees_fold (s : State) (r : FoldingRegion) : Agrees s (s.fold r) :=
  ⟨rfl, rfl, rfl, rfl, rfl, rfl, rfl, rfl⟩

theorem agrees_openCondition (s : State) (t : Token) (outcome : Bool) :
    Agrees s (s.openCondition t outcome) := ⟨rfl, rfl, rfl, rfl, rfl, rfl, rfl, rfl⟩

theorem agrees_conditions (s : State) (conditions : Conditional Token) :
    Agrees s { s with conditions } := ⟨rfl, rfl, rfl, rfl, rfl, rfl, rfl, rfl⟩

/-- An element that refers to no macro is added as a token, whatever is wrong with it. -/
theorem agrees_plain (s : State) (uri : String) (l : Lexeme) :
    Agrees { (s.emit (s.tokenHere uri l.kind l.text)).advance l.text with
      part := Expansion.partAfter s.part l } (s.plain uri l) := by
  unfold plain foldLines
  dsimp only
  split <;> cases l.fault <;> exact ⟨rfl, rfl, rfl, rfl, rfl, rfl, rfl, rfl⟩

theorem agrees_flushInactive (s : State) (uri : String) : Agrees s (s.flushInactive uri) := by
  unfold flushInactive
  split
  · exact Agrees.refl s
  · exact ⟨rfl, rfl, rfl, rfl, rfl, rfl, rfl, rfl⟩

theorem agrees_settle (s : State) (uri : String) : Agrees s (s.settle uri) := by
  unfold settle
  split
  · exact agrees_flushInactive s uri
  · exact Agrees.refl s

theorem agrees_turnCondition (s : State) (src : Source) (t : Token) :
    Agrees s (s.turnCondition src t) := by
  unfold turnCondition
  split
  · exact agrees_report s _
  · exact (agrees_conditions s _).trans (agrees_settle _ src.uri)

theorem agrees_closeCondition (s : State) (src : Source) (t : Token) :
    Agrees s (s.closeCondition src t) := by
  unfold closeCondition
  split
  · exact agrees_report s _
  · rename_i opener conditions _
    have h := agrees_conditions s conditions
    dsimp only
    split
    · exact (h.trans (agrees_fold _ _)).trans (agrees_settle _ src.uri)
    · exact h.trans (agrees_settle _ src.uri)

theorem agrees_refuse (s : State) (t : Token) (word : Option DirectiveWord) (e : DirectiveError) :
    Agrees s (s.refuse t word e) := by
  unfold refuse
  dsimp only
  split
  · exact (agrees_report s _).trans (agrees_openCondition _ t true)
  · exact agrees_report s _

/-- Directives on conditions change nothing but conditions. -/
theorem agrees_carryOut (σ : Setting) (src : Source) (nested : Option Reader) (s : State)
    (t : Token) (d : Directive) (hd : d.word.isConditional = true) :
    Agrees s (s.carryOut σ src nested t d) := by
  cases d with
  | define | undef | inclusion => cases hd
  | condition name negated => exact (agrees_openCondition s t _).trans (agrees_settle _ src.uri)
  | otherwise => exact agrees_turnCondition s src t
  | endif => exact agrees_closeCondition s src t

theorem agrees_finish (s : State) (uri : String) : Agrees s (s.finish uri) := by
  have h : ∀ (openers : List Token) s, Agrees s (openers.foldl reportUnclosed s) := by
    intro openers
    induction openers with
    | nil => exact Agrees.refl
    | cons t openers ih => exact fun s => (agrees_report s _).trans (ih _)
  exact (agrees_flushInactive s uri).trans (h _ _)

end State

end Pearl.Scan
