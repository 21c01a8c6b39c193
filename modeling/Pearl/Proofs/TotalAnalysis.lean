import Pearl.Analysis
import Pearl.Proofs.ReadingLoops
import Pearl.Proofs.UnusedSymbols
import Pearl.Proofs.UriRoundTrip

namespace Pearl.Resolution

/-! ### An analysis that may fail -/

/-- What might go wrong in an analysis. -/
inductive Fault where
  /-- A loop of the reading makes no headway. -/
  | stuck (rest : List Word)
  /-- The global scope is closed, or a scope is asked for at a level that is not open. -/
  | arena (e : ArenaError)
  /-- No closer is known for the keyword of a block. -/
  | noCloser (keyword : String)
  /-- A document cannot be named in a message. -/
  | uri (e : UriError)

/-- The closers by the keywords of the blocks that they close. -/
def closers : List (String × Closer) :=
  [Closer.blockEnd, .fin, .modend].flatMap fun c => c.openers.map fun b => (b.keyword, c)

def tryCloser (b : Block) : Except Fault Closer :=
  (closers.lookup b.keyword).elim (.error (.noCloser b.keyword)) .ok

theorem tryCloser_eq (b : Block) : tryCloser b = .ok b.closer := by
  cases b <;> rfl

namespace State

def scopeAt (s : State) (level : Int) : Except Fault Nat := (s.arena.atLevel level).mapError .arena

/-- The level of the scope that holds the names of procedures and tasks. -/
def unitLevel (s : State) : Int := if s.inModule then 1 else 0

/-- The level of the innermost procedure or task. -/
def bodyLevel? (s : State) : Option Nat :=
  (s.frames.findIdx? (·.block.isBody)).map (s.frames.length - ·)

def tryBodyScope? (s : State) : Except Fault (Option Nat) :=
  match s.bodyLevel? with
  | some level => (s.scopeAt level).map some
  | none => .ok none

/-- Closes the innermost block and its scope. -/
def tryCloseFrame (s : State) (place : Nat) : Except Fault State :=
  match s.arena.pop, s.frames with
  | .error e, _ => .error (.arena e)
  | .ok _, [] => .error (.arena .closingGlobal)
  | .ok (_, arena), frame :: outer =>
    .ok { s with
      frames := outer, arena
      closedBlocks := s.closedBlocks.push ⟨frame.block, frame.openedAt, place⟩ }

/-- Opens a module, whose name belongs to the outermost level. -/
def tryOpenModule (s : State) (block : Block) (place : Nat) (name : Option Occurrence) :
    Except Fault State :=
  let s := if s.frames.isEmpty then s else s.report (.misplacedModule block) place
  match name with
  | some n => (s.scopeAt 0).map fun scope =>
    let (s, id) := s.declareIn scope (newSymbol n .module {})
    s.openFrame block n.place (some id)
  | none => .ok (s.openFrame block place none)

def tryOpenUnit (s : State) (isTask : Bool) (name : Occurrence) : Except Fault State :=
  let block := if isTask then Block.task else .procedure
  let kind := if isTask then SymbolKind.task else .proc
  let s := if s.atModuleLevel then s else s.report (.nestedUnit block name.name) name.place
  (s.scopeAt s.unitLevel).map fun scope =>
    let (s, id) := s.declareIn scope (newSymbol name kind {})
    s.openFrame block name.place (some id)

/-- A label belongs to the procedure or task around it, or to the block it stands in. -/
def tryLabel (s : State) (name : Occurrence) : Except Fault State :=
  s.tryBodyScope?.map fun
    | some scope => (s.declareIn scope (newSymbol name .label {})).1
    | none =>
      let (s, id) := s.declare name .label {}
      if s.isLabel id && (s.outerLabels.lookup name.name).isNone then
        { s with outerLabels := s.outerLabels ++ [(name.name, id)] }
      else s

/-- Starts the other branch of a conditional statement. -/
def tryOtherwise (s : State) (place : Nat) : Except Fault State :=
  match s.frames with
  | frame :: _ =>
    if frame.block = .conditional then
      (s.tryCloseFrame place).map (·.openFrame .conditional place none)
    else .ok (s.report .unmatchedElse place)
  | [] => .ok (s.report .unmatchedElse place)

/-- Closes a block, if the closer is one for the innermost block. -/
def tryClose (s : State) (closer : Closer) (place : Nat) : Except Fault State :=
  match s.frames with
  | frame :: _ =>
    if closer.openers.contains frame.block then
      let s := if frame.block.isBody then frame.jumps.foldl (landInBody place) s else s
      (s.tryCloseFrame place).map fun closed =>
        { closed with moduleEnded := s.moduleEnded || closer = .modend }
    else .ok (s.report (.unexpectedCloser closer (some frame.block)) place)
  | [] => .ok (s.report (.unexpectedCloser closer none) place)

def tryStep (s : State) : Event → Except Fault State
  | .label name => s.tryLabel name
  | .openModule block place name => s.tryOpenModule block place name
  | .openUnit isTask name => s.tryOpenUnit isTask name
  | .otherwise place => s.tryOtherwise place
  | .close closer place => s.tryClose closer place
  | e => .ok (s.step e)

/-- The scopes that are still open and to be searched for unused names. -/
def tryOpenSwept (s : State) : Except Fault (List Nat) :=
  if s.moduleEnded then .ok []
  else if s.unitLevel = 1 then (s.scopeAt 1).map fun scope => [0, scope]
  else .ok [0]

def trySweep (s : State) : Except Fault State :=
  let (closed, arena) := s.arena.takeClosed
  s.tryOpenSwept.map fun swept =>
    (closed ++ swept).foldl (fun s' scope => (arena.unused scope).foldl reportUnused s')
      { s with arena }

def tryFinish (s : State) (unused : Bool) : Except Fault State :=
  let s := s.jumps.foldl landOutside s
  let s := s.frames.foldl reportUnclosed s
  if unused then s.trySweep else .ok s

variable {s : State}

/-! ### It does not fail -/

theorem tryCloseFrame_eq (h : s.skeleton.InStep) (hne : s.frames ≠ []) (place : Nat) :
    s.tryCloseFrame place = .ok (s.closeFrame place) := by
  obtain ⟨i, outer, -, hpop⟩ := pop_of_inStep h hne
  unfold tryCloseFrame closeFrame
  rw [hpop]
  cases hframes : s.frames with
  | nil => exact absurd hframes hne
  | cons frame frames => rfl

theorem scopeAt_unitLevel (h : s.skeleton.InStep) : s.scopeAt s.unitLevel = .ok s.unitScope := by
  rw [unitLevel]
  cases hmodule : s.inModule with
  | true =>
    rw [if_pos rfl, scopeAt, (level_of_inModule h hmodule).1]
    rfl
  | false =>
    rw [if_neg Bool.false_ne_true, scopeAt, (aligned_of_inStep h).root.1, unitScope, hmodule]
    rfl

theorem find?_zip {α β : Type} (p : α → Bool) (xs : List α) (ys : List β)
    (hlength : xs.length ≤ ys.length) :
    ((xs.zip ys).find? fun e => p e.1).map (·.2) = (xs.findIdx? p).bind (ys[·]?) := by
  induction xs generalizing ys with
  | nil => rfl
  | cons x xs ih =>
    cases ys with
    | nil => cases hlength
    | cons y ys =>
      rw [List.zip_cons_cons, List.find?_cons, List.findIdx?_cons]
      cases hx : p x with
      | true => rfl
      | false =>
        dsimp only
        rw [ih ys (Nat.le_of_succ_le_succ hlength)]
        cases xs.findIdx? p <;> rfl

theorem tryBodyScope?_eq (h : s.skeleton.InStep) : s.tryBodyScope? = .ok s.bodyScope? := by
  have hdepth := (aligned_of_inStep h).depth
  have hscope : s.bodyScope? = (s.frames.findIdx? (·.block.isBody)).bind (s.arena.stack[·]?) :=
    find?_zip (fun frame : Frame => frame.block.isBody) s.frames s.arena.stack
      (by rw [Arena.depth] at hdepth; omega)
  rw [hscope, tryBodyScope?, bodyLevel?]
  cases hi : s.frames.findIdx? (·.block.isBody) with
  | none => rfl
  | some i =>
    have hlt : i < s.frames.length := (List.findIdx?_eq_some_iff_findIdx_eq.mp hi).1
    obtain ⟨scope, hget⟩ : ∃ scope, s.arena.stack[i]? = some scope :=
      ⟨_, List.getElem?_eq_getElem (by rw [Arena.depth] at hdepth; omega)⟩
    have hlevel := atLevel_of_getElem? s.arena (s.frames.length - i) i (by omega) hget
    dsimp only [Option.map_some, Option.bind_some]
    rw [scopeAt, hlevel, hget]
    rfl

theorem tryLabel_eq (h : s.skeleton.InStep) (name : Occurrence) :
    s.tryLabel name = .ok (s.label name) := by
  rw [tryLabel, tryBodyScope?_eq h]
  unfold label
  cases s.bodyScope? <;> rfl

theorem tryOpenModule_eq (h : s.skeleton.InStep) (block : Block) (place : Nat)
    (name : Option Occurrence) :
    s.tryOpenModule block place name = .ok (s.openModule block place name) := by
  have hroot : (if s.frames.isEmpty then s else s.report (.misplacedModule block) place).scopeAt 0 =
      .ok 0 := by
    have hlevel := (aligned_of_inStep h).root.1
    split
    · rw [scopeAt, hlevel]
      rfl
    · change (s.arena.atLevel 0).mapError _ = _
      rw [hlevel]
      rfl
  cases name with
  | none => rfl
  | some n =>
    unfold tryOpenModule
    dsimp only
    rw [hroot]
    rfl

theorem tryOpenUnit_eq (h : s.skeleton.InStep) (isTask : Bool) (name : Occurrence) :
    s.tryOpenUnit isTask name = .ok (s.openUnit isTask name) := by
  unfold tryOpenUnit openUnit
  dsimp only
  rw [scopeAt_unitLevel]
  · rfl
  · split
    · exact h
    · exact h

theorem tryOtherwise_eq (h : s.skeleton.InStep) (place : Nat) :
    s.tryOtherwise place = .ok (s.otherwise place) := by
  unfold tryOtherwise otherwise
  cases hframes : s.frames with
  | nil => rfl
  | cons frame outer =>
    have hne : s.frames ≠ [] := by simp [hframes]
    dsimp only
    rw [tryCloseFrame_eq h hne]
    split <;> rfl

theorem tryClose_eq (h : s.skeleton.InStep) (closer : Closer) (place : Nat) :
    s.tryClose closer place = .ok (s.close closer place) := by
  unfold tryClose close
  cases hframes : s.frames with
  | nil => rfl
  | cons frame outer =>
    have hlanded : ∀ jumps : List (String × Nat),
        Keeps (·.code = "undefined-label") s (jumps.foldl (landInBody place) s) :=
      fun jumps => keeps_foldl (keeps_landInBody (fun _ => rfl) place) jumps s
    dsimp only
    split
    · rw [tryCloseFrame_eq]
      · rfl
      · split
        · exact (hlanded frame.jumps).skeleton ▸ h
        · exact h
      · split
        · rw [(foldl_landInBody_eq place frame.jumps s).1, hframes]
          exact List.cons_ne_nil _ _
        · simp [hframes]
    · rfl

/-- Where blocks and scopes are in step, no event fails. -/
theorem tryStep_eq (h : s.skeleton.InStep) (e : Event) : s.tryStep e = .ok (s.step e) := by
  cases e with
  | label name => exact tryLabel_eq h name
  | openModule block place name => exact tryOpenModule_eq h block place name
  | openUnit isTask name => exact tryOpenUnit_eq h isTask name
  | otherwise place => exact tryOtherwise_eq h place
  | close closer place => exact tryClose_eq h closer place
  | _ => rfl

theorem foldlM_tryStep (h : s.skeleton.InStep) (events : List Event) :
    events.foldlM tryStep s = .ok (events.foldl step s) := by
  induction events generalizing s with
  | nil => rfl
  | cons e events ih =>
    rw [List.foldlM_cons, tryStep_eq h e]
    exact ih (h.moves (step_moves h e).1)

theorem tryOpenSwept_eq (h : s.skeleton.InStep) : s.tryOpenSwept = .ok s.openSwept := by
  unfold tryOpenSwept openSwept
  split
  · rfl
  · have hunit := scopeAt_unitLevel h
    unfold unitLevel at hunit ⊢
    cases hmodule : s.inModule with
    | true =>
      rw [hmodule, if_pos rfl] at hunit
      rw [if_pos rfl, if_pos rfl, if_pos rfl, hunit]
      rfl
    | false => rfl

theorem tryFinish_eq (h : s.skeleton.InStep) (unused : Bool) :
    s.tryFinish unused = .ok (s.finish unused) := by
  have hlanded := keeps_foldl keeps_landOutside s.jumps s
  have htold : ∀ (frames : List Frame) (s : State),
      Keeps (fun _ => True) s (frames.foldl reportUnclosed s) :=
    keeps_foldl fun s frame => keeps_report s trivial frame.openedAt
  unfold tryFinish finish trySweep sweep
  dsimp only
  split
  · rw [tryOpenSwept_eq]
    · rfl
    · rw [(htold _ _).skeleton, hlanded.skeleton]
      exact h
  · rfl

end State

/-! ### Findings -/

def tryLocation (tokens : Array Token) (place : Nat) : Except Fault String :=
  match tokens[place]? with
  | some t => t.location.render.mapError .uri
  | none => .ok ""

def tryMessage (location : Nat → Except Fault String) : Cause → Except Fault String
  | .duplicate name first => (location first).map fun l =>
    s!"'{name}' is already declared in this scope (first declared at {l})"
  | .unexpectedCloser closer (some b) => (tryCloser b).map fun c =>
    let openers := "/".intercalate (closer.openers.map Block.keyword)
    s!"unexpected {closer.keyword}: no open {openers} block" ++
      s!" (innermost open block is {b.keyword}, expected {c.keyword})"
  | .unclosed b => (tryCloser b).map fun c =>
    s!"Block '{b.keyword}' not closed, expected {c.keyword}"
  | cause => .ok (cause.message fun _ => "")

theorem tryMessage_eq {tryLocation : Nat → Except Fault String} {location : Nat → String}
    (h : ∀ place, tryLocation place = .ok (location place)) (cause : Cause) :
    tryMessage tryLocation cause = .ok (cause.message location) := by
  cases cause with
  | duplicate name first =>
    rw [tryMessage, h]
    rfl
  | unexpectedCloser closer innermost =>
    cases innermost with
    | none => rfl
    | some b =>
      rw [tryMessage, tryCloser_eq]
      rfl
  | unclosed b =>
    rw [tryMessage, tryCloser_eq]
    rfl
  | _ => rfl

/-- The finding on the token at its place. -/
def tryDiagnostic? (tokens : Array Token) (f : Finding) : Except Fault (Option Diagnostic) :=
  match tokens[f.place]? with
  | some t => (tryMessage (tryLocation tokens) f.cause).map fun message =>
    some { Diagnostic.atToken f.cause.severity f.cause.code message t with
      unnecessary := f.cause.isUnnecessary }
  | none => .ok none

/-- The findings, with their places looked up in the tokens that count. -/
def State.tryDiagnostics (s : State) (tokens : Array Token) : Except Fault (List Diagnostic) :=
  (s.findings.toList.mapM (tryDiagnostic? tokens)).map (·.filterMap id)

/-- The document of each token can be named. -/
def Nameable (tokens : List Token) : Prop := ∀ t ∈ tokens, ∃ p, Uri.toPath t.uri = .ok p

theorem tryDiagnostics_eq {tokens : List Token} (h : Nameable tokens) (s : State) :
    s.tryDiagnostics tokens.toArray = .ok (s.diagnostics tokens.toArray) := by
  have hlocation : ∀ place, tryLocation tokens.toArray place =
      .ok (((tokens.toArray[place]?).bind (·.location.render.toOption)).getD "") := by
    intro place
    unfold tryLocation
    cases ht : tokens.toArray[place]? with
    | none => rfl
    | some t =>
      obtain ⟨p, hp⟩ := h t (List.mem_of_getElem? (by simpa using ht))
      obtain ⟨text, hrender⟩ : ∃ text, t.location.render = .ok text :=
        Location.exists_render (Uri.isNameable_of_toPath hp)
      dsimp only [Option.bind_some]
      rw [hrender]
      rfl
  have hfinding : ∀ f : Finding, tryDiagnostic? tokens.toArray f =
      .ok (f.toDiagnostic? tokens.toArray) := by
    intro f
    unfold tryDiagnostic? Finding.toDiagnostic?
    dsimp only
    cases tokens.toArray[f.place]? with
    | none => rfl
    | some t =>
      dsimp only
      rw [tryMessage_eq hlocation]
      rfl
  have hall : ∀ fs : List Finding, fs.mapM (tryDiagnostic? tokens.toArray) =
      .ok (fs.map (·.toDiagnostic? tokens.toArray)) := by
    intro fs
    induction fs with
    | nil => rfl
    | cons f fs ih =>
      rw [List.mapM_cons, hfinding, ih]
      rfl
  rw [State.tryDiagnostics, hall, State.diagnostics]
  change Except.ok ((s.findings.toList.map _).filterMap id) = _
  rw [List.filterMap_map]
  rfl

/-! ### Whole programs -/

/-- The tokens that count, up to an offset of a document if there is a bound. -/
def countedUpTo (bound : Option (Option String × Int)) (tokens : List Token) : List Token :=
  match bound with
  | some (uri, offset) => Analysis.cutOff uri offset (Word.significant tokens)
  | none => Word.significant tokens

/-- The state in which an analysis stops: with a bound, the end of the program is not looked at. -/
def State.tryStop (s : State) (bounded unused : Bool) : Except Fault State :=
  if bounded then .ok s else s.tryFinish unused

/-- Analyses tokens, up to a bound or to the end of the program. -/
def tryProgram (tokens : List Token) (bound : Option (Option String × Int)) (unused : Bool) :
    Except Fault (State × List Diagnostic) := do
  let counted := countedUpTo bound tokens
  let events ← (Event.statements.run (none, true, Word.ofTokens counted)).mapError (.stuck ·.rest)
  let read ← events.foldlM State.tryStep {}
  let s ← read.tryStop bound.isSome unused
  let told ← s.tryDiagnostics counted.toArray
  return (s, told)

/-- Whatever tokens there are, an analysis of them comes to its end and nothing goes wrong on the
way, with a bound or without: every statement takes at least one word and no more than there are,
so does every round of the loops in it, no block is closed without its scope, every level that is
asked for is open, and every block has its closer. What comes out is the resolution of the
program and its findings. -/
theorem analysis_total {tokens : List Token} (h : Nameable tokens)
    (bound : Option (Option String × Int)) (unused : Bool) :
    let counted := countedUpTo bound tokens
    let words := Word.ofTokens counted
    let s := if bound.isSome then ofWords words else program words unused
    tryProgram tokens bound unused = .ok (s, s.diagnostics counted.toArray) ∧
    (∀ prev start w rest, Event.IsLeftOf (Event.statement prev start w rest).1.rest (w :: rest)) ∧
    Event.LoopsEnd := by
  intro counted words s
  have hcounted : Nameable counted := by
    intro t ht
    refine h t (List.mem_filter.mp (?_ : t ∈ Word.significant tokens)).1
    unfold counted countedUpTo at ht
    split at ht
    · exact (List.takeWhile_sublist _).subset ht
    · exact ht
  have hinit : State.skeleton {} |>.InStep := ⟨rfl, rfl⟩
  refine ⟨?_, fun prev start w rest => Event.isLeftOf_cons (Event.statement_suffix ..) w,
    Event.loopsEnd⟩
  have hevents : Event.statements.run (none, true, words) = .ok (Event.ofWords words) :=
    Event.loopsEnd.statements none true words
  have hread : (Event.ofWords words).foldlM State.tryStep {} = .ok (ofWords words) :=
    State.foldlM_tryStep hinit _
  have hstop : (ofWords words).tryStop bound.isSome unused = .ok s := by
    unfold State.tryStop s
    split
    · rfl
    · exact State.tryFinish_eq (foldl_step_inv _ hinit).1 unused
  unfold tryProgram
  dsimp only
  rw [hevents]
  change (Event.ofWords words).foldlM State.tryStep {} >>= _ = _
  rw [hread]
  change (ofWords words).tryStop bound.isSome unused >>= _ = _
  rw [hstop]
  change s.tryDiagnostics counted.toArray >>= _ = _
  rw [tryDiagnostics_eq hcounted]
  rfl

/-- A declaration made twice in a list that is not closed, a closer that does not fit, and heads
and statements that break off. -/
theorem analysis_total_malformed :
    let tokens := (Scan.document { files := { cwd := Path.ofString "/ws" }, options := {} }
      ⟨"file:///ws/a", none, []⟩ {} .problem
      "MODULE M; DCL X FIXED, (X; FIN P: PROC(A,, ; REQUEST S, ; CALL".toList).tokens.toList
    let s := program (Word.ofTokens (Word.significant tokens)) true
    Nameable tokens ∧ s.findings.size = 10 ∧
      tryProgram tokens none true = .ok (s, s.diagnostics (Word.significant tokens).toArray) := by
  intro tokens s
  have huri : ∀ t ∈ tokens, t.uri = "file:///ws/a" := by decide +kernel
  have hpath : Uri.toPath "file:///ws/a" = .ok (Path.ofString "/ws/a") := by decide +kernel
  have hnameable : Nameable tokens := fun t ht => ⟨_, huri t ht ▸ hpath⟩
  exact ⟨hnameable, by decide +kernel, (analysis_total hnameable none true).1⟩

end Pearl.Resolution
