import Pearl.Resolution.Program

namespace Pearl.Resolution

/-! ### The blocks of a state -/

/-- The nesting of blocks and scopes: the open blocks and the open scopes, innermost first, the
keywords of all scopes there have been, and how many blocks have been closed. -/
structure Skeleton where
  blocks : List Block
  stack : List Nat
  keywords : List (Option String)
  closed : Nat

/-- The nesting of a state. -/
def State.skeleton (s : State) : Skeleton :=
  ⟨s.frames.map (·.block), s.arena.stack, s.arena.scopes.toList.map (·.keyword),
    s.closedBlocks.size⟩

namespace Skeleton

def push (k : Skeleton) (b : Block) : Skeleton :=
  ⟨b :: k.blocks, k.keywords.length :: k.stack, k.keywords ++ [some b.keyword], k.closed⟩

def pop (k : Skeleton) : Skeleton := ⟨k.blocks.tail, k.stack.tail, k.keywords, k.closed + 1⟩

/-- Blocks and scopes are in step: every open block has the open scope of its keyword, down to the
global scope, which has none. -/
structure InStep (k : Skeleton) : Prop where
  paired : k.stack.map (k.keywords[·]?) =
    k.blocks.map (fun b => some (some b.keyword)) ++ [some none]
  root : k.stack.getLast? = some 0

variable {k : Skeleton}

theorem InStep.push (h : k.InStep) (b : Block) : (k.push b).InStep := by
  have hold : k.stack.map ((k.keywords ++ [some b.keyword])[·]?) =
      k.stack.map (k.keywords[·]?) := by
    apply List.map_congr_left
    intro i hi
    have hmem : k.keywords[i]? ∈ k.blocks.map (fun b => some (some b.keyword)) ++ [some none] := by
      rw [← h.paired]
      exact List.mem_map_of_mem hi
    have hlt : i < k.keywords.length := by
      apply Nat.lt_of_not_le
      intro hge
      rw [List.getElem?_eq_none hge] at hmem
      simp at hmem
    exact List.getElem?_append_left hlt
  refine ⟨?_, ?_⟩
  · simp only [Skeleton.push, List.map_cons, List.cons_append, hold, h.paired]
    simp
  · rw [Skeleton.push, List.getLast?_cons, h.root]
    rfl

theorem InStep.pop (h : k.InStep) (hne : k.blocks ≠ []) : k.pop.InStep := by
  obtain ⟨blocks, stack, keywords, closed⟩ := k
  obtain ⟨hpaired, hroot⟩ := h
  cases blocks with
  | nil => exact absurd rfl hne
  | cons b blocks =>
    cases stack with
    | nil => cases hroot
    | cons i stack =>
      simp only [List.map_cons, List.cons_append, List.cons.injEq] at hpaired
      refine ⟨hpaired.2, ?_⟩
      cases stack with
      | nil => simp at hpaired
      | cons j stack => exact hroot

/-- What one event may do to the nesting, with the number of blocks that it opens and closes. -/
inductive Moves (k : Skeleton) : Nat → Nat → Skeleton → Prop where
  | stay : Moves k 0 0 k
  | push (b : Block) : Moves k 1 0 (k.push b)
  | pop (hne : k.blocks ≠ []) : Moves k 0 1 k.pop
  | turn (hne : k.blocks ≠ []) (b : Block) : Moves k 1 1 (k.pop.push b)

/-- The books are kept: blocks are opened with a scope each, and closed with a record each. -/
structure Counts (k : Skeleton) (opened closed : Nat) (k' : Skeleton) : Prop where
  blocks : k'.blocks.length + closed = k.blocks.length + opened
  scopes : k'.keywords.length = k.keywords.length + opened
  records : k'.closed = k.closed + closed

variable {k' k'' : Skeleton} {opened closed opened' closed' : Nat}

theorem Counts.trans (h : Counts k opened closed k') (h' : Counts k' opened' closed' k'') :
    Counts k (opened + opened') (closed + closed') k'' := by
  obtain ⟨hblocks, hscopes, hrecords⟩ := h
  obtain ⟨hblocks', hscopes', hrecords'⟩ := h'
  exact ⟨by omega, by omega, by omega⟩

theorem counts_push (k : Skeleton) (b : Block) : Counts k 1 0 (k.push b) :=
  ⟨rfl, by simp [push], rfl⟩

theorem counts_pop (hne : k.blocks ≠ []) : Counts k 0 1 k.pop := by
  refine ⟨?_, rfl, rfl⟩
  have hpos := List.length_pos_iff.mpr hne
  simp only [pop, List.length_tail]
  omega

theorem Moves.counts (hm : Moves k opened closed k') : Counts k opened closed k' := by
  cases hm with
  | stay => exact ⟨rfl, rfl, rfl⟩
  | push b => exact counts_push k b
  | pop hne => exact counts_pop hne
  | turn hne b => exact (counts_pop hne).trans (counts_push k.pop b)

theorem InStep.moves (h : k.InStep) (hm : Moves k opened closed k') : k'.InStep := by
  cases hm with
  | stay => exact h
  | push b => exact h.push b
  | pop hne => exact h.pop hne
  | turn hne b => exact (h.pop hne).push b

end Skeleton

/-! ### What leaves the nesting alone -/

def State.Reports (P : Cause → Prop) (s s' : State) : Prop :=
  ∃ fs : List Finding, s'.findings.toList = s.findings.toList ++ fs ∧ ∀ f ∈ fs, P f.cause

/-- The nesting stays, and findings are added, all with a property. -/
structure State.Keeps (P : Cause → Prop) (s s' : State) : Prop where
  skeleton : s'.skeleton = s.skeleton
  reports : s.Reports P s'

/-- The cause is a block that is never closed. -/
def isUnclosed : Cause → Bool
  | .unclosed _ => true
  | _ => false

theorem code_eq_iff (c : Cause) : c.code = "unclosed-block" ↔ isUnclosed c = true := by
  cases c <;> simp [Cause.code, isUnclosed]

/-- The cause is told at the end of the program only. -/
def isFinal : Cause → Bool
  | .unclosed _ | .unused .. => true
  | _ => false

/-- The cause is another one, which is told while the program is being read. -/
def isPassing (c : Cause) : Prop := isFinal c = false

theorem isPassing_of_undefinedLabel {c : Cause} (h : c.code = "undefined-label") :
    isPassing c := by
  cases c with
  | unclosed => simp [Cause.code] at h
  | unused => simp [Cause.code] at h
  | _ => rfl

namespace State

variable {P : Cause → Prop} {s s' s'' : State}

theorem Reports.of_eq (h : s'.findings = s.findings) : Reports P s s' :=
  ⟨[], by rw [h, List.append_nil], by simp⟩

theorem Reports.trans (h : Reports P s s') (h' : Reports P s' s'') : Reports P s s'' := by
  obtain ⟨fs, hfs, hp⟩ := h
  obtain ⟨fs', hfs', hp'⟩ := h'
  refine ⟨fs ++ fs', by rw [hfs', hfs, List.append_assoc], ?_⟩
  intro f hf
  exact (List.mem_append.mp hf).elim (hp f) (hp' f)

theorem Keeps.of_eq (hskeleton : s'.skeleton = s.skeleton) (hfindings : s'.findings = s.findings) :
    Keeps P s s' := ⟨hskeleton, .of_eq hfindings⟩

theorem Keeps.refl (s : State) : Keeps P s s := .of_eq rfl rfl

theorem Keeps.trans (h : Keeps P s s') (h' : Keeps P s' s'') : Keeps P s s'' :=
  ⟨h'.skeleton.trans h.skeleton, h.reports.trans h'.reports⟩

theorem keeps_report (s : State) {cause : Cause} (hc : P cause) (place : Nat) :
    Keeps P s (s.report cause place) := by
  refine ⟨rfl, [⟨cause, place⟩], by simp [report], ?_⟩
  intro f hf
  rw [List.mem_singleton.mp hf]
  exact hc

theorem keeps_link (s : State) (place id : Nat) : Keeps P s (s.link place id) := .of_eq rfl rfl

theorem keeps_markUsed (s : State) (id : Nat) : Keeps P s (s.markUsed id) := .of_eq rfl rfl

theorem keeps_land (s : State) (place id : Nat) : Keeps P s (s.land place id) := .of_eq rfl rfl

theorem map_keyword_modify (scopes : Array Scope) (i : Nat) (name : String) (id : Nat) :
    (scopes.modify i (·.insert name id)).toList.map (·.keyword) =
      scopes.toList.map (·.keyword) := by
  rw [Array.toList_modify]
  apply List.ext_getElem?
  intro j
  rw [List.getElem?_map, List.getElem?_map, List.getElem?_modify]
  cases scopes.toList[j]? with
  | none => rfl
  | some scope =>
    by_cases hj : i = j
    · simp [hj, Scope.insert]
    · simp [hj]

theorem keeps_introduce (s : State) (scope : Nat) (new : Symbol) :
    Keeps P s (s.introduce scope new) := by
  refine .of_eq ?_ rfl
  simp only [introduce, link, skeleton, Arena.add, map_keyword_modify]

/-! Declarations and references -/

theorem keeps_declareIn (s : State) (hP : ∀ name first, P (.duplicate name first)) (scope : Nat)
    (new : Symbol) : Keeps P s (s.declareIn scope new).1 := by
  unfold declareIn
  split
  · exact keeps_introduce s scope new
  · split
    · split
      · exact keeps_introduce s scope _
      · exact keeps_report s (hP ..) _
    · exact .refl s

theorem keeps_refer (s : State) (hP : ∀ name, P (.undefinedName name)) (name : Occurrence)
    (write call : Bool) : Keeps P s (s.refer name write call).1 := by
  unfold refer
  split
  · dsimp only
    split
    · exact keeps_link s _ _
    · exact (keeps_link s _ _).trans (keeps_markUsed _ _)
  · split
    · exact .of_eq rfl rfl
    · exact keeps_report s (hP _) _

theorem keeps_operate (s : State) (hP : ∀ name, P (.undefinedName name))
    (hP' : ∀ name declared keyword required, P (.kindMismatch name declared keyword required))
    (keyword : String) (kind : SymbolKind) (name : Occurrence) :
    Keeps P s (s.operate keyword kind name) := by
  have hrefer := keeps_refer s hP name false (keyword = "CALL")
  unfold operate
  dsimp only
  split
  · split
    · exact hrefer
    · exact hrefer.trans (keeps_report _ (hP' ..) _)
  · exact hrefer

theorem keeps_modifyUnit (s : State) (f : Attributes → Attributes) :
    Keeps P s (s.modifyUnit f) := by
  unfold modifyUnit
  split
  · exact .of_eq rfl rfl
  · exact .refl s

/-! Labels and jumps -/

theorem keeps_label (s : State) (hP : ∀ name first, P (.duplicate name first))
    (name : Occurrence) : Keeps P s (s.label name) := by
  unfold label
  split
  · exact keeps_declareIn s hP _ _
  · have hdeclare := keeps_declareIn s hP s.arena.current (newSymbol name .label {})
    dsimp only
    split
    · exact hdeclare.trans (.of_eq rfl rfl)
    · exact hdeclare

theorem map_block_addJump (jump : String × Nat) (frames : List Frame) :
    (addJump jump frames).map (·.block) = frames.map (·.block) := by
  induction frames with
  | nil => rfl
  | cons frame outer ih =>
    rw [addJump]
    split
    · rfl
    · rw [List.map_cons, ih, List.map_cons]

theorem keeps_jump (s : State) (target : Occurrence) : Keeps P s (s.jump target) := by
  unfold jump
  split
  · refine .of_eq ?_ rfl
    simp only [skeleton, map_block_addJump]
  · split
    · exact keeps_land s _ _
    · exact .of_eq rfl rfl

theorem keeps_landInBody (hP : ∀ name, P (.undefinedLabel name)) (place : Nat) (s : State)
    (jump : String × Nat) : Keeps P s (landInBody place s jump) := by
  unfold landInBody
  split
  · exact keeps_land s _ _
  · exact keeps_report s (hP _) place

theorem keeps_foldl {α : Type} {f : State → α → State} (hf : ∀ s x, Keeps P s (f s x))
    (xs : List α) (s : State) : Keeps P s (xs.foldl f s) := by
  induction xs generalizing s with
  | nil => exact .refl s
  | cons x xs ih => exact (hf s x).trans (ih (f s x))

/-! ### What opens and closes blocks -/

theorem skeleton_openFrame (s : State) (block : Block) (place : Nat) (symbol : Option Nat) :
    (s.openFrame block place symbol).skeleton = s.skeleton.push block := by
  simp [openFrame, Arena.push, skeleton, Skeleton.push]

theorem pop_of_inStep (h : s.skeleton.InStep) (hne : s.frames ≠ []) :
    ∃ i outer, s.arena.stack = i :: outer ∧
      s.arena.pop = .ok (i, { s.arena with stack := outer, closed := s.arena.closed ++ [i] }) := by
  have hpaired := h.paired
  unfold Arena.pop
  change s.arena.stack.map _ = (s.frames.map _).map _ ++ _ at hpaired
  cases hframes : s.frames with
  | nil => exact absurd hframes hne
  | cons frame outer =>
    rw [hframes] at hpaired
    rcases hstack : s.arena.stack with _ | ⟨i, _ | ⟨j, rest⟩⟩
    · rw [hstack] at hpaired
      simp at hpaired
    · rw [hstack] at hpaired
      simp at hpaired
    · exact ⟨i, j :: rest, rfl, rfl⟩

/-- Where blocks and scopes are in step, closing the innermost block cannot fail. -/
theorem closeFrame_eq (h : s.skeleton.InStep) {frame : Frame} {outer : List Frame}
    (hframes : s.frames = frame :: outer) (place : Nat) :
    (s.closeFrame place).frames = outer ∧
      (s.closeFrame place).arena.stack = s.arena.stack.tail ∧
      (s.closeFrame place).arena.scopes = s.arena.scopes ∧
      (s.closeFrame place).closedBlocks =
        s.closedBlocks.push ⟨frame.block, frame.openedAt, place⟩ ∧
      (s.closeFrame place).findings = s.findings := by
  obtain ⟨i, rest, hstack, hpop⟩ := pop_of_inStep h (by rw [hframes]; exact List.cons_ne_nil _ _)
  unfold closeFrame
  rw [hframes, hpop, hstack]
  exact ⟨rfl, rfl, rfl, rfl, rfl⟩

theorem skeleton_closeFrame (h : s.skeleton.InStep) (hne : s.frames ≠ []) (place : Nat) :
    (s.closeFrame place).skeleton = s.skeleton.pop := by
  cases hframes : s.frames with
  | nil => exact absurd hframes hne
  | cons frame outer =>
    obtain ⟨hf, hstack, hscopes, hclosed, -⟩ := closeFrame_eq h hframes place
    simp only [skeleton, Skeleton.pop, hf, hstack, hscopes, hclosed, hframes, List.map_cons,
      List.tail_cons, Array.size_push]

theorem keeps_bindLoop (s : State) (hP : ∀ name first, P (.duplicate name first))
    (block : Block) (pending : Option Occurrence) : Keeps P s (s.bindLoop block pending) := by
  unfold bindLoop
  split
  · exact (keeps_declareIn s hP _ _).trans (keeps_markUsed _ _)
  · exact .refl s

/-! ### Events -/

def endsIn (s : State) (blocks : List Block) : Bool :=
  s.frames.head?.any (blocks.contains ·.block)

theorem endsIn_eq_true {blocks : List Block} {frame : Frame} {outer : List Frame}
    (hframes : s.frames = frame :: outer) (hmem : frame.block ∈ blocks) :
    s.endsIn blocks = true := by
  rw [endsIn, hframes]
  exact List.contains_iff_mem.mpr hmem

theorem endsIn_eq_false {blocks : List Block}
    (hmem : ∀ frame ∈ s.frames.head?, frame.block ∉ blocks) : s.endsIn blocks = false := by
  rw [endsIn, Option.any_eq_false]
  intro frame hframe
  apply Bool.eq_false_iff.mpr
  intro hc
  exact hmem frame hframe (List.contains_iff_mem.mp hc)

def pushes (s : State) : Event → Nat
  | .openModule .. | .openUnit .. | .openBlock .. => 1
  | .otherwise _ => if s.endsIn [.conditional] then 1 else 0
  | _ => 0

def pops (s : State) : Event → Nat
  | .otherwise _ => if s.endsIn [.conditional] then 1 else 0
  | .close closer _ => if s.endsIn closer.openers then 1 else 0
  | _ => 0

theorem keeps_passing (s : State) (cause : Cause) (place : Nat) (hc : isFinal cause = false) :
    Keeps isPassing s (s.report cause place) := keeps_report s hc place

theorem Keeps.moves (h : Keeps P s s') :
    s.skeleton.Moves 0 0 s'.skeleton ∧ Reports P s s' := by
  rw [h.skeleton]
  exact ⟨.stay, h.reports⟩

/-- What is done before a block is opened does not matter to the nesting. -/
theorem Keeps.openFrame (h : Keeps P s s') (block : Block) (place : Nat) (symbol : Option Nat) :
    s.skeleton.Moves 1 0 (s'.openFrame block place symbol).skeleton ∧
      Reports P s (s'.openFrame block place symbol) := by
  rw [skeleton_openFrame, h.skeleton]
  exact ⟨.push block, h.reports.trans (.of_eq rfl)⟩

theorem openModule_moves (s : State) (block : Block) (place : Nat) (name : Option Occurrence) :
    s.skeleton.Moves 1 0 (s.openModule block place name).skeleton ∧
      Reports isPassing s (s.openModule block place name) := by
  have hreport : Keeps isPassing s
      (if s.frames.isEmpty then s else s.report (.misplacedModule block) place) := by
    split
    · exact .refl s
    · exact keeps_passing s _ place rfl
  unfold openModule
  dsimp only
  cases name with
  | none => exact hreport.openFrame block place none
  | some n =>
    exact (hreport.trans (keeps_declareIn _ (fun _ _ => rfl) 0 _)).openFrame block n.place _

theorem openUnit_moves (s : State) (isTask : Bool) (name : Occurrence) :
    s.skeleton.Moves 1 0 (s.openUnit isTask name).skeleton ∧
      Reports isPassing s (s.openUnit isTask name) := by
  unfold openUnit
  dsimp only
  generalize (if isTask then Block.task else .procedure) = block
  have hreport : Keeps isPassing s
      (if s.atModuleLevel then s else s.report (.nestedUnit block name.name) name.place) := by
    split
    · exact .refl s
    · exact keeps_passing s _ name.place rfl
  exact (hreport.trans (keeps_declareIn _ (fun _ _ => rfl) _ _)).openFrame block name.place _

theorem openBlock_moves (s : State) (block : Block) (place : Nat) :
    s.skeleton.Moves 1 0 (s.openBlock block place).skeleton ∧
      Reports isPassing s (s.openBlock block place) := by
  have hopen := (Keeps.refl (P := isPassing) s).openFrame block place none
  have hbind := keeps_bindLoop (P := isPassing) (s.openFrame block place none)
    (fun _ _ => rfl) block s.pending
  refine ⟨?_, (hopen.2.trans hbind.reports).trans (.of_eq rfl)⟩
  rw [← hbind.skeleton] at hopen
  exact hopen.1

theorem otherwise_moves (h : s.skeleton.InStep) (place : Nat) :
    s.skeleton.Moves (s.pushes (.otherwise place)) (s.pops (.otherwise place))
      (s.otherwise place).skeleton ∧ Reports isPassing s (s.otherwise place) := by
  unfold otherwise pushes pops
  cases hframes : s.frames with
  | nil =>
    rw [endsIn_eq_false (by simp [hframes])]
    exact (keeps_passing s .unmatchedElse place rfl).moves
  | cons frame outer =>
    dsimp only
    by_cases hblock : frame.block = .conditional
    · have hne : s.frames ≠ [] := by simp [hframes]
      have hblocks : s.skeleton.blocks ≠ [] := by simp [skeleton, hframes]
      rw [if_pos hblock, endsIn_eq_true hframes (by simp [hblock]), skeleton_openFrame,
        skeleton_closeFrame h hne]
      exact ⟨.turn hblocks .conditional, .of_eq (closeFrame_eq h hframes place).2.2.2.2⟩
    · rw [if_neg hblock, endsIn_eq_false (by simp [hframes, hblock])]
      exact (keeps_passing s .unmatchedElse place rfl).moves

theorem landInBody_eq (place : Nat) (s : State) (jump : String × Nat) :
    (landInBody place s jump).frames = s.frames ∧
      (landInBody place s jump).arena.stack = s.arena.stack ∧
      (landInBody place s jump).closedBlocks = s.closedBlocks := by
  unfold landInBody
  split
  · exact ⟨rfl, rfl, rfl⟩
  · exact ⟨rfl, rfl, rfl⟩

theorem foldl_landInBody_eq (place : Nat) (jumps : List (String × Nat)) (s : State) :
    (jumps.foldl (landInBody place) s).frames = s.frames ∧
      (jumps.foldl (landInBody place) s).arena.stack = s.arena.stack ∧
      (jumps.foldl (landInBody place) s).closedBlocks = s.closedBlocks := by
  induction jumps generalizing s with
  | nil => exact ⟨rfl, rfl, rfl⟩
  | cons jump jumps ih =>
    obtain ⟨hframes, hstack, hclosed⟩ := ih (landInBody place s jump)
    obtain ⟨hframes', hstack', hclosed'⟩ := landInBody_eq place s jump
    exact ⟨hframes.trans hframes', hstack.trans hstack', hclosed.trans hclosed'⟩

/-- A closer that fits closes the innermost block, and nothing else; on the way it may tell of
jumps to labels that are not there. -/
theorem close_of_mem (h : s.skeleton.InStep) {frame : Frame} {outer : List Frame}
    (hframes : s.frames = frame :: outer) {closer : Closer} (hmem : frame.block ∈ closer.openers)
    (place : Nat) :
    (s.close closer place).skeleton = s.skeleton.pop ∧
      (s.close closer place).frames = outer ∧
      (s.close closer place).closedBlocks =
        s.closedBlocks.push ⟨frame.block, frame.openedAt, place⟩ ∧
      Reports (·.code = "undefined-label") s (s.close closer place) := by
  have hlanded : ∀ jumps : List (String × Nat),
      Keeps (·.code = "undefined-label") s (jumps.foldl (landInBody place) s) :=
    fun jumps => keeps_foldl (keeps_landInBody (fun _ => rfl) place) jumps s
  have hclose : s.close closer place =
      let s' := if frame.block.isBody then frame.jumps.foldl (landInBody place) s else s
      { s'.closeFrame place with moduleEnded := s'.moduleEnded || closer = .modend } := by
    rw [close, hframes]
    exact if_pos (List.contains_iff_mem.mpr hmem)
  have hsame : ∀ s' : State, Keeps (·.code = "undefined-label") s s' → s'.frames = s.frames →
      s'.closedBlocks = s.closedBlocks →
      (s'.closeFrame place).skeleton = s.skeleton.pop ∧ (s'.closeFrame place).frames = outer ∧
        (s'.closeFrame place).closedBlocks =
          s.closedBlocks.push ⟨frame.block, frame.openedAt, place⟩ ∧
        Reports (·.code = "undefined-label") s (s'.closeFrame place) := by
    intro s' hkeeps hs' hclosed
    have hstep : s'.skeleton.InStep := hkeeps.skeleton ▸ h
    have hne : s'.frames ≠ [] := by simp [hs', hframes]
    obtain ⟨hf, -, -, hblocks, hfindings⟩ := closeFrame_eq hstep (hs'.trans hframes) place
    rw [skeleton_closeFrame hstep hne, hkeeps.skeleton, hblocks, hclosed]
    exact ⟨rfl, hf, rfl, hkeeps.reports.trans (.of_eq hfindings)⟩
  rw [hclose]
  dsimp only
  split
  · obtain ⟨hs', -, hclosed⟩ := foldl_landInBody_eq place frame.jumps s
    exact hsame _ (hlanded frame.jumps) hs' hclosed
  · exact hsame s (.refl s) rfl rfl

/-- A closer that does not fit is told, and that is all. -/
theorem close_of_not_mem {closer : Closer}
    (hmem : ∀ frame ∈ s.frames.head?, frame.block ∉ closer.openers) (place : Nat) :
    s.close closer place =
      s.report (.unexpectedCloser closer (s.frames.head?.map (·.block))) place := by
  unfold close
  cases hframes : s.frames with
  | nil => rfl
  | cons frame outer =>
    have hnot : frame.block ∉ closer.openers := hmem frame (by rw [hframes]; rfl)
    exact if_neg fun hc => hnot (List.contains_iff_mem.mp hc)

theorem close_moves (h : s.skeleton.InStep) (closer : Closer) (place : Nat) :
    s.skeleton.Moves 0 (s.pops (.close closer place)) (s.close closer place).skeleton ∧
      Reports isPassing s (s.close closer place) := by
  unfold pops
  dsimp only
  by_cases hmem : ∀ frame ∈ s.frames.head?, frame.block ∉ closer.openers
  · rw [close_of_not_mem hmem, endsIn_eq_false hmem]
    exact (keeps_passing s (.unexpectedCloser closer _) place rfl).moves
  · cases hframes : s.frames with
    | nil => simp [hframes] at hmem
    | cons frame outer =>
      have hblock : frame.block ∈ closer.openers := by simpa [hframes] using hmem
      obtain ⟨hskeleton, -, -, fs, hfs, hlabels⟩ := close_of_mem h hframes hblock place
      rw [hskeleton, endsIn_eq_true hframes hblock]
      refine ⟨.pop (by simp [skeleton, hframes]), fs, hfs, ?_⟩
      intro f hf
      exact isPassing_of_undefinedLabel (hlabels f hf)

/-- What an event does to the nesting and to the findings. -/
theorem step_moves (h : s.skeleton.InStep) (e : Event) :
    s.skeleton.Moves (s.pushes e) (s.pops e) (s.step e).skeleton ∧
      Reports isPassing s (s.step e) := by
  cases e with
  | flaw f place => exact (keeps_passing s (.flaw f) place rfl).moves
  | refer name write call => exact (keeps_refer s (fun _ => rfl) name write call).moves
  | operate keyword kind name =>
    exact (keeps_operate s (fun _ => rfl) (fun _ _ _ _ => rfl) keyword kind name).moves
  | declare name kind attributes => exact (keeps_declareIn s (fun _ _ => rfl) _ _).moves
  | label name => exact (keeps_label s (fun _ _ => rfl) name).moves
  | jump target => exact (keeps_jump s target).moves
  | openModule block place name => exact openModule_moves s block place name
  | openUnit isTask name => exact openUnit_moves s isTask name
  | parameter name kind attributes text =>
    exact ((keeps_declareIn s (fun _ _ => rfl) _ _).trans (keeps_modifyUnit _ _)).moves
  | result text => exact (keeps_modifyUnit s _).moves
  | exported => exact (keeps_modifyUnit s _).moves
  | openBlock block place => exact openBlock_moves s block place
  | loopVariable name => exact (Keeps.of_eq rfl rfl).moves
  | otherwise place => exact otherwise_moves h place
  | close closer place => exact close_moves h closer place

end State

end Pearl.Resolution
