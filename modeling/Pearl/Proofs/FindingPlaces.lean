import Pearl.Proofs.EventPlaces
import Pearl.Resolution.Program

namespace Pearl

/-! ### Events -/

/-- The mark and the name of the event stand at places with a property. -/
structure Event.Within (P : Nat → Prop) (e : Event) : Prop where
  mark : ∀ place ∈ e.mark?, P place
  name : ∀ o ∈ e.occurrence?, P o.place

variable {P : Nat → Prop}

/-- Whatever the events of a program are about is a place of one of its words. -/
theorem Event.within_of_mem_ofWords {words : List Word} {e : Event} (he : e ∈ ofWords words)
    (hwords : ∀ w ∈ words, P w.place) : e.Within P := by
  constructor
  · intro place hplace
    have hmarks : Marks words (ofWords words) := eventsAfter_marks none true (List.Subset.refl _)
    obtain ⟨w, hw, rfl⟩ := hmarks.exists_word e he place hplace
    exact hwords w hw
  · intro o ho
    have hmem : o ∈ occurrences (ofWords words) := List.mem_filterMap.mpr ⟨e, he, ho⟩
    obtain ⟨w, hw, -, rfl⟩ := exists_word_of_mem (eventsAfter_reads none true words) hmem
    exact hwords w hw

namespace Resolution

/-! ### States -/

/-- The places that a state has kept for findings, and those of its findings, have a property. -/
structure State.Within (P : Nat → Prop) (s : State) : Prop where
  -- Some findings are told long after their word has been read: that a symbol is not used, that a
  -- block is not closed, that a label is not known.
  symbols : ∀ id y, s.symbol? id = some y → P y.declaredAt
  frames : ∀ frame ∈ s.frames, P frame.openedAt ∧ ∀ jump ∈ frame.jumps, P jump.2
  pending : ∀ o ∈ s.pending, P o.place
  jumps : ∀ jump ∈ s.jumps, P jump.2
  findings : ∀ f ∈ s.findings, P f.place

namespace State

variable {s : State} {place id : Nat}

theorem within_empty : State.Within P {} := by
  constructor <;> simp [symbol?]

theorem Within.report (h : s.Within P) (cause : Cause) (hplace : P place) :
    (s.report cause place).Within P := by
  refine ⟨h.symbols, h.frames, h.pending, h.jumps, ?_⟩
  intro f hf
  rcases Array.mem_push.mp hf with hf | rfl
  · exact h.findings f hf
  · exact hplace

theorem Within.link (h : s.Within P) (place id : Nat) : (s.link place id).Within P :=
  ⟨h.symbols, h.frames, h.pending, h.jumps, h.findings⟩

/-- Symbols may change, but not the places of their declarations. -/
theorem Within.modifySymbol (h : s.Within P) (id : Nat) {f : Symbol → Symbol}
    (hf : ∀ y, (f y).declaredAt = y.declaredAt) :
    { s with arena := s.arena.modifySymbol id f }.Within P := by
  refine ⟨?_, h.frames, h.pending, h.jumps, h.findings⟩
  intro other y hy
  change (s.arena.symbols.modify id f)[other]? = some y at hy
  rw [Array.getElem?_modify] at hy
  split at hy
  · obtain ⟨y', hy', rfl⟩ := Option.map_eq_some_iff.mp hy
    rw [hf]
    exact h.symbols other y' hy'
  · exact h.symbols other y hy

theorem Within.markUsed (h : s.Within P) (id : Nat) : (s.markUsed id).Within P :=
  h.modifySymbol id fun _ => rfl

theorem Within.land (h : s.Within P) (place id : Nat) : (s.land place id).Within P :=
  (h.link place id).markUsed id

/-! ### Declarations and references -/

theorem Within.introduce (h : s.Within P) (scope : Nat) {new : Symbol}
    (hnew : P new.declaredAt) : (s.introduce scope new).Within P := by
  refine ⟨?_, h.frames, h.pending, h.jumps, h.findings⟩
  intro id y hy
  change (s.arena.symbols.push new)[id]? = some y at hy
  rw [Array.getElem?_push] at hy
  split at hy
  · cases hy
    exact hnew
  · exact h.symbols id y hy

theorem Within.declareIn (h : s.Within P) (scope : Nat) {new : Symbol}
    (hnew : P new.declaredAt) : (s.declareIn scope new).1.Within P := by
  unfold State.declareIn
  split
  · exact h.introduce scope hnew
  · split
    · split
      · exact h.introduce scope hnew
      · exact h.report _ hnew
    · exact h

theorem Within.declare (h : s.Within P) {name : Occurrence} (hname : P name.place)
    (kind : SymbolKind) (attributes : Attributes) :
    (s.declare name kind attributes).1.Within P :=
  h.declareIn _ hname

theorem Within.refer (h : s.Within P) {name : Occurrence} (hname : P name.place)
    (write call : Bool) : (s.refer name write call).1.Within P := by
  unfold State.refer
  split
  · dsimp only
    split
    · exact h.link _ _
    · exact h.land _ _
  · split
    · exact ⟨h.symbols, h.frames, h.pending, h.jumps, h.findings⟩
    · exact h.report _ hname

theorem Within.operate (h : s.Within P) {name : Occurrence} (hname : P name.place)
    (keyword : String) (kind : SymbolKind) : (s.operate keyword kind name).Within P := by
  have hrefer := h.refer hname false (keyword = "CALL")
  unfold State.operate
  dsimp only
  split
  · split
    · exact hrefer
    · exact hrefer.report _ hname
  · exact hrefer

theorem Within.modifyUnit (h : s.Within P) (f : Attributes → Attributes) :
    (s.modifyUnit f).Within P := by
  unfold State.modifyUnit
  split
  · exact h.modifySymbol _ fun _ => rfl
  · exact h

/-! ### Blocks -/

theorem Within.openFrame (h : s.Within P) (block : Block) (hplace : P place)
    (symbol : Option Nat) : (s.openFrame block place symbol).Within P := by
  refine ⟨h.symbols, ?_, h.pending, h.jumps, h.findings⟩
  intro frame hframe
  rcases List.mem_cons.mp hframe with rfl | hframe
  · exact ⟨hplace, by simp⟩
  · exact h.frames frame hframe

theorem Within.closeFrame (h : s.Within P) (place : Nat) : (s.closeFrame place).Within P := by
  unfold State.closeFrame
  split
  · rename_i frame outer i arena hframes hpop
    have hsymbols : arena.symbols = s.arena.symbols := by
      unfold Arena.pop at hpop
      split at hpop
      · cases hpop
        rfl
      · cases hpop
    refine ⟨?_, ?_, h.pending, h.jumps, h.findings⟩
    · intro id y hy
      change arena.symbols[id]? = some y at hy
      rw [hsymbols] at hy
      exact h.symbols id y hy
    · intro frame' hframe'
      apply h.frames
      rw [hframes]
      exact List.mem_cons_of_mem frame hframe'
  · exact h

theorem Within.openModule (h : s.Within P) (block : Block) (hplace : P place)
    {name : Option Occurrence} (hname : ∀ o ∈ name, P o.place) :
    (s.openModule block place name).Within P := by
  have hreport : (if s.frames.isEmpty then s else s.report (.misplacedModule block) place).Within
      P := by
    split
    · exact h
    · exact h.report _ hplace
  cases name with
  | none => exact hreport.openFrame block hplace none
  | some o =>
    have ho := hname o rfl
    exact Within.openFrame (hreport.declareIn 0 ho) block ho _

theorem Within.openUnit (h : s.Within P) (isTask : Bool) {name : Occurrence}
    (hname : P name.place) : (s.openUnit isTask name).Within P := by
  refine Within.openFrame (Within.declareIn ?_ _ hname) _ hname _
  split
  · exact h
  · exact h.report _ hname

theorem Within.openBlock (h : s.Within P) (block : Block) (hplace : P place) :
    (s.openBlock block place).Within P := by
  have hopen := h.openFrame block hplace none
  have hbind : ((s.openFrame block place none).bindLoop block s.pending).Within P := by
    unfold bindLoop
    split
    · rename_i name hpending
      exact (hopen.declare (h.pending name hpending) .var _).markUsed _
    · exact hopen
  exact ⟨hbind.symbols, hbind.frames, by simp [State.openBlock], hbind.jumps, hbind.findings⟩

theorem Within.otherwise (h : s.Within P) (hplace : P place) : (s.otherwise place).Within P := by
  unfold State.otherwise
  split
  · split
    · exact (h.closeFrame place).openFrame _ hplace none
    · exact h.report _ hplace
  · exact h.report _ hplace

/-! ### Labels and jumps -/

theorem Within.label (h : s.Within P) {name : Occurrence} (hname : P name.place) :
    (s.label name).Within P := by
  unfold State.label
  split
  · exact h.declareIn _ hname
  · have hdeclare := h.declare hname .label {}
    dsimp only
    split
    · exact ⟨hdeclare.symbols, hdeclare.frames, hdeclare.pending, hdeclare.jumps,
        hdeclare.findings⟩
    · exact hdeclare

theorem mem_addJump {jump : String × Nat} {frames : List Frame} {frame : Frame}
    (h : frame ∈ addJump jump frames) :
    ∃ earlier ∈ frames, frame.openedAt = earlier.openedAt ∧
      ∀ j ∈ frame.jumps, j ∈ earlier.jumps ∨ j = jump := by
  induction frames with
  | nil => cases h
  | cons first outer ih =>
    rw [addJump] at h
    split at h
    · rcases List.mem_cons.mp h with rfl | h
      · exact ⟨first, List.mem_cons_self, rfl, by simp⟩
      · exact ⟨frame, List.mem_cons_of_mem _ h, rfl, fun j => Or.inl⟩
    · rcases List.mem_cons.mp h with rfl | h
      · exact ⟨frame, List.mem_cons_self, rfl, fun j => Or.inl⟩
      · obtain ⟨earlier, hmem, hkept⟩ := ih h
        exact ⟨earlier, List.mem_cons_of_mem _ hmem, hkept⟩

theorem Within.jump (h : s.Within P) {target : Occurrence} (htarget : P target.place) :
    (s.jump target).Within P := by
  unfold State.jump
  split
  · refine ⟨h.symbols, ?_, h.pending, h.jumps, h.findings⟩
    intro frame hframe
    obtain ⟨earlier, hmem, hopened, hjumps⟩ := mem_addJump hframe
    obtain ⟨hplace, hearlier⟩ := h.frames earlier hmem
    refine ⟨hopened ▸ hplace, ?_⟩
    intro j hj
    rcases hjumps j hj with hj | rfl
    · exact hearlier j hj
    · exact htarget
  · split
    · exact h.land _ _
    · refine ⟨h.symbols, h.frames, h.pending, ?_, h.findings⟩
      intro j hj
      rcases List.mem_append.mp hj with hj | hj
      · exact h.jumps j hj
      · rw [List.mem_singleton.mp hj]
        exact htarget

/-- What one element of a list leaves within, all of it does. -/
theorem Within.foldl {α : Type} {f : State → α → State} {xs : List α}
    (hf : ∀ x ∈ xs, ∀ s : State, s.Within P → (f s x).Within P) (h : s.Within P) :
    (xs.foldl f s).Within P := by
  induction xs generalizing s with
  | nil => exact h
  | cons x xs ih =>
    apply ih
    · intro x' hx'
      exact hf x' (List.mem_cons_of_mem x hx')
    · exact hf x List.mem_cons_self s h

theorem Within.landInBody (h : s.Within P) (hplace : P place) (jump : String × Nat) :
    (landInBody place s jump).Within P := by
  unfold State.landInBody
  split
  · exact h.land _ _
  · exact h.report _ hplace

theorem Within.close (h : s.Within P) (closer : Closer) (hplace : P place) :
    (s.close closer place).Within P := by
  unfold State.close
  split
  · rename_i frame outer hframes
    split
    · have hlanded : (if frame.block.isBody then frame.jumps.foldl (State.landInBody place) s
          else s).Within P := by
        split
        · exact h.foldl fun jump _ s hs => hs.landInBody hplace jump
        · exact h
      have hclosed := hlanded.closeFrame place
      exact ⟨hclosed.symbols, hclosed.frames, hclosed.pending, hclosed.jumps, hclosed.findings⟩
    · exact h.report _ hplace
  · exact h.report _ hplace

/-! ### Whole programs -/

theorem Within.step (h : s.Within P) {e : Event} (he : e.Within P) : (s.step e).Within P := by
  cases e with
  | flaw f place => exact h.report _ (he.mark place rfl)
  | refer name write call => exact h.refer (he.name name rfl) write call
  | operate keyword kind name => exact h.operate (he.name name rfl) keyword kind
  | declare name kind attributes => exact h.declare (he.name name rfl) kind attributes
  | label name => exact h.label (he.name name rfl)
  | jump target => exact h.jump (he.name target rfl)
  | openModule block place name => exact h.openModule block (he.mark place rfl) he.name
  | openUnit isTask name => exact h.openUnit isTask (he.name name rfl)
  | parameter name kind attributes text =>
    rw [State.step]
    exact (h.declare (he.name name rfl) kind attributes).modifyUnit _
  | result text =>
    rw [State.step]
    exact h.modifyUnit _
  | exported =>
    rw [State.step]
    exact h.modifyUnit _
  | openBlock block place => exact h.openBlock block (he.mark place rfl)
  | loopVariable name => exact ⟨h.symbols, h.frames, he.name, h.jumps, h.findings⟩
  | otherwise place => exact h.otherwise (he.mark place rfl)
  | close closer place => exact h.close closer (he.mark place rfl)

theorem Within.landOutside (h : s.Within P) {jump : String × Nat} (hjump : P jump.2) :
    (s.landOutside jump).Within P := by
  unfold State.landOutside
  split
  · exact h.land _ _
  · exact h.report _ hjump

/-- The symbols of a scope that nobody uses are symbols of the program. -/
theorem symbol?_of_mem_unused {arena : Arena} {scope : Nat} {y : Symbol}
    (h : y ∈ arena.unused scope) : ∃ id : Nat, arena.symbols[id]? = some y := by
  obtain ⟨hmem, -⟩ := List.mem_filter.mp h
  obtain ⟨entry, -, hentry⟩ := List.mem_filterMap.mp hmem
  exact ⟨entry.2, hentry⟩

theorem Within.sweep (h : s.Within P) : s.sweep.Within P := by
  have htaken : ({ s with arena := s.arena.takeClosed.2 } : State).Within P :=
    ⟨h.symbols, h.frames, h.pending, h.jumps, h.findings⟩
  -- Findings are added to the state, while the symbols are those of the arena before.
  refine htaken.foldl fun scope _ s' hs' => hs'.foldl fun y hy s'' hs'' => ?_
  obtain ⟨id, hid⟩ := symbol?_of_mem_unused hy
  exact hs''.report _ (h.symbols id y hid)

theorem Within.finish (h : s.Within P) (unused : Bool) : (s.finish unused).Within P := by
  have hjumps := h.foldl fun jump hjump s' hs' => Within.landOutside hs' (h.jumps jump hjump)
  have hframes := hjumps.foldl fun frame hframe s' hs' =>
    hs'.report (.unclosed frame.block) (hjumps.frames frame hframe).1
  cases unused with
  | false => exact hframes
  | true => exact hframes.sweep

end State

/-- Findings and symbols of a program stand at places of its words. -/
theorem within_program {words : List Word} (hwords : ∀ w ∈ words, P w.place) (unused : Bool) :
    (program words unused).Within P := by
  have hevents : (ofEvents (Event.ofWords words)).Within P :=
    State.within_empty.foldl fun e he s hs => hs.step (Event.within_of_mem_ofWords he hwords)
  exact hevents.finish unused

end Resolution

end Pearl
