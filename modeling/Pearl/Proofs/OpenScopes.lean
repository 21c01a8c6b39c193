import Mathlib.Data.List.Perm.Subperm
import Pearl.Proofs.BlockMoves

namespace Pearl.Resolution

/-! ### The blocks and what waits for them to end -/

/-- What a state knows beside its names: the blocks, the scopes they have or had, and the loop
variables, jumps and labels that are kept for later. -/
structure Books where
  frames : List Frame
  pending : Option Occurrence
  jumps : List (String × Nat)
  outerLabels : List (String × Nat)
  moduleEnded : Bool
  stack : List Nat
  closed : List Nat
  scopes : Nat

def State.books (s : State) : Books :=
  ⟨s.frames, s.pending, s.jumps, s.outerLabels, s.moduleEnded, s.arena.stack, s.arena.closed,
    s.arena.scopes.size⟩

namespace Books

def push (b : Books) (frame : Frame) : Books :=
  { b with frames := frame :: b.frames, stack := b.scopes :: b.stack, scopes := b.scopes + 1 }

/-- The innermost block is gone and its scope is closed. -/
def pop (b : Books) : Books :=
  match b.frames, b.stack with
  | _ :: frames, i :: j :: stack =>
    { b with frames, stack := j :: stack, closed := b.closed ++ [i] }
  | _, _ => b

def jumpTo (jump : String × Nat) : Event := .jump ⟨jump.1, jump.2⟩

theorem jumpTo_injective : Function.Injective jumpTo := by
  rintro ⟨name, place⟩ ⟨name', place'⟩ h
  cases h
  rfl

/-- The events whose names have not been dealt with yet. -/
def outstanding (b : Books) : List Event :=
  b.pending.toList.map Event.loopVariable ++
    (b.frames.flatMap (·.jumps)).map jumpTo ++ b.jumps.map jumpTo

/-- Every scope that has been made is open or closed, and none is both. -/
def Partition (b : Books) : Prop := (b.closed ++ b.stack).Perm (List.range b.scopes)

variable {b b' : Books}

theorem Partition.push (h : b.Partition) (frame : Frame) : (b.push frame).Partition := by
  change (b.closed ++ b.scopes :: b.stack).Perm (List.range (b.scopes + 1))
  rw [List.range_succ]
  exact List.perm_middle.trans ((h.cons b.scopes).trans (List.perm_append_singleton _ _).symm)

theorem Partition.pop (h : b.Partition) : b.pop.Partition := by
  unfold Books.pop
  split
  · rename_i frame frames i j stack _ hstack
    unfold Partition at h
    rw [hstack] at h
    change ((b.closed ++ [i]) ++ j :: stack).Perm _
    rw [List.append_assoc]
    exact h
  · exact h

theorem Partition.nodup (h : b.Partition) : (b.closed ++ b.stack).Nodup :=
  h.nodup_iff.mpr List.nodup_range

theorem Partition.mem_iff (h : b.Partition) {i : Nat} :
    i ∈ b.closed ∨ i ∈ b.stack ↔ i < b.scopes := by
  rw [← List.mem_append, List.Perm.mem_iff h, List.mem_range]

theorem outstanding_push (b : Books) {frame : Frame} (hjumps : frame.jumps = []) :
    (b.push frame).outstanding = b.outstanding := by
  rw [outstanding, push, List.flatMap_cons, hjumps]
  rfl

/-- The jumps of a block that ends are no longer kept. -/
theorem outstanding_pop (b : Books) : b.pop.outstanding.Sublist b.outstanding := by
  unfold pop
  split
  · rename_i frame frames i j stack hframes _
    rw [outstanding, outstanding, hframes, List.flatMap_cons, List.map_append]
    exact ((List.sublist_append_right _ _).append_left _).append_right _
  · exact .refl _

/-- The jumps of the block that ends are all that is no longer kept. -/
theorem outstanding_pop_perm {frame : Frame} {outer : List Frame} (h : b.frames = frame :: outer)
    (hpop : b.pop.frames = outer) :
    (b.pop.outstanding ++ frame.jumps.map jumpTo).Perm b.outstanding := by
  obtain ⟨frames, pending, jumps, outerLabels, moduleEnded, stack, closed, scopes⟩ := b
  cases h
  rcases stack with _ | ⟨i, _ | ⟨j, stack⟩⟩
  · exact absurd hpop (List.cons_ne_self _ _)
  · exact absurd hpop (List.cons_ne_self _ _)
  · simp only [pop, outstanding, List.flatMap_cons, List.map_append, List.append_assoc]
    refine List.Perm.append_left _ ?_
    rw [← List.append_assoc]
    exact List.perm_append_comm

theorem outstanding_settled (b : Books) :
    { b with pending := none }.outstanding.Sublist b.outstanding := by
  simp only [outstanding, List.append_assoc]
  exact List.sublist_append_right _ _

theorem outstanding_of_pending {o : Occurrence} (h : b.pending = some o) :
    b.outstanding = .loopVariable o :: { b with pending := none }.outstanding := by
  simp [outstanding, h]

theorem outstanding_wait (b : Books) (o : Occurrence) :
    { b with pending := some o }.outstanding.Subperm
      (b.outstanding ++ [Event.loopVariable o]) := by
  rw [outstanding_of_pending (o := o) rfl]
  exact ((outstanding_settled b).cons_cons _).subperm.trans
    (List.perm_append_singleton _ _).symm.subperm

theorem flatMap_jumps_addJump (jump : String × Nat) (frames : List Frame) :
    ((State.addJump jump frames).flatMap (·.jumps)).Subperm
      (frames.flatMap (·.jumps) ++ [jump]) := by
  induction frames with
  | nil => exact List.nil_subperm
  | cons frame outer ih =>
    rw [State.addJump]
    split
    · rw [List.flatMap_cons, List.flatMap_cons, List.append_assoc, List.append_assoc]
      exact (List.perm_append_comm.append_left _).subperm
    · rw [List.flatMap_cons, List.flatMap_cons, List.append_assoc]
      exact (List.subperm_append_left _).mpr ih

theorem outstanding_addJump (b : Books) (jump : String × Nat) :
    { b with frames := State.addJump jump b.frames }.outstanding.Subperm
      (b.outstanding ++ [jumpTo jump]) := by
  have hframes := (flatMap_jumps_addJump jump b.frames).map jumpTo_injective
  rw [List.map_append] at hframes
  have hmoved : ((b.frames.flatMap (·.jumps)).map jumpTo ++ [jumpTo jump] ++
      b.jumps.map jumpTo).Perm
      ((b.frames.flatMap (·.jumps)).map jumpTo ++ b.jumps.map jumpTo ++ [jumpTo jump]) := by
    rw [List.append_assoc, List.append_assoc]
    exact List.perm_append_comm.append_left _
  have hrest := ((List.subperm_append_right (b.jumps.map jumpTo)).mpr hframes).trans
    hmoved.subperm
  simp only [outstanding, List.append_assoc] at hrest ⊢
  exact (List.subperm_append_left _).mpr hrest

theorem outstanding_append (b : Books) (jump : String × Nat) :
    { b with jumps := b.jumps ++ [jump] }.outstanding = b.outstanding ++ [jumpTo jump] := by
  simp [outstanding]

theorem moduleEnded_pop (b : Books) : b.pop.moduleEnded = b.moduleEnded := by
  unfold pop
  split <;> rfl

theorem outerLabels_pop (b : Books) : b.pop.outerLabels = b.outerLabels := by
  unfold pop
  split <;> rfl

end Books

namespace State

/-! ### What leaves the blocks alone -/

theorem books_introduce (s : State) (scope : Nat) (new : Symbol) :
    (s.introduce scope new).books = s.books := by
  simp [introduce, link, books, Arena.add]

theorem books_declareIn (s : State) (scope : Nat) (new : Symbol) :
    (s.declareIn scope new).1.books = s.books := by
  unfold declareIn
  split
  · exact books_introduce s scope new
  · split
    · split
      · exact books_introduce s scope _
      · rfl
    · rfl

theorem books_refer (s : State) (name : Occurrence) (write call : Bool) :
    (s.refer name write call).1.books = s.books := by
  unfold refer
  split
  · cases write <;> rfl
  · split <;> rfl

theorem books_operate (s : State) (keyword : String) (kind : SymbolKind) (name : Occurrence) :
    (s.operate keyword kind name).books = s.books := by
  have hrefer := books_refer s name false (keyword = "CALL")
  unfold operate
  dsimp only
  split
  · split <;> exact hrefer
  · exact hrefer

theorem books_modifyUnit (s : State) (f : Attributes → Attributes) :
    (s.modifyUnit f).books = s.books := by
  unfold modifyUnit
  split <;> rfl

theorem books_landInBody (place : Nat) (s : State) (jump : String × Nat) :
    (landInBody place s jump).books = s.books := by
  unfold landInBody
  split <;> rfl

/-- What every step of a loop leaves alone, the loop leaves alone. -/
theorem foldl_eq {α β : Type} {g : State → β} {f : State → α → State} (hf : ∀ s x, g (f s x) = g s)
    (xs : List α) (s : State) : g (xs.foldl f s) = g s := by
  induction xs generalizing s with
  | nil => rfl
  | cons x xs ih => rw [List.foldl_cons, ih, hf]

/-! ### What opens and closes blocks -/

theorem books_openFrame (s : State) (block : Block) (place : Nat) (symbol : Option Nat) :
    (s.openFrame block place symbol).books = s.books.push ⟨block, place, symbol, []⟩ := by
  simp [openFrame, Arena.push, books, Books.push]

theorem books_closeFrame (s : State) (place : Nat) : (s.closeFrame place).books = s.books.pop := by
  obtain ⟨⟨symbols, scopes, stack, closed⟩, frames, pending, jumps, outerLabels, moduleEnded,
    findings, closedBlocks, links, builtins⟩ := s
  rcases frames with _ | ⟨frame, outer⟩
  · rfl
  · rcases stack with _ | ⟨i, _ | ⟨j, stack⟩⟩ <;> rfl

theorem books_openModule (s : State) (block : Block) (place : Nat) (name : Option Occurrence) :
    ∃ frame : Frame, frame.jumps = [] ∧
      (s.openModule block place name).books = s.books.push frame := by
  have hreport : (if s.frames.isEmpty then s else s.report (.misplacedModule block) place).books =
      s.books := by
    split <;> rfl
  unfold openModule
  cases name with
  | none =>
    dsimp only
    rw [books_openFrame, hreport]
    exact ⟨_, rfl, rfl⟩
  | some o =>
    dsimp only
    rw [books_openFrame, books_declareIn, hreport]
    exact ⟨_, rfl, rfl⟩

theorem books_openUnit (s : State) (isTask : Bool) (name : Occurrence) :
    ∃ frame : Frame, frame.jumps = [] ∧ (s.openUnit isTask name).books = s.books.push frame := by
  have hreport : ∀ cause, (if s.atModuleLevel then s else s.report cause name.place).books =
      s.books := by
    intro cause
    split <;> rfl
  unfold openUnit
  dsimp only
  rw [books_openFrame, books_declareIn, hreport]
  exact ⟨_, rfl, rfl⟩

theorem books_openBlock (s : State) (block : Block) (place : Nat) :
    (s.openBlock block place).books =
      { s.books.push ⟨block, place, none, []⟩ with pending := none } := by
  have hbind : ((s.openFrame block place none).bindLoop block s.pending).books =
      s.books.push ⟨block, place, none, []⟩ := by
    rw [← books_openFrame]
    unfold bindLoop
    split
    · exact books_declareIn _ _ _
    · rfl
  rw [← hbind]
  rfl

theorem books_otherwise (s : State) (place : Nat) :
    (s.otherwise place).books =
      if s.endsIn [.conditional] then s.books.pop.push ⟨.conditional, place, none, []⟩
      else s.books := by
  unfold otherwise endsIn
  split
  · rename_i frame outer hframes
    rw [hframes, List.head?_cons, Option.any_some]
    by_cases hblock : frame.block = .conditional
    · rw [if_pos hblock, books_openFrame, books_closeFrame, if_pos (by simp [hblock])]
    · rw [if_neg hblock, if_neg (by simpa using hblock)]
      rfl
  · rename_i hframes
    rw [hframes]
    rfl

theorem books_close (s : State) (closer : Closer) (place : Nat) :
    (s.close closer place).books =
      if s.endsIn closer.openers then
        { s.books.pop with moduleEnded := s.moduleEnded || closer = .modend }
      else s.books := by
  unfold close endsIn
  split
  · rename_i frame outer hframes
    rw [hframes, List.head?_cons, Option.any_some]
    by_cases hblock : closer.openers.contains frame.block = true
    · rw [if_pos hblock, if_pos hblock]
      -- the jumps that are resolved at the end of a body leave the blocks alone
      have hlanded : (if frame.block.isBody then frame.jumps.foldl (landInBody place) s
          else s).books = s.books := by
        split
        · exact foldl_eq (books_landInBody place) _ s
        · rfl
      generalize (if frame.block.isBody then _ else s) = landed at hlanded
      have hended : landed.moduleEnded = s.moduleEnded := congrArg Books.moduleEnded hlanded
      rw [← hlanded, ← books_closeFrame landed place, ← hended]
      rfl
    · rw [if_neg hblock, if_neg hblock]
      rfl
  · rename_i hframes
    rw [hframes]
    rfl

/-! ### Labels and jumps -/

theorem books_label (s : State) (name : Occurrence) :
    (s.label name).books = s.books ∨
      ∃ id, (s.label name).books =
        { s.books with outerLabels := s.outerLabels ++ [(name.name, id)] } := by
  unfold label
  split
  · exact Or.inl (books_declareIn s _ _)
  · have hdeclare : (s.declare name .label {}).1.books = s.books := books_declareIn s _ _
    dsimp only
    split
    · refine Or.inr ⟨(s.declare name .label {}).2, ?_⟩
      rw [← hdeclare, show s.outerLabels = (s.declare name .label {}).1.outerLabels from
        (congrArg Books.outerLabels hdeclare).symm]
      rfl
    · exact Or.inl hdeclare

theorem books_jump (s : State) (target : Occurrence) :
    (s.jump target).books = s.books ∨
      (s.jump target).books =
        { s.books with frames := addJump (target.name, target.place) s.frames } ∨
      (s.jump target).books =
        { s.books with jumps := s.jumps ++ [(target.name, target.place)] } := by
  unfold jump
  split
  · exact Or.inr (Or.inl rfl)
  · split
    · exact Or.inl rfl
    · exact Or.inr (Or.inr rfl)

/-! ### Steps -/

def endsModule (s : State) : Event → Bool
  | .close .modend _ => s.endsIn Closer.modend.openers
  | _ => false

/-- What one event does to the scopes, and whether a module has ended. -/
theorem step_partition (s : State) (h : s.books.Partition) (e : Event) :
    (s.step e).books.Partition ∧
      (s.step e).books.moduleEnded = (s.books.moduleEnded || s.endsModule e) := by
  -- all events but those that close a module
  have hbooks : ∀ {b : Books}, (s.step e).books = b → b.Partition →
      b.moduleEnded = s.books.moduleEnded → s.endsModule e = false → (s.step e).books.Partition ∧
      (s.step e).books.moduleEnded = (s.books.moduleEnded || s.endsModule e) := by
    rintro b rfl hpartition hended hends
    exact ⟨hpartition, by rw [hended, hends, Bool.or_false]⟩
  cases e with
  | flaw f place => exact hbooks rfl h rfl rfl
  | refer name write call => exact hbooks (books_refer s name write call) h rfl rfl
  | operate keyword kind name => exact hbooks (books_operate s keyword kind name) h rfl rfl
  | declare name kind attributes => exact hbooks (books_declareIn s _ _) h rfl rfl
  | label name =>
    obtain hb | ⟨id, hb⟩ := books_label s name
    · exact hbooks hb h rfl rfl
    · exact hbooks hb h rfl rfl
  | jump target =>
    obtain hb | hb | hb := books_jump s target
    · exact hbooks hb h rfl rfl
    · exact hbooks hb h rfl rfl
    · exact hbooks hb h rfl rfl
  | parameter name kind attributes text =>
    exact hbooks ((books_modifyUnit _ _).trans (books_declareIn s _ _)) h rfl rfl
  | result text => exact hbooks (books_modifyUnit s _) h rfl rfl
  | exported => exact hbooks (books_modifyUnit s _) h rfl rfl
  | loopVariable name => exact hbooks rfl h rfl rfl
  | openModule block place name =>
    obtain ⟨frame, -, hb⟩ := books_openModule s block place name
    exact hbooks hb (h.push frame) rfl rfl
  | openUnit isTask name =>
    obtain ⟨frame, -, hb⟩ := books_openUnit s isTask name
    exact hbooks hb (h.push frame) rfl rfl
  | openBlock block place =>
    exact hbooks (books_openBlock s block place) (h.push ⟨block, place, none, []⟩) rfl rfl
  | otherwise place =>
    have hb := books_otherwise s place
    split at hb
    · exact hbooks hb (h.pop.push _) (Books.moduleEnded_pop _) rfl
    · exact hbooks hb h rfl rfl
  | close closer place =>
    rw [step, books_close]
    split
    · rename_i hends
      refine ⟨h.pop, ?_⟩
      cases closer with
      | modend => exact congrArg (s.moduleEnded || ·) hends.symm
      | _ => rfl
    · rename_i hends
      refine ⟨h, ?_⟩
      cases closer with
      | modend => rw [endsModule, Bool.eq_false_iff.mpr hends, Bool.or_false]
      | _ => exact (Bool.or_false _).symm

end State

end Pearl.Resolution
