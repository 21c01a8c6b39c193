import Pearl.Proofs.BlockMoves

namespace Pearl.Resolution

namespace State

variable {s s' : State}

/-! ### Levels -/

/-- The open blocks and the open scopes are paired level by level. The global scope is at level 0
and has no block; the blocks follow from the outermost one inwards. -/
structure Aligned (s : State) : Prop where
  depth : s.frames.length + 1 = s.arena.depth
  root : s.arena.atLevel 0 = .ok 0 ∧ (s.arena.scope 0).keyword = none
  level : ∀ (i : Nat) (frame : Frame), s.frames.reverse[i]? = some frame →
    ∃ scope, s.arena.atLevel (i + 1) = .ok scope ∧
      (s.arena.scope scope).keyword = some frame.block.keyword

theorem keyword_scope {i : Nat} {keyword : Option String}
    (h : s.skeleton.keywords[i]? = some keyword) : (s.arena.scope i).keyword = keyword := by
  change (s.arena.scopes.toList.map (·.keyword))[i]? = some keyword at h
  rw [List.getElem?_map, Array.getElem?_toList] at h
  obtain ⟨scope, hscope, rfl⟩ := Option.map_eq_some_iff.mp h
  rw [Arena.scope, Array.getD_eq_getD_getElem?, hscope]
  rfl

theorem atLevel_of_getElem? (a : Arena) {scope : Nat} (level n : Nat)
    (hn : n + 1 + level = a.depth) (h : a.stack[n]? = some scope) :
    a.atLevel level = .ok scope := by
  have hplace : (if (level : Int) < 0 then -(level : Int) - 1 else a.depth - 1 - level) =
      Int.ofNat n := by
    rw [if_neg (by omega)]
    change _ = (n : Int)
    omega
  rw [Arena.atLevel, hplace]
  dsimp only
  rw [h]
  rfl

theorem aligned_of_inStep (h : s.skeleton.InStep) : s.Aligned := by
  have hpaired : s.arena.stack.map (s.skeleton.keywords[·]?) =
      (s.frames.map (·.block)).map (fun b => some (some b.keyword)) ++ [some none] := h.paired
  have hroot : s.arena.stack.getLast? = some 0 := h.root
  have hdepth : s.frames.length + 1 = s.arena.depth := by
    have hlength := congrArg List.length hpaired
    simpa [Arena.depth] using hlength.symm
  refine ⟨hdepth, ⟨?_, ?_⟩, ?_⟩
  · rw [List.getLast?_eq_getElem?] at hroot
    refine atLevel_of_getElem? s.arena 0 (s.arena.stack.length - 1) ?_ hroot
    change _ = s.arena.stack.length
    change _ = s.arena.stack.length at hdepth
    omega
  · have hlast := congrArg List.getLast? hpaired
    rw [List.getLast?_map, hroot, List.getLast?_append] at hlast
    exact keyword_scope (Option.some.inj hlast)
  · intro i frame hframe
    have hi : i < s.frames.length := by
      have hlt := (List.getElem?_eq_some_iff.mp hframe).1
      rwa [List.length_reverse] at hlt
    rw [List.getElem?_reverse hi] at hframe
    have hget : (s.arena.stack.map (s.skeleton.keywords[·]?))[s.frames.length - 1 - i]? = _ :=
      congrArg (·[s.frames.length - 1 - i]?) hpaired
    rw [List.getElem?_append_left (by simp; omega), List.getElem?_map, List.getElem?_map,
      List.getElem?_map, hframe] at hget
    obtain ⟨scope, hscope, hkeyword⟩ := Option.map_eq_some_iff.mp hget
    refine ⟨scope, ?_, keyword_scope hkeyword⟩
    exact atLevel_of_getElem? s.arena (i + 1) (s.frames.length - 1 - i) (by omega) hscope

/-! ### The end of a program -/

theorem keeps_landOutside (s : State) (jump : String × Nat) :
    Keeps isPassing s (landOutside s jump) := by
  unfold landOutside
  split
  · exact keeps_land s _ _
  · exact keeps_passing s _ _ rfl

theorem findings_foldl_reportUnclosed (frames : List Frame) (s : State) :
    (frames.foldl reportUnclosed s).findings.toList =
      s.findings.toList ++ frames.map fun frame => ⟨.unclosed frame.block, frame.openedAt⟩ := by
  induction frames generalizing s with
  | nil => simp
  | cons frame frames ih =>
    rw [List.foldl_cons, ih]
    simp [reportUnclosed, report]

theorem reports_sweep (s : State) : Reports (isUnclosed · = false) s s.sweep := by
  have hscope : ∀ (symbols : List Symbol) (s : State),
      Keeps (isUnclosed · = false) s (symbols.foldl reportUnused s) :=
    keeps_foldl fun s y => keeps_report (P := (isUnclosed · = false)) s rfl y.declaredAt
  unfold sweep
  dsimp only
  exact (Reports.of_eq rfl).trans (keeps_foldl (fun s scope => hscope _ s) _ _).reports

def unclosedCount (s : State) : Nat :=
  s.findings.toList.countP (·.cause.code = "unclosed-block")

theorem Reports.unclosedCount_eq (h : Reports (isUnclosed · = false) s s') :
    s'.unclosedCount = s.unclosedCount := by
  obtain ⟨fs, hfs, hclosed⟩ := h
  have hnone : fs.countP (·.cause.code = "unclosed-block") = 0 := by
    rw [List.countP_eq_zero]
    intro f hf hcode
    have hc := (code_eq_iff _).mp (of_decide_eq_true hcode)
    rw [show isUnclosed f.cause = false from hclosed f hf] at hc
    cases hc
  rw [State.unclosedCount, hfs, List.countP_append, hnone]
  rfl

theorem Reports.unclosedCount (h : Reports isPassing s s') :
    s'.unclosedCount = s.unclosedCount := by
  obtain ⟨fs, hfs, hpassing⟩ := h
  refine Reports.unclosedCount_eq ⟨fs, hfs, ?_⟩
  intro f hf
  have hfinal : isFinal f.cause = false := hpassing f hf
  cases hcause : f.cause with
  | unclosed block =>
    rw [hcause] at hfinal
    cases hfinal
  | _ => rfl

/-- At the end every open block is told, and no other. -/
theorem unclosedCount_finish (s : State) (unused : Bool) :
    (s.finish unused).unclosedCount = s.unclosedCount + s.frames.length := by
  have hlanded := keeps_foldl keeps_landOutside s.jumps s
  have hblocks : (s.jumps.foldl landOutside s).frames.length = s.frames.length := by
    have h := congrArg (·.blocks.length) hlanded.skeleton
    simpa [skeleton] using h
  have htold : ∀ s : State, (s.frames.foldl reportUnclosed s).unclosedCount =
      s.unclosedCount + s.frames.length := by
    intro s
    have hall : (s.frames.map fun frame => (⟨.unclosed frame.block, frame.openedAt⟩ : Finding)).countP
        (·.cause.code = "unclosed-block") = s.frames.length := by
      rw [List.countP_map, List.countP_eq_length.mpr]
      intro frame _
      rfl
    rw [unclosedCount, findings_foldl_reportUnclosed, List.countP_append, hall]
    rfl
  unfold finish
  dsimp only
  have hcount := htold (s.jumps.foldl landOutside s)
  rw [hlanded.reports.unclosedCount, hblocks] at hcount
  split
  · rw [(reports_sweep _).unclosedCount_eq, hcount]
  · exact hcount

end State

/-! ### Between statements -/

/-- How many blocks are opened on the way, if these events happen one after another. -/
def State.pushesIn (s : State) : List Event → Nat
  | [] => 0
  | e :: events => s.pushes e + (s.step e).pushesIn events

def State.popsIn (s : State) : List Event → Nat
  | [] => 0
  | e :: events => s.pops e + (s.step e).popsIn events

/-- The state between two statements, before the words that are left: after a word `prev`, and
with a new statement for sure if `start` is set. -/
inductive Boundary (words : List Word) : Option Word → Bool → List Word → State → Prop where
  | first : Boundary words none true words {}
  | next {prev : Option Word} {start : Bool} {w : Word} {rest : List Word} {s : State}
      (h : Boundary words prev start (w :: rest) s) :
      Boundary words (some (Event.statement prev start w rest).1.last)
        (Event.statement prev start w rest).2 (Event.statement prev start w rest).1.rest
        ((Event.statement prev start w rest).1.events.foldl State.step s)

variable {words : List Word} {prev : Option Word} {start : Bool} {rest : List Word} {s : State}

theorem foldl_step_inv (events : List Event) (h : s.skeleton.InStep) :
    (events.foldl State.step s).skeleton.InStep ∧
      s.skeleton.Counts (s.pushesIn events) (s.popsIn events)
        (events.foldl State.step s).skeleton ∧
      s.Reports isPassing (events.foldl State.step s) := by
  induction events generalizing s with
  | nil => exact ⟨h, ⟨rfl, rfl, rfl⟩, .of_eq rfl⟩
  | cons e events ih =>
    obtain ⟨hmoves, hreports⟩ := State.step_moves h e
    obtain ⟨hstep, hcounts, hmore⟩ := ih (h.moves hmoves)
    exact ⟨hstep, hmoves.counts.trans hcounts, hreports.trans hmore⟩

theorem Boundary.inStep (h : Boundary words prev start rest s) : s.skeleton.InStep := by
  induction h with
  | first => exact ⟨rfl, rfl⟩
  | next h ih => exact (foldl_step_inv _ ih).1

/-- The events to come lead from every boundary to the end of the program. -/
theorem Boundary.foldl_eventsAfter (h : Boundary words prev start rest s) :
    (Event.eventsAfter prev start rest).foldl State.step s = ofWords words := by
  induction h with
  | first => rfl
  | next h ih =>
    rw [← ih, Event.eventsAfter, List.foldl_append]

/-- The end of the program is a boundary. -/
theorem Boundary.exists_end (h : Boundary words prev start rest s) :
    ∃ prev start, Boundary words prev start [] (ofWords words) := by
  induction hn : rest.length using Nat.strongRecOn generalizing prev start rest s with
  | _ n ih =>
    cases rest with
    | nil =>
      have hend := h.foldl_eventsAfter
      rw [Event.eventsAfter, List.foldl_nil] at hend
      exact ⟨prev, start, hend ▸ h⟩
    | cons w rest =>
      have hle := (Event.statement_suffix prev start w rest).length_le
      rw [List.length_cons] at hn
      exact ih _ (by omega) h.next rfl

/-- What a closer at a place does: it closes the innermost block, which is one of those it may
close; or it is told as an error, and blocks, scopes and regions to fold stay as they are. -/
inductive State.Closes (s : State) (closer : Closer) (place : Nat) (s' : State) : Prop where
  | popped (frame : Frame) (hframes : s.frames = frame :: s'.frames)
      (hmem : frame.block ∈ closer.openers) (hstack : s'.arena.stack = s.arena.stack.tail)
      (hclosed : s'.closedBlocks = s.closedBlocks.push ⟨frame.block, frame.openedAt, place⟩)
      (hreports : s.Reports (·.code = "undefined-label") s')
  | refused (cause : Cause) (hmem : ∀ frame ∈ s.frames.head?, frame.block ∉ closer.openers)
      (hcode : cause.code = "mismatched-block") (hseverity : cause.severity = .error)
      (hfindings : s'.findings = s.findings.push ⟨cause, place⟩) (hframes : s'.frames = s.frames)
      (harena : s'.arena = s.arena) (hclosed : s'.closedBlocks = s.closedBlocks)

theorem closes_close (h : s.skeleton.InStep) (closer : Closer) (place : Nat) :
    s.Closes closer place (s.close closer place) := by
  by_cases hmem : ∀ frame ∈ s.frames.head?, frame.block ∉ closer.openers
  · rw [State.close_of_not_mem hmem]
    exact .refused _ hmem rfl rfl rfl rfl rfl rfl
  · cases hframes : s.frames with
    | nil => simp [hframes] at hmem
    | cons frame outer =>
      have hblock : frame.block ∈ closer.openers := by simpa [hframes] using hmem
      obtain ⟨hskeleton, hf, hclosed, hreports⟩ := State.close_of_mem h hframes hblock place
      exact .popped frame (by rw [hframes, hf]) hblock (congrArg (·.stack) hskeleton) hclosed
        hreports

/-- Whatever the words of a program are, the blocks and the scopes are in step between any two
statements; every closer closes one block that it may close, or is told and changes nothing; and
at the end as many blocks are told to be unclosed as were opened and not closed. Every block that
was opened has a scope, beside the global one, and every block that was closed is on record. -/
theorem blocks_in_step (words : List Word) :
    (∃ prev start, Boundary words prev start [] (ofWords words)) ∧
    (∀ prev start rest s, Boundary words prev start rest s → s.Aligned) ∧
    (∀ prev start w rest s closer, Boundary words prev start (w :: rest) s →
      w.kind = .keyword → w.text = closer.keyword →
      s.Closes closer w.place ((Event.statement prev start w rest).1.events.foldl State.step s)) ∧
    ∀ unused, let events := Event.ofWords words
      (program words unused).unclosedCount + State.popsIn {} events = State.pushesIn {} events ∧
      (ofWords words).arena.scopes.size = State.pushesIn {} events + 1 ∧
      (ofWords words).closedBlocks.size = State.popsIn {} events := by
  have hfirst : Boundary words none true words {} := .first
  refine ⟨hfirst.exists_end, ?_, ?_, ?_⟩
  · intro prev start rest s h
    exact State.aligned_of_inStep h.inStep
  · intro prev start w rest s closer h hkind htext
    have hhead : Event.statementHead w.text = .blockCloser closer := by
      rw [htext]
      cases closer <;> rfl
    have hevents : (Event.statement prev start w rest).1.events = [.close closer w.place] := by
      simp only [Event.statement, hkind, hhead, Event.keywordStatement]
    rw [hevents]
    exact closes_close h.inStep closer w.place
  · intro unused events
    have hrun := (foldl_step_inv events hfirst.inStep).2
    rw [show events.foldl State.step {} = ofWords words from rfl] at hrun
    obtain ⟨hcounts, hreports⟩ := hrun
    have hblocks : (ofWords words).frames.length + State.popsIn {} events =
        State.pushesIn {} events := by
      simpa [State.skeleton] using hcounts.blocks
    have hscopes : (ofWords words).arena.scopes.size = 1 + State.pushesIn {} events := by
      simpa [State.skeleton] using hcounts.scopes
    have hrecords : (ofWords words).closedBlocks.size = 0 + State.popsIn {} events :=
      hcounts.records
    have hnone : (ofWords words).unclosedCount = 0 := hreports.unclosedCount
    refine ⟨?_, by omega, by omega⟩
    rw [program, State.unclosedCount_finish, hnone, Nat.zero_add]
    exact hblocks

/-- A closer that does not fit, then one that does, and a block that is never closed. -/
theorem blocks_in_step_mismatched :
    let start : Word := ⟨.keyword, "BEGIN", 0⟩
    let fin : Word := ⟨.keyword, "FIN", 1⟩
    let rest : List Word := [⟨.keyword, "END", 2⟩, ⟨.keyword, "IF", 3⟩]
    (∃ s, Boundary (start :: fin :: rest) (some start) true (fin :: rest) s ∧ s.Aligned ∧
      s.Closes .fin 1 (s.step (.close .fin 1))) ∧
    (program (start :: fin :: rest) true).unclosedCount + 1 = 2 := by
  intro start fin rest
  have h := blocks_in_step (start :: fin :: rest)
  have hnext : Boundary (start :: fin :: rest) (some start) true (fin :: rest)
      (State.step {} (.openBlock .compound 0)) := Boundary.next .first
  refine ⟨⟨_, hnext, h.2.1 _ _ _ _ hnext, h.2.2.1 _ _ _ _ _ .fin hnext rfl rfl⟩, ?_⟩
  have hpushes : State.pushesIn {} (Event.ofWords (start :: fin :: rest)) = 2 := by decide +kernel
  have hpops : State.popsIn {} (Event.ofWords (start :: fin :: rest)) = 1 := by decide +kernel
  have hcount := (h.2.2.2 true).1
  rw [hpushes, hpops] at hcount
  exact hcount

end Pearl.Resolution
