import Pearl.Proofs.OpenScopes
import Pearl.Proofs.StatementEvents

namespace Pearl

/-! ### Spans that are opened and closed in turn -/

/-- Where the spans start that have not been closed yet, innermost first, and where those start and
end that have been. -/
structure Spans where
  opened : List Nat
  closed : List (Nat × Nat)

namespace Spans

/-- The second span starts within the first one and ends behind it. -/
def Crosses (b b' : Nat × Nat) : Prop := b.1 < b'.1 ∧ b'.1 < b.2 ∧ b.2 < b'.2

def push (s : Spans) (place : Nat) : Spans := { s with opened := place :: s.opened }

def pop (s : Spans) (place : Nat) : Spans :=
  match s.opened with
  | [] => s
  | first :: outer => ⟨outer, s.closed ++ [(first, place)]⟩

/-- What may be done to spans at a place. -/
inductive Moves (s : Spans) (place : Nat) : Spans → Prop where
  | stay : Moves s place s
  | push : Moves s place (s.push place)
  | pop : Moves s place (s.pop place)
  | turn : Moves s place ((s.pop place).push place)

/-- Spans have been opened and closed in turn up to the place `now`: the inner ones start behind the
outer ones, none that is open starts within one that is closed, and no two that are closed cross. -/
structure Nested (now : Nat) (s : Spans) : Prop where
  ordered : s.opened.Pairwise (· ≥ ·)
  begun : ∀ first ∈ s.opened, first ≤ now
  ended : ∀ b ∈ s.closed, b.2 ≤ now
  outside : ∀ b ∈ s.closed, ∀ first ∈ s.opened, ¬(b.1 < first ∧ first < b.2)
  apart : ∀ b ∈ s.closed, ∀ b' ∈ s.closed, ¬Crosses b b'

variable {s s' : Spans} {now place : Nat}

theorem nested_nil (now : Nat) : Nested now ⟨[], []⟩ := by
  constructor <;> simp

theorem Nested.later (h : s.Nested now) (hle : now ≤ place) : s.Nested place :=
  ⟨h.ordered, fun first hfirst => Nat.le_trans (h.begun first hfirst) hle,
    fun b hb => Nat.le_trans (h.ended b hb) hle, h.outside, h.apart⟩

theorem Nested.push (h : s.Nested now) (hle : now ≤ place) : (s.push place).Nested place := by
  have hlater := h.later hle
  refine ⟨?_, ?_, hlater.ended, ?_, h.apart⟩
  · exact List.pairwise_cons.mpr ⟨hlater.begun, h.ordered⟩
  · intro first hfirst
    rcases List.mem_cons.mp hfirst with rfl | hfirst
    · exact Nat.le_refl _
    · exact hlater.begun first hfirst
  · -- whatever is closed has ended by now
    intro b hb first hfirst
    rcases List.mem_cons.mp hfirst with rfl | hfirst
    · have hended := hlater.ended b hb
      omega
    · exact h.outside b hb first hfirst

theorem Nested.pop (h : s.Nested now) (hle : now ≤ place) : (s.pop place).Nested place := by
  have hlater := h.later hle
  obtain ⟨opened, closed⟩ := s
  cases opened with
  | nil => exact hlater
  | cons first outer =>
    obtain ⟨hinner, hordered⟩ := List.pairwise_cons.mp h.ordered
    have hmem : ∀ b ∈ (Spans.mk (first :: outer) closed |>.pop place).closed,
        b ∈ closed ∨ b = (first, place) := by
      intro b hb
      simpa [Spans.pop] using hb
    refine ⟨hordered, fun n hn => hlater.begun n (List.mem_cons_of_mem _ hn), ?_, ?_, ?_⟩
    · intro b hb
      rcases hmem b hb with hb | rfl
      · exact hlater.ended b hb
      · exact Nat.le_refl _
    · intro b hb n hn
      rcases hmem b hb with hb | rfl
      · exact h.outside b hb n (List.mem_cons_of_mem _ hn)
      · have hle := hinner n hn
        simp only
        omega
    · -- the new span ends last, and does not start within any other
      intro b hb b' hb' hcrosses
      rcases hmem b hb with hb | rfl
      · rcases hmem b' hb' with hb' | rfl
        · exact h.apart b hb b' hb' hcrosses
        · exact h.outside b hb first List.mem_cons_self ⟨hcrosses.1, hcrosses.2.1⟩
      · have hend := hcrosses.2.2
        rcases hmem b' hb' with hb' | rfl
        · have hended := hlater.ended b' hb'
          simp only at hend
          omega
        · exact Nat.lt_irrefl _ hend

theorem Nested.moves (h : s.Nested now) (hle : now ≤ place) (hm : s.Moves place s') :
    s'.Nested place := by
  cases hm with
  | stay => exact h.later hle
  | push => exact h.push hle
  | pop => exact h.pop hle
  | turn => exact (h.pop hle).push (Nat.le_refl _)

/-- Spans may be left out. -/
theorem Nested.sublist (h : s.Nested now) (hopened : s'.opened.Sublist s.opened)
    (hclosed : s'.closed ⊆ s.closed) : s'.Nested now :=
  ⟨h.ordered.sublist hopened, fun first hfirst => h.begun first (hopened.subset hfirst),
    fun b hb => h.ended b (hclosed hb),
    fun b hb first hfirst => h.outside b (hclosed hb) first (hopened.subset hfirst),
    fun b hb b' hb' => h.apart b (hclosed hb) b' (hclosed hb')⟩

end Spans

/-! ### Where statements open and close blocks -/

namespace Event

def blockPlace? : Event → Option Nat
  | openModule _ place name => some ((name.map (·.place)).getD place)
  | openUnit _ name => some name.place
  | openBlock _ place | otherwise place | close _ place => some place
  | _ => none

variable {w : Word} {words : List Word} {events : List Event}

theorem filterMap_blockPlace? {p : Event → Bool} (h : Only p events)
    (hp : ∀ e, p e = true → e.blockPlace? = none) : events.filterMap blockPlace? = [] := by
  rw [List.filterMap_eq_nil_iff]
  intro e he
  exact hp e (h.of_mem e he)

theorem blockPlace?_of_isPlain (e : Event) (h : e.isPlain = true) : e.blockPlace? = none := by
  cases e with
  | flaw | refer => rfl
  | _ => cases h

theorem blockPlace?_of_inDeclaration (e : Event) (h : e.inDeclaration = true) :
    e.blockPlace? = none := by
  cases e with
  | flaw | refer | declare => rfl
  | _ => cases h

theorem blockPlace?_of_inHead (e : Event) (h : e.inHead = true) : e.blockPlace? = none := by
  cases e with
  | flaw | refer | parameter | result | exported => rfl
  | _ => cases h

theorem blockPlace?_of_isAction (e : Event) (h : e.isAction = true) : e.blockPlace? = none := by
  cases e with
  | flaw | refer | operate | jump => rfl
  | _ => cases h

/-- What is read from `w` on opens or closes at most one block: at `w`, or at a name. -/
theorem Composed.blockPlaces (h : Composed w events) :
    events.filterMap blockPlace? = [] ∨ events.filterMap blockPlace? = [w.place] ∨
      ∃ o ∈ occurrences events, events.filterMap blockPlace? = [o.place] := by
  cases h with
  | declaration h => exact Or.inl (filterMap_blockPlace? h blockPlace?_of_inDeclaration)
  | action h => exact Or.inl (filterMap_blockPlace? h blockPlace?_of_isAction)
  | label | loopVariable => exact Or.inl rfl
  | opening | otherwise | closing => exact Or.inr (Or.inl rfl)
  | @moduleHead front h block name =>
    have hfront := filterMap_blockPlace? h blockPlace?_of_isPlain
    rw [List.filterMap_append, hfront, List.nil_append]
    cases name with
    | none => exact Or.inr (Or.inl rfl)
    | some o => exact Or.inr (Or.inr ⟨o, by simp [occurrences, occurrence?], rfl⟩)
  | @unitHead back isTask name h =>
    have hback := filterMap_blockPlace? h blockPlace?_of_inHead
    refine Or.inr (Or.inr ⟨name, by simp [occurrences, occurrence?], ?_⟩)
    simp [blockPlace?, hback]

/-- A statement opens or closes at most one block, at a word of its own. -/
theorem statement_blockPlaces (prev : Option Word) (start : Bool) (w : Word) (rest : List Word) :
    ∃ used, w :: rest = used ++ (statement prev start w rest).1.rest ∧
      ((statement prev start w rest).1.events.filterMap blockPlace?).Sublist
        (used.map (·.place)) := by
  obtain ⟨used, hused, hnames⟩ := (statement_reads prev start w rest).used
  refine ⟨used, hused, ?_⟩
  have hfirst : w ∈ used := by
    cases used with
    | nil =>
      have hle := (statement_suffix prev start w rest).length_le
      have hlength := congrArg List.length hused
      simp only [List.nil_append, List.length_cons] at hlength
      omega
    | cons v used =>
      rw [List.cons_append] at hused
      rw [(List.cons.inj hused).1]
      exact List.mem_cons_self
  rcases (statement_composed prev start w rest).blockPlaces with h | h | ⟨o, ho, h⟩
  · rw [h]
    exact List.nil_sublist _
  · rw [h, List.singleton_sublist]
    exact List.mem_map_of_mem hfirst
  · obtain ⟨v, hv, -, rfl⟩ := Word.exists_of_mem_names (hnames.subset ho)
    rw [h, List.singleton_sublist]
    exact List.mem_map.mpr ⟨v, hv, rfl⟩

/-- Blocks are opened and closed at words, in their order, and no two at the same. -/
theorem eventsAfter_blockPlaces (prev : Option Word) (start : Bool) (words : List Word) :
    ((eventsAfter prev start words).filterMap blockPlace?).Sublist (words.map (·.place)) := by
  fun_induction eventsAfter prev start words with
  | case1 => exact .slnil
  | case2 prev start w rest r _ ih =>
    obtain ⟨used, hused, hfirst⟩ := statement_blockPlaces prev start w rest
    rw [hused, List.filterMap_append, List.map_append]
    exact hfirst.append ih

theorem pairwise_blockPlaces (hwords : Word.InOrder words) :
    ((ofWords words).filterMap blockPlace?).Pairwise (· < ·) :=
  (List.pairwise_map.mpr hwords).sublist (eventsAfter_blockPlaces none true words)

end Event

/-! ### The blocks of a program -/

namespace Resolution

namespace State

/-- The places of the blocks that are open and of those that have been closed. -/
def spans (s : State) : Spans :=
  ⟨s.frames.map (·.openedAt), s.closedBlocks.toList.map fun b => (b.openedAt, b.closedAt)⟩

theorem spans_declareIn (s : State) (scope : Nat) (new : Symbol) :
    (s.declareIn scope new).1.spans = s.spans := by
  unfold declareIn
  split
  · rfl
  · split
    · split <;> rfl
    · rfl

theorem spans_refer (s : State) (name : Occurrence) (write call : Bool) :
    (s.refer name write call).1.spans = s.spans := by
  unfold refer
  split
  · cases write <;> rfl
  · split <;> rfl

theorem spans_operate (s : State) (keyword : String) (kind : SymbolKind) (name : Occurrence) :
    (s.operate keyword kind name).spans = s.spans := by
  have hrefer := spans_refer s name false (keyword = "CALL")
  unfold operate
  dsimp only
  split
  · split <;> exact hrefer
  · exact hrefer

theorem spans_modifyUnit (s : State) (f : Attributes → Attributes) :
    (s.modifyUnit f).spans = s.spans := by
  unfold modifyUnit
  split <;> rfl

theorem spans_label (s : State) (name : Occurrence) : (s.label name).spans = s.spans := by
  unfold label
  split
  · exact spans_declareIn s _ _
  · have hdeclare : (s.declare name .label {}).1.spans = s.spans := spans_declareIn s _ _
    dsimp only
    split <;> exact hdeclare

theorem map_openedAt_addJump (jump : String × Nat) (frames : List Frame) :
    (addJump jump frames).map (·.openedAt) = frames.map (·.openedAt) := by
  induction frames with
  | nil => rfl
  | cons frame outer ih =>
    rw [addJump]
    split
    · rfl
    · rw [List.map_cons, ih, List.map_cons]

theorem spans_jump (s : State) (target : Occurrence) : (s.jump target).spans = s.spans := by
  unfold jump
  split
  · rw [spans, map_openedAt_addJump]
    rfl
  · split <;> rfl

theorem spans_landInBody (place : Nat) (s : State) (jump : String × Nat) :
    (landInBody place s jump).spans = s.spans := by
  unfold landInBody
  split <;> rfl

theorem spans_bindLoop (s : State) (block : Block) (pending : Option Occurrence) :
    (s.bindLoop block pending).spans = s.spans := by
  unfold bindLoop
  split
  · exact spans_declareIn s _ _
  · rfl

theorem spans_openFrame (s : State) (block : Block) (place : Nat) (symbol : Option Nat) :
    (s.openFrame block place symbol).spans = s.spans.push place := rfl

theorem spans_closeFrame (s : State) (place : Nat) :
    (s.closeFrame place).spans = s.spans.pop place ∨ (s.closeFrame place).spans = s.spans := by
  unfold closeFrame
  split
  · rename_i frame outer _ arena hframes _
    left
    simp [spans, Spans.pop, hframes]
  · exact Or.inr rfl

theorem otherwise_spans (s : State) (place : Nat) :
    s.spans.Moves place (s.otherwise place).spans := by
  unfold otherwise
  split
  · split
    · rw [spans_openFrame]
      rcases spans_closeFrame s place with h | h
      · rw [h]
        exact .turn
      · rw [h]
        exact .push
    · exact .stay
  · exact .stay

theorem close_spans (s : State) (closer : Closer) (place : Nat) :
    s.spans.Moves place (s.close closer place).spans := by
  unfold close
  split
  · rename_i frame outer hframes
    split
    · -- the jumps that are resolved at the end of a body leave the blocks alone
      have hlanded : (if frame.block.isBody then frame.jumps.foldl (landInBody place) s
          else s).spans = s.spans := by
        split
        · exact foldl_eq (spans_landInBody place) _ s
        · rfl
      generalize (if frame.block.isBody then _ else s) = landed at hlanded ⊢
      rw [← hlanded]
      change landed.spans.Moves place (landed.closeFrame place).spans
      rcases spans_closeFrame landed place with h | h
      · rw [h]
        exact .pop
      · rw [h]
        exact .stay
    · exact .stay
  · exact .stay

/-- What an event does to the blocks, it does at its place. -/
theorem step_spans (s : State) (e : Event) :
    match e.blockPlace? with
    | none => (s.step e).spans = s.spans
    | some place => s.spans.Moves place (s.step e).spans := by
  cases e with
  | flaw f place => rfl
  | refer name write call => exact spans_refer s name write call
  | operate keyword kind name => exact spans_operate s keyword kind name
  | declare name kind attributes => exact spans_declareIn s _ _
  | label name => exact spans_label s name
  | jump target => exact spans_jump s target
  | parameter name kind attributes text =>
    exact (spans_modifyUnit _ _).trans (spans_declareIn s _ _)
  | result text => exact spans_modifyUnit s _
  | exported => exact spans_modifyUnit s _
  | loopVariable name => rfl
  | openModule block place name =>
    have hreport : (if s.frames.isEmpty then s else s.report (.misplacedModule block) place).spans =
        s.spans := by
      split <;> rfl
    cases name with
    | none =>
      rw [step, openModule, spans_openFrame, hreport]
      exact .push
    | some o =>
      rw [step, openModule, spans_openFrame, spans_declareIn, hreport]
      exact .push
  | openUnit isTask name =>
    have hreport : ∀ cause, (if s.atModuleLevel then s else s.report cause name.place).spans =
        s.spans := by
      intro cause
      split <;> rfl
    rw [step, openUnit, spans_openFrame, spans_declareIn, hreport]
    exact .push
  | openBlock block place =>
    have hopen : (s.openBlock block place).spans = s.spans.push place :=
      (spans_bindLoop _ block s.pending).trans (spans_openFrame s block place none)
    rw [step, hopen]
    exact .push
  | otherwise place => exact otherwise_spans s place
  | close closer place => exact close_spans s closer place

/-- Blocks are nested after events that are at places in order. -/
theorem nested_foldl (events : List Event) {s : State} {now : Nat} (h : s.spans.Nested now)
    (hafter : ∀ place ∈ events.filterMap Event.blockPlace?, now ≤ place)
    (hordered : (events.filterMap Event.blockPlace?).Pairwise (· ≤ ·)) :
    ∃ last, (events.foldl step s).spans.Nested last := by
  induction events generalizing s now with
  | nil => exact ⟨now, h⟩
  | cons e events ih =>
    have hstep := step_spans s e
    cases hplace : e.blockPlace? with
    | none =>
      rw [hplace] at hstep
      rw [List.filterMap_cons_none hplace] at hafter hordered
      exact ih (hstep ▸ h) hafter hordered
    | some place =>
      rw [hplace] at hstep
      rw [List.filterMap_cons_some hplace] at hafter hordered
      obtain ⟨hlater, hordered⟩ := List.pairwise_cons.mp hordered
      exact ih (h.moves (hafter place List.mem_cons_self) hstep) hlater hordered

theorem closedBlocks_finish (s : State) (unused : Bool) :
    (s.finish unused).closedBlocks = s.closedBlocks := by
  have hjumps : (s.jumps.foldl landOutside s).closedBlocks = s.closedBlocks := by
    apply foldl_eq (g := State.closedBlocks)
    intro s jump
    unfold landOutside
    split <;> rfl
  have hframes : ∀ (frames : List Frame) (r : State),
      (frames.foldl reportUnclosed r).closedBlocks = r.closedBlocks :=
    foldl_eq (g := State.closedBlocks) fun _ _ => rfl
  have hsweep : ∀ r : State, r.sweep.closedBlocks = r.closedBlocks := by
    intro r
    unfold sweep
    apply foldl_eq (g := State.closedBlocks)
    intro r scope
    exact foldl_eq (g := State.closedBlocks) (f := reportUnused) (fun _ _ => rfl) _ r
  unfold finish
  dsimp only
  split
  · rw [hsweep, hframes, hjumps]
  · rw [hframes, hjumps]

end State

/-- No two blocks of a program cross. -/
theorem not_crosses_program (tokens : List Token) (unused : Bool) :
    ∀ b ∈ (program (Word.ofTokens tokens) unused).closedBlocks,
      ∀ b' ∈ (program (Word.ofTokens tokens) unused).closedBlocks,
        ¬Spans.Crosses (b.openedAt, b.closedAt) (b'.openedAt, b'.closedAt) := by
  have hordered := Event.pairwise_blockPlaces (Word.inOrder_ofTokens tokens)
  obtain ⟨last, hnested⟩ := State.nested_foldl (Event.ofWords (Word.ofTokens tokens)) (s := {})
    (Spans.nested_nil 0) (fun place _ => Nat.zero_le place) (hordered.imp Nat.le_of_lt)
  intro b hb b' hb'
  rw [program, State.closedBlocks_finish] at hb hb'
  exact hnested.apart _ (List.mem_map_of_mem (Array.mem_toList_iff.mpr hb)) _
    (List.mem_map_of_mem (Array.mem_toList_iff.mpr hb'))

end Resolution

end Pearl
