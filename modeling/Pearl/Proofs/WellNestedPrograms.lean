import Pearl.Proofs.BlockNesting
import Pearl.Scan.Run

namespace Pearl

/-! ### A grammar of programs -/

/-- What an expression is made of: expressions, and lists of them in brackets. -/
inductive TermSort where
  | single
  | listed

/-- The words are an expression, or the arguments between two brackets. -/
inductive Term : TermSort → List Word → Prop where
  | name {x : Word} (hx : x.isIdentifier = true) : Term .single [x]
  | number {n : Word} (hn : n.kind = .number) : Term .single [n]
  | unary {o : Word} {a : List Word} (ho : o.kind = .operator) (ha : Term .single a) :
      Term .single (o :: a)
  | binary {o : Word} {a b : List Word} (ha : Term .single a) (ho : o.kind = .operator)
      (hb : Term .single b) : Term .single (a ++ o :: b)
  | bracketed {l r : Word} {as : List Word} (hl : l.isSymbol ["("] = true) (has : Term .listed as)
      (hr : r.isSymbol [")"] = true) : Term .single (l :: (as ++ [r]))
  | applied {x l r : Word} {as : List Word} (hx : x.isIdentifier = true)
      (hl : l.isSymbol ["("] = true) (has : Term .listed as) (hr : r.isSymbol [")"] = true) :
      Term .single (x :: l :: (as ++ [r]))
  | none : Term .listed []
  | last {a : List Word} (ha : Term .single a) : Term .listed a
  | more {c : Word} {a as : List Word} (ha : Term .single a) (hc : c.isSymbol [","] = true)
      (has : Term .listed as) : Term .listed (a ++ c :: as)

/-- The categories of phrases that a program is made of. -/
inductive Category where
  | loopHead
  | statement
  | statements
  | branch
  | alternatives
  | unit
  | units
  | program

/-- The words are a phrase of a well-nested program. -/
inductive Phrase : Category → List Word → Prop where
  | noHead : Phrase .loopHead []
  | headTo {f x t : Word} {a : List Word} (hf : f.isKeyword ["FOR"] = true)
      (hx : x.isIdentifier = true) (ht : t.isKeyword ["TO"] = true) (ha : Term .single a) :
      Phrase .loopHead ([f, x] ++ t :: a)
  | headFromTo {f x g t : Word} {a b : List Word} (hf : f.isKeyword ["FOR"] = true)
      (hx : x.isIdentifier = true) (hg : g.isKeyword ["FROM"] = true) (ha : Term .single a)
      (ht : t.isKeyword ["TO"] = true) (hb : Term .single b) :
      Phrase .loopHead ([f, x] ++ g :: (a ++ t :: b))
  | compound {b e s : Word} {body : List Word} (hb : b.isKeyword ["BEGIN"] = true)
      (hbody : Phrase .statements body) (he : e.isKeyword ["END"] = true)
      (hs : s.isSymbol [";"] = true) : Phrase .statement (b :: (body ++ [e, s]))
  | loop {r e s : Word} {head body : List Word} (hhead : Phrase .loopHead head)
      (hr : r.isKeyword ["REPEAT"] = true) (hbody : Phrase .statements body)
      (he : e.isKeyword ["END"] = true) (hs : s.isSymbol [";"] = true) :
      Phrase .statement (head ++ r :: (body ++ [e, s]))
  | conditional {i t e s : Word} {a body other : List Word} (hi : i.isKeyword ["IF"] = true)
      (ha : Term .single a) (ht : t.isKeyword ["THEN"] = true) (hbody : Phrase .statements body)
      (hother : Phrase .branch other) (he : e.isKeyword ["FIN"] = true)
      (hs : s.isSymbol [";"] = true) :
      Phrase .statement (i :: (a ++ t :: (body ++ (other ++ [e, s]))))
  | selection {k e s : Word} {a cases : List Word} (hk : k.isKeyword ["CASE"] = true)
      (ha : Term .single a) (hcases : Phrase .alternatives cases)
      (he : e.isKeyword ["FIN"] = true) (hs : s.isSymbol [";"] = true) :
      Phrase .statement (k :: (a ++ (cases ++ [e, s])))
  | assignment {x o s : Word} {a : List Word} (hx : x.isIdentifier = true)
      (ho : o.isOperator ":=" = true) (ha : Term .single a) (hs : s.isSymbol [";"] = true) :
      Phrase .statement (x :: o :: (a ++ [s]))
  | labelled {x c : Word} {statement : List Word} (hx : x.isIdentifier = true)
      (hc : c.isSymbol [":"] = true) (hstatement : Phrase .statement statement) :
      Phrase .statement ([x, c] ++ statement)
  | jump {g x s : Word} (hg : g.isKeyword ["GOTO"] = true) (hx : x.isIdentifier = true)
      (hs : s.isSymbol [";"] = true) : Phrase .statement [g, x, s]
  | noStatement : Phrase .statements []
  | moreStatements {first more : List Word} (hfirst : Phrase .statement first)
      (hmore : Phrase .statements more) : Phrase .statements (first ++ more)
  | noBranch : Phrase .branch []
  | otherwise {e : Word} {body : List Word} (he : e.isKeyword ["ELSE"] = true)
      (hbody : Phrase .statements body) : Phrase .branch (e :: body)
  | noAlternative : Phrase .alternatives []
  | out {o : Word} {body : List Word} (ho : o.isKeyword ["OUT"] = true)
      (hbody : Phrase .statements body) : Phrase .alternatives (o :: body)
  | alternative {a l n r : Word} {body more : List Word} (ha : a.isKeyword ["ALT"] = true)
      (hl : l.isSymbol ["("] = true) (hn : n.kind = .number) (hr : r.isSymbol [")"] = true)
      (hbody : Phrase .statements body) (hmore : Phrase .alternatives more) :
      Phrase .alternatives ([a, l, n, r] ++ (body ++ more))
  | unit {x c u s e t : Word} {body : List Word} (hx : x.isIdentifier = true)
      (hc : c.isSymbol [":"] = true) (hu : u.isKeyword ["PROC", "TASK"] = true)
      (hs : s.isSymbol [";"] = true) (hbody : Phrase .statements body)
      (he : e.isKeyword ["END"] = true) (ht : t.isSymbol [";"] = true) :
      Phrase .unit ([x, c, u, s] ++ (body ++ [e, t]))
  | noUnit : Phrase .units []
  | moreUnits {first more : List Word} (hfirst : Phrase .unit first)
      (hmore : Phrase .units more) : Phrase .units (first ++ more)
  | program {m x s e t : Word} {units : List Word} (hm : m.isKeyword ["MODULE"] = true)
      (hx : x.isIdentifier = true) (hs : s.isSymbol [";"] = true) (hunits : Phrase .units units)
      (he : e.isKeyword ["MODEND"] = true) (ht : t.isSymbol [";"] = true) :
      Phrase .program ([m, x, s] ++ (units ++ [e, t]))

theorem Word.of_isKeyword {w : Word} {k : String} (h : w.isKeyword [k] = true) :
    w.kind = .keyword ∧ w.text = k := by
  simpa [Word.isKeyword] using h

theorem Word.of_isSymbol {w : Word} {c : String} (h : w.isSymbol [c] = true) :
    w.kind = .symbol ∧ w.text = c := by
  simpa [Word.isSymbol] using h

theorem Word.of_isIdentifier {w : Word} (h : w.isIdentifier = true) : w.kind = .identifier :=
  of_decide_eq_true h

/-- The word may stand in an expression. -/
def Word.IsOperand (w : Word) : Prop :=
  w.kind = .identifier ∨ w.kind = .number ∨ w.kind = .operator ∨ w.kind = .symbol ∧ w.text ≠ ":"

/-- An expression is written with names, numbers, operators, brackets and commas. -/
theorem Term.isOperand {sort : TermSort} {ws : List Word} (h : Term sort ws) :
    ∀ w ∈ ws, w.IsOperand := by
  have hname : ∀ w : Word, w.isIdentifier = true → w.IsOperand :=
    fun w hw => Or.inl (Word.of_isIdentifier hw)
  have hmark : ∀ (w : Word) (c : String), c ≠ ":" → w.isSymbol [c] = true → w.IsOperand :=
    fun w c hc hw => Or.inr (Or.inr (Or.inr
      ⟨(Word.of_isSymbol hw).1, by rw [(Word.of_isSymbol hw).2]; exact hc⟩))
  induction h with
  | name hx => exact List.forall_mem_singleton.mpr (hname _ hx)
  | number hn => exact List.forall_mem_singleton.mpr (Or.inr (Or.inl hn))
  | unary ho _ ih => exact List.forall_mem_cons.mpr ⟨Or.inr (Or.inr (Or.inl ho)), ih⟩
  | binary _ ho _ iha ihb =>
    exact List.forall_mem_append.mpr
      ⟨iha, List.forall_mem_cons.mpr ⟨Or.inr (Or.inr (Or.inl ho)), ihb⟩⟩
  | bracketed hl _ hr ih =>
    refine List.forall_mem_cons.mpr
      ⟨hmark _ "(" (by decide) hl, List.forall_mem_append.mpr ⟨ih, ?_⟩⟩
    exact List.forall_mem_singleton.mpr (hmark _ ")" (by decide) hr)
  | applied hx hl _ hr ih =>
    refine List.forall_mem_cons.mpr ⟨hname _ hx, List.forall_mem_cons.mpr
      ⟨hmark _ "(" (by decide) hl, List.forall_mem_append.mpr ⟨ih, ?_⟩⟩⟩
    exact List.forall_mem_singleton.mpr (hmark _ ")" (by decide) hr)
  | none => exact List.forall_mem_nil _
  | last _ ih => exact ih
  | more _ hc _ iha ihas =>
    exact List.forall_mem_append.mpr
      ⟨iha, List.forall_mem_cons.mpr ⟨hmark _ "," (by decide) hc, ihas⟩⟩

namespace Resolution

/-! ### Findings about the structure -/

/-- The codes of findings about the structure of a program. -/
def structuralCodes : List String :=
  ["mismatched-block", "unclosed-block", "misplaced-block", "nested-unit", "syntax-error"]

def isStructural : Cause → Bool
  | .flaw _ | .misplacedModule _ | .nestedUnit .. | .unmatchedElse | .unexpectedCloser ..
  | .unclosed _ => true
  | _ => false

theorem code_mem_structuralCodes_iff (c : Cause) :
    c.code ∈ structuralCodes ↔ isStructural c = true := by
  cases c <;> simp [Cause.code, isStructural, structuralCodes]

/-- The cause is about something else. -/
def isSound (c : Cause) : Prop := isStructural c = false

namespace State

variable {s s' : State}

theorem Reports.mono {P Q : Cause → Prop} (h : Reports P s s') (hPQ : ∀ c, P c → Q c) :
    Reports Q s s' := by
  obtain ⟨fs, hfs, hp⟩ := h
  exact ⟨fs, hfs, fun f hf => hPQ _ (hp f hf)⟩

theorem Keeps.blocks {P : Cause → Prop} (h : Keeps P s s') :
    s'.skeleton.blocks = s.skeleton.blocks := by
  rw [h.skeleton]

/-- Where all blocks are closed, nothing is told of them at the end. -/
theorem keeps_finish (hframes : s.frames = []) (unused : Bool) :
    Keeps isSound s (s.finish unused) := by
  have hlanded : Keeps isSound s (s.jumps.foldl landOutside s) := by
    refine keeps_foldl (fun s jump => ?_) s.jumps s
    unfold landOutside
    split
    · exact keeps_land s _ _
    · exact keeps_report s (show isSound (.undefinedLabel _) from rfl) _
  have hnone : (s.jumps.foldl landOutside s).frames = [] := by
    have hblocks := hlanded.blocks
    simpa [skeleton, hframes] using hblocks
  have hsweep : ∀ s : State, Keeps isSound s s.sweep := by
    intro s
    have hscope : ∀ (symbols : List Symbol) (s : State),
        Keeps isSound s (symbols.foldl reportUnused s) :=
      keeps_foldl fun s y => keeps_report s (show isSound (.unused _ _) from rfl) y.declaredAt
    have htaken : Keeps isSound s { s with arena := s.arena.takeClosed.2 } := .of_eq rfl rfl
    exact htaken.trans (keeps_foldl (fun s scope => hscope _ s) _ _)
  unfold finish
  dsimp only
  rw [hnone, List.foldl_nil]
  split
  · exact hlanded.trans (hsweep _)
  · exact hlanded

end State

/-! ### From open blocks to open blocks -/

/-- The events lead from states with the one nesting of open blocks to states with the other, and
nothing is told about the structure on the way. -/
def Leads (outer : List Block) (events : List Event) (inner : List Block) : Prop :=
  ∀ s : State, s.skeleton.InStep → s.skeleton.blocks = outer →
    (events.foldl State.step s).skeleton.blocks = inner ∧
      s.Reports isSound (events.foldl State.step s)

variable {outer inner between blocks : List Block} {events more : List Event}

theorem leads_nil (blocks : List Block) : Leads blocks [] blocks :=
  fun _ _ hblocks => ⟨hblocks, .of_eq rfl⟩

theorem Leads.append (h : Leads outer events between) (h' : Leads between more inner) :
    Leads outer (events ++ more) inner := by
  intro s hstep hblocks
  rw [List.foldl_append]
  obtain ⟨hbetween, hreports⟩ := h s hstep hblocks
  obtain ⟨hinner, hmore⟩ := h' _ (foldl_step_inv events hstep).1 hbetween
  exact ⟨hinner, hreports.trans hmore⟩

theorem leads_of_keeps {e : Event} (h : ∀ s : State, s.Keeps isSound (s.step e)) :
    Leads blocks [e] blocks :=
  fun s _ hblocks => ⟨(h s).blocks.trans hblocks, (h s).reports⟩

theorem leads_refer (name : Occurrence) (write call : Bool) :
    Leads blocks [.refer name write call] blocks :=
  leads_of_keeps fun s => s.keeps_refer (fun _ => rfl) name write call

theorem leads_label (name : Occurrence) : Leads blocks [.label name] blocks :=
  leads_of_keeps fun s => s.keeps_label (fun _ _ => rfl) name

theorem leads_jump (target : Occurrence) : Leads blocks [.jump target] blocks :=
  leads_of_keeps fun s => s.keeps_jump target

theorem leads_loopVariable (name : Occurrence) : Leads blocks [.loopVariable name] blocks :=
  leads_of_keeps fun _ => .of_eq rfl rfl

theorem leads_openBlock (block : Block) (place : Nat) :
    Leads blocks [.openBlock block place] (block :: blocks) := by
  intro s _ hblocks
  have hbind := State.keeps_bindLoop (P := isSound) (s.openFrame block place none)
    (fun _ _ => rfl) block s.pending
  constructor
  · change ((s.openFrame block place none).bindLoop block s.pending).skeleton.blocks = _
    rw [hbind.blocks, State.skeleton_openFrame, Skeleton.push, hblocks]
  · exact (State.Reports.of_eq rfl).trans (hbind.reports.trans (.of_eq rfl))

theorem exists_frame {s : State} {block : Block} (h : s.skeleton.blocks = block :: blocks) :
    ∃ frame outer, s.frames = frame :: outer ∧ frame.block = block := by
  change s.frames.map (·.block) = block :: blocks at h
  cases hframes : s.frames with
  | nil => simp [hframes] at h
  | cons frame outer =>
    rw [hframes, List.map_cons, List.cons.injEq] at h
    exact ⟨frame, outer, rfl, h.1⟩

theorem leads_close {closer : Closer} {block : Block} (hmem : block ∈ closer.openers)
    (place : Nat) : Leads (block :: blocks) [.close closer place] blocks := by
  intro s hstep hblocks
  obtain ⟨frame, outer, hframes, rfl⟩ := exists_frame hblocks
  obtain ⟨hskeleton, -, -, hreports⟩ := State.close_of_mem hstep hframes hmem place
  constructor
  · change (s.close closer place).skeleton.blocks = _
    rw [hskeleton, Skeleton.pop, hblocks, List.tail_cons]
  · refine hreports.mono fun c hc => ?_
    cases c with
    | undefinedLabel => rfl
    | _ => simp [Cause.code] at hc

theorem leads_otherwise (place : Nat) :
    Leads (.conditional :: blocks) [.otherwise place] (.conditional :: blocks) := by
  intro s hstep hblocks
  obtain ⟨frame, outer, hframes, hblock⟩ := exists_frame hblocks
  have hturn : s.otherwise place = (s.closeFrame place).openFrame .conditional place none := by
    rw [State.otherwise, hframes]
    exact if_pos hblock
  have hne : s.frames ≠ [] := by simp [hframes]
  change (s.otherwise place).skeleton.blocks = _ ∧ s.Reports isSound (s.otherwise place)
  rw [hturn]
  constructor
  · rw [State.skeleton_openFrame, State.skeleton_closeFrame hstep hne, Skeleton.push,
      Skeleton.pop, hblocks, List.tail_cons]
  · exact .of_eq (State.closeFrame_eq hstep hframes place).2.2.2.2

theorem leads_openModule (place : Nat) (name : Option Occurrence) :
    Leads [] [.openModule .mainModule place name] [.mainModule] := by
  intro s _ hblocks
  have hempty : s.frames.isEmpty = true := by
    simpa [State.skeleton] using hblocks
  change (s.openModule .mainModule place name).skeleton.blocks = _ ∧
    s.Reports isSound (s.openModule .mainModule place name)
  unfold State.openModule
  rw [if_pos hempty]
  dsimp only
  cases name with
  | none =>
    rw [State.skeleton_openFrame, Skeleton.push, hblocks]
    exact ⟨rfl, .of_eq rfl⟩
  | some n =>
    have hdeclare := State.keeps_declareIn (P := isSound) s (fun _ _ => rfl) 0
      (State.newSymbol n .module {})
    dsimp only
    rw [State.skeleton_openFrame, Skeleton.push, hdeclare.blocks, hblocks]
    exact ⟨rfl, hdeclare.reports.trans (.of_eq rfl)⟩

theorem leads_openUnit (isTask : Bool) (name : Occurrence) :
    Leads [.mainModule] [.openUnit isTask name]
      [if isTask then .task else .procedure, .mainModule] := by
  intro s _ hblocks
  have hlevel : s.atModuleLevel = true := by
    change s.frames.map (·.block) = [.mainModule] at hblocks
    obtain ⟨frame, hframes, hblock⟩ := List.map_eq_singleton_iff.mp hblocks
    rw [State.atModuleLevel, hframes]
    dsimp only
    rw [hblock]
    rfl
  change (s.openUnit isTask name).skeleton.blocks = _ ∧ s.Reports isSound (s.openUnit isTask name)
  unfold State.openUnit
  dsimp only
  rw [if_pos hlevel]
  have hdeclare := State.keeps_declareIn (P := isSound) s (fun _ _ => rfl) s.unitScope
    (State.newSymbol name (if isTask then .task else .proc) {})
  rw [State.skeleton_openFrame, Skeleton.push, hdeclare.blocks, hblocks]
  exact ⟨rfl, hdeclare.reports.trans (.of_eq rfl)⟩

/-! ### Reading -/

/-- Whatever has been read before, the words in front of `rest` are read with events that lead
from the one nesting of open blocks to the other. -/
def Passage (outer : List Block) (ws rest : List Word) (inner : List Block) : Prop :=
  ∀ prev start, ∃ events prev' start',
    Event.eventsAfter prev start (ws ++ rest) = events ++ Event.eventsAfter prev' start' rest ∧
      Leads outer events inner

variable {ws ws' rest : List Word} {w : Word}

theorem passage_nil (blocks : List Block) (rest : List Word) : Passage blocks [] rest blocks :=
  fun prev start => ⟨[], prev, start, rfl, leads_nil blocks⟩

theorem Passage.append (h : Passage outer ws (ws' ++ rest) between)
    (h' : Passage between ws' rest inner) : Passage outer (ws ++ ws') rest inner := by
  intro prev start
  obtain ⟨events, prev', start', hevents, hleads⟩ := h prev start
  obtain ⟨more, prev'', start'', hmore, hleads'⟩ := h' prev' start'
  refine ⟨events ++ more, prev'', start'', ?_, hleads.append hleads'⟩
  rw [List.append_assoc, hevents, hmore, List.append_assoc]

theorem Passage.cons (h : Passage outer [w] (ws ++ rest) between)
    (h' : Passage between ws rest inner) : Passage outer (w :: ws) rest inner :=
  h.append h'

/-- What is read at one go. -/
theorem passage_of_statement
    (h : ∀ prev start, (Event.statement prev start w (ws ++ rest)).1.rest = rest ∧
      Leads outer (Event.statement prev start w (ws ++ rest)).1.events inner) :
    Passage outer (w :: ws) rest inner := by
  intro prev start
  let r := Event.statement prev start w (ws ++ rest)
  refine ⟨r.1.events, some r.1.last, r.2, ?_, (h prev start).2⟩
  rw [List.cons_append, Event.eventsAfter, (h prev start).1]

theorem statement_of_isKeyword {k : String} (hw : w.isKeyword [k] = true) (prev : Option Word)
    (start : Bool) (rest : List Word) :
    (Event.statement prev start w rest).1 =
      Event.keywordStatement w rest (Event.statementHead k) := by
  obtain ⟨hkind, rfl⟩ := Word.of_isKeyword hw
  rw [Event.statement, hkind]

/-- A word by itself that means nothing. -/
theorem passage_idle (hkeyword : w.kind ≠ .keyword) (hname : w.kind ≠ .identifier) :
    Passage blocks [w] rest blocks := by
  apply passage_of_statement
  intro prev start
  have hw : (Event.statement prev start w ([] ++ rest)).1 = ⟨[], w, rest⟩ := by
    unfold Event.statement
    split
    · contradiction
    · contradiction
    · rfl
  rw [hw]
  exact ⟨rfl, leads_nil blocks⟩

theorem passage_mark {c : String} (hw : w.isSymbol [c] = true) :
    Passage blocks [w] rest blocks := by
  have hkind := (Word.of_isSymbol hw).1
  exact passage_idle (by simp [hkind]) (by simp [hkind])

theorem passage_other {k : String} (hw : w.isKeyword [k] = true)
    (hk : Event.statementHead k = .other) : Passage blocks [w] rest blocks := by
  apply passage_of_statement
  intro prev start
  rw [statement_of_isKeyword hw, hk]
  exact ⟨rfl, leads_nil blocks⟩

theorem passage_opener {k : String} {block : Block} (hw : w.isKeyword [k] = true)
    (hk : Event.statementHead k = .blockOpener block) :
    Passage blocks [w] rest (block :: blocks) := by
  apply passage_of_statement
  intro prev start
  rw [statement_of_isKeyword hw, hk]
  exact ⟨rfl, leads_openBlock block w.place⟩

theorem passage_closer {k : String} {closer : Closer} {block : Block}
    (hw : w.isKeyword [k] = true) (hk : Event.statementHead k = .blockCloser closer)
    (hmem : block ∈ closer.openers) : Passage (block :: blocks) [w] rest blocks := by
  apply passage_of_statement
  intro prev start
  rw [statement_of_isKeyword hw, hk]
  exact ⟨rfl, leads_close hmem w.place⟩

/-- The closer of a block and the semicolon after it. -/
theorem passage_end {k : String} {closer : Closer} {block : Block} {s : Word}
    (hw : w.isKeyword [k] = true) (hk : Event.statementHead k = .blockCloser closer)
    (hmem : block ∈ closer.openers) (hs : s.isSymbol [";"] = true) :
    Passage (block :: blocks) [w, s] rest blocks :=
  (passage_closer hw hk hmem).cons (passage_mark hs)

theorem passage_otherwise (hw : w.isKeyword ["ELSE"] = true) :
    Passage (.conditional :: blocks) [w] rest (.conditional :: blocks) := by
  apply passage_of_statement
  intro prev start
  rw [statement_of_isKeyword hw]
  exact ⟨rfl, leads_otherwise w.place⟩

theorem leads_reference (prev : Option Word) (w : Word) (write : Bool) (rest : List Word) :
    Leads blocks (Event.reference prev w write rest) blocks := by
  unfold Event.reference
  split
  · exact leads_nil blocks
  · exact leads_refer _ _ _

/-- A colon does not come next. -/
def NoColon (rest : List Word) : Prop := ∀ w ∈ rest.head?, w.isSymbol [":"] = false

theorem noColon_of_kind {w : Word} (hw : w.kind ≠ .symbol) (rest : List Word) :
    NoColon (w :: rest) := by
  rintro _ ⟨⟩
  simp [Word.isSymbol, hw]

theorem noColon_of_isKeyword {k : String} (hw : w.isKeyword [k] = true) (rest : List Word) :
    NoColon (w :: rest) := by
  have hkind := (Word.of_isKeyword hw).1
  exact noColon_of_kind (by simp [hkind]) rest

theorem noColon_of_isSymbol {c : String} (hw : w.isSymbol [c] = true) (hc : c ≠ ":")
    (rest : List Word) : NoColon (w :: rest) := by
  rintro _ ⟨⟩
  obtain ⟨hkind, rfl⟩ := Word.of_isSymbol hw
  simp [Word.isSymbol, hkind, hc]

theorem noColon_of_isOperand (hw : w.IsOperand) (rest : List Word) : NoColon (w :: rest) := by
  rintro _ ⟨⟩
  rcases hw with hkind | hkind | hkind | ⟨hkind, htext⟩
  · simp [Word.isSymbol, hkind]
  · simp [Word.isSymbol, hkind]
  · simp [Word.isSymbol, hkind]
  · simp [Word.isSymbol, htext]

/-- A name that no colon follows is a reference at most. -/
theorem passage_name (hw : w.isIdentifier = true) (hrest : NoColon rest) :
    Passage blocks [w] rest blocks := by
  have hkind := Word.of_isIdentifier hw
  have hsecond : Event.secondKeyword? rest = none := by
    unfold Event.secondKeyword?
    split
    · rw [hrest _ rfl]
      rfl
    · rfl
  apply passage_of_statement
  intro prev start
  unfold Event.statement
  rw [hkind, List.nil_append]
  dsimp only
  unfold Event.nameStatement
  rw [hsecond]
  cases rest with
  | nil => exact ⟨rfl, leads_reference prev w _ _⟩
  | cons next left =>
    dsimp only
    rw [hrest next rfl, Bool.false_and, if_neg Bool.false_ne_true]
    exact ⟨rfl, leads_reference prev w _ _⟩

theorem passage_operands (hws : ∀ w ∈ ws, w.IsOperand) (hrest : NoColon rest) :
    Passage blocks ws rest blocks := by
  induction ws with
  | nil => exact passage_nil blocks rest
  | cons w ws ih =>
    obtain ⟨hw, hws⟩ := List.forall_mem_cons.mp hws
    have hnext : NoColon (ws ++ rest) := by
      cases ws with
      | nil => exact hrest
      | cons w' ws => exact noColon_of_isOperand (hws w' List.mem_cons_self) _
    refine Passage.cons ?_ (ih hws)
    by_cases hname : w.isIdentifier = true
    · exact passage_name hname hnext
    · have hkind : w.kind ≠ .identifier := fun h => hname (decide_eq_true h)
      refine passage_idle ?_ hkind
      rcases hw with h | h | h | ⟨h, -⟩
      · exact absurd h hkind
      · simp [h]
      · simp [h]
      · simp [h]

theorem passage_term {sort : TermSort} (h : Term sort ws) (hrest : NoColon rest) :
    Passage blocks ws rest blocks :=
  passage_operands h.isOperand hrest

/-! ### Heads of phrases -/

theorem passage_loopVariable {f x : Word} (hf : f.isKeyword ["FOR"] = true)
    (hx : x.isIdentifier = true) : Passage blocks [f, x] rest blocks := by
  apply passage_of_statement
  intro prev start
  rw [statement_of_isKeyword hf]
  change (Event.loopControl f (x :: rest)).rest = rest ∧
    Leads blocks (Event.loopControl f (x :: rest)).events blocks
  rw [Event.loopControl, if_pos hx]
  exact ⟨rfl, leads_loopVariable _⟩

theorem passage_jump {g x s : Word} (hg : g.isKeyword ["GOTO"] = true)
    (hx : x.isIdentifier = true) (hs : s.isSymbol [";"] = true) :
    Passage blocks [g, x, s] rest blocks := by
  apply passage_of_statement
  intro prev start
  rw [statement_of_isKeyword hg]
  change (Event.jumpStatement g (x :: s :: rest)).rest = rest ∧
    Leads blocks (Event.jumpStatement g (x :: s :: rest)).events blocks
  rw [Event.jumpStatement, if_pos hx, Event.thenFinish, Event.finishStatement, if_pos hs]
  exact ⟨rfl, leads_jump _⟩

theorem passage_values {a l n r : Word} (ha : a.isKeyword ["ALT"] = true)
    (hl : l.isSymbol ["("] = true) (hn : n.kind = .number) (hr : r.isSymbol [")"] = true) :
    Passage blocks [a, l, n, r] rest blocks := by
  obtain ⟨hrkind, hrtext⟩ := Word.of_isSymbol hr
  have hr' : r.isSymbol [")", "]"] = true := by simp [Word.isSymbol, hrkind, hrtext]
  have hsize : Event.groupSize 0 (n :: r :: rest) = 1 := by
    simp [Event.groupSize, Word.isSymbol, hn, hrkind, hrtext]
  have hnone : Event.references l 1 (n :: r :: rest) = [] := by
    simp [Event.references, Word.isIdentifier, hn]
  have hend : Event.groupEnd l n (r :: rest) = ⟨[], r, rest⟩ := by
    rw [Event.groupEnd, if_pos hr']
  have hgroup : (Event.group true l (n :: r :: rest)).reading = ⟨[], r, rest⟩ := by
    simp only [Event.group, hsize, hnone, if_true, List.drop_succ_cons, List.drop_zero,
      Event.lastOf, hend, List.nil_append]
  apply passage_of_statement
  intro prev start
  rw [statement_of_isKeyword ha]
  change (Event.alternative a (l :: n :: r :: rest)).rest = rest ∧
    Leads blocks (Event.alternative a (l :: n :: r :: rest)).events blocks
  simp only [Event.alternative, Event.optionalGroup, hl, if_true, Event.afterGroup,
    Event.groupEvents, hgroup, true_and]
  exact leads_nil blocks

/-- A label, where one may stand, or a name and a colon that mean nothing. -/
theorem passage_label {x c : Word} (hx : x.isIdentifier = true) (hc : c.isSymbol [":"] = true)
    (hrest : ∀ u ∈ rest.head?, u.isKeyword Event.unitKeywords = false) :
    Passage blocks [x, c] rest blocks := by
  have hsecond : Event.secondKeyword? (c :: rest) = none := by
    unfold Event.secondKeyword?
    split
    · rename_i u left hcons
      cases hcons
      rw [hrest u rfl, Bool.and_false]
      rfl
    · rfl
  intro prev start
  rw [List.cons_append, Event.eventsAfter]
  simp only [Event.statement, Word.of_isIdentifier hx, List.cons_append, List.nil_append,
    Event.nameStatement, hsecond, hc, Bool.true_and]
  by_cases hstart : (start || Event.mayStart prev) = true
  · rw [if_pos hstart]
    exact ⟨_, _, _, rfl, leads_label _⟩
  · rw [if_neg hstart]
    have hcolon : Passage blocks [c] rest blocks := passage_mark hc
    obtain ⟨events, prev', start', hevents, hleads⟩ := hcolon (some x) false
    have hreference :
        Leads blocks (Event.reference prev x (c.isOperator ":=") (c :: rest)) blocks :=
      leads_reference prev x _ _
    refine ⟨_, prev', start', ?_, hreference.append hleads⟩
    rw [List.append_assoc, ← hevents]
    rfl

theorem passage_unitHead {x c u s : Word} (hx : x.isIdentifier = true)
    (hc : c.isSymbol [":"] = true) (hu : u.isKeyword ["PROC", "TASK"] = true)
    (hs : s.isSymbol [";"] = true) :
    ∃ block ∈ Closer.blockEnd.openers,
      Passage [.mainModule] [x, c, u, s] rest [block, .mainModule] := by
  have hsecond : Event.secondKeyword? (c :: u :: s :: rest) = some (u, s :: rest) := by
    have hu' : u.isKeyword Event.unitKeywords = true := by
      simp only [Word.isKeyword, Event.unitKeywords, Bool.and_eq_true, List.contains_iff_mem,
        List.mem_cons, List.not_mem_nil, or_false] at hu ⊢
      exact ⟨hu.1, hu.2.elim Or.inl fun h => Or.inr (Or.inr h)⟩
    simp [Event.secondKeyword?, hc, hu']
  have hheader : Event.header u u (s :: rest) = ⟨[], s, rest⟩ := by
    rw [Event.header, if_pos hs]
  refine ⟨if u.text = "TASK" then .task else .procedure, by split <;> decide, ?_⟩
  apply passage_of_statement
  intro prev start
  simp only [Event.statement, Word.of_isIdentifier hx, List.cons_append, List.nil_append,
    Event.nameStatement, hsecond, Event.unitHead, hheader, true_and]
  have hleads := leads_openUnit (u.text = "TASK") x.occurrence
  simp only [decide_eq_true_eq] at hleads
  exact hleads

theorem passage_moduleHead {m x s : Word} (hm : m.isKeyword ["MODULE"] = true)
    (hx : x.isIdentifier = true) (hs : s.isSymbol [";"] = true) :
    Passage [] [m, x, s] rest [.mainModule] := by
  have hname : x.isSymbol ["("] = false := by simp [Word.isSymbol, Word.of_isIdentifier hx]
  apply passage_of_statement
  intro prev start
  rw [statement_of_isKeyword hm]
  change (Event.moduleHead .mainModule m (x :: s :: rest)).rest = rest ∧
    Leads [] (Event.moduleHead .mainModule m (x :: s :: rest)).events [.mainModule]
  simp only [Event.moduleHead, Event.moduleName, hname, hx, Bool.false_eq_true, if_false, if_true,
    Event.dropSemicolon, hs, true_and]
  exact leads_openModule _ _

/-! ### Phrases -/

/-- The open blocks around a phrase of the category. -/
def Category.Within : Category → List Block → Prop
  | .branch, blocks => ∃ outer, blocks = .conditional :: outer
  | .unit, blocks | .units, blocks => blocks = [.mainModule]
  | .program, blocks => blocks = []
  | _, _ => True

/-- A phrase of the category may stand before these words. -/
def Category.Before : Category → List Word → Prop
  | .loopHead, rest => NoColon rest
  | _, _ => True

theorem head_of_statement {c : Category} (h : Phrase c ws) (hc : c = .statement) :
    ∃ u ∈ ws.head?, u.isKeyword Event.unitKeywords = false := by
  have hkeyword : ∀ (u : Word) (k : String), u.isKeyword [k] = true → k ∉ Event.unitKeywords →
      u.isKeyword Event.unitKeywords = false := by
    intro u k hu hk
    obtain ⟨-, rfl⟩ := Word.of_isKeyword hu
    simp [Word.isKeyword, hk]
  have hname : ∀ u : Word, u.isIdentifier = true → u.isKeyword Event.unitKeywords = false := by
    intro u hu
    simp [Word.isKeyword, Word.of_isIdentifier hu]
  cases h with
  | compound hb => exact ⟨_, rfl, hkeyword _ _ hb (by decide)⟩
  | loop hhead hr =>
    cases hhead with
    | noHead => exact ⟨_, rfl, hkeyword _ _ hr (by decide)⟩
    | headTo hf => exact ⟨_, rfl, hkeyword _ _ hf (by decide)⟩
    | headFromTo hf => exact ⟨_, rfl, hkeyword _ _ hf (by decide)⟩
  | conditional hi => exact ⟨_, rfl, hkeyword _ _ hi (by decide)⟩
  | selection hk => exact ⟨_, rfl, hkeyword _ _ hk (by decide)⟩
  | assignment hx => exact ⟨_, rfl, hname _ hx⟩
  | labelled hx => exact ⟨_, rfl, hname _ hx⟩
  | jump hg => exact ⟨_, rfl, hkeyword _ _ hg (by decide)⟩
  | _ => cases hc

/-- Alternatives start with a keyword, and so does what follows the last of them. -/
theorem noColon_alternatives {c : Category} (h : Phrase c ws) (hc : c = .alternatives)
    (hrest : NoColon rest) : NoColon (ws ++ rest) := by
  cases h with
  | noAlternative => exact hrest
  | out ho => exact noColon_of_isKeyword ho _
  | alternative ha => exact noColon_of_isKeyword ha _
  | _ => cases hc

/-- A phrase is read from end to end: the blocks that it opens are closed in it. -/
theorem passage_phrase {c : Category} (h : Phrase c ws) (hwithin : Category.Within c blocks)
    (hbefore : Category.Before c rest) : Passage blocks ws rest blocks := by
  induction h generalizing blocks rest with
  | noHead | noStatement | noBranch | noAlternative | noUnit => exact passage_nil blocks rest
  | headTo hf hx ht ha =>
    exact (passage_loopVariable hf hx).append
      ((passage_other ht rfl).cons (passage_term ha hbefore))
  | headFromTo hf hx hg ha ht hb =>
    refine (passage_loopVariable hf hx).append ((passage_other hg rfl).cons ?_)
    exact (passage_term ha (noColon_of_isKeyword ht _)).append
      ((passage_other ht rfl).cons (passage_term hb hbefore))
  | compound hb _ he hs ih =>
    exact (passage_opener hb rfl).cons ((ih trivial trivial).append
      (passage_end he rfl (by decide) hs))
  | loop _ hr _ he hs ihhead ih =>
    refine (ihhead trivial (noColon_of_isKeyword hr _)).append ((passage_opener hr rfl).cons ?_)
    exact (ih trivial trivial).append (passage_end he rfl (by decide) hs)
  | conditional hi ha ht _ _ he hs ih ihother =>
    refine (passage_opener hi rfl).cons ?_
    refine (passage_term ha (noColon_of_isKeyword ht _)).append ((passage_other ht rfl).cons ?_)
    refine (ih trivial trivial).append ((ihother ⟨blocks, rfl⟩ trivial).append ?_)
    exact passage_end he rfl (by decide) hs
  | @selection k e s a cases hk ha hcases he hs ih =>
    have hnext := noColon_alternatives hcases rfl (noColon_of_isKeyword he (s :: rest))
    refine (passage_opener hk rfl).cons ((passage_term ha ?_).append ?_)
    · rw [List.append_assoc]
      exact hnext
    · exact (ih trivial trivial).append (passage_end he rfl (by decide) hs)
  | @assignment x o s a hx ho ha hs =>
    have hoperator : o.kind = .operator := by
      simp only [Word.isOperator, Bool.and_eq_true, decide_eq_true_eq] at ho
      exact ho.1
    have hoperands : ∀ w ∈ x :: o :: a, w.IsOperand :=
      List.forall_mem_cons.mpr ⟨Or.inl (Word.of_isIdentifier hx),
        List.forall_mem_cons.mpr ⟨Or.inr (Or.inr (Or.inl hoperator)), ha.isOperand⟩⟩
    exact (passage_operands hoperands (noColon_of_isSymbol hs (by decide) _)).append
      (passage_mark hs)
  | @labelled x c statement hx hc hstatement ih =>
    obtain ⟨u, hu, hunit⟩ := head_of_statement hstatement rfl
    refine (passage_label hx hc ?_).append (ih trivial trivial)
    intro v hv
    rw [List.head?_append, hu] at hv
    cases hv
    exact hunit
  | jump hg hx hs => exact passage_jump hg hx hs
  | moreStatements _ _ ihfirst ihmore =>
    exact (ihfirst trivial trivial).append (ihmore trivial trivial)
  | otherwise he _ ih =>
    obtain ⟨outer, rfl⟩ := hwithin
    exact (passage_otherwise he).cons (ih trivial trivial)
  | out ho _ ih => exact (passage_other ho rfl).cons (ih trivial trivial)
  | alternative ha hl hn hr _ _ ih ihmore =>
    exact (passage_values ha hl hn hr).append ((ih trivial trivial).append (ihmore trivial trivial))
  | unit hx hc hu hs _ he ht ih =>
    obtain rfl := hwithin
    obtain ⟨block, hblock, hhead⟩ := passage_unitHead hx hc hu hs
    exact hhead.append ((ih trivial trivial).append (passage_end he rfl hblock ht))
  | moreUnits _ _ ihfirst ihmore =>
    exact (ihfirst hwithin trivial).append (ihmore hwithin trivial)
  | program hm hx hs _ he ht ih =>
    obtain rfl := hwithin
    exact (passage_moduleHead hm hx hs).append
      ((ih rfl trivial).append (passage_end he rfl (by decide) ht))

/-- A well-nested program is taken as one, at whatever depth its statements are nested and
whatever its names stand for: nothing is told about its structure, and at its end no block and no
scope but the global one is open. -/
theorem well_nested_accepted {tokens : List Token}
    (h : Phrase .program (Word.ofTokens (Word.significant tokens))) (unused : Bool) :
    let counted := Word.significant tokens
    let s := program (Word.ofTokens counted) unused
    (∀ f ∈ s.findings, f.cause.code ∉ structuralCodes) ∧
    (∀ d ∈ s.diagnostics counted.toArray, d.code ∉ structuralCodes) ∧
    s.frames = [] ∧ s.arena.depth = 1 := by
  intro counted s
  have hpassage : Passage [] (Word.ofTokens counted) [] [] := passage_phrase h rfl trivial
  obtain ⟨events, prev, start, hevents, hleads⟩ := hpassage none true
  have hinit : State.skeleton {} |>.InStep := ⟨rfl, rfl⟩
  have hwords : events = Event.ofWords (Word.ofTokens counted) := by
    rw [List.append_nil, Event.eventsAfter.eq_def prev, List.append_nil] at hevents
    exact hevents.symm
  subst hwords
  obtain ⟨hblocks, hreports⟩ := hleads {} hinit rfl
  have hframes : (ofWords (Word.ofTokens counted)).frames = [] := List.map_eq_nil_iff.mp hblocks
  have hfinish := State.keeps_finish hframes unused
  have hstep : s.skeleton.InStep := by
    rw [show s.skeleton = _ from hfinish.skeleton]
    exact (foldl_step_inv _ hinit).1
  have hend : s.frames = [] := List.map_eq_nil_iff.mp (hfinish.blocks.trans hblocks)
  have hfindings : ∀ f ∈ s.findings, f.cause.code ∉ structuralCodes := by
    obtain ⟨fs, hfs, hsound⟩ := hreports.trans hfinish.reports
    intro f hf hcode
    have hmem : f ∈ s.findings.toList := Array.mem_toList_iff.mpr hf
    rw [show s.findings.toList = fs from hfs] at hmem
    have hfalse : isStructural f.cause = false := hsound f hmem
    rw [(code_mem_structuralCodes_iff _).mp hcode] at hfalse
    cases hfalse
  refine ⟨hfindings, ?_, hend, ?_⟩
  · intro d hd
    obtain ⟨f, hf, htold⟩ := List.mem_filterMap.mp hd
    obtain ⟨t, -, rfl⟩ := Option.map_eq_some_iff.mp htold
    exact hfindings f (Array.mem_toList_iff.mp hf)
  · have hdepth := (State.aligned_of_inStep hstep).depth
    rw [hend] at hdepth
    exact hdepth.symm

/-- A task with every kind of statement in it. Its names are not declared, which is told. -/
theorem well_nested_accepted_undeclared_names :
    let tokens := (Scan.document { files := { cwd := Path.ofString "/ws" }, options := {} }
      ⟨"file:///ws/a", none, []⟩ {} .problem
      "MODULE M; P: TASK; FOR I TO N REPEAT IF X THEN L: X := F(I, 2); ELSE GOTO L; FIN; END;
       CASE K ALT (1) BEGIN END; OUT K := - 1; FIN; END; MODEND;".toList).tokens.toList
    let counted := Word.significant tokens
    let s := program (Word.ofTokens counted) true
    s.findings.size = 6 ∧ (∀ d ∈ s.diagnostics counted.toArray, d.code ∉ structuralCodes) ∧
      s.frames = [] ∧ s.arena.depth = 1 := by
  have hk : ∀ text place, (Word.mk .keyword text place).isKeyword [text] = true := by
    simp [Word.isKeyword]
  have hs : ∀ text place, (Word.mk .symbol text place).isSymbol [text] = true := by
    simp [Word.isSymbol]
  have ho : ∀ text place, (Word.mk .operator text place).isOperator text = true := by
    simp [Word.isOperator]
  have hx : ∀ text place, (Word.mk .identifier text place).isIdentifier = true := fun _ _ => rfl
  have hn : ∀ text place, (Word.mk .number text place).kind = .number := fun _ _ => rfl
  have harguments := Term.more (.name (hx "I" 21)) (hs "," 22) (.last (.number (hn "2" 23)))
  have hassignment := Phrase.assignment (hx "X" 17) (ho ":=" 18)
    (.applied (hx "F" 19) (hs "(" 20) harguments (hs ")" 24)) (hs ";" 25)
  have hconditional := Phrase.conditional (hk "IF" 12) (.name (hx "X" 13)) (hk "THEN" 14)
    (.moreStatements (.labelled (hx "L" 15) (hs ":" 16) hassignment) .noStatement)
    (.otherwise (hk "ELSE" 26)
      (.moreStatements (.jump (hk "GOTO" 27) (hx "L" 28) (hs ";" 29)) .noStatement))
    (hk "FIN" 30) (hs ";" 31)
  have hloop := Phrase.loop
    (.headTo (hk "FOR" 7) (hx "I" 8) (hk "TO" 9) (.name (hx "N" 10))) (hk "REPEAT" 11)
    (.moreStatements hconditional .noStatement) (hk "END" 32) (hs ";" 33)
  have hout := Phrase.out (hk "OUT" 43) (.moreStatements
    (.assignment (hx "K" 44) (ho ":=" 45)
      (.unary (o := ⟨.operator, "-", 46⟩) rfl (.number (hn "1" 47))) (hs ";" 48)) .noStatement)
  have hselection := Phrase.selection (hk "CASE" 34) (.name (hx "K" 35))
    (.alternative (hk "ALT" 36) (hs "(" 37) (hn "1" 38) (hs ")" 39)
      (.moreStatements (.compound (hk "BEGIN" 40) .noStatement (hk "END" 41) (hs ";" 42))
        .noStatement) hout) (hk "FIN" 49) (hs ";" 50)
  have hunit := Phrase.unit (u := ⟨.keyword, "TASK", 5⟩) (hx "P" 3) (hs ":" 4) rfl (hs ";" 6)
    (.moreStatements hloop (.moreStatements hselection .noStatement)) (hk "END" 51) (hs ";" 52)
  have hprogram := Phrase.program (hk "MODULE" 0) (hx "M" 1) (hs ";" 2)
    (.moreUnits hunit .noUnit) (hk "MODEND" 53) (hs ";" 54)
  -- only the words are computed from the text
  have hread : ∀ tokens ws, Phrase .program ws → ws = Word.ofTokens (Word.significant tokens) →
      (program ws true).findings.size = 6 →
      let counted := Word.significant tokens
      let s := program (Word.ofTokens counted) true
      s.findings.size = 6 ∧ (∀ d ∈ s.diagnostics counted.toArray, d.code ∉ structuralCodes) ∧
        s.frames = [] ∧ s.arena.depth = 1 := by
    rintro tokens _ hphrase rfl htold
    exact ⟨htold, (well_nested_accepted hphrase true).2⟩
  exact hread _ _ hprogram (by decide +kernel) (by decide +kernel)

end Resolution

end Pearl
