import Pearl.Proofs.LabelScopes
import Pearl.Proofs.UnusedSymbols

namespace Pearl.Resolution

variable {events : List Event} {e : Event}

/-! ### Jumps that wait for a label -/

namespace State

variable {s : State}

theorem isLabel_iff {id : Nat} :
    s.isLabel id = true ↔ ∃ y, s.symbol? id = some y ∧ y.kind = .label := by
  unfold isLabel
  cases s.symbol? id with
  | none => simp
  | some y => simp

theorem bodyScope?_eq_none_iff (h : s.skeleton.InStep) :
    s.bodyScope? = none ↔ s.frames.any (·.block.isBody) = false := by
  have hdepth : s.frames.length + 1 = s.arena.stack.length := (aligned_of_inStep h).depth
  rw [bodyScope?, Option.map_eq_none_iff, List.find?_eq_none, List.any_eq_false]
  constructor
  · intro hnone frame hframe
    obtain ⟨n, hn⟩ := List.mem_iff_getElem?.mp hframe
    have hlt := (List.getElem?_eq_some_iff.mp hn).1
    have hpair : (s.frames.zip s.arena.stack)[n]? = some (frame, s.arena.stack[n]) :=
      List.getElem?_zip_eq_some.mpr ⟨hn, List.getElem?_eq_getElem (by omega)⟩
    exact hnone _ (List.mem_of_getElem? hpair)
  · rintro hnone ⟨frame, i⟩ hmem
    exact hnone frame (List.of_mem_zip hmem).1

/-- A jump is kept by the innermost procedure or task. -/
theorem mem_zip_addJump {j : String × Nat} {frames : List Frame} {stack : List Nat}
    (hnodup : stack.Nodup) {frame : Frame} {i : Nat}
    (hmem : (frame, i) ∈ (addJump j frames).zip stack) (hbody : frame.block.isBody = true) :
    ∃ old, (old, i) ∈ frames.zip stack ∧ old.block.isBody = true ∧
      ∀ j', j' ∈ frame.jumps ↔ j' ∈ old.jumps ∨
        j' = j ∧ ((frames.zip stack).find? fun f => f.1.block.isBody).map (·.2) = some i := by
  induction frames generalizing stack with
  | nil => cases hmem
  | cons first outer ih =>
    cases stack with
    | nil => simp at hmem
    | cons k rest =>
      obtain ⟨hk, hrest⟩ := List.nodup_cons.mp hnodup
      rw [addJump] at hmem
      by_cases hfirst : first.block.isBody = true
      · rw [if_pos hfirst] at hmem
        rw [List.zip_cons_cons, List.find?_cons_of_pos (by exact hfirst), Option.map_some]
        rcases List.mem_cons.mp hmem with heq | hmem
        · cases heq
          refine ⟨first, List.mem_cons_self, hfirst, ?_⟩
          intro j'
          simp
        · have hne : k ≠ i := by
            rintro rfl
            exact hk (List.of_mem_zip hmem).2
          refine ⟨frame, List.mem_cons_of_mem _ hmem, hbody, ?_⟩
          intro j'
          simp [hne]
      · rw [if_neg hfirst] at hmem
        rw [List.zip_cons_cons, List.find?_cons_of_neg (by exact hfirst)]
        rcases List.mem_cons.mp hmem with heq | hmem
        · cases heq
          exact absurd hbody hfirst
        · obtain ⟨old, hold, hrest⟩ := ih hrest hmem
          exact ⟨old, List.mem_cons_of_mem _ hold, hrest⟩

/-- Events that are no jumps leave the jumps alone that wait. -/
theorem step_waits (s : State) (hjump : ∀ o, e ≠ .jump o) :
    (s.step e).jumps = s.jumps ∧ ∀ p ∈ (s.step e).frames.zip (s.step e).arena.stack,
      p ∈ s.frames.zip s.arena.stack ∨ p.1.jumps = [] ∧ p.2 = s.arena.scopes.size := by
  by_cases hlabel : ∃ l, e = .label l
  · obtain ⟨l, rfl⟩ := hlabel
    have hsame : (s.label l).books.jumps = s.books.jumps ∧
        (s.label l).books.frames.zip (s.label l).books.stack =
          s.books.frames.zip s.books.stack := by
      obtain hb | ⟨id, hb⟩ := books_label s l <;> rw [hb] <;> exact ⟨rfl, rfl⟩
    exact ⟨hsame.1, fun p hp => Or.inl (hsame.2 ▸ hp)⟩
  · have h := s.step_turns (fun l hl => hlabel ⟨l, hl⟩) hjump
    exact ⟨h.jumps, h.pairs⟩

end State

theorem nodup_stack (events : List Event) : (ofEvents events).arena.stack.Nodup := by
  obtain ⟨made, used, h⟩ := exists_history events
  exact (List.nodup_append.mp h.partition.nodup).2.1

theorem lt_of_at_bodyScope? {i : Nat} (h : At events e (·.bodyScope? = some i)) :
    i < (ofEvents events).arena.scopes.size := by
  obtain ⟨before, after, rfl, hbody⟩ := h
  obtain ⟨made, used, hbefore⟩ := exists_history before
  have hlt := State.lt_of_mem_stack hbefore.inStep (State.bodyScope?_mem hbody)
  have hle := (keywords_extend before (e :: after)).length_le
  simp only [State.skeleton, List.length_map, Array.length_toList] at hle
  omega

/-- Which jumps wait after some events. In a procedure or task that is open these are all jumps
for which it is the innermost one; outside of these a jump waits unless it has been resolved. -/
structure Waiting (events : List Event) (s : State) : Prop where
  inner : ∀ frame i, (frame, i) ∈ s.frames.zip s.arena.stack → frame.block.isBody = true →
    ∀ j, j ∈ frame.jumps ↔ At events (Books.jumpTo j) (·.bodyScope? = some i)
  outer : ∀ j, At events (Books.jumpTo j) (·.bodyScope? = none) → j ∈ s.jumps ∨
    ∃ id l, (j.2, id) ∈ s.links.toList ∧ l.name = j.1 ∧ s.Denotes id l ∧
      At events (.label l) fun s => s.bodyScope? = none ∧ s.Accepts l
  left : ∀ j ∈ s.jumps, At events (Books.jumpTo j) (·.bodyScope? = none)

namespace Waiting

variable {made : List Creation} {used : List Use}

theorem outer_concat (hw : Waiting events (ofEvents events)) (h : History events made used)
    {j : String × Nat} (hat : At events (Books.jumpTo j) (·.bodyScope? = none)) :
    j ∈ (ofEvents events).jumps ∨
      ∃ id l, (j.2, id) ∈ ((ofEvents events).step e).links.toList ∧ l.name = j.1 ∧
        ((ofEvents events).step e).Denotes id l ∧
        At (events ++ [e]) (.label l) fun s => s.bodyScope? = none ∧ s.Accepts l := by
  obtain ⟨new, uses, heffect⟩ := State.step_effect h.inStep e
  refine (hw.outer j hat).imp_right ?_
  rintro ⟨id, l, hlink, hname, hd, hl⟩
  refine ⟨id, l, ?_, hname, heffect.denotes hd, hl.append _⟩
  rw [heffect.links]
  simp [hlink]

theorem step_other (hw : Waiting events (ofEvents events)) (h : History events made used)
    (hjump : ∀ o, e ≠ .jump o) : Waiting (events ++ [e]) ((ofEvents events).step e) := by
  obtain ⟨hjumps, hpairs⟩ := (ofEvents events).step_waits hjump
  have hat : ∀ {j : String × Nat} {P : State → Prop},
      At (events ++ [e]) (Books.jumpTo j) P ↔ At events (Books.jumpTo j) P := by
    intro j P
    rw [at_concat]
    exact or_iff_left fun heq => hjump _ heq.1.symm
  refine ⟨?_, ?_, ?_⟩
  · intro frame i hmem hbody j
    rw [hat]
    rcases hpairs _ hmem with hold | ⟨hnone, hfresh⟩
    · exact hw.inner frame i hold hbody j
    · rw [show frame.jumps = [] from hnone]
      refine ⟨nofun, fun hlate => ?_⟩
      have hlt := lt_of_at_bodyScope? hlate
      rw [show i = _ from hfresh] at hlt
      exact absurd hlt (Nat.lt_irrefl _)
  · intro j hj
    rw [hjumps]
    exact hw.outer_concat h (hat.mp hj)
  · intro j hj
    rw [hjumps] at hj
    exact hat.mpr (hw.left j hj)

theorem at_concat_jump {j : String × Nat} {o : Occurrence} {P : State → Prop} :
    At (events ++ [.jump o]) (Books.jumpTo j) P ↔
      At events (Books.jumpTo j) P ∨ j = (o.name, o.place) ∧ P (ofEvents events) := by
  rw [at_concat]
  exact or_congr_right (and_congr_left fun _ => Books.jumpTo_injective.eq_iff (b := (_, _)))

/-- A jump in a procedure or task is kept for its end. -/
theorem step_jump_inside (hw : Waiting events (ofEvents events)) (h : History events made used)
    {o : Occurrence} (hany : (ofEvents events).frames.any (·.block.isBody) = true) :
    Waiting (events ++ [.jump o]) ((ofEvents events).step (.jump o)) := by
  have hstep : (ofEvents events).step (.jump o) = { ofEvents events with
      frames := State.addJump (o.name, o.place) (ofEvents events).frames } := if_pos hany
  have hbody : (ofEvents events).bodyScope? ≠ none := by
    intro hnone
    rw [(State.bodyScope?_eq_none_iff h.inStep).mp hnone] at hany
    cases hany
  refine ⟨?_, ?_, ?_⟩
  · intro frame i hmem hframe j
    rw [hstep] at hmem
    obtain ⟨old, hold, holdbody, hjumps⟩ :=
      State.mem_zip_addJump (nodup_stack events) hmem hframe
    rw [hjumps, at_concat_jump, hw.inner old i hold holdbody]
    rfl
  · intro j hj
    have hbefore := (at_concat_jump.mp hj).resolve_right fun hnow => hbody hnow.2
    have hkept := hw.outer_concat (e := .jump o) h hbefore
    rwa [hstep] at hkept ⊢
  · intro j hj
    rw [hstep] at hj
    exact at_concat_jump.mpr (Or.inl (hw.left j hj))

/-- A jump outside of procedures and tasks, whose label is not known yet or is found at once. -/
theorem step_jump_outside (hw : Waiting events (ofEvents events)) (h : History events made used)
    (hl : Labels events (ofEvents events)) {o : Occurrence}
    (hany : (ofEvents events).frames.any (·.block.isBody) = false) :
    Waiting (events ++ [.jump o]) ((ofEvents events).step (.jump o)) := by
  have hbody := (State.bodyScope?_eq_none_iff h.inStep).mpr hany
  have hinner : ∀ frame i, (frame, i) ∈
      (ofEvents events).frames.zip (ofEvents events).arena.stack → frame.block.isBody = true →
      ∀ j, j ∈ frame.jumps ↔
        At (events ++ [.jump o]) (Books.jumpTo j) (·.bodyScope? = some i) := by
    intro frame i hmem hframe j
    rw [at_concat_jump, hw.inner frame i hmem hframe j, hbody]
    simp
  cases hlookup : ((ofEvents events).arena.lookup o.name).filter (ofEvents events).isLabel with
  | none =>
    have hstep : (ofEvents events).step (.jump o) = { ofEvents events with
        jumps := (ofEvents events).jumps ++ [(o.name, o.place)] } := by
      rw [State.step, State.jump, if_neg (by simp [hany]), hlookup]
    have hkept := fun j => hw.outer_concat (j := j) (e := .jump o) h
    rw [hstep] at hkept ⊢
    refine ⟨hinner, ?_, ?_⟩
    · intro j hj
      rcases at_concat_jump.mp hj with hbefore | ⟨rfl, -⟩
      · exact (hkept j hbefore).imp_left fun hmem => List.mem_append_left _ hmem
      · exact Or.inl (by simp)
    · intro j hj
      refine at_concat_jump.mpr ((List.mem_append.mp hj).imp (hw.left j) fun hj => ?_)
      exact ⟨List.mem_singleton.mp hj, hbody⟩
  | some id =>
    have hstep : (ofEvents events).step (.jump o) = (ofEvents events).land o.place id := by
      rw [State.step, State.jump, if_neg (by simp [hany]), hlookup]
    have hkept := fun j => hw.outer_concat (j := j) (e := .jump o) h
    obtain ⟨hfound, hlabel⟩ := Option.filter_eq_some_iff.mp hlookup
    obtain ⟨_, i, _, hstack, hi, -⟩ := List.findSome?_eq_some_iff.mp hfound
    obtain ⟨y, hy, hkind⟩ := State.isLabel_iff.mp hlabel
    obtain ⟨l, hname, hd, hat⟩ := hl.held i o.name id y hi hy hkind
    -- the label stands in a scope which is that of no procedure or task
    have hno := State.not_isBody_of_bodyScope? h.inStep hbody (i := i) (by simp [hstack])
    have hdenotes := (State.grows_land (ofEvents events) (e := .jump o) rfl o.place id).denotes hd
    rw [hstep] at hkept ⊢
    refine ⟨hinner, ?_, ?_⟩
    · intro j hj
      rcases at_concat_jump.mp hj with hbefore | ⟨rfl, -⟩
      · exact hkept j hbefore
      · refine Or.inr ⟨id, l, ?_, hname, hdenotes, ((at_of_labelScope hat).2 hno).append _⟩
        simp [State.land, State.link, State.markUsed]
    · intro j hj
      exact at_concat_jump.mpr (Or.inl (hw.left j hj))

end Waiting

theorem waiting_ofEvents (hevents : ∀ e ∈ events, e.declaresLabel = false) :
    Waiting events (ofEvents events) := by
  induction events using List.reverseRecOn with
  | nil =>
    refine ⟨?_, fun j hj => absurd hj not_at_nil, ?_⟩
    · intro frame i hmem
      cases hmem
    · intro j hj
      cases hj
  | append_singleton events e ih =>
    have hbefore : ∀ e ∈ events, e.declaresLabel = false :=
      fun e he => hevents e (List.mem_append_left _ he)
    obtain ⟨made, used, h⟩ := exists_history events
    have hw := ih hbefore
    rw [ofEvents_concat]
    by_cases hjump : ∃ o, e = .jump o
    · obtain ⟨o, rfl⟩ := hjump
      cases hany : (ofEvents events).frames.any (·.block.isBody) with
      | true => exact hw.step_jump_inside h hany
      | false => exact hw.step_jump_outside h (labels_ofEvents hbefore) hany
    · exact hw.step_other h fun o ho => hjump ⟨o, ho⟩

/-! ### Resolving the jumps that waited -/

namespace State

variable {s : State}

/-- Jumps are resolved one after the other: those whose label `g` finds are linked to it, and the
others are told at the places `t`. -/
theorem foldl_land {f : State → String × Nat → State} {g : State → String → Option Nat}
    {t : String × Nat → Nat}
    (hf : ∀ s j, f s j = (g s j.1).elim (s.report (.undefinedLabel j.1) (t j)) (s.land j.2))
    (hland : ∀ s place id, g (s.land place id) = g s)
    (hreport : ∀ s cause place, g (s.report cause place) = g s)
    (jumps : List (String × Nat)) (s : State) :
    (jumps.foldl f s).links.toList =
        s.links.toList ++ jumps.filterMap (fun j => (g s j.1).map (j.2, ·)) ∧
      (jumps.foldl f s).findings.toList = s.findings.toList ++
        (jumps.filter fun j => (g s j.1).isNone).map fun j => ⟨.undefinedLabel j.1, t j⟩ := by
  induction jumps generalizing s with
  | nil => simp
  | cons j jumps ih =>
    obtain ⟨hlinks, hfindings⟩ := ih (f s j)
    rw [List.foldl_cons, hlinks, hfindings, hf]
    cases hg : g s j.1 with
    | none =>
      rw [Option.elim_none, hreport]
      simp [hg, report]
    | some id =>
      rw [Option.elim_some, hland]
      simp [hg, land, link, markUsed]

theorem isLabel_land (s : State) (place id : Nat) : (s.land place id).isLabel = s.isLabel := by
  funext other
  unfold isLabel land
  rw [symbol?_markUsed]
  change ((s.symbol? other).map _).any _ = _
  cases s.symbol? other with
  | none => rfl
  | some y =>
    simp only [Option.map_some, Option.any_some]
    split <;> rfl

def bodyLabel? (s : State) (name : String) : Option Nat :=
  ((s.arena.scope s.arena.current).get? name).filter s.isLabel

theorem foldl_landInBody (place : Nat) (jumps : List (String × Nat)) (s : State) :
    (jumps.foldl (landInBody place) s).links.toList =
        s.links.toList ++ jumps.filterMap (fun j => (s.bodyLabel? j.1).map (j.2, ·)) ∧
      (jumps.foldl (landInBody place) s).findings.toList = s.findings.toList ++
        (jumps.filter fun j => (s.bodyLabel? j.1).isNone).map fun j =>
          ⟨.undefinedLabel j.1, place⟩ := by
  refine foldl_land (g := bodyLabel?) (t := fun _ => place) ?_ ?_ (fun _ _ _ => rfl) jumps s
  · intro s j
    unfold landInBody bodyLabel?
    cases ((s.arena.scope s.arena.current).get? j.1).filter s.isLabel <;> rfl
  · intro s place id
    funext name
    rw [bodyLabel?, isLabel_land]
    rfl

theorem foldl_landOutside (jumps : List (String × Nat)) (s : State) :
    (jumps.foldl landOutside s).links.toList =
        s.links.toList ++ jumps.filterMap (fun j => (s.outerLabels.lookup j.1).map (j.2, ·)) ∧
      (jumps.foldl landOutside s).findings.toList = s.findings.toList ++
        (jumps.filter fun j => (s.outerLabels.lookup j.1).isNone).map fun j =>
          ⟨.undefinedLabel j.1, j.2⟩ := by
  refine foldl_land (g := fun s name => s.outerLabels.lookup name) (t := fun j => j.2) ?_
    (fun _ _ _ => rfl) (fun _ _ _ => rfl) jumps s
  intro s j
  unfold landOutside
  cases s.outerLabels.lookup j.1 <;> rfl

/-- What a closer that fits does to links and findings. -/
theorem close_told {frame : Frame} {outer : List Frame} (hframes : s.frames = frame :: outer)
    {closer : Closer} (hmem : frame.block ∈ closer.openers) (place : Nat) :
    (s.step (.close closer place)).links.toList = s.links.toList ++
        (if frame.block.isBody then frame.jumps else []).filterMap
          (fun j => (s.bodyLabel? j.1).map (j.2, ·)) ∧
      (s.step (.close closer place)).findings.toList = s.findings.toList ++
        ((if frame.block.isBody then frame.jumps else []).filter
          fun j => (s.bodyLabel? j.1).isNone).map fun j => ⟨.undefinedLabel j.1, place⟩ := by
  have hclosed : ∀ s : State, (s.closeFrame place).links = s.links ∧
      (s.closeFrame place).findings = s.findings := by
    intro s
    unfold closeFrame
    split <;> exact ⟨rfl, rfl⟩
  rw [step, close, hframes]
  dsimp only
  rw [if_pos (List.contains_iff_mem.mpr hmem), (hclosed _).1, (hclosed _).2]
  split
  · exact foldl_landInBody place frame.jumps s
  · simp

/-! ### What is told about labels -/

def undefinedAt (s : State) (place : Nat) : List Finding :=
  s.findings.toList.filter fun f => f.cause.code = "undefined-label" && f.place = place

/-- The cause is another one than an undefined label. -/
def isOther (c : Cause) : Prop := c.code ≠ "undefined-label"

theorem Reports.undefinedAt_eq {s' : State} (h : s.Reports isOther s') (place : Nat) :
    s'.undefinedAt place = s.undefinedAt place := by
  obtain ⟨fs, hfs, hother⟩ := h
  have hnone : fs.filter (fun f => f.cause.code = "undefined-label" && f.place = place) = [] := by
    rw [List.filter_eq_nil_iff]
    intro f hf hcode
    rw [Bool.and_eq_true, decide_eq_true_eq] at hcode
    exact hother f hf hcode.1
  rw [undefinedAt, hfs, List.filter_append, hnone, List.append_nil, undefinedAt]

/-- Only closers tell of undefined labels on the way. -/
theorem step_reports_other (h : s.skeleton.InStep) (he : e.closing? = none) :
    s.Reports isOther (s.step e) := by
  have hreport : ∀ (p : Prop) [Decidable p] (cause : Cause) (place : Nat), isOther cause →
      s.Keeps isOther (if p then s else s.report cause place) := by
    intro p _ cause place hcause
    split
    · exact .refl s
    · exact keeps_report s hcause place
  have hdup : ∀ name first, isOther (.duplicate name first) := by simp [isOther, Cause.code]
  have hundef : ∀ name, isOther (.undefinedName name) := by simp [isOther, Cause.code]
  cases e with
  | flaw f place => exact (keeps_report s (by simp [isOther, Cause.code]) place).reports
  | refer name write call => exact (keeps_refer s hundef name write call).reports
  | operate keyword kind name =>
    exact (keeps_operate s hundef (by simp [isOther, Cause.code]) keyword kind name).reports
  | declare name kind attributes => exact (keeps_declareIn s hdup _ _).reports
  | label name => exact (keeps_label s hdup name).reports
  | jump target => exact (keeps_jump s target).reports
  | openModule block place name =>
    have hplaced := hreport (s.frames.isEmpty = true) (.misplacedModule block) place
      (by simp [isOther, Cause.code])
    cases name with
    | none => exact hplaced.reports.trans (.of_eq rfl)
    | some o => exact (hplaced.trans (keeps_declareIn _ hdup 0 _)).reports.trans (.of_eq rfl)
  | openUnit isTask name =>
    change s.Reports isOther (s.openUnit isTask name)
    unfold openUnit
    dsimp only
    generalize (if isTask then Block.task else .procedure) = block
    have hplaced := hreport (s.atModuleLevel = true) (.nestedUnit block name.name) name.place
      (by simp [isOther, Cause.code])
    exact (hplaced.trans (keeps_declareIn _ hdup _ _)).reports.trans (.of_eq rfl)
  | parameter name kind attributes text =>
    exact ((keeps_declareIn s hdup _ _).trans (keeps_modifyUnit _ _)).reports
  | result text => exact (keeps_modifyUnit s _).reports
  | exported => exact (keeps_modifyUnit s _).reports
  | openBlock block place =>
    have hopen : s.Reports isOther (s.openFrame block place none) := .of_eq rfl
    have hbind := keeps_bindLoop (s.openFrame block place none) hdup block s.pending
    exact (hopen.trans hbind.reports).trans (.of_eq rfl)
  | loopVariable name => exact .of_eq rfl
  | otherwise place =>
    change s.Reports isOther (s.otherwise place)
    have htold := (hreport False .unmatchedElse place (by simp [isOther, Cause.code])).reports
    unfold otherwise
    split
    · rename_i frame outer hframes
      split
      · exact .of_eq (closeFrame_eq h hframes place).2.2.2.2
      · exact htold
    · exact htold
  | close closer place => cases he

theorem undefinedAt_step (h : s.skeleton.InStep) {place : Nat} (he : e.closing? ≠ some place) :
    (s.step e).undefinedAt place = s.undefinedAt place := by
  cases e with
  | close closer other =>
    have hne : other ≠ place := by simpa [Event.closing?] using he
    by_cases hmem : ∀ frame ∈ s.frames.head?, frame.block ∉ closer.openers
    · have hcause : ∀ block, isOther (.unexpectedCloser closer block) := by
        simp [isOther, Cause.code]
      rw [step, close_of_not_mem hmem]
      exact (keeps_report s (hcause _) other).reports.undefinedAt_eq place
    · cases hframes : s.frames with
      | nil => simp [hframes] at hmem
      | cons frame outer =>
        have hblock : frame.block ∈ closer.openers := by simpa [hframes] using hmem
        rw [undefinedAt, (close_told hframes hblock other).2, List.filter_append, undefinedAt,
          List.append_right_eq_self, List.filter_eq_nil_iff]
        intro f hf
        obtain ⟨j, -, rfl⟩ := List.mem_map.mp hf
        simp [hne]
  | _ => exact (step_reports_other h rfl).undefinedAt_eq place

/-- What is told about labels at the end of a program. -/
theorem undefinedAt_finish (s : State) (unused : Bool) (place : Nat) :
    (s.finish unused).undefinedAt place = s.undefinedAt place ++
      (s.jumps.filter fun j => (s.outerLabels.lookup j.1).isNone && j.2 = place).map fun j =>
        ⟨.undefinedLabel j.1, j.2⟩ := by
  have hlanded : (s.jumps.foldl landOutside s).undefinedAt place = s.undefinedAt place ++
      (s.jumps.filter fun j => (s.outerLabels.lookup j.1).isNone && j.2 = place).map fun j =>
        ⟨.undefinedLabel j.1, j.2⟩ := by
    rw [undefinedAt, (foldl_landOutside s.jumps s).2, List.filter_append, undefinedAt,
      List.filter_map, List.filter_filter]
    congr 2
    apply List.filter_congr
    intro j _
    simp [Cause.code, Bool.and_comm]
  have hunclosed : ∀ s : State, s.Reports isOther (s.frames.foldl reportUnclosed s) := by
    intro s
    have hone : ∀ (s : State) (frame : Frame), s.Keeps isOther (s.reportUnclosed frame) :=
      fun s frame => keeps_report s (by simp [isOther, Cause.code]) frame.openedAt
    exact (keeps_foldl hone s.frames s).reports
  have hsweep : ∀ s : State, s.Reports isOther s.sweep := by
    intro s
    refine ⟨_, findings_sweep s, ?_⟩
    intro f hf
    obtain ⟨id, -, hid⟩ := List.mem_filterMap.mp hf
    obtain ⟨y, -, rfl⟩ := Option.map_eq_some_iff.mp hid
    simp [isOther, unusedFinding, Cause.code]
  rw [← hlanded, ← (hunclosed (s.jumps.foldl landOutside s)).undefinedAt_eq place]
  unfold finish
  dsimp only
  split
  · exact (hsweep _).undefinedAt_eq place
  · rfl

end State

theorem undefinedAt_append (more : List Event) {place : Nat}
    (hmore : ∀ e ∈ more, e.closing? ≠ some place) :
    (ofEvents (events ++ more)).undefinedAt place = (ofEvents events).undefinedAt place := by
  induction more using List.reverseRecOn with
  | nil => rw [List.append_nil]
  | append_singleton more e ih =>
    obtain ⟨made, used, h⟩ := exists_history (events ++ more)
    rw [← List.append_assoc, ofEvents_concat, State.undefinedAt_step h.inStep (hmore e (by simp)),
      ih fun e he => hmore e (List.mem_append_left _ he)]

/-- Where no block is closed, nothing is told about labels on the way. -/
theorem undefinedAt_eq_nil {place : Nat} (h : ∀ e ∈ events, e.closing? ≠ some place) :
    (ofEvents events).undefinedAt place = [] :=
  (@undefinedAt_append [] events place h).trans rfl

/-! ### Jumps that are never resolved -/

theorem count_le_one (hplaces : ((Event.occurrences events).map (·.place)).Nodup) {o : Occurrence}
    (ho : e.occurrence? = some o) : events.count e ≤ 1 := by
  by_contra hmany
  have htwice : (List.replicate 2 e).Sublist events :=
    List.replicate_sublist_iff.mpr (by omega)
  have hplace := (htwice.filterMap Event.occurrence?).map (·.place)
  simp only [List.replicate, List.filterMap_cons_some ho, List.filterMap_nil] at hplace
  simpa using hplaces.sublist hplace

section Unlinked

variable {made : List Creation} {used : List Use} {o : Occurrence}

theorem History.jump_mem (h : History events made used)
    (hout : .jump o ∈ (ofEvents events).books.outstanding) : .jump o ∈ events :=
  h.account.subset (List.mem_append_left _ hout)

/-- The target of a jump that waits is not linked. -/
theorem History.unlinked_of_outstanding (h : History events made used)
    (hplaces : ((Event.occurrences events).map (·.place)).Nodup)
    (hout : .jump o ∈ (ofEvents events).books.outstanding) (id : Nat) :
    (o.place, id) ∉ (ofEvents events).links.toList := by
  intro hlink
  have hjump := h.jump_mem hout
  obtain ⟨c, hc, hplace⟩ | ⟨u, hu, hplace, rfl⟩ := h.link_cases hlink
  · have hmem := List.mem_of_getElem? hc
    obtain ⟨hdeclares, hname⟩ := h.named c hmem
    rw [Event.eq_of_place hplaces (h.mem_events hmem) hjump hname rfl hplace.symm] at hdeclares
    cases hdeclares
  · obtain ⟨c, -, ho, -⟩ := h.justified u hu
    have hmem : u.event ∈ events :=
      h.account.subset (List.mem_append_right _ (List.mem_append_right _ (List.mem_map_of_mem hu)))
    have hevent := Event.eq_of_place hplaces hmem hjump ho rfl hplace.symm
    -- the event would be accounted for twice
    have hcount := h.account.count_le (.jump o)
    have hone := count_le_one hplaces (e := .jump o) rfl
    have hfirst := List.count_pos_iff.mpr hout
    have hused : .jump o ∈ used.map (·.event) := List.mem_map.mpr ⟨u, hu, hevent⟩
    have hsecond := List.count_pos_iff.mpr hused
    simp only [List.count_append] at hcount
    omega

/-- A jump that does not wait and is not linked never will be. -/
theorem unlinked_append (more : List Event)
    (hplaces : ((Event.occurrences (events ++ more)).map (·.place)).Nodup)
    (hjump : .jump o ∈ events) (hout : .jump o ∉ (ofEvents events).books.outstanding)
    (hfree : ∀ id, (o.place, id) ∉ (ofEvents events).links.toList) :
    .jump o ∉ (ofEvents (events ++ more)).books.outstanding ∧
      ∀ id, (o.place, id) ∉ (ofEvents (events ++ more)).links.toList := by
  induction more using List.reverseRecOn with
  | nil =>
    rw [List.append_nil]
    exact ⟨hout, hfree⟩
  | append_singleton more e ih =>
    rw [← List.append_assoc] at hplaces ⊢
    obtain ⟨hout', hfree'⟩ := ih (by
      rw [Event.occurrences_append, List.map_append] at hplaces
      exact (List.nodup_append.mp hplaces).1)
    obtain ⟨made, used, h⟩ := exists_history (events ++ more)
    obtain ⟨new, uses, he⟩ := State.step_effect h.inStep e
    have hmem : .jump o ∈ events ++ more := List.mem_append_left _ hjump
    have hne : Event.jump o ≠ e := by
      rintro rfl
      have hone := count_le_one hplaces (e := .jump o) rfl
      have hpos := List.count_pos_iff.mpr hmem
      rw [List.count_append, List.count_singleton_self] at hone
      omega
    have hnone : .jump o ∉ (ofEvents (events ++ more)).books.outstanding ++ [e] := by
      simpa [hne] using hout'
    have haccount := mt (fun hin => he.account.subset hin) hnone
    simp only [List.mem_append, not_or] at haccount
    -- whatever is linked now has another place
    have hother : ∀ {e' : Event} {o' : Occurrence},
        e' ∈ (ofEvents (events ++ more)).books.outstanding ++ [e] → e'.occurrence? = some o' →
        o'.place ≠ o.place := by
      intro e' o' he' ho' hplace
      have hin : e' ∈ events ++ more ++ [e] := by
        rcases List.mem_append.mp he' with hwait | hlast
        · exact List.mem_append_left _ (h.account.subset (List.mem_append_left _ hwait))
        · exact List.mem_append_right _ hlast
      have heq := Event.eq_of_place hplaces hin (List.mem_append_left _ hmem) ho' rfl hplace
      exact hnone (heq ▸ he')
    rw [ofEvents_concat]
    refine ⟨haccount.1, ?_⟩
    intro id hlink
    rw [he.links, List.mem_append, List.mem_append] at hlink
    rcases hlink with (hold | hnew) | huse
    · exact hfree' id hold
    · obtain ⟨c, hc, heq⟩ := List.mem_map.mp hnew
      have hin : c.event ∈ (ofEvents (events ++ more)).books.outstanding ++ [e] :=
        he.account.subset (by simp [List.mem_map_of_mem (f := Creation.event) hc])
      exact hother hin (he.creates c (Option.mem_toList.mp hc)).name (congrArg Prod.fst heq)
    · obtain ⟨u, hu, heq⟩ := List.mem_map.mp huse
      have hin : u.event ∈ (ofEvents (events ++ more)).books.outstanding ++ [e] :=
        he.account.subset (by simp [List.mem_map_of_mem (f := Use.event) hu])
      obtain ⟨name, hname⟩ : ∃ name, u.event.occurrence? = some ⟨name, u.place⟩ := by
        cases he.resolves u hu with
        | @refer name hevent _ ho _ => exact ⟨name, hevent ▸ ho⟩
        | @jump name hevent _ => exact ⟨name, by rw [hevent]; rfl⟩
      exact hother hin hname (congrArg Prod.fst heq)

end Unlinked

end Pearl.Resolution
