import Pearl.Proofs.JumpTargets

namespace Pearl.Resolution

variable {events before after : List Event} {e : Event}

/-! ### Places of names and of closers -/

/-- The events tell names and ends of blocks at places that are all different, and they declare
labels as labels only. -/
structure Placed (events : List Event) : Prop where
  labels : ∀ e ∈ events, e.declaresLabel = false
  names : ((Event.occurrences events).map (·.place)).Nodup
  closers : (events.filterMap Event.closing?).Nodup
  apart : ∀ o ∈ Event.occurrences events, o.place ∉ events.filterMap Event.closing?

theorem placed_ofWords {words : List Word} (hwords : Word.InOrder words) :
    Placed (Event.ofWords words) := by
  have hreads : Event.Reads True words (Event.ofWords words) [] :=
    Event.eventsAfter_reads none true words
  have hplaces : (words.map (·.place)).Nodup := (List.pairwise_map.mpr hwords).imp Nat.ne_of_lt
  have hclosers := Event.eventsAfter_closings none true words
  refine ⟨fun e => Event.declaresLabel_of_mem, hreads.nodup hwords, ?_, ?_⟩
  · exact hplaces.sublist (hclosers.trans (List.filter_sublist.map _))
  · intro o ho hplace
    obtain ⟨w, hw, hname, rfl⟩ := Event.exists_word_of_mem hreads ho
    obtain ⟨w', hw', hsame⟩ := List.mem_map.mp (hclosers.subset hplace)
    obtain ⟨hw', hkeyword⟩ := List.mem_filter.mp hw'
    -- words at one place are the same, and none is a name and a keyword
    rw [List.inj_on_of_nodup_map hplaces hw' hw hsame, decide_eq_true_eq,
      of_decide_eq_true hname] at hkeyword
    cases hkeyword

theorem Placed.left (h : Placed (before ++ after)) : Placed before := by
  obtain ⟨hlabels, hnames, hclosers, hapart⟩ := h
  rw [Event.occurrences_append, List.map_append] at hnames
  rw [List.filterMap_append] at hclosers
  refine ⟨fun e he => hlabels e (List.mem_append_left _ he), (List.nodup_append.mp hnames).1,
    (List.nodup_append.mp hclosers).1, ?_⟩
  intro o ho hplace
  refine hapart o ?_ ?_
  · rw [Event.occurrences_append]
    exact List.mem_append_left _ ho
  · rw [List.filterMap_append]
    exact List.mem_append_left _ hplace

/-! ### Before and after the end of a procedure or task -/

theorem at_append_cons {P : State → Prop} {c : Event} :
    At (before ++ c :: after) e P ↔ At before e P ∨ e = c ∧ P (ofEvents before) ∨
      ∃ front back, after = front ++ e :: back ∧ P (ofEvents (before ++ c :: front)) := by
  constructor
  · rintro ⟨front, back, hsplit, hP⟩
    rcases List.append_eq_append_iff.mp hsplit with ⟨ws, rfl, hws⟩ | ⟨ws, rfl, hws⟩
    · cases ws with
      | nil =>
        cases hws
        rw [List.append_nil] at hP
        exact Or.inr (Or.inl ⟨rfl, hP⟩)
      | cons _ ws =>
        cases hws
        exact Or.inr (Or.inr ⟨ws, back, rfl, hP⟩)
    · cases ws with
      | nil =>
        cases hws
        exact Or.inr (Or.inl ⟨rfl, by rwa [List.append_nil]⟩)
      | cons _ ws =>
        cases hws
        exact Or.inl ⟨front, ws, rfl, hP⟩
  · rintro (h | ⟨rfl, hP⟩ | ⟨front, back, rfl, hP⟩)
    · exact h.append _
    · exact ⟨before, after, rfl, hP⟩
    · exact ⟨before ++ c :: front, back, by simp, hP⟩

theorem Skeleton.Moves.not_mem_stack {k k' : Skeleton} {opened closed i : Nat}
    (h : k.Moves opened closed k') (hi : i < k.keywords.length) (hstack : i ∉ k.stack) :
    i ∉ k'.stack := by
  have htail : i ∉ k.stack.tail := fun hmem => hstack (List.mem_of_mem_tail hmem)
  have hfresh : i ≠ k.keywords.length := Nat.ne_of_lt hi
  cases h with
  | stay => exact hstack
  | push b => exact List.not_mem_cons_of_ne_of_not_mem hfresh hstack
  | pop hne => exact htail
  | turn hne b => exact List.not_mem_cons_of_ne_of_not_mem hfresh htail

/-- A scope that has been closed is not opened again. -/
theorem not_mem_stack_append {i : Nat} (hi : i < (ofEvents events).arena.scopes.size)
    (hclosed : i ∉ (ofEvents events).arena.stack) (more : List Event) :
    i ∉ (ofEvents (events ++ more)).arena.stack := by
  induction more using List.reverseRecOn with
  | nil => rwa [List.append_nil]
  | append_singleton more e ih =>
    obtain ⟨made, used, h⟩ := exists_history (events ++ more)
    have hlt : i < (ofEvents (events ++ more)).skeleton.keywords.length := by
      have hle := (keywords_extend events more).length_le
      simp only [State.skeleton, List.length_map, Array.length_toList] at hle ⊢
      omega
    rw [← List.append_assoc, ofEvents_concat]
    exact (State.step_moves h.inStep e).1.not_mem_stack hlt ih

namespace State

variable {s : State}

/-- Where the innermost scope is that of a procedure or task, so is the innermost block. -/
theorem exists_body_frame (hnodup : s.arena.stack.Nodup) {body : Nat}
    (hbody : s.bodyScope? = some body) (hcurrent : s.arena.current = body) :
    ∃ frame outer, s.frames = frame :: outer ∧ frame.block.isBody = true ∧
      (frame, body) ∈ s.frames.zip s.arena.stack := by
  obtain ⟨frame, hframe, hmem⟩ := mem_zip_of_bodyScope? hbody
  cases hframes : s.frames with
  | nil => simp [hframes] at hmem
  | cons first outer =>
    cases hstack : s.arena.stack with
    | nil => simp [hstack] at hmem
    | cons i rest =>
      have hi : i = body := by
        rw [Arena.current, hstack] at hcurrent
        exact hcurrent
      rw [hframes, hstack, List.zip_cons_cons] at hmem
      rcases List.mem_cons.mp hmem with heq | hlater
      · cases heq
        exact ⟨frame, outer, rfl, hframe, List.mem_cons_self⟩
      · rw [hstack, List.nodup_cons, hi] at hnodup
        exact absurd (List.of_mem_zip hlater).2 hnodup.1

end State

theorem mem_openers_of_isBody {block : Block} (h : block.isBody = true) :
    block ∈ Closer.blockEnd.openers := by
  cases block with
  | procedure | task => decide
  | _ => cases h

/-- The moment at which the closer at `place` ends the procedure or task with the scope `body`. -/
structure BodyEnd (events before after : List Event) (body place : Nat) : Prop where
  split : events = before ++ .close .blockEnd place :: after
  inner : (ofEvents before).bodyScope? = some body
  current : (ofEvents before).arena.current = body

namespace BodyEnd

variable {body place : Nat} {P : State → Prop}

/-- The block that ends, and the jumps that have waited for that. -/
theorem exists_frame (h : BodyEnd events before after body place) :
    ∃ frame outer, (ofEvents before).frames = frame :: outer ∧ frame.block.isBody = true ∧
      (frame, body) ∈ (ofEvents before).frames.zip (ofEvents before).arena.stack :=
  State.exists_body_frame (nodup_stack before) h.inner h.current

theorem lt_scopes (h : BodyEnd events before after body place) :
    body < (ofEvents before).arena.scopes.size := by
  obtain ⟨made, used, hbefore⟩ := exists_history before
  exact State.lt_of_mem_stack hbefore.inStep (State.bodyScope?_mem h.inner)

/-- Afterwards the scope is closed for good. -/
theorem not_mem_stack (h : BodyEnd events before after body place) (more : List Event) :
    body ∉ (ofEvents (before ++ .close .blockEnd place :: more)).arena.stack := by
  obtain ⟨made, used, hbefore⟩ := exists_history before
  obtain ⟨frame, outer, hframes, hframe, -⟩ := h.exists_frame
  have hskeleton := (State.close_of_mem hbefore.inStep hframes (mem_openers_of_isBody hframe)
    place).1
  have hstack : (ofEvents (before ++ [.close .blockEnd place])).arena.stack =
      (ofEvents before).arena.stack.tail := by
    rw [ofEvents_concat]
    exact congrArg Skeleton.stack hskeleton
  have hsize : body < (ofEvents (before ++ [.close .blockEnd place])).arena.scopes.size := by
    have hle := (keywords_extend before [.close .blockEnd place]).length_le
    simp only [State.skeleton, List.length_map, Array.length_toList] at hle
    exact Nat.lt_of_lt_of_le h.lt_scopes hle
  rw [← List.singleton_append, ← List.append_assoc]
  refine not_mem_stack_append hsize ?_ more
  have hnodup := nodup_stack before
  have hcurrent := h.current
  rw [hstack]
  cases hs : (ofEvents before).arena.stack with
  | nil => simp
  | cons i rest =>
    rw [hs, List.nodup_cons] at hnodup
    rw [Arena.current, hs, List.headD_cons] at hcurrent
    exact hcurrent ▸ hnodup.1

/-- What happens inside the procedure or task happens before its end. -/
theorem at_iff (h : BodyEnd events before after body place) (he : e ≠ .close .blockEnd place)
    (hP : ∀ s, P s → s.bodyScope? = some body) : At events e P ↔ At before e P := by
  rw [h.split, at_append_cons]
  refine or_iff_left ?_
  rintro (⟨heq, -⟩ | ⟨front, back, -, hlate⟩)
  · exact he heq
  · exact h.not_mem_stack front (State.bodyScope?_mem (hP _ hlate))

end BodyEnd

/-! ### What stays as it is -/

/-- Links stay, and so do labels in their scopes. -/
structure State.Preserves (s s' : State) : Prop where
  links : ∀ x ∈ s.links.toList, x ∈ s'.links.toList
  denotes : ∀ id l, s.Denotes id l → s'.Denotes id l
  entry : ∀ i id l, (s.arena.scope i).get? l.name = some id → s.Denotes id l →
    (s'.arena.scope i).get? l.name = some id

theorem State.Preserves.trans {s s' s'' : State} (h : s.Preserves s') (h' : s'.Preserves s'') :
    s.Preserves s'' :=
  ⟨fun x hx => h'.links x (h.links x hx), fun id l hd => h'.denotes id l (h.denotes id l hd),
    fun i id l hid hd => h'.entry i id l (h.entry i id l hid hd) (h.denotes id l hd)⟩

theorem preserves_append (events more : List Event) :
    (ofEvents events).Preserves (ofEvents (events ++ more)) := by
  induction more using List.reverseRecOn with
  | nil =>
    rw [List.append_nil]
    exact ⟨fun _ hx => hx, fun _ _ hd => hd, fun _ _ _ hid _ => hid⟩
  | append_singleton more e ih =>
    obtain ⟨made, used, h⟩ := exists_history (events ++ more)
    obtain ⟨new, uses, he⟩ := State.step_effect h.inStep e
    rw [← List.append_assoc, ofEvents_concat]
    refine ih.trans ⟨?_, fun _ _ => he.denotes, fun _ _ _ => he.entry_label⟩
    intro x hx
    rw [he.links, List.append_assoc]
    exact List.mem_append_left _ hx

theorem State.links_finish (s : State) (unused : Bool) :
    (s.finish unused).links.toList = s.links.toList ++
      s.jumps.filterMap fun j => (s.outerLabels.lookup j.1).map (j.2, ·) := by
  rw [← (foldl_landOutside s.jumps s).1, (s.grows_finish unused).links]
  simp

theorem State.preserves_finish (s : State) (unused : Bool) : s.Preserves (s.finish unused) := by
  obtain ⟨uses, hgrows, -, -⟩ := State.grows_foldl_landOutside s.jumps s
  have hfinish := hgrows.trans_quiet (s.grows_finish unused)
  refine ⟨?_, fun _ _ => hfinish.denotes, ?_⟩
  · intro x hx
    rw [links_finish]
    exact List.mem_append_left _ hx
  · intro i id l hid _
    rw [hfinish.others i l.name (by simp), hid]

/-! ### Jumps and labels -/

/-- The jump stands in the procedure or task with the scope, which is the innermost one around it,
or outside of all of them. -/
def JumpIn (events : List Event) (body : Option Nat) (o : Occurrence) : Prop :=
  At events (.jump o) (·.bodyScope? = body)

/-- The label has been accepted, in the procedure or task with the scope, which is the innermost one
around it, or outside of all of them. -/
def LabelIn (events : List Event) (body : Option Nat) (l : Occurrence) : Prop :=
  At events (.label l) fun s => s.bodyScope? = body ∧ s.Accepts l

/-- Jumps at one place are the same. -/
theorem Placed.jump_eq (hp : Placed events) {j j' : String × Nat}
    (hj : Books.jumpTo j ∈ events) (hj' : Books.jumpTo j' ∈ events) (hplace : j.2 = j'.2) :
    j = j' :=
  Books.jumpTo_injective (Event.eq_of_place hp.names hj hj' rfl rfl hplace)

/-- A jump stands in one procedure or task, or outside of all of them. -/
theorem Placed.jumpIn_unique (hp : Placed events) {body body' : Option Nat} {o : Occurrence}
    (h : JumpIn events body o) (h' : JumpIn events body' o) : body = body' := by
  obtain ⟨before, after, rfl, hbody⟩ := h
  have hone := count_le_one hp.names (e := .jump o) rfl
  rw [List.count_append, List.count_cons_self] at hone
  rcases at_append_cons.mp h' with hearly | ⟨-, hbody'⟩ | ⟨front, back, rfl, -⟩
  · have hpos := List.count_pos_iff.mpr hearly.mem
    omega
  · exact hbody.symm.trans hbody'
  · rw [List.count_append, List.count_cons_self] at hone
    omega

/-- Jumps that wait are all different. -/
theorem Placed.nodup_jumps (hp : Placed events) {jumps : List (String × Nat)}
    (hjumps : (jumps.map Books.jumpTo).Subperm (ofEvents events).books.outstanding) :
    jumps.Nodup := by
  obtain ⟨made, used, h⟩ := exists_history events
  rw [List.nodup_iff_count_le_one]
  intro j
  calc jumps.count j ≤ (jumps.map Books.jumpTo).count (Books.jumpTo j) :=
        List.count_le_count_map
    _ ≤ (ofEvents events).books.outstanding.count (Books.jumpTo j) := hjumps.count_le _
    _ ≤ events.count (Books.jumpTo j) :=
        ((List.sublist_append_left _ _).subperm.trans h.account).count_le _
    _ ≤ 1 := count_le_one hp.names rfl

namespace BodyEnd

variable {body place : Nat}

theorem isBody (h : BodyEnd events before after body place) :
    (ofEvents before).skeleton.IsBody body := by
  obtain ⟨made, used, hbefore⟩ := exists_history before
  exact State.isBody_of_bodyScope? hbefore.inStep h.inner

theorem labelIn_iff (h : BodyEnd events before after body place) {l : Occurrence} :
    LabelIn events (some body) l ↔ LabelIn before (some body) l :=
  h.at_iff nofun fun _ hs => hs.1

theorem jumpIn_iff (h : BodyEnd events before after body place) {o : Occurrence} :
    JumpIn events (some body) o ↔ JumpIn before (some body) o :=
  h.at_iff nofun fun _ hs => hs

/-- A label that has been accepted in the procedure or task is found at its end. -/
theorem bodyLabel?_of_labelIn (h : BodyEnd events before after body place) (hp : Placed before)
    {l : Occurrence} (hl : LabelIn before (some body) l) :
    ∃ id, (ofEvents before).bodyLabel? l.name = some id ∧
      ((ofEvents before).arena.scope body).get? l.name = some id ∧
      (ofEvents before).Denotes id l := by
  have hat : At before (.label l) fun s => s.labelScope = body ∧ s.Accepts l := by
    refine At.imp hl fun s hs => ⟨?_, hs.2⟩
    rw [State.labelScope, hs.1]
    rfl
  obtain ⟨id, hid, hd⟩ := exists_entry_of_accepted hp.labels hat
  refine ⟨id, ?_, hid, hd⟩
  obtain ⟨y, hy, hbecomes⟩ := hd
  rw [State.bodyLabel?, h.current, hid, Option.filter_some,
    if_pos (State.isLabel_iff.mpr ⟨y, hy, hbecomes.kind⟩)]

theorem exists_labelIn (h : BodyEnd events before after body place) (hp : Placed before)
    {name : String} {id : Nat} (hid : (ofEvents before).bodyLabel? name = some id) :
    ∃ l, l.name = name ∧ LabelIn before (some body) l := by
  rw [State.bodyLabel?, h.current] at hid
  obtain ⟨hentry, hlabel⟩ := Option.filter_eq_some_iff.mp hid
  obtain ⟨y, hy, hkind⟩ := State.isLabel_iff.mp hlabel
  obtain ⟨l, hname, -, hat⟩ := (labels_ofEvents hp.labels).held body name id y hentry hy hkind
  exact ⟨l, hname, (at_of_labelScope hat).1 h.isBody⟩

theorem bodyLabel?_eq_none_iff (h : BodyEnd events before after body place) (hp : Placed before)
    {name : String} :
    (ofEvents before).bodyLabel? name = none ↔
      ∀ l, LabelIn before (some body) l → l.name ≠ name := by
  constructor
  · rintro hnone l hl rfl
    obtain ⟨id, hid, -⟩ := h.bodyLabel?_of_labelIn hp hl
    rw [hnone] at hid
    cases hid
  · intro hno
    rw [Option.eq_none_iff_forall_ne_some]
    intro id hid
    obtain ⟨l, hname, hl⟩ := h.exists_labelIn hp hid
    exact hno l hl hname

/-- What the end does: the jumps of the procedure or task are linked to its labels, or told. -/
theorem exists_jumps (h : BodyEnd events before after body place) (hp : Placed before) :
    ∃ jumps : List (String × Nat),
      (∀ o : Occurrence, (o.name, o.place) ∈ jumps ↔ JumpIn before (some body) o) ∧
      ((ofEvents (before ++ [.close .blockEnd place])).books.outstanding ++
        jumps.map Books.jumpTo).Perm (ofEvents before).books.outstanding ∧
      (ofEvents (before ++ [.close .blockEnd place])).links.toList =
        (ofEvents before).links.toList ++
          jumps.filterMap (fun j => ((ofEvents before).bodyLabel? j.1).map (j.2, ·)) ∧
      (ofEvents (before ++ [.close .blockEnd place])).findings.toList =
        (ofEvents before).findings.toList ++
          (jumps.filter fun j => ((ofEvents before).bodyLabel? j.1).isNone).map fun j =>
            ⟨.undefinedLabel j.1, place⟩ := by
  obtain ⟨made, used, hbefore⟩ := exists_history before
  obtain ⟨frame, outer, hframes, hframe, hmem⟩ := h.exists_frame
  have hblock := mem_openers_of_isBody hframe
  have htold := State.close_told hframes hblock place
  rw [if_pos hframe] at htold
  have hbooks := State.books_close (ofEvents before) .blockEnd place
  rw [State.endsIn_eq_true hframes hblock, if_pos rfl] at hbooks
  have hpop : (ofEvents before).books.pop.frames = outer := by
    rw [← State.books_closeFrame (ofEvents before) place]
    exact (State.closeFrame_eq hbefore.inStep hframes place).1
  rw [ofEvents_concat]
  refine ⟨frame.jumps, ?_, ?_, htold⟩
  · intro o
    exact (waiting_ofEvents hp.labels).inner frame body hmem hframe (o.name, o.place)
  · have hout : ((ofEvents before).step (.close .blockEnd place)).books.outstanding =
        (ofEvents before).books.pop.outstanding := by
      rw [State.step, hbooks]
      rfl
    rw [hout]
    exact Books.outstanding_pop_perm (b := (ofEvents before).books) hframes hpop

theorem placed_left (h : BodyEnd events before after body place) (hp : Placed events) :
    Placed before := by
  rw [h.split] at hp
  exact hp.left

/-- The run up to the end, and the events after it. -/
theorem split_concat (h : BodyEnd events before after body place) :
    events = (before ++ [.close .blockEnd place]) ++ after := by
  rw [h.split, List.append_assoc]
  rfl

/-- A jump whose label has been accepted is linked to it. -/
theorem linked (h : BodyEnd events before after body place) (hp : Placed events)
    {o l : Occurrence} (ho : JumpIn events (some body) o) (hl : LabelIn events (some body) l)
    (hname : l.name = o.name) :
    ∃ id, ((ofEvents events).arena.scope body).get? o.name = some id ∧
      (ofEvents events).Denotes id l ∧ (o.place, id) ∈ (ofEvents events).links.toList := by
  have hleft := h.placed_left hp
  obtain ⟨jumps, hjumps, -, hlinks, -⟩ := h.exists_jumps hleft
  obtain ⟨id, hid, hentry, hd⟩ := h.bodyLabel?_of_labelIn hleft (h.labelIn_iff.mp hl)
  have hearly := preserves_append before (.close .blockEnd place :: after)
  have hlate := preserves_append (before ++ [.close .blockEnd place]) after
  rw [← h.split_concat] at hlate
  rw [← h.split] at hearly
  refine ⟨id, hname ▸ hearly.entry body id l hentry hd, hearly.denotes id l hd, ?_⟩
  apply hlate.links
  rw [hlinks]
  refine List.mem_append_right _ (List.mem_filterMap.mpr ⟨(o.name, o.place), ?_, ?_⟩)
  · exact (hjumps o).mpr (h.jumpIn_iff.mp ho)
  · rw [← hname, hid]
    rfl

/-- A jump without a label is never linked. -/
theorem unlinked (h : BodyEnd events before after body place) (hp : Placed events)
    {o : Occurrence} (ho : JumpIn events (some body) o)
    (hno : ∀ l, LabelIn events (some body) l → l.name ≠ o.name) (id : Nat) :
    (o.place, id) ∉ (ofEvents events).links.toList := by
  have hleft := h.placed_left hp
  obtain ⟨made, used, hbefore⟩ := exists_history before
  obtain ⟨jumps, hjumps, hperm, hlinks, -⟩ := h.exists_jumps hleft
  have hjump := h.jumpIn_iff.mp ho
  have hwaits : Books.jumpTo (o.name, o.place) ∈ jumps.map Books.jumpTo :=
    List.mem_map_of_mem ((hjumps o).mpr hjump)
  have hout : .jump o ∈ (ofEvents before).books.outstanding :=
    hperm.subset (List.mem_append_right _ hwaits)
  have hnone : (ofEvents before).bodyLabel? o.name = none :=
    (h.bodyLabel?_eq_none_iff hleft).mpr fun l hl => hno l (h.labelIn_iff.mpr hl)
  rw [h.split_concat] at hp ⊢
  refine (unlinked_append after hp.names (List.mem_append_left _ hjump.mem) ?_ ?_).2 id
  · -- it waited once, and the end took it
    intro hstill
    have hcount := hperm.count_eq (.jump o)
    have hall := ((List.sublist_append_left _ _).subperm.trans hbefore.account).count_le (.jump o)
    have hone := count_le_one hleft.names (e := .jump o) rfl
    have hfirst := List.count_pos_iff.mpr hstill
    have hsecond : 0 < (jumps.map Books.jumpTo).count (.jump o) := List.count_pos_iff.mpr hwaits
    rw [List.count_append] at hcount
    omega
  · intro id hlink
    rw [hlinks] at hlink
    rcases List.mem_append.mp hlink with hold | hnow
    · exact hbefore.unlinked_of_outstanding hleft.names hout id hold
    · obtain ⟨j, hj, hfound⟩ := List.mem_filterMap.mp hnow
      obtain ⟨id', hid', hpair⟩ := Option.map_eq_some_iff.mp hfound
      have hmem : Books.jumpTo j ∈ before := ((hjumps ⟨j.1, j.2⟩).mp hj).mem
      have hmine : Books.jumpTo (o.name, o.place) ∈ before := hjump.mem
      rw [hleft.jump_eq hmem hmine (congrArg Prod.fst hpair), hnone] at hid'
      cases hid'

/-- At the end the jumps without a label are told, each of them once. -/
theorem told (h : BodyEnd events before after body place) (hp : Placed events) :
    ∃ unresolved : List Occurrence, unresolved.Nodup ∧
      (∀ o, o ∈ unresolved ↔ JumpIn events (some body) o ∧
        ∀ l, LabelIn events (some body) l → l.name ≠ o.name) ∧
      (ofEvents events).undefinedAt place =
        unresolved.map fun o => ⟨.undefinedLabel o.name, place⟩ := by
  have hleft := h.placed_left hp
  obtain ⟨jumps, hjumps, hperm, -, hfindings⟩ := h.exists_jumps hleft
  have hnodup := hleft.nodup_jumps ((List.sublist_append_right _ _).subperm.trans hperm.subperm)
  let unresolved : List Occurrence :=
    (jumps.filter fun j => ((ofEvents before).bodyLabel? j.1).isNone).map fun j => ⟨j.1, j.2⟩
  refine ⟨unresolved, ?_, ?_, ?_⟩
  · refine List.Nodup.map ?_ (hnodup.filter _)
    rintro ⟨name, place⟩ ⟨name', place'⟩ heq
    cases heq
    rfl
  · intro o
    have hmem : o ∈ unresolved ↔ (o.name, o.place) ∈ jumps ∧
        (ofEvents before).bodyLabel? o.name = none := by
      simp only [unresolved, List.mem_map, List.mem_filter, Option.isNone_iff_eq_none]
      constructor
      · rintro ⟨j, hj, rfl⟩
        exact hj
      · intro hj
        exact ⟨_, hj, rfl⟩
    rw [hmem, hjumps, h.bodyLabel?_eq_none_iff hleft, h.jumpIn_iff]
    simp only [h.labelIn_iff]
  · -- no other event tells of labels at this place
    have hcloser : (Event.close .blockEnd place).closing? = some place := rfl
    have hclosers := hp.closers
    rw [h.split, List.filterMap_append, List.filterMap_cons_some hcloser,
      List.nodup_append] at hclosers
    have hother : ∀ {e : Event} {part : List Event}, e ∈ part →
        place ∉ part.filterMap Event.closing? → e.closing? ≠ some place := by
      intro e part he hpart hplace
      exact hpart (List.mem_filterMap.mpr ⟨e, he, hplace⟩)
    have hbefore : (ofEvents before).undefinedAt place = [] := by
      refine undefinedAt_eq_nil fun e he => hother he ?_
      intro hmem
      exact hclosers.2.2 place hmem place List.mem_cons_self rfl
    have hafter : ∀ e ∈ after, e.closing? ≠ some place :=
      fun e he => hother he (List.nodup_cons.mp hclosers.2.1).1
    rw [h.split_concat, undefinedAt_append after hafter, State.undefinedAt, hfindings,
      List.filter_append]
    rw [State.undefinedAt] at hbefore
    rw [hbefore, List.nil_append, List.filter_eq_self.mpr, List.map_map]
    · rfl
    · intro f hf
      obtain ⟨j, -, rfl⟩ := List.mem_map.mp hf
      simp [Cause.code]

end BodyEnd

/-! ### Jumps outside of procedures and tasks -/

section Outside

variable {o : Occurrence}

theorem Placed.closing?_ne (hp : Placed events) (ho : .jump o ∈ events) :
    ∀ e ∈ events, e.closing? ≠ some o.place := by
  intro e he hplace
  refine hp.apart o (List.mem_filterMap.mpr ⟨_, ho, rfl⟩) ?_
  exact List.mem_filterMap.mpr ⟨e, he, hplace⟩

/-- What is looked at last tells of no labels at the end of a block. -/
theorem BodyEnd.undefinedAt_finish {body place : Nat}
    (h : BodyEnd events before after body place) (hp : Placed events) (unused : Bool) :
    ((ofEvents events).finish unused).undefinedAt place = (ofEvents events).undefinedAt place := by
  have hclose : .close .blockEnd place ∈ events := by simp [h.split]
  rw [State.undefinedAt_finish, List.append_right_eq_self, List.map_eq_nil_iff,
    List.filter_eq_nil_iff]
  intro j hj hplace
  have hjump := ((waiting_ofEvents hp.labels).left j hj).mem
  refine hp.closing?_ne (o := ⟨j.1, j.2⟩) hjump _ hclose ?_
  have heq : j.2 = place := of_decide_eq_true (Bool.and_eq_true_iff.mp hplace).2
  rw [heq]
  rfl

/-- Of the jumps that wait at the end, one at most has its target at a place. -/
theorem filter_jumps (hp : Placed events) (ho : .jump o ∈ events) (p : String → Bool) :
    ((ofEvents events).jumps.filter fun j => p j.1 && j.2 = o.place) =
      if (o.name, o.place) ∈ (ofEvents events).jumps ∧ p o.name = true then [(o.name, o.place)]
      else [] := by
  have hw := waiting_ofEvents hp.labels
  have hnodup : (ofEvents events).jumps.Nodup :=
    hp.nodup_jumps (List.sublist_append_right _ _).subperm
  have hsame : ∀ j ∈ (ofEvents events).jumps,
      (p j.1 && decide (j.2 = o.place)) = (p o.name && (j == (o.name, o.place))) := by
    intro j hj
    by_cases hplace : j.2 = o.place
    · have hmine : Books.jumpTo (o.name, o.place) ∈ events := ho
      rw [hp.jump_eq (hw.left j hj).mem hmine hplace]
      simp
    · have hne : j ≠ (o.name, o.place) := fun heq => hplace (congrArg Prod.snd heq)
      simp [hplace, hne]
  rw [List.filter_congr hsame]
  cases p o.name with
  | false => simp
  | true =>
    simp only [Bool.true_and, List.filter_beq, and_true]
    split
    · rename_i hmem
      rw [List.count_eq_one_of_mem hnodup hmem]
      rfl
    · rename_i hmem
      rw [List.count_eq_zero_of_not_mem hmem]
      rfl

theorem lookup_eq_none_iff (hp : Placed events) {name : String} :
    (ofEvents events).outerLabels.lookup name = none ↔
      ∀ l, LabelIn events none l → l.name ≠ name := by
  have hlabels := labels_ofEvents hp.labels
  constructor
  · rintro hnone l hl rfl
    have hsome := hlabels.known l hl
    rw [hnone] at hsome
    cases hsome
  · intro hno
    rw [Option.eq_none_iff_forall_ne_some]
    intro id hid
    obtain ⟨l, hname, -, hl⟩ := hlabels.noted name id hid
    exact hno l hl hname

theorem undefinedAt_outside (hp : Placed events) (ho : .jump o ∈ events) (unused : Bool) :
    ((ofEvents events).finish unused).undefinedAt o.place =
      if (o.name, o.place) ∈ (ofEvents events).jumps ∧
        ((ofEvents events).outerLabels.lookup o.name).isNone = true
      then [⟨.undefinedLabel o.name, o.place⟩] else [] := by
  rw [State.undefinedAt_finish, undefinedAt_eq_nil (hp.closing?_ne ho), List.nil_append,
    filter_jumps hp ho fun name => ((ofEvents events).outerLabels.lookup name).isNone]
  split <;> rfl

/-- Jumps in procedures and tasks are none of those that wait at the end. -/
theorem Placed.not_mem_jumps (hp : Placed events) {body : Nat}
    (ho : JumpIn events (some body) o) : (o.name, o.place) ∉ (ofEvents events).jumps := by
  intro hwaits
  have hout : JumpIn events none o := (waiting_ofEvents hp.labels).left _ hwaits
  cases hp.jumpIn_unique ho hout

/-- What is looked at last links no other jumps than those that wait. -/
theorem link_finish (hp : Placed events) (ho : .jump o ∈ events) {unused : Bool} {id : Nat}
    (hlink : (o.place, id) ∈ ((ofEvents events).finish unused).links.toList) :
    (o.place, id) ∈ (ofEvents events).links.toList ∨
      (o.name, o.place) ∈ (ofEvents events).jumps ∧
        (ofEvents events).outerLabels.lookup o.name = some id := by
  rw [State.links_finish] at hlink
  refine (List.mem_append.mp hlink).imp_right fun hnow => ?_
  obtain ⟨j, hj, hfound⟩ := List.mem_filterMap.mp hnow
  obtain ⟨id', hid', hpair⟩ := Option.map_eq_some_iff.mp hfound
  obtain ⟨hplace, rfl⟩ := Prod.mk.inj hpair
  have hmine : Books.jumpTo (o.name, o.place) ∈ events := ho
  have hsame : j = (o.name, o.place) :=
    hp.jump_eq ((waiting_ofEvents hp.labels).left j hj).mem hmine hplace
  subst hsame
  exact ⟨hj, hid'⟩

/-- Outside of procedures and tasks a jump is linked to a label that has been accepted there, if
there is one of the name. -/
theorem outside_linked (hp : Placed events) (ho : JumpIn events none o) {l : Occurrence}
    (hl : LabelIn events none l) (hname : l.name = o.name) (unused : Bool) :
    ∃ id l', LabelIn events none l' ∧ l'.name = o.name ∧
      ((ofEvents events).finish unused).Denotes id l' ∧
      (o.place, id) ∈ ((ofEvents events).finish unused).links.toList := by
  have hlabels := labels_ofEvents hp.labels
  have hkept := (ofEvents events).preserves_finish unused
  rcases (waiting_ofEvents hp.labels).outer (o.name, o.place) ho with hwaits | hlanded
  · obtain ⟨id, hid⟩ := Option.isSome_iff_exists.mp (hlabels.known l hl)
    rw [hname] at hid
    obtain ⟨l', hname', hd, hl'⟩ := hlabels.noted o.name id hid
    refine ⟨id, l', hl', hname', hkept.denotes id l' hd, ?_⟩
    rw [State.links_finish]
    refine List.mem_append_right _ (List.mem_filterMap.mpr ⟨_, hwaits, ?_⟩)
    rw [hid]
    rfl
  · obtain ⟨id, l', hlink, hname', hd, hl'⟩ := hlanded
    exact ⟨id, l', hl', hname', hkept.denotes id l' hd, hkept.links _ hlink⟩

/-- Without such a label the jump waits up to the end, and is not linked then. -/
theorem outside_unlinked (hp : Placed events) (ho : JumpIn events none o)
    (hno : ∀ l, LabelIn events none l → l.name ≠ o.name) (unused : Bool) :
    (o.name, o.place) ∈ (ofEvents events).jumps ∧
      ∀ id, (o.place, id) ∉ ((ofEvents events).finish unused).links.toList := by
  obtain ⟨made, used, h⟩ := exists_history events
  have hw := waiting_ofEvents hp.labels
  have hwaits : (o.name, o.place) ∈ (ofEvents events).jumps := by
    refine (hw.outer (o.name, o.place) ho).resolve_right ?_
    rintro ⟨id, l, -, hname, -, hl⟩
    exact hno l hl hname
  have hout : Books.jumpTo (o.name, o.place) ∈ (ofEvents events).books.outstanding :=
    List.mem_append_right _ (List.mem_map_of_mem hwaits)
  refine ⟨hwaits, ?_⟩
  intro id hlink
  rcases link_finish hp ho.mem hlink with hold | ⟨-, hid⟩
  · exact h.unlinked_of_outstanding hp.names hout id hold
  · rw [(lookup_eq_none_iff hp).mpr hno] at hid
    cases hid

end Outside

/-! ### Jumps in statements -/

/-- A jump statement that names its target is a jump in the state in front of it. -/
theorem Boundary.jumpIn {words rest : List Word} {prev : Option Word} {start : Bool} {g t : Word}
    {s : State} (h : Boundary words prev start (g :: t :: rest) s)
    (hg : g.isKeyword ["GOTO"] = true) (ht : t.isIdentifier = true) :
    JumpIn (Event.ofWords words) s.bodyScope? t.occurrence := by
  obtain ⟨front, hevents, rfl⟩ := h.exists_moment
  have ⟨hkind, htext⟩ : g.kind = .keyword ∧ g.text = "GOTO" := by simpa [Word.isKeyword] using hg
  have hhead : Event.statementHead g.text = .jump := by
    rw [htext]
    rfl
  have hstatement : (Event.statement prev start g (t :: rest)).1.events =
      .jump t.occurrence :: (Event.finishStatement g t rest).events := by
    simp only [Event.statement, hkind, hhead, Event.keywordStatement, Event.jumpStatement, ht,
      if_true, Event.thenFinish, List.singleton_append]
  rw [Event.eventsAfter, hstatement, List.cons_append] at hevents
  exact ⟨front, _, hevents, rfl⟩

/-- The closer at the place ends the procedure or task with the scope. -/
def EndsAt (events : List Event) (body place : Nat) : Prop :=
  At events (.close .blockEnd place) fun s => s.bodyScope? = some body ∧ s.arena.current = body

/-- Jumps are settled by the labels that have been accepted in the same procedure or task, or
outside of all of them, wherever in it the labels stand. At the end of a procedure or task its
jumps are linked to its labels, and those without a label are told there, each of them once.
Outside a jump is linked to a label, or told once at its target. -/
theorem jumps_settled (tokens : List Token) (unused : Bool) :
    let words := Word.ofTokens (Word.significant tokens)
    let events := Event.ofWords words
    let final := program words unused
    (∀ prev start g t rest s, Boundary words prev start (g :: t :: rest) s →
      g.isKeyword ["GOTO"] = true → t.isIdentifier = true →
      JumpIn events s.bodyScope? t.occurrence) ∧
    (∀ body place, EndsAt events body place →
      (∀ o, JumpIn events (some body) o →
        (∀ l, LabelIn events (some body) l → l.name = o.name →
          ∃ id, (final.arena.scope body).get? o.name = some id ∧ final.Denotes id l ∧
            (o.place, id) ∈ final.links.toList) ∧
        ((∀ l, LabelIn events (some body) l → l.name ≠ o.name) →
          ∀ id, (o.place, id) ∉ final.links.toList) ∧
        final.undefinedAt o.place = []) ∧
      ∃ unresolved : List Occurrence, unresolved.Nodup ∧
        (∀ o, o ∈ unresolved ↔ JumpIn events (some body) o ∧
          ∀ l, LabelIn events (some body) l → l.name ≠ o.name) ∧
        final.undefinedAt place = unresolved.map fun o => ⟨.undefinedLabel o.name, place⟩) ∧
    ∀ o, JumpIn events none o →
      (∀ l, LabelIn events none l → l.name = o.name →
        (∃ id l', LabelIn events none l' ∧ l'.name = o.name ∧ final.Denotes id l' ∧
          (o.place, id) ∈ final.links.toList) ∧ final.undefinedAt o.place = []) ∧
      ((∀ l, LabelIn events none l → l.name ≠ o.name) →
        (∀ id, (o.place, id) ∉ final.links.toList) ∧
        final.undefinedAt o.place = [⟨.undefinedLabel o.name, o.place⟩]) := by
  intro words events final
  have hp : Placed events := placed_ofWords (Word.inOrder_ofTokens _)
  have hkept : (ofEvents events).Preserves final := (ofEvents events).preserves_finish unused
  refine ⟨?_, ?_, ?_⟩
  · intro prev start g t rest s h hg ht
    exact h.jumpIn hg ht
  · rintro body place ⟨before, after, hsplit, hinner, hcurrent⟩
    have hend : BodyEnd events before after body place := ⟨hsplit, hinner, hcurrent⟩
    refine ⟨fun o ho => ⟨?_, ?_, ?_⟩, ?_⟩
    · intro l hl hname
      obtain ⟨id, hid, hd, hlink⟩ := hend.linked hp ho hl hname
      exact ⟨id, hname ▸ hkept.entry body id l (hname ▸ hid) hd, hkept.denotes id l hd,
        hkept.links _ hlink⟩
    · intro hno id hlink
      rcases link_finish hp ho.mem hlink with hold | ⟨hwaits, -⟩
      · exact hend.unlinked hp ho hno id hold
      · exact hp.not_mem_jumps ho hwaits
    · exact (undefinedAt_outside hp ho.mem unused).trans
        (if_neg fun hwaits => hp.not_mem_jumps ho hwaits.1)
    · obtain ⟨unresolved, hnodup, hmem, htold⟩ := hend.told hp
      exact ⟨unresolved, hnodup, hmem, (hend.undefinedAt_finish hp unused).trans htold⟩
  · intro o ho
    have hout := undefinedAt_outside hp ho.mem unused
    refine ⟨?_, ?_⟩
    · intro l hl hname
      refine ⟨outside_linked hp ho hl hname unused, hout.trans (if_neg ?_)⟩
      rintro ⟨-, hnone⟩
      exact (lookup_eq_none_iff hp).mp (Option.isNone_iff_eq_none.mp hnone) l hl hname
    · intro hno
      obtain ⟨hwaits, hfree⟩ := outside_unlinked hp ho hno unused
      refine ⟨hfree, hout.trans (if_pos ⟨hwaits, ?_⟩)⟩
      rw [Option.isNone_iff_eq_none, lookup_eq_none_iff hp]
      exact hno

/-- Jumps with their labels behind them, in inner blocks, and without labels. -/
theorem jumps_settled_late_labels :
    let src : Scan.Source := ⟨"file:///ws/a", none, []⟩
    let scan := Scan.document { files := { cwd := Path.ofString "/ws" }, options := {} } src {}
      .problem "GOTO M; GOTO V; P: PROC; GOTO L; GOTO U; BEGIN L: END; END; BEGIN M: END;".toList
    let final := program (Word.ofTokens (Word.significant scan.tokens.toList)) true
    (∃ id, final.Denotes id ⟨"L", 17⟩ ∧ (11, id) ∈ final.links.toList) ∧
    (∃ unresolved : List Occurrence, ⟨"U", 14⟩ ∈ unresolved ∧ ⟨"L", 11⟩ ∉ unresolved ∧
      final.undefinedAt 21 = unresolved.map fun o => ⟨.undefinedLabel o.name, 21⟩) ∧
    (∃ id l, l.name = "M" ∧ final.Denotes id l ∧ (1, id) ∈ final.links.toList) ∧
    final.undefinedAt 4 = [⟨.undefinedLabel "V", 4⟩] := by
  intro src scan final
  let words := Word.ofTokens (Word.significant scan.tokens.toList)
  let events : List Event :=
    [.jump ⟨"M", 1⟩, .jump ⟨"V", 4⟩, .openUnit false ⟨"P", 6⟩, .jump ⟨"L", 11⟩, .jump ⟨"U", 14⟩,
      .openBlock .compound 16, .label ⟨"L", 17⟩, .close .blockEnd 19, .close .blockEnd 21,
      .openBlock .compound 23, .label ⟨"M", 24⟩, .close .blockEnd 26]
  have hevents : Event.ofWords words = events := by decide +kernel
  obtain ⟨hstatements, hbodies, houtside⟩ := jumps_settled scan.tokens.toList true
  have hlabels : events.all (fun | .label l => ["L", "M"].contains l.name | _ => true) = true := rfl
  have hno : ∀ {body : Option Nat} {name : String}, ["L", "M"].contains name = false →
      ∀ l, LabelIn (Event.ofWords words) body l → l.name ≠ name := by
    rintro body _ hother l hl rfl
    have hmem := At.mem hl
    rw [hevents] at hmem
    have hname : ["L", "M"].contains l.name = true := List.all_eq_true.mp hlabels _ hmem
    rw [hother] at hname
    cases hname
  have hL : LabelIn (Event.ofWords words) (some 1) ⟨"L", 17⟩ := by
    rw [hevents]
    refine ⟨events.take 6, events.drop 7, rfl, ?_, ?_⟩
    · decide +kernel
    · unfold State.Accepts
      decide +kernel
  have hM : LabelIn (Event.ofWords words) none ⟨"M", 24⟩ := by
    rw [hevents]
    refine ⟨events.take 10, events.drop 11, rfl, ?_, ?_⟩
    · decide +kernel
    · unfold State.Accepts
      decide +kernel
  have hjumpL : JumpIn (Event.ofWords words) (some 1) ⟨"L", 11⟩ := by
    rw [hevents]
    exact ⟨events.take 3, events.drop 4, rfl, by decide +kernel⟩
  have hjumpU : JumpIn (Event.ofWords words) (some 1) ⟨"U", 14⟩ := by
    rw [hevents]
    exact ⟨events.take 4, events.drop 5, rfl, by decide +kernel⟩
  have hjumpV : JumpIn (Event.ofWords words) none ⟨"V", 4⟩ := by
    rw [hevents]
    exact ⟨events.take 1, events.drop 2, rfl, by decide +kernel⟩
  have hend : EndsAt (Event.ofWords words) 1 21 := by
    rw [hevents]
    exact ⟨events.take 8, events.drop 9, rfl, by decide +kernel, by decide +kernel⟩
  have hjumpM : JumpIn (Event.ofWords words) none ⟨"M", 1⟩ := by
    have hwords : words = ⟨.keyword, "GOTO", 0⟩ :: ⟨.identifier, "M", 1⟩ :: words.drop 2 := by
      decide +kernel
    have hfirst : ∀ ws, words = ws → Boundary words none true ws {} := by
      rintro _ rfl
      exact .first
    exact hstatements none true _ _ _ {} (hfirst _ hwords) rfl rfl
  obtain ⟨hjumps, unresolved, -, hmem, htold⟩ := hbodies 1 21 hend
  obtain ⟨id, -, hid, hlink⟩ := (hjumps _ hjumpL).1 _ hL rfl
  obtain ⟨⟨id', l, -, hname, hid', hlink'⟩, -⟩ := (houtside _ hjumpM).1 _ hM rfl
  refine ⟨⟨id, hid, hlink⟩, ⟨unresolved, ?_, ?_, htold⟩, ⟨id', l, hname, hid', hlink'⟩, ?_⟩
  · exact (hmem _).mpr ⟨hjumpU, hno (by decide)⟩
  · exact fun hin => ((hmem _).mp hin).2 _ hL rfl
  · exact ((houtside _ hjumpV).2 (hno (by decide))).2

end Pearl.Resolution
