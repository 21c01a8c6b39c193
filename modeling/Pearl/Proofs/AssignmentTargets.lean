import Pearl.Proofs.BlockNesting
import Pearl.Proofs.EventNames

namespace Pearl

namespace Event

variable {events : List Event} {e e' : Event} {w : Word} {rest : List Word}

/-- An event is determined by the place of its name, if no place is told twice. -/
theorem eq_of_place (hnodup : ((occurrences events).map (·.place)).Nodup) (he : e ∈ events)
    (he' : e' ∈ events) {o o' : Occurrence} (ho : e.occurrence? = some o)
    (ho' : e'.occurrence? = some o') (hplace : o.place = o'.place) : e = e' := by
  induction events with
  | nil => cases he
  | cons first events ih =>
    have htail : ((occurrences events).map (·.place)).Nodup := by
      refine hnodup.sublist (List.Sublist.map _ ?_)
      exact (List.sublist_cons_self first events).filterMap occurrence?
    -- a later event cannot have the place of the first one
    have hfirst : ∀ {a : Event} {p p' : Occurrence}, first.occurrence? = some p → a ∈ events →
        a.occurrence? = some p' → p.place ≠ p'.place := by
      intro a p p' hp ha hp' heq
      rw [occurrences, List.filterMap_cons_some hp, List.map_cons, List.nodup_cons, heq] at hnodup
      have hmem : p' ∈ events.filterMap occurrence? := List.mem_filterMap.mpr ⟨a, ha, hp'⟩
      exact hnodup.1 (List.mem_map_of_mem hmem)
    rcases List.mem_cons.mp he with rfl | hlater
    · rcases List.mem_cons.mp he' with rfl | hlater'
      · rfl
      · exact absurd hplace (hfirst ho hlater' ho')
    · rcases List.mem_cons.mp he' with rfl | hlater'
      · exact absurd hplace.symm (hfirst ho' hlater ho)
      · exact ih htail hlater hlater'

theorem eq_of_mem_reference {prev : Option Word} {write : Bool}
    (h : e ∈ reference prev w write rest) : ∃ call, e = .refer w.occurrence write call := by
  unfold reference at h
  split at h
  · cases h
  · exact ⟨_, List.mem_singleton.mp h⟩

/-- What the target of an assignment tells. -/
theorem statement_of_isTarget (prev : Option Word) (start : Bool) (h : isTarget w rest) :
    (statement prev start w rest).1.events = reference prev w true rest ∧
      (statement prev start w rest).1.rest = rest := by
  obtain ⟨hw, next, hnext, hassign⟩ := h
  have hkind : w.kind = .identifier := of_decide_eq_true hw
  cases rest with
  | nil => cases hnext
  | cons first left =>
    cases hnext
    have hsymbol : next.isSymbol [":"] = false := by
      have hoperator : next.kind = .operator := by
        simp only [Word.isOperator, Bool.and_eq_true, decide_eq_true_eq] at hassign
        exact hassign.1
      simp [Word.isSymbol, hoperator]
    have hsecond : secondKeyword? (next :: left) = none := by
      cases left with
      | nil => rfl
      | cons u left => simp [secondKeyword?, hsymbol]
    simp [statement, hkind, nameStatement, hsecond, hsymbol, hassign]

end Event

namespace Resolution

variable {words rest : List Word} {prev : Option Word} {start : Bool} {s : State}

/-- The name at a place is the target of an assignment: it is read first, and the operator stands
directly behind it. -/
def Assigned (words : List Word) (place : Nat) : Prop :=
  ∃ prev start w next rest s, Boundary words prev start (w :: next :: rest) s ∧
    w.isIdentifier = true ∧ w.place = place ∧ next.isOperator ":=" = true

/-- The events up to a boundary are read off the words in front of it. -/
theorem Boundary.exists_before (h : Boundary words prev start rest s) :
    ∃ before, Event.ofWords words = before ++ Event.eventsAfter prev start rest ∧
      Event.Reads True words before rest := by
  induction h with
  | first => exact ⟨[], rfl, .refl words⟩
  | @next prev start w rest s h ih =>
    obtain ⟨before, hevents, hreads⟩ := ih
    refine ⟨before ++ (Event.statement prev start w rest).1.events, ?_, ?_⟩
    · rw [hevents, Event.eventsAfter, List.append_assoc]
    · exact hreads.trans ((Event.statement_reads prev start w rest).mono fun _ => trivial)

/-- Every event belongs to what is read at some boundary. -/
theorem Boundary.exists_of_mem {e : Event} (h : Boundary words prev start rest s)
    (he : e ∈ Event.eventsAfter prev start rest) :
    ∃ prev start w rest s, Boundary words prev start (w :: rest) s ∧
      e ∈ (Event.statement prev start w rest).1.events := by
  induction hn : rest.length using Nat.strongRecOn generalizing prev start rest s with
  | _ n ih =>
    cases rest with
    | nil =>
      rw [Event.eventsAfter] at he
      cases he
    | cons w rest =>
      rw [Event.eventsAfter] at he
      rcases List.mem_append.mp he with he | he
      · exact ⟨prev, start, w, rest, s, h, he⟩
      · have hle := (Event.statement_suffix prev start w rest).length_le
        rw [List.length_cons] at hn
        exact ih _ (by omega) h.next he rfl

/-- Of the names that events tell, those that are written to are the targets of assignments. -/
theorem isAssignment_iff (hwords : Word.InOrder words) {e : Event} {o : Occurrence}
    (he : e ∈ Event.ofWords words) (ho : e.occurrence? = some o) :
    e.isAssignment = true ↔ Assigned words o.place := by
  constructor
  · intro hassign
    obtain ⟨prev, start, w, rest, s, h, hmem⟩ := Boundary.first.exists_of_mem he
    have htarget := (Event.statement_reads prev start w rest).plain e hmem hassign
    rw [(Event.statement_of_isTarget prev start htarget).1] at hmem
    obtain ⟨call, rfl⟩ := Event.eq_of_mem_reference hmem
    cases ho
    obtain ⟨hw, next, hnext, hoperator⟩ := htarget
    cases rest with
    | nil => cases hnext
    | cons first left =>
      cases hnext
      exact ⟨prev, start, w, next, left, s, h, hw, rfl, hoperator⟩
  · rintro ⟨prev, start, w, next, rest, s, h, hw, hplace, hoperator⟩
    obtain ⟨before, hevents, hreads⟩ := h.exists_before
    have htarget : Event.isTarget w (next :: rest) := ⟨hw, next, rfl, hoperator⟩
    obtain ⟨hstatement, hrest⟩ := Event.statement_of_isTarget prev start htarget
    rw [Event.eventsAfter, hstatement, hrest] at hevents
    rw [hevents] at he
    -- names in front of the target and behind it have other places
    obtain ⟨front, hfront, hsub⟩ := hreads.used
    rw [hfront] at hwords
    have horder := List.pairwise_append.mp hwords
    rcases List.mem_append.mp he with hin | hlater
    · have hmem := hsub.subset (List.mem_filterMap.mpr ⟨e, hin, ho⟩)
      obtain ⟨w', hw', -, rfl⟩ := Word.exists_of_mem_names hmem
      have hlt := horder.2.2 w' hw' w List.mem_cons_self
      exact absurd hplace (Nat.ne_of_gt hlt)
    · rcases List.mem_append.mp hlater with hin | hin
      · obtain ⟨call, rfl⟩ := Event.eq_of_mem_reference hin
        rfl
      · obtain ⟨w', hw', -, rfl⟩ := Event.exists_word_of_mem
          (Event.eventsAfter_reads _ _ (next :: rest)) (List.mem_filterMap.mpr ⟨e, hin, ho⟩)
        have hlt := (List.pairwise_cons.mp horder.2.1).1 w' hw'
        exact absurd hplace (Nat.ne_of_lt hlt)

end Resolution

end Pearl
