import Pearl.Proofs.CutReferences
import Pearl.Proofs.FindingRanges
import Pearl.Proofs.VisibleBeforeCursor
import Pearl.Proofs.VisibleNames

namespace Pearl

namespace Resolution

variable {id : Nat} {y : Symbol}

/-! ### Links and what is visible -/

/-- A linked name that does not declare its symbol is the target of a jump, or stood for the symbol
at the moment when it was resolved. -/
theorem exists_resolved {words : List Word} {unused : Bool} {place : Nat}
    (hlink : (place, id) ∈ (program words unused).links.toList)
    (hy : (program words unused).symbol? id = some y) (hown : y.declaredAt ≠ place) :
    ∃ before e after, Event.ofWords words = before ++ e :: after ∧
      e.occurrence? = some ⟨y.name, place⟩ ∧ (e = .jump ⟨y.name, place⟩ ∨
        e.isReference = true ∧ (ofEvents before).arena.lookup y.name = some id) := by
  obtain ⟨made, used, h⟩ := exists_history (Event.ofWords words)
  obtain ⟨uses, hledger, haccount, -⟩ := h.finish unused
  obtain ⟨c, hc, rfl⟩ | ⟨u, hu, rfl, rfl⟩ := hledger.link_cases hlink
  · obtain ⟨y', hy', hbecomes, -⟩ := hledger.symbol id c hc
    cases hy.symm.trans hy'
    exact absurd hbecomes.declaredAt hown
  · obtain ⟨c, hc, ho, hmoment⟩ := hledger.justified u hu
    obtain ⟨y', hy', hbecomes, -⟩ := hledger.symbol u.id c hc
    cases hy.symm.trans hy'
    rw [hbecomes.name]
    obtain hevent | ⟨href, before, after, hsplit, -, hsees⟩ := hmoment
    · have hmem := haccount.subset (List.mem_append_right _ (List.mem_map_of_mem hu))
      obtain ⟨before, after, hsplit⟩ := List.append_of_mem hmem
      exact ⟨before, u.event, after, hsplit, ho, Or.inl hevent⟩
    · exact ⟨before, u.event, after, hsplit, ho, Or.inr ⟨href, hsees.lookup_eq⟩⟩

open Event in
/-- In the words up to a name that is resolved, and not in a declaration, the name is visible, and
stands for a symbol of the same kind that is declared at the same place. -/
theorem exists_visible_of_link {words words' post : List Word} {t : Word} {unused : Bool}
    (hcut : Cut t post words words') (hout : t.place ∉ declarationPlaces none true words)
    (hlink : (t.place, id) ∈ (program words unused).links.toList)
    (hy : (program words unused).symbol? id = some y) (hown : y.declaredAt ≠ t.place)
    (hjump : .jump t.occurrence ∉ Event.ofWords words) :
    ∃ y', (byName (ofWords words').visible).lookup t.text = some y' ∧ y'.kind = y.kind ∧
      y'.declaredAt = y.declaredAt := by
  obtain ⟨before, e, after, hsplit, ho, hmoment⟩ := exists_resolved hlink hy hown
  have hname : t.occurrence = ⟨y.name, t.place⟩ := by
    have hmem : (⟨y.name, t.place⟩ : Occurrence) ∈ occurrences (Event.ofWords words) :=
      List.mem_filterMap.mpr ⟨e, by simp [hsplit], ho⟩
    obtain ⟨w, hw, -, hoccurrence⟩ := exists_word_of_mem (eventsAfter_reads none true words) hmem
    rw [← hoccurrence, hcut.eq_of_place hw (congrArg Occurrence.place hoccurrence)]
  obtain rfl | ⟨href, hid⟩ := hmoment
  · rw [hname, hsplit] at hjump
    exact absurd (by simp) hjump
  · obtain ⟨-, more, hmore, honly⟩ :=
      eventsAfter_stops hcut none true hout before e after hsplit href _ ho rfl
    rw [program, ofWords, hsplit] at hy
    rw [ofWords, show Event.ofWords words' = before ++ more from hmore,
      show t.text = y.name from congrArg Occurrence.name hname]
    exact exists_visible honly hid hy

end Resolution

/-! ### Tokens and their links -/

namespace LinkedToken

variable {α : Type} {place : Nat} {value : α}

theorem mem_of_getD_foldl_modify {entries : List (Nat × α)} {slots : Array (Option α)}
    (h : (entries.foldl (fun t e => t.modify e.1 fun slot => slot.or (some e.2)) slots).getD
      place none = some value) :
    (place, value) ∈ entries ∨ slots.getD place none = some value := by
  induction entries generalizing slots with
  | nil => exact Or.inr h
  | cons e entries ih =>
    rcases ih h with h | h
    · exact Or.inl (List.mem_cons_of_mem e h)
    · rw [Array.getD_eq_getD_getElem?, Array.getElem?_modify] at h
      split at h
      · rename_i hplace
        cases hslot : slots[place]? with
        | none => simp [hslot] at h
        | some slot =>
          simp only [hslot, Option.map_some, Option.getD_some, Option.or_eq_some_iff] at h
          rcases h with h | ⟨-, h⟩
          · exact Or.inr (by rw [Array.getD_eq_getD_getElem?, hslot, h, Option.getD_some])
          · cases h
            exact Or.inl (by rw [← hplace]; exact List.mem_cons_self)
      · exact Or.inr (by rw [Array.getD_eq_getD_getElem?]; exact h)

/-- What stands in a table is one of its entries. -/
theorem mem_of_getD_table {size : Nat} {entries : Array (Nat × α)}
    (h : (table size entries).getD place none = some value) : (place, value) ∈ entries.toList := by
  rw [table, ← Array.foldl_toList] at h
  rcases mem_of_getD_foldl_modify h with h | h
  · exact h
  · rw [Array.getD_eq_getD_getElem?, Array.getElem?_replicate] at h
    split at h <;> simp at h

theorem isSignificant_of_mem_attach {definitions : Array (Option Nat)}
    {builtins : Array (Option Builtin)} {start : Nat} {tokens : List Token} {t : LinkedToken}
    (ht : t ∈ attach definitions builtins start tokens) (hplace : t.place = some place) :
    t.token.kind.isSignificant = true := by
  induction tokens generalizing start with
  | nil => cases ht
  | cons u rest ih =>
    rw [attach] at ht
    split at ht
    · rename_i hu
      rcases List.mem_cons.mp ht with rfl | ht
      · exact hu
      · exact ih ht
    · rcases List.mem_cons.mp ht with rfl | ht
      · cases hplace
      · exact ih ht

/-- A token with a place is the token of that place among those that count, with the link of that
place. -/
theorem exists_of_mem_ofResolution {s : Resolution.State} {tokens : List Token} {t : LinkedToken}
    (ht : t ∈ ofResolution s tokens) {id : Nat} (hplace : t.place = some place)
    (hid : t.definition = some id) :
    (Word.significant tokens)[place]? = some t.token ∧ (place, id) ∈ s.links.toList := by
  have hmem : t ∈ (ofResolution s tokens).filter (·.token.kind.isSignificant) :=
    List.mem_filter.mpr ⟨ht, isSignificant_of_mem_attach ht hplace⟩
  rw [ofResolution, filter_attach] at hmem
  obtain ⟨⟨u, i⟩, hu, rfl⟩ := List.mem_map.mp hmem
  cases hplace
  exact ⟨List.mem_zipIdx_iff_getElem?.mp hu, mem_of_getD_table hid⟩

end LinkedToken

/-! ### The tokens up to a name -/

namespace Token

variable {ts : List Token} {t u : Token}

theorem offset_eq_of_covers (h : ∀ o : Nat, t.covers o = u.covers o) :
    t.start.offset = u.start.offset := by
  have ht := h t.start.offset
  have hu := h u.start.offset
  rw [(t.covers_iff _).mpr (by omega), eq_comm, covers_iff] at ht
  rw [(u.covers_iff _).mpr (by omega), covers_iff] at hu
  omega

/-- A token that lies before the own tokens behind it lies before all of them. -/
theorem Grouped.offset_le_of_mem {P : Token → Prop} (h : Grouped P ts)
    (hlater : ∀ u ∈ ts.filter isOwn, t.start.offset + t.length ≤ u.start.offset) :
    ∀ u ∈ ts, t.start.offset ≤ u.start.offset := by
  intro u hu
  obtain ⟨v, hv, hown, hcovers⟩ := h.exists_isOwn hu
  have hle := hlater v (List.mem_filter.mpr ⟨hv, hown⟩)
  rw [offset_eq_of_covers hcovers]
  omega

/-- Tokens in the order of their spans start one behind the other, or where their reference
starts. -/
theorem Ranked.pairwise (h : Ranked ts) :
    ts.Pairwise fun t t' => t.start.offset ≤ t'.start.offset := by
  obtain ⟨hgrouped, hordered, -⟩ := h
  induction hgrouped with
  | nil => exact .nil
  | @own t ts ht hts ih =>
    rw [List.filter_cons_of_pos ht, List.pairwise_cons] at hordered
    exact .cons (hts.offset_le_of_mem hordered.1) (ih hordered.2)
  | @reference marker inner ts hk hm hinner hts ih =>
    have hmarker : marker.isOwn = true := by simp [isOwn, hk]
    rw [List.filter_cons_of_pos hmarker, List.filter_append, filter_isOwn_eq_nil hm hinner,
      List.nil_append, List.pairwise_cons] at hordered
    have hlater := hts.offset_le_of_mem hordered.1
    have hstart : ∀ u ∈ inner, u.start = marker.start := fun u hu => (hinner u hu).start
    refine .cons ?_ (List.pairwise_append.mpr ⟨?_, ih hordered.2, ?_⟩)
    · intro u hu
      rcases List.mem_append.mp hu with hu | hu
      · rw [hstart u hu]
      · exact hlater u hu
    · exact List.pairwise_of_forall_mem_list fun u hu v hv => by rw [hstart u hu, hstart v hv]
    · intro u hu v hv
      rw [hstart u hu]
      exact hlater v hv

end Token

theorem Word.ofTokens_append (before after : List Token) :
    ofTokens (before ++ after) = ofTokens before ++
      (after.zipIdx before.length).map fun t => ⟨t.1.kind, t.1.text, t.2⟩ := by
  simp [ofTokens, List.zipIdx_append]

/-- Words in order, up to one of their names. -/
theorem Event.cut_append {front post : List Word} {t : Word}
    (h : Word.InOrder (front ++ t :: post)) (ht : t.isIdentifier = true) :
    Cut t post (front ++ t :: post) (front ++ [t]) := by
  induction front with
  | nil =>
    obtain ⟨hpost, -⟩ := List.pairwise_cons.mp h
    exact .here ht fun w hw => (hpost w hw).ne'
  | cons w front ih =>
    obtain ⟨hw, hrest⟩ := List.pairwise_cons.mp h
    exact .cons (hw t (by simp)).ne (ih hrest)

/-- A token that is linked, and not in a declaration, is visible in the tokens up to it. -/
theorem Resolution.exists_visible_of_token {before after : List Token} {t : Token} {unused : Bool}
    {id : Nat} {y : Symbol} :
    let words := Word.ofTokens (before ++ t :: after)
    (before.length, id) ∈ (program words unused).links.toList →
    (program words unused).symbol? id = some y → y.declaredAt ≠ before.length →
    .jump ⟨t.text, before.length⟩ ∉ Event.ofWords words →
    before.length ∉ Event.declarationPlaces none true words →
    ∃ y', (byName (ofWords (Word.ofTokens (before ++ [t]))).visible).lookup t.text = some y' ∧
      y'.kind = y.kind ∧ y'.declaredAt = y.declaredAt := by
  intro words hlink hy hown hjump hout
  have hname : t.kind = .identifier := by
    obtain ⟨front, e, back, hsplit, ho, -⟩ := exists_resolved hlink hy hown
    have hmem : ⟨y.name, before.length⟩ ∈ Event.occurrences (Event.ofWords words) :=
      List.mem_filterMap.mpr ⟨e, by simp [hsplit], ho⟩
    obtain ⟨u, hu, hkind, -⟩ := exists_token hmem
    rw [List.getElem?_append_right le_rfl, Nat.sub_self, List.getElem?_cons_zero] at hu
    cases hu
    exact hkind
  let w : Word := ⟨t.kind, t.text, before.length⟩
  have hword : w.isIdentifier = true := decide_eq_true hname
  have hwords : words = Word.ofTokens before ++ w :: _ := Word.ofTokens_append before (t :: after)
  have horder : Word.InOrder words := Word.inOrder_ofTokens _
  rw [hwords] at horder
  have hcut := Event.cut_append horder hword
  rw [← hwords] at hcut
  rw [Word.ofTokens_append]
  exact exists_visible_of_link hcut hout hlink hy hown hjump

namespace Analysis

variable {files : FileTree} {a : Analysis}

/-- The tokens of a document up to one of its own, if the next one that counts is a later one of the
document. -/
theorem cutOff_here {uri : String} {before after : List Token} {t : Token}
    (hordered : (before ++ t :: after).Pairwise fun u u' =>
      u.uri = uri → u'.uri = uri → u.start.offset ≤ u'.start.offset) (huri : t.uri = uri)
    (hnext : ∀ u ∈ after.head?, u.uri = uri ∧ t.start.offset < u.start.offset) :
    cutOff (some uri) t.start.offset (before ++ t :: after) = before ++ [t] := by
  have hbefore : ∀ u ∈ before ++ [t], (!isPast uri t.start.offset u) = true := by
    intro u hu
    have hle : u.uri = uri → u.start.offset ≤ t.start.offset := by
      intro huri'
      rcases List.mem_append.mp hu with hu | hu
      · exact (List.pairwise_append.mp hordered).2.2 u hu t List.mem_cons_self huri' huri
      · rw [List.mem_singleton.mp hu]
    by_cases huri' : u.uri = uri
    · have hle := hle huri'
      simp only [isPast, Bool.not_eq_true', Bool.and_eq_false_iff, decide_eq_false_iff_not]
      omega
    · simp [isPast, huri']
  rw [cutOff_eq, List.append_cons, List.takeWhile_append_of_pos hbefore]
  cases after with
  | nil => simp
  | cons u after =>
    obtain ⟨huri', hlt⟩ := hnext u rfl
    simp [isPast, huri', hlt]

theorem IsOf.counted_eq (h : a.IsOf files) :
    a.counted.toList = Word.significant (a.tokens.map (·.token)) := by
  obtain ⟨options, cache, src, version, -, ha⟩ := h.exists_run
  generalize a.text = text at ha
  subst ha
  exact congrArg Word.significant (LinkedToken.map_token_attach ..).symm

/-- The tokens of the document that count are in the order of their offsets. -/
theorem IsOf.pairwise_counted (h : a.IsOf files) :
    a.counted.toList.Pairwise fun u u' =>
      u.uri = a.uri → u'.uri = a.uri → u.start.offset ≤ u'.start.offset := by
  have hordered := h.ranked.pairwise
  rw [map_token_documentTokens, List.pairwise_filter] at hordered
  rw [h.counted_eq]
  apply (hordered.sublist List.filter_sublist).imp
  intro u u' hle huri huri'
  exact hle (decide_eq_true huri) (decide_eq_true huri')

/-- A token of the document stands behind some characters of its text. -/
theorem IsOf.exists_before (h : a.IsOf files) {t : Token} (ht : t ∈ a.counted.toList)
    (huri : t.uri = a.uri) :
    ∃ before after, a.text.toList = before ++ after ∧ t.start = Position.zero.advance before := by
  obtain ⟨σ, src, cache, part, hbars, huri', htokens⟩ := h.exists_document
  rw [h.counted_eq, htokens] at ht
  rw [← huri'] at huri
  obtain ⟨hmem, hkind⟩ := List.mem_filter.mp ht
  obtain ⟨u, hu, -, -, hstart, -⟩ := Scan.exists_own_of_significant hbars hmem huri hkind
  rw [← htokens, huri', ← own_eq_filter] at hu
  obtain ⟨-, -, before, after, htext, hplace⟩ := h.tiling.written u hu
  exact ⟨before, _, htext, hstart ▸ hplace⟩

/-- The line and the column of a token of the document lead back to its offset. -/
theorem IsOf.offsetAt_start (h : a.IsOf files) {t : Token} (ht : t ∈ a.counted.toList)
    (huri : t.uri = a.uri) : a.offsetAt t.start.line t.start.column = t.start.offset := by
  obtain ⟨before, after, htext, hplace⟩ := h.exists_before ht huri
  rw [hplace, h.offsetAt_advance htext]
  simp [Position.offset_advance, Position.zero]

/-- A linked token is one of those that count, and its link one of the resolution. -/
theorem IsOf.exists_link (h : a.IsOf files) {t : LinkedToken} (ht : t ∈ a.tokens) {place id : Nat}
    (hplace : t.place = some place) (hid : t.definition = some id) :
    a.counted[place]? = some t.token ∧ ∃ unused,
      let final := Resolution.program (Word.ofTokens a.counted.toList) unused
      (place, id) ∈ final.links.toList ∧ final.symbol? = a.symbol? := by
  obtain ⟨options, cache, src, version, -, ha⟩ := h.exists_run
  generalize a.text = text at ha
  subst ha
  obtain ⟨htoken, hlink⟩ := LinkedToken.exists_of_mem_ofResolution ht hplace hid
  refine ⟨?_, options.reportUnused, hlink, rfl⟩
  rw [← Array.getElem?_toList]
  exact htoken

/-- Completion agrees with resolution. A token of the document that is linked to a symbol, and is
neither the one that declares it, nor the target of a jump, nor within a declaration or a
specification, has the name of a symbol of the same kind, declared at the same token, among those
that are visible where it starts; provided that the next token that counts is a later one of the
document. -/
theorem visibleAt_of_definition (h : a.IsOf files) {t : LinkedToken} (ht : t ∈ a.tokens)
    (huri : t.token.uri = a.uri) {place : Nat} (hplace : t.place = some place) {y : Symbol}
    (hy : t.definition.bind a.symbol? = some y) (href : y.declaredAt ≠ place)
    (hjump : .jump ⟨t.token.text, place⟩ ∉ Event.ofWords (Word.ofTokens a.counted.toList))
    (hout : place ∉ Event.declarationPlaces none true (Word.ofTokens a.counted.toList))
    (hnext : ∀ u, a.counted[place + 1]? = some u →
      u.uri = a.uri ∧ t.token.start.offset < u.start.offset) :
    a.offsetAt t.token.start.line t.token.start.column = t.token.start.offset ∧
    ∃ y', (a.visibleAt t.token.start.line t.token.start.column).lookup t.token.text = some y' ∧
      y'.kind = y.kind ∧ y'.declaredAt = y.declaredAt := by
  obtain ⟨id, hid, hy⟩ := Option.bind_eq_some_iff.mp hy
  obtain ⟨htoken, unused, hlink, hsymbol⟩ := h.exists_link ht hplace hid
  rw [← hsymbol] at hy
  rw [← Array.getElem?_toList] at htoken
  have hoffset := h.offsetAt_start (List.mem_of_getElem? htoken) huri
  refine ⟨hoffset, ?_⟩
  obtain ⟨before, after, hcounted, rfl⟩ : ∃ before after,
      a.counted.toList = before ++ t.token :: after ∧ before.length = place := by
    obtain ⟨hlt, hget⟩ := List.getElem?_eq_some_iff.mp htoken
    refine ⟨a.counted.toList.take place, a.counted.toList.drop (place + 1), ?_,
      List.length_take_of_le hlt.le⟩
    rw [← hget, List.getElem_cons_drop, List.take_append_drop]
  -- The tokens in front are not behind the cursor, and the next one is.
  have hcut : cutOff (some a.uri) t.token.start.offset a.counted.toList = before ++ [t.token] := by
    have hordered := h.pairwise_counted
    rw [hcounted] at hordered ⊢
    apply cutOff_here hordered huri
    intro u hu
    apply hnext
    rw [← Array.getElem?_toList, hcounted, List.getElem?_append_right (by omega)]
    simpa [List.head?_eq_getElem?] using hu
  rw [visibleAt, hoffset, hcut]
  rw [hcounted] at hlink hy hjump hout
  exact Resolution.exists_visible_of_token hlink hy href hjump hout

/-- A bolt that hides a variable of the same name, where it is freed. -/
theorem visibleAt_of_definition_hidden :
    let files : FileTree := { cwd := Path.ofString "/ws" }
    let src : Scan.Source := ⟨"untitled:a", none, []⟩
    let a := (run files {} {} src "DCL S FIXED; BEGIN DCL S BOLT; FREE S;" none).1
    let t : Token := ⟨.identifier, "S", "untitled:a", ⟨0, 36, 36⟩, 1, none⟩
    a.IsOf files ∧ (t, some 10, some 1) ∈ a.tokens.map (fun t => (t.token, t.place, t.definition)) ∧
    ∃ y, (a.visibleAt 0 36).lookup "S" = some y ∧ y.kind = .bolt ∧ y.declaredAt = 6 := by
  intro files src a t
  have hsrc : Scan.Source.ofUri files "untitled:a" = .ok src := by decide +kernel
  have ha : a.IsOf files := .text hsrc {} {} _ none
  -- One evaluation of the analysis gives all that is asked of it.
  obtain ⟨hmem, hsymbol, hcounted, hjump, hout⟩ :
      (t, some 10, some 1) ∈ a.tokens.map (fun t => (t.token, t.place, t.definition)) ∧
      (a.symbol? 1).map (fun y => (y.kind, y.declaredAt)) = some (.bolt, 6) ∧
      a.counted[11]? = some ⟨.symbol, ";", "untitled:a", ⟨0, 37, 37⟩, 1, none⟩ ∧
      .jump ⟨t.text, 10⟩ ∉ Event.ofWords (Word.ofTokens a.counted.toList) ∧
      10 ∉ Event.declarationPlaces none true (Word.ofTokens a.counted.toList) := by
    decide +kernel
  obtain ⟨l, hl, heq⟩ := List.mem_map.mp hmem
  obtain ⟨htoken, hplace, hdefinition⟩ : l.token = t ∧ l.place = some 10 ∧
    l.definition = some 1 := by simpa using heq
  obtain ⟨y, hy, heq⟩ := Option.map_eq_some_iff.mp hsymbol
  obtain ⟨hkind, hsite⟩ := Prod.mk.inj heq
  have hnext : ∀ u, a.counted[11]? = some u → u.uri = a.uri ∧ t.start.offset < u.start.offset := by
    intro u hu
    cases hcounted.symm.trans hu
    exact ⟨rfl, by decide⟩
  obtain ⟨-, y', hy', hkind', hsite'⟩ := visibleAt_of_definition ha hl (by rw [htoken]; rfl) hplace
    (by rw [hdefinition]; exact hy) (by rw [hsite]; decide) (by rw [htoken]; exact hjump) hout
    (by rw [htoken]; exact hnext)
  rw [htoken] at hy'
  exact ⟨ha, hmem, y', hy', hkind'.trans hkind, hsite'.trans hsite⟩

end Analysis

end Pearl
