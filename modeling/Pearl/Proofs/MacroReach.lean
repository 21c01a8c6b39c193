import Mathlib.Logic.Relation
import Pearl.Proofs.ElementEnds
import Pearl.Proofs.MacroNesting

namespace Pearl

namespace Lexeme

/-! ### Texts by themselves -/

/-- The characters of the operators that are read in one part of a module and not in the other, and
of those that may follow them. -/
def isArrow (c : Char) : Bool := ['<', '-', '>', '='].contains c

/-- The elements of a text but those that start with `<`, `-`, `>` or `=`. The part of the module
that the text stands in makes no difference to them. -/
def elements (cs : List Char) : List Lexeme :=
  match cs with
  | [] => []
  | c :: cs =>
    if isSpace c || c = '\n' then elements cs
    else
      have := length_tail_le .problem c cs
      if isArrow c then elements (tail .problem c cs)
      else head .problem c cs :: elements (tail .problem c cs)
termination_by cs.length
decreasing_by
  · exact Nat.lt_succ_self cs.length
  · exact Nat.lt_succ_of_le this
  · exact Nat.lt_succ_of_le this

theorem elements_blank {c : Char} (hc : (isSpace c || c = '\n') = true) (cs : List Char) :
    elements (c :: cs) = elements cs := by
  rw [elements, if_pos hc]

theorem not_blank_of_isArrow {c : Char} (hc : isArrow c = true) :
    ¬(isSpace c || c = '\n') = true := by
  simp only [isArrow, List.contains_eq_mem, List.mem_cons, List.not_mem_nil, or_false,
    decide_eq_true_eq] at hc
  rcases hc with rfl | rfl | rfl | rfl <;> decide

theorem extent_of_isArrow {c : Char} (hc : isArrow c = true) (part : Part) (cs : List Char) :
    extent part c cs = operatorExtent part c cs := by
  simp only [isArrow, List.contains_eq_mem, List.mem_cons, List.not_mem_nil, or_false,
    decide_eq_true_eq] at hc
  rcases hc with rfl | rfl | rfl | rfl <;> rfl

/-- Operators that start with such a character consist of them. -/
theorem isArrow_of_mem_take {c : Char} (hc : isArrow c = true) (part : Part) (cs : List Char) :
    ∀ d ∈ cs.take (extent part c cs).extra, isArrow d = true := by
  have hall : (longOperators part).all (fun op => !op.head?.any isArrow || op.all isArrow) =
      true := by
    cases part <;> decide
  rw [extent_of_isArrow hc, operatorExtent]
  intro d hd
  split at hd
  · rename_i op hfind
    have hprefix := List.find?_some hfind
    obtain ⟨rest, hrest⟩ := List.isPrefixOf_iff_prefix.mp hprefix
    have hop := List.all_eq_true.mp hall op (List.mem_of_find?_eq_some hfind)
    cases op with
    | nil => cases hd
    | cons o op =>
      obtain ⟨rfl, rfl⟩ := List.cons.inj hrest
      rw [List.head?_cons, Option.any_some, hc, Bool.not_true, Bool.false_or,
        List.all_eq_true] at hop
      refine hop d (List.mem_cons_of_mem _ ?_)
      simpa using hd
  · split at hd
    · cases hd
    · split at hd <;> cases hd

/-- Such characters can be left out one by one, however they are read. -/
theorem elements_arrows {as : List Char} (has : ∀ a ∈ as, isArrow a = true) (ds : List Char) :
    elements (as ++ ds) = elements ds := by
  induction hn : as.length + ds.length using Nat.strongRecOn generalizing as ds with
  | _ n ih =>
    cases as with
    | nil => rfl
    | cons a as =>
      simp only [List.mem_cons, forall_eq_or_imp] at has
      simp only [List.length_cons] at hn
      obtain ⟨e, he⟩ : ∃ e, (extent .problem a (as ++ ds)).extra = e := ⟨_, rfl⟩
      have htake := isArrow_of_mem_take has.1 .problem (as ++ ds)
      have hlength := congrArg List.length (List.take_append_drop e (as ++ ds))
      simp only [List.length_append] at hlength
      rw [he] at htake
      rw [List.cons_append, elements, if_neg (not_blank_of_isArrow has.1), if_pos has.1, tail, he]
      calc elements ((as ++ ds).drop e)
          = elements ((as ++ ds).take e ++ (as ++ ds).drop e) :=
            (ih (as.length + ds.length) (by omega) htake _ hlength).symm
        _ = elements (as ++ ds) := by rw [List.take_append_drop]
        _ = elements ds := ih (as.length + ds.length) (by omega) has.2 ds rfl

/-- An element is the same in both parts of a module, unless it is an operator of these
characters. -/
theorem extent_part {c : Char} (hc : isArrow c = false) (part : Part) (cs : List Char) :
    extent part c cs = extent .problem c cs := by
  cases part with
  | problem => rfl
  | system =>
    have hprefix : ∀ op : List Char, op.head?.any isArrow = true →
        op.isPrefixOf (c :: cs) = false := by
      intro op hop
      cases op with
      | nil => cases hop
      | cons o op =>
        have ho : o ≠ c := by
          rintro rfl
          simp [hc] at hop
        simp [List.isPrefixOf, ho]
    have hops : longOperators .system =
        ['<', '-', '>'] :: (longOperators .problem ++ [['-', '>'], ['<', '-']]) := rfl
    have hfind : (longOperators .system).find? (·.isPrefixOf (c :: cs)) =
        (longOperators .problem).find? (·.isPrefixOf (c :: cs)) := by
      simp [hops, hprefix ['<', '-', '>'] rfl, hprefix ['-', '>'] rfl, hprefix ['<', '-'] rfl]
    have hoperator : operatorExtent .system c cs = operatorExtent .problem c cs := by
      rw [operatorExtent, hfind, operatorExtent]
    simp only [extent, hoperator]

section Part

variable {part : Part} {c : Char} {cs : List Char}

/-- Whatever part a text is read in, its elements are among those it has by itself. -/
theorem head_mem_elements (hc : ¬(isSpace c || c = '\n') = true) (harrow : isArrow c = false) :
    head part c cs ∈ elements (c :: cs) := by
  have hhead : head part c cs = head .problem c cs := by rw [head, extent_part harrow, head]
  rw [elements, if_neg hc, harrow, if_neg Bool.false_ne_true, hhead]
  exact List.mem_cons_self

theorem elements_tail_subset (hc : ¬(isSpace c || c = '\n') = true) :
    elements (tail part c cs) ⊆ elements (c :: cs) := by
  cases harrow : isArrow c with
  | false =>
    rw [elements, if_neg hc, harrow, if_neg Bool.false_ne_true, tail, extent_part harrow]
    exact List.subset_cons_self _ _
  | true =>
    have htake := isArrow_of_mem_take harrow part cs
    have harrows : ∀ a ∈ c :: cs.take (extent part c cs).extra, isArrow a = true := by
      simpa [harrow] using htake
    have helements := elements_arrows harrows (cs.drop (extent part c cs).extra)
    rw [List.cons_append, List.take_append_drop] at helements
    rw [helements]
    exact List.Subset.refl _

end Part

/-- Where the elements of a text by itself are closed, those are that are read in either part. -/
theorem isClosed_head {c : Char} {cs : List Char} (hc : ¬(isSpace c || c = '\n') = true)
    (h : ∀ l ∈ elements (c :: cs), l.IsClosed) (part : Part) : (head part c cs).IsClosed := by
  cases harrow : isArrow c with
  | false => exact h _ (head_mem_elements hc harrow)
  | true =>
    have hfault : (head part c cs).fault = none := by
      have hoperator : isOperatorChar c = true := by
        simp only [isArrow, List.contains_eq_mem, List.mem_cons, List.not_mem_nil, or_false,
          decide_eq_true_eq] at harrow
        rcases harrow with rfl | rfl | rfl | rfl <;> decide
      change (extent part c cs).fault = none
      rw [extent_of_isArrow harrow, operatorExtent]
      split
      · rfl
      · rw [if_pos hoperator]
    refine ⟨?_, by simp [hfault], by simp [hfault]⟩
    rintro ⟨⟩
    exact absurd harrow (by decide)

def words (cs : List Char) : List String :=
  ((elements cs).filter isWord).map fun l => String.ofList l.text

theorem words_blank_subset {c : Char} (hc : (isSpace c || c = '\n') = true) (cs : List Char) :
    words cs ⊆ words (c :: cs) := by
  rw [words, words, elements_blank hc]
  exact List.Subset.refl _

theorem words_tail_subset {c : Char} (hc : ¬(isSpace c || c = '\n') = true) (part : Part)
    (cs : List Char) : words (tail part c cs) ⊆ words (c :: cs) :=
  List.map_subset _ (List.filter_subset _ (elements_tail_subset hc))

theorem mem_words_head {part : Part} {c : Char} {cs : List Char}
    (hc : ¬(isSpace c || c = '\n') = true) (hword : (head part c cs).isWord = true) :
    String.ofList (head part c cs).text ∈ words (c :: cs) := by
  have harrow : isArrow c = false := by
    have halpha : c.isAlpha = true := hword
    by_contra h
    simp only [Bool.not_eq_false, isArrow, List.contains_eq_mem, List.mem_cons, List.not_mem_nil,
      or_false, decide_eq_true_eq] at h
    rcases h with rfl | rfl | rfl | rfl <;> exact absurd halpha (by decide)
  exact List.mem_map_of_mem (List.mem_filter.mpr ⟨head_mem_elements hc harrow, hword⟩)

end Lexeme

/-! ### Macros that lead to one another -/

namespace MacroTable

/-- The replacement text of one macro has the name of another among its words. -/
def Mentions (t : MacroTable) (a b : String) : Prop :=
  ∃ m, t.get? a = some m ∧ b ∈ Lexeme.words m.value.toList

/-- No macro is reached from itself through the words of replacement texts. -/
def IsAcyclic (t : MacroTable) : Prop := ∀ a, ¬Relation.TransGen t.Mentions a a

/-- A name is among the words of a text, or is reached from them. -/
def Leads (t : MacroTable) (cs : List Char) (name : String) : Prop :=
  ∃ word ∈ Lexeme.words cs, Relation.ReflTransGen t.Mentions word name

theorem Leads.mono {t : MacroTable} {cs cs' : List Char} {name : String} (h : t.Leads cs name)
    (hsub : Lexeme.words cs ⊆ Lexeme.words cs') : t.Leads cs' name := by
  obtain ⟨word, hword, hreach⟩ := h
  exact ⟨word, hsub hword, hreach⟩

/-- Macros that are being expanded, none of which can be reached from a text. -/
structure Bypasses (t : MacroTable) (active : List String) (cs : List Char) : Prop where
  nodup : active.Nodup
  defined : ∀ name ∈ active, ∃ m ∈ t.macros, m.name = name
  apart : ∀ name ∈ active, ¬t.Leads cs name

variable {t : MacroTable} {active : List String} {cs cs' : List Char}

theorem Bypasses.mono (h : t.Bypasses active cs) (hsub : Lexeme.words cs' ⊆ Lexeme.words cs) :
    t.Bypasses active cs' :=
  ⟨h.nodup, h.defined, fun name hname hleads => h.apart name hname (hleads.mono hsub)⟩

theorem name_of_get? {name : String} {m : Macro} (h : t.get? name = some m) : m.name = name := by
  simpa using List.find?_some h

/-- Within the replacement text of a macro it is met by nothing that leads back to it. -/
theorem Bypasses.enter (h : t.Bypasses active cs) (hacyclic : t.IsAcyclic) {m : Macro}
    (hget : t.get? m.name = some m) (hword : m.name ∈ Lexeme.words cs) :
    t.Bypasses (m.name :: active) m.value.toList := by
  have hmem : m.name ∉ active := fun hactive => h.apart _ hactive ⟨m.name, hword, .refl⟩
  refine ⟨List.nodup_cons.mpr ⟨hmem, h.nodup⟩, ?_, ?_⟩
  · intro name hname
    rcases List.mem_cons.mp hname with rfl | hname
    · exact ⟨m, List.mem_of_find?_eq_some hget, rfl⟩
    · exact h.defined name hname
  · rintro name hname ⟨word, hvalue, hreach⟩
    have hmentions : t.Mentions m.name word := ⟨m, hget, hvalue⟩
    rcases List.mem_cons.mp hname with rfl | hname
    · exact hacyclic _ (.head' hmentions hreach)
    · exact h.apart name hname ⟨m.name, hword, hreach.head hmentions⟩

theorem bypasses_self (hacyclic : t.IsAcyclic) {m : Macro} (hget : t.get? m.name = some m) :
    t.Bypasses [m.name] m.value.toList := by
  refine ⟨List.nodup_singleton _, ?_, ?_⟩
  · intro name hname
    exact ⟨m, List.mem_of_find?_eq_some hget, (List.mem_singleton.mp hname).symm⟩
  · rintro name hname ⟨word, hvalue, hreach⟩
    rw [List.mem_singleton.mp hname] at hreach
    exact hacyclic _ (.head' ⟨m, hget, hvalue⟩ hreach)

/-- There is room for one more macro if there are as many as may be nested. -/
theorem Bypasses.length_lt (h : t.Bypasses active cs) (hsize : t.size ≤ 32) {m : Macro}
    (hget : t.get? m.name = some m) (hword : m.name ∈ Lexeme.words cs) :
    active.length < Expansion.maxDepth := by
  have hmem : m.name ∉ active := fun hactive => h.apart _ hactive ⟨m.name, hword, .refl⟩
  have hle : (m.name :: active).length ≤ t.size := by
    refine Expansion.Stage.length_le_size (List.nodup_cons.mpr ⟨hmem, h.nodup⟩) ?_
    intro name hname
    rcases List.mem_cons.mp hname with rfl | hname
    · exact ⟨m, List.mem_of_find?_eq_some hget, rfl⟩
    · exact h.defined name hname
  rw [List.length_cons] at hle
  exact lt_of_lt_of_le (Nat.lt_of_succ_le hle) hsize

end MacroTable

namespace Expansion

variable {t : MacroTable} {active : List String} {m : Macro}

theorem get?_of_reference? {part : Part} {c : Char} {cs : List Char}
    (hc : ¬(Lexeme.isSpace c || c = '\n') = true)
    (h : reference? t active (Lexeme.head part c cs) = some m) :
    t.get? m.name = some m ∧ m.name ∈ Lexeme.words (c :: cs) := by
  obtain ⟨hword, hget, -⟩ := reference?_eq_some h
  have hname := MacroTable.name_of_get? hget
  exact ⟨hname ▸ hget, hname ▸ Lexeme.mem_words_head hc hword⟩

/-- Whether an element of a text is a reference does not depend on macros that cannot be reached
from the text. -/
theorem reference?_bypassed {part : Part} {c : Char} {cs : List Char}
    (h : t.Bypasses active (c :: cs)) (hc : ¬(Lexeme.isSpace c || c = '\n') = true) :
    reference? t active (Lexeme.head part c cs) = reference? t [] (Lexeme.head part c cs) := by
  unfold reference?
  split
  · rename_i hword
    cases hget : t.get? (String.ofList (Lexeme.head part c cs).text) with
    | none => rfl
    | some m =>
      have hwords := Lexeme.mem_words_head hc hword
      rw [← MacroTable.name_of_get? hget] at hwords
      have hactive : m.name ∉ active := fun hactive => h.apart _ hactive ⟨_, hwords, .refl⟩
      rw [Option.filter_some, Option.filter_some]
      simp [hactive]
  · rfl

/-- What a text amounts to does not depend on macros that cannot be reached from it. -/
theorem ofText_bypassed (hsize : t.size ≤ 32) (hacyclic : t.IsAcyclic) (active : List String)
    (part : Part) (cs : List Char) :
    ∀ active', t.Bypasses active cs → t.Bypasses active' cs →
      (ofText t active' part cs).lexemes = (ofText t active part cs).lexemes ∧
        (ofText t active' part cs).part = (ofText t active part cs).part := by
  fun_induction ofText t active part cs with
  | case1 active part =>
    intro active' _ _
    rw [ofText]
    exact ⟨rfl, rfl⟩
  | case2 active part c cs hc ih =>
    intro active' h h'
    have hsub := Lexeme.words_blank_subset hc cs
    rw [ofText, if_pos hc]
    exact ih active' (h.mono hsub) (h'.mono hsub)
  | case3 active part c cs hc l hlen m hm inner ihinner ihrest =>
    intro active' h h'
    have hm' : reference? t active' (Lexeme.head part c cs) = some m := by
      rw [reference?_bypassed h' hc, ← reference?_bypassed h hc]
      exact hm
    obtain ⟨hget, hmem⟩ := get?_of_reference? hc hm
    have hdepth := h.length_lt hsize hget hmem
    have hdepth' := h'.length_lt hsize hget hmem
    obtain ⟨hlexemes, hpart⟩ := ihinner hdepth (m.name :: active') (h.enter hacyclic hget hmem)
      (h'.enter hacyclic hget hmem)
    have hsub := Lexeme.words_tail_subset hc part cs
    have hinner : inner = (ofText t (m.name :: active) part m.value.toList).inside m.name :=
      dif_pos hdepth
    have hrest := ihrest active' (h.mono hsub) (h'.mono hsub)
    rw [hinner] at hrest ⊢
    rw [ofText, if_neg hc]
    dsimp only
    rw [hm']
    dsimp only
    rw [if_pos hdepth']
    simp only [inside, after, hlexemes, hpart] at hrest ⊢
    rw [hrest.1, hrest.2]
    exact ⟨rfl, rfl⟩
  | case4 active part c cs hc l hlen hm ih =>
    intro active' h h'
    have hm' : reference? t active' (Lexeme.head part c cs) = none := by
      rw [reference?_bypassed h' hc, ← reference?_bypassed h hc]
      exact hm
    have hsub := Lexeme.words_tail_subset hc part cs
    obtain ⟨hlexemes, hpart⟩ := ih active' (h.mono hsub) (h'.mono hsub)
    rw [ofText, if_neg hc]
    dsimp only
    rw [hm']
    exact ⟨congrArg (_ ++ ·) hlexemes, hpart⟩

end Expansion

end Pearl
