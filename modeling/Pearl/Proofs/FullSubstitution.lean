import Mathlib.Data.List.SplitBy
import Pearl.Proofs.MacroReach

namespace Pearl

/-! ### Texts in pieces -/

namespace Text

/-- Two characters in a row belong to one word. -/
def joins (a b : Char) : Bool := isWordChar a && isWordChar b

/-- A text cut into its words, each as long as can be, and the single characters between them. -/
def pieces (cs : List Char) : List (List Char) := cs.splitBy joins

theorem flatten_pieces (cs : List Char) : (pieces cs).flatten = cs := List.flatten_splitBy joins cs

/-- Texts that do not meet within a word are cut each on its own. -/
theorem pieces_append {a b : List Char}
    (h : ∀ x ∈ a.getLast?, ∀ y ∈ b.head?, isWordChar x = false ∨ isWordChar y = false) :
    pieces (a ++ b) = pieces a ++ pieces b := by
  apply List.splitBy_append
  intro x hx y hy
  exact Bool.and_eq_false_iff.mpr (h x hx y hy)

theorem pieces_word {c : Char} (hc : isWordChar c = true) (cs : List Char) :
    pieces (c :: cs.takeWhile isWordChar) = [c :: cs.takeWhile isWordChar] := by
  have hword : ∀ d ∈ c :: cs.takeWhile isWordChar, isWordChar d = true :=
    List.forall_mem_cons.mpr ⟨hc, fun d hd => List.mem_takeWhile_imp hd⟩
  apply List.splitBy_of_isChain (List.cons_ne_nil _ _)
  refine (List.pairwise_of_forall_mem_list fun a ha b hb => ?_).isChain
  rw [joins, hword a ha, hword b hb]
  rfl

/-- What follows a word does not start with a word. -/
theorem not_isWordChar_of_head?_dropWhile {cs : List Char} {c : Char}
    (h : c ∈ (cs.dropWhile isWordChar).head?) : isWordChar c = false := by
  have hhead := List.head?_dropWhile_not isWordChar cs
  rw [h] at hhead
  simpa using hhead

theorem pieces_cons_of_word {c : Char} (hc : isWordChar c = true) (cs : List Char) :
    pieces (c :: cs) = (c :: cs.takeWhile isWordChar) :: pieces (cs.dropWhile isWordChar) := by
  have happend : pieces ((c :: cs.takeWhile isWordChar) ++ cs.dropWhile isWordChar) =
      pieces (c :: cs.takeWhile isWordChar) ++ pieces (cs.dropWhile isWordChar) :=
    pieces_append fun _ _ _ hy => .inr (not_isWordChar_of_head?_dropWhile hy)
  rw [List.cons_append, List.takeWhile_append_dropWhile, pieces_word hc] at happend
  exact happend

theorem pieces_cons_of_not_word {c : Char} (hc : isWordChar c = false) (cs : List Char) :
    pieces (c :: cs) = [c] :: pieces cs := by
  have hsingle : pieces [c] = [[c]] := List.splitBy_of_isChain (by simp) (.singleton c)
  have happend : pieces ([c] ++ cs) = pieces [c] ++ pieces cs := by
    apply pieces_append
    intro x hx _ _
    obtain rfl : c = x := by simpa using hx
    exact .inl hc
  rw [hsingle] at happend
  exact happend

end Text

namespace MacroTable

open Text

variable {t : MacroTable}

/-- The macro that a piece is the name of. Only names that start with an ASCII letter are looked
up. -/
def named? (t : MacroTable) (piece : List Char) : Option Macro :=
  if piece.head?.any Char.isAlpha then t.get? (String.ofList piece) else none

theorem get?_of_named? {piece : List Char} {m : Macro} (h : t.named? piece = some m) :
    t.get? m.name = some m := by
  unfold named? at h
  split at h
  · rw [name_of_get? h]
    exact h
  · cases h

theorem named?_of_not_word {c : Char} (hc : isWordChar c = false) (t : MacroTable) :
    t.named? [c] = none := by
  have halpha : c.isAlpha = false := by
    by_contra h
    rw [isWordChar_of_isAlpha (by simpa using h)] at hc
    cases hc
  simp [named?, halpha]

/-! ### One pass over a text -/

theorem replaceWord_eq (t : MacroTable) (piece : List Char) :
    t.replaceWord piece = ((t.named? piece).map (·.value.toList)).getD piece := by
  cases piece with
  | nil => rfl
  | cons c cs =>
    change (if c.isAlpha = true then _ else _) =
      (Option.map _ (if c.isAlpha = true then _ else _)).getD _
    by_cases hc : c.isAlpha = true
    · rw [if_pos hc, if_pos hc]
      cases t.get? (String.ofList (c :: cs)) <;> rfl
    · rw [if_neg hc, if_neg hc]
      rfl

theorem isReplaced_eq (t : MacroTable) (piece : List Char) :
    t.isReplaced piece = (t.named? piece).isSome := by
  unfold isReplaced named? contains
  cases piece.head?.any Char.isAlpha <;> simp

theorem occursIn_eq_false_iff (t : MacroTable) (cs : List Char) :
    t.occursIn cs = false ↔ ∀ piece ∈ pieces cs, t.named? piece = none := by
  fun_induction occursIn t cs with
  | case1 => simp [pieces]
  | case2 c rest hc ih =>
    rw [pieces_cons_of_word hc, Bool.or_eq_false_iff, ih, isReplaced_eq]
    simp
  | case3 c rest hc ih =>
    have hword : isWordChar c = false := by simpa using hc
    rw [pieces_cons_of_not_word hword, ih]
    simp [named?_of_not_word hword]

def replacement (t : MacroTable) (piece : List Char) : List (List Char) :=
  match t.named? piece with
  | some m => pieces m.value.toList
  | none => [piece]

/-- A text that starts with no word still does so after a pass. -/
theorem head?_replaceOnce {cs : List Char} (h : ∀ c ∈ cs.head?, isWordChar c = false) :
    ∀ c ∈ (t.replaceOnce cs).head?, isWordChar c = false := by
  cases cs with
  | nil => simp [replaceOnce]
  | cons d rest =>
    have hd := h d rfl
    rw [replaceOnce, hd]
    simpa using hd

/-- A pass treats each piece on its own: what it puts in the place of a word does not grow
together with what stands beside it. -/
theorem pieces_replaceOnce (t : MacroTable) (cs : List Char) :
    pieces (t.replaceOnce cs) = (pieces cs).flatMap t.replacement := by
  fun_induction replaceOnce t cs with
  | case1 => rfl
  | case2 c rest hc ih =>
    have hword : pieces (t.replaceWord (c :: rest.takeWhile isWordChar)) =
        t.replacement (c :: rest.takeWhile isWordChar) := by
      rw [replaceWord_eq, replacement]
      cases t.named? (c :: rest.takeWhile isWordChar) with
      | some m => rfl
      | none => exact pieces_word hc rest
    rw [pieces_append, hword, ih, pieces_cons_of_word hc, List.flatMap_cons]
    -- whatever the value of the macro ends with, no word follows on it
    intro x _ y hy
    exact .inr (head?_replaceOnce (fun d hd => not_isWordChar_of_head?_dropWhile hd) y hy)
  | case3 c rest hc ih =>
    have hword : isWordChar c = false := by simpa using hc
    rw [pieces_cons_of_not_word hword, pieces_cons_of_not_word hword, ih, List.flatMap_cons,
      replacement, named?_of_not_word hword]
    rfl

/-! ### Full expansion -/

/-- Pieces expand fully: each one that is the name of a macro gives way to the full expansion of
the value of the macro, the others stay. -/
inductive Expands (t : MacroTable) : List (List Char) → List Char → Prop where
  | nil : Expands t [] []
  | plain {piece : List Char} {rest : List (List Char)} {out : List Char}
      (h : t.named? piece = none) (hrest : Expands t rest out) :
      Expands t (piece :: rest) (piece ++ out)
  | named {piece : List Char} {rest : List (List Char)} {m : Macro} {inner out : List Char}
      (h : t.named? piece = some m) (hvalue : Expands t (pieces m.value.toList) inner)
      (hrest : Expands t rest out) : Expands t (piece :: rest) (inner ++ out)

namespace Expands

theorem unique {ps : List (List Char)} {out out' : List Char} (h : t.Expands ps out)
    (h' : t.Expands ps out') : out = out' := by
  induction h generalizing out' with
  | nil =>
    cases h'
    rfl
  | plain h _ ih =>
    cases h' with
    | plain _ hrest' => rw [ih hrest']
    | named h' => rw [h] at h'; cases h'
  | named h _ _ ihvalue ihrest =>
    cases h' with
    | plain h' => rw [h] at h'; cases h'
    | named h' hvalue' hrest' =>
      rw [h] at h'
      cases h'
      rw [ihvalue hvalue', ihrest hrest']

theorem exists_append {ps qs : List (List Char)} {out : List Char} (h : t.Expands (ps ++ qs) out) :
    ∃ first last, out = first ++ last ∧ t.Expands ps first ∧ t.Expands qs last := by
  induction ps generalizing out with
  | nil => exact ⟨[], out, rfl, .nil, h⟩
  | cons p ps ih =>
    cases h with
    | plain hp hrest =>
      obtain ⟨first, last, rfl, hfirst, hlast⟩ := ih hrest
      exact ⟨p ++ first, last, (List.append_assoc ..).symm, .plain hp hfirst, hlast⟩
    | @named _ _ m inner _ hp hvalue hrest =>
      obtain ⟨first, last, rfl, hfirst, hlast⟩ := ih hrest
      exact ⟨inner ++ first, last, (List.append_assoc ..).symm, .named hp hvalue hfirst, hlast⟩

/-- A text without the name of a macro stays as it is. -/
theorem self {cs : List Char} (h : ∀ p ∈ pieces cs, t.named? p = none) :
    t.Expands (pieces cs) cs := by
  have hflatten : ∀ ps : List (List Char), (∀ p ∈ ps, t.named? p = none) →
      t.Expands ps ps.flatten := by
    -- the pieces have to vary in the induction, not the text
    intro ps hps
    induction ps with
    | nil => exact .nil
    | cons p ps ih =>
      exact .plain (hps p List.mem_cons_self) (ih fun q hq => hps q (List.mem_cons_of_mem p hq))
  have hexpands := hflatten (pieces cs) h
  rwa [flatten_pieces] at hexpands

/-- What a pass makes of pieces expands to what they expand to. -/
theorem of_replacement {ps : List (List Char)} {out : List Char}
    (h : t.Expands (ps.flatMap t.replacement) out) : t.Expands ps out := by
  induction ps generalizing out with
  | nil => exact h
  | cons p ps ih =>
    rw [List.flatMap_cons] at h
    obtain ⟨first, last, rfl, hfirst, hlast⟩ := exists_append h
    unfold replacement at hfirst
    cases hp : t.named? p with
    | some m =>
      rw [hp] at hfirst
      exact .named hp hfirst (ih hlast)
    | none =>
      rw [hp] at hfirst
      have hsingle : t.Expands [p] (p ++ []) := .plain hp .nil
      rw [hfirst.unique hsingle, List.append_nil]
      exact .plain hp (ih hlast)

end Expands

/-! ### As many passes as macros follow one another -/

/-- The name of one macro is among the pieces of the value of another. -/
def Invokes (t : MacroTable) (m m' : Macro) : Prop :=
  ∃ piece ∈ pieces m.value.toList, t.named? piece = some m'

/-- Macros in force, each of which has the name of the next one in its value. -/
structure IsPath (t : MacroTable) (path : List Macro) : Prop where
  inForce : ∀ m ∈ path, t.get? m.name = some m
  linked : path.IsChain t.Invokes
  nodup : path.Nodup

theorem isPath_singleton {piece : List Char} {m : Macro} (h : t.named? piece = some m) :
    t.IsPath [m] := by
  refine ⟨?_, .singleton m, List.nodup_singleton m⟩
  intro m' hm'
  rw [List.mem_singleton.mp hm']
  exact get?_of_named? h

/-- Where no macro reaches itself, a path can be extended by any macro that leads to it. -/
theorem IsPath.cons (hacyclic : ∀ m, ¬Relation.TransGen t.Invokes m m) {m m' : Macro}
    {path : List Macro} (h : t.IsPath (m' :: path)) (hm : t.get? m.name = some m)
    (hlink : t.Invokes m m') : t.IsPath (m :: m' :: path) := by
  have hlinked : (m :: m' :: path).IsChain t.Invokes := .cons_cons hlink h.linked
  refine ⟨List.forall_mem_cons.mpr ⟨hm, h.inForce⟩, hlinked, List.nodup_cons.mpr ⟨?_, h.nodup⟩⟩
  intro hmem
  have hreach : (m :: m' :: path).Pairwise (Relation.TransGen t.Invokes) :=
    List.isChain_iff_pairwise.mp (hlinked.imp fun _ _ => .single)
  exact hacyclic m (List.rel_of_pairwise_cons hreach hmem)

theorem IsPath.length_le_size {path : List Macro} (h : t.IsPath path) : path.length ≤ t.size := by
  have hsubset : path ⊆ t.macros := fun m hm => List.mem_of_find?_eq_some (h.inForce m hm)
  exact (h.nodup.subperm hsubset).length_le

/-- No macro reaches itself if the value of each macro in force names lower ones only. -/
theorem not_transGen_invokes (rank : Macro → Nat)
    (h : ∀ m ∈ t.macros, ∀ piece ∈ pieces m.value.toList, ∀ m' ∈ t.named? piece,
      rank m' < rank m) (m : Macro) : ¬Relation.TransGen t.Invokes m m := by
  have hmem : ∀ {a b}, t.Invokes a b → b ∈ t.macros := by
    rintro a b ⟨piece, -, hb⟩
    exact List.mem_of_find?_eq_some (get?_of_named? hb)
  have hlower : ∀ {a b}, Relation.TransGen t.Invokes a b → a ∈ t.macros → rank b < rank a := by
    intro a b hreach ha
    induction hreach with
    | single hstep =>
      obtain ⟨piece, hpiece, hb⟩ := hstep
      exact h a ha piece hpiece _ hb
    | tail hsteps hstep ih =>
      obtain ⟨piece, hpiece, hb⟩ := hstep
      obtain ⟨_, _, hlast⟩ := Relation.TransGen.tail'_iff.mp hsteps
      exact (h _ (hmem hlast) piece hpiece _ hb).trans ih
  intro hloop
  obtain ⟨_, _, hlast⟩ := Relation.TransGen.tail'_iff.mp hloop
  exact (hlower hloop (hmem hlast)).false

/-- Fewer than `n` macros follow the one that a piece is the name of. -/
def Within (t : MacroTable) (n : Nat) (ps : List (List Char)) : Prop :=
  ∀ p ∈ ps, ∀ m, t.named? p = some m → ∀ path, t.IsPath (m :: path) → path.length < n

theorem Within.named?_eq_none {ps : List (List Char)} (h : t.Within 0 ps) :
    ∀ p ∈ ps, t.named? p = none := by
  intro p hp
  cases hm : t.named? p with
  | none => rfl
  | some m => exact absurd (h p hp m hm [] (isPath_singleton hm)) (Nat.not_lt_zero _)

/-- Each pass brings the end of every path one macro nearer. -/
theorem Within.replacement (hacyclic : ∀ m, ¬Relation.TransGen t.Invokes m m) {n : Nat}
    {ps : List (List Char)} (h : t.Within (n + 1) ps) : t.Within n (ps.flatMap t.replacement) := by
  intro q hq m' hm' path hpath
  obtain ⟨p, hp, hq⟩ := List.mem_flatMap.mp hq
  unfold MacroTable.replacement at hq
  cases hm : t.named? p with
  | none =>
    rw [hm] at hq
    rw [List.mem_singleton.mp hq, hm] at hm'
    cases hm'
  | some m =>
    rw [hm] at hq
    have hlonger := hpath.cons hacyclic (get?_of_named? hm) ⟨q, hq, hm'⟩
    exact Nat.lt_of_succ_lt_succ (h p hp m hm (m' :: path) hlonger)

/-- Enough passes expand a text fully and leave no name of a macro in it. -/
theorem expands_replacePasses (hacyclic : ∀ m, ¬Relation.TransGen t.Invokes m m) (n : Nat)
    (cs : List Char) (h : t.Within n (pieces cs)) :
    t.Expands (pieces cs) (t.replacePasses n cs) ∧
      ∀ p ∈ pieces (t.replacePasses n cs), t.named? p = none := by
  -- a pass leads to pieces that expand alike, with one macro less to follow
  induction n generalizing cs with
  | zero => exact ⟨.self h.named?_eq_none, h.named?_eq_none⟩
  | succ n ih =>
    rw [replacePasses]
    split
    · have hwithin : t.Within n (pieces (t.replaceOnce cs)) := by
        rw [pieces_replaceOnce]
        exact h.replacement hacyclic
      obtain ⟨hexpands, hnone⟩ := ih (t.replaceOnce cs) hwithin
      rw [pieces_replaceOnce] at hexpands
      exact ⟨hexpands.of_replacement, hnone⟩
    · rename_i hoccurs
      have hnone := (t.occursIn_eq_false_iff cs).mp (by simpa using hoccurs)
      exact ⟨.self hnone, hnone⟩

theorem replacePasses_of_named?_eq_none (n : Nat) {cs : List Char}
    (h : ∀ p ∈ pieces cs, t.named? p = none) : t.replacePasses n cs = cs := by
  cases n with
  | zero => rfl
  | succ n => rw [replacePasses, (t.occursIn_eq_false_iff cs).mpr h, if_neg (by simp)]

/-- Where no macro reaches itself and at most 16 macros follow one another, substitution is full
expansion: its result is the one text to which the pieces expand, has no name of a macro left, and
is not changed by another substitution. -/
theorem substitute_expands (t : MacroTable) (hacyclic : ∀ m, ¬Relation.TransGen t.Invokes m m)
    (hshort : ∀ path, t.IsPath path → path.length ≤ 16) (text : String) :
    (∀ out, t.Expands (pieces text.toList) out ↔ out = (t.substitute text).toList) ∧
      (∀ p ∈ pieces (t.substitute text).toList, t.named? p = none) ∧
      t.substitute (t.substitute text) = t.substitute text := by
  have hwithin : t.Within maxPasses (pieces text.toList) :=
    fun p _ m _ path hpath => hshort (m :: path) hpath
  obtain ⟨hexpands, hnone⟩ := expands_replacePasses hacyclic maxPasses text.toList hwithin
  have hresult : (t.substitute text).toList = t.replacePasses maxPasses text.toList :=
    String.toList_ofList
  rw [← hresult] at hexpands hnone
  refine ⟨fun out => ⟨fun h => h.unique hexpands, fun h => h ▸ hexpands⟩, hnone, ?_⟩
  rw [substitute, replacePasses_of_named?_eq_none maxPasses hnone, String.ofList_toList]

/-- Names within names, one of them twice, and a longer word that is no name. -/
theorem substitute_expands_nested_names :
    let t : MacroTable := ⟨[⟨"DIR", "lib/SUB/SUB", none⟩, ⟨"SUB", "SUB_A-VER", none⟩,
      ⟨"VER", "v2", none⟩]⟩
    (∀ m, ¬Relation.TransGen t.Invokes m m) ∧ (∀ path, t.IsPath path → path.length ≤ 16) ∧
      t.Expands (pieces "DIR/VER.p".toList) "lib/SUB_A-v2/SUB_A-v2/v2.p".toList := by
  intro t
  have hacyclic : ∀ m, ¬Relation.TransGen t.Invokes m m :=
    not_transGen_invokes (·.value.length) (by decide +kernel)
  have hshort : ∀ path, t.IsPath path → path.length ≤ 16 :=
    fun path hpath => hpath.length_le_size.trans (by decide)
  have hresult : "lib/SUB_A-v2/SUB_A-v2/v2.p".toList = (t.substitute "DIR/VER.p").toList := by
    decide +kernel
  exact ⟨hacyclic, hshort,
    ((substitute_expands t hacyclic hshort "DIR/VER.p").1 _).mpr hresult⟩

end MacroTable

end Pearl
