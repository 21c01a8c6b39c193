import Pearl.Proofs.ReadingLoops
import Pearl.Proofs.StatementEvents

namespace Pearl

namespace Word

variable {w : Word}

theorem isSymbol_of_isIdentifier (h : w.isIdentifier = true) (spellings : List String) :
    w.isSymbol spellings = false := by
  have hkind : w.kind = .identifier := of_decide_eq_true h
  simp [isSymbol, hkind]

theorem isKeyword_of_isIdentifier (h : w.isIdentifier = true) (spellings : List String) :
    w.isKeyword spellings = false := by
  have hkind : w.kind = .identifier := of_decide_eq_true h
  simp [isKeyword, hkind]

end Word

namespace Event

theorem startsStatement_of_isIdentifier {w : Word} (h : w.isIdentifier = true) :
    startsStatement w = false := Word.isKeyword_of_isIdentifier h _

/-! ### Words that are cut off behind a name -/

/-- The second words are the first ones up to the name `t`, behind which `post` follows. No other
word stands at the place of the name. -/
inductive Cut (t : Word) (post : List Word) : List Word → List Word → Prop where
  | here (ht : t.isIdentifier = true) (hpost : ∀ w ∈ post, w.place ≠ t.place) :
      Cut t post (t :: post) [t]
  | cons {w : Word} {ws ws' : List Word} (hw : w.place ≠ t.place) (h : Cut t post ws ws') :
      Cut t post (w :: ws) (w :: ws')

variable {t w : Word} {post ws ws' : List Word}

namespace Cut

theorem isIdentifier (h : Cut t post ws ws') : t.isIdentifier = true := by
  induction h with
  | here ht _ => exact ht
  | cons _ _ ih => exact ih

theorem post_ne (h : Cut t post ws ws') : ∀ w ∈ post, w.place ≠ t.place := by
  induction h with
  | here _ hpost => exact hpost
  | cons _ _ ih => exact ih

theorem head?_eq (h : Cut t post ws ws') : ws'.head? = ws.head? := by
  cases h with
  | here => rfl
  | cons => rfl

theorem exists_front (h : Cut t post ws ws') :
    ∃ front, ws = front ++ t :: post ∧ ws' = front ++ [t] ∧
      ∀ w ∈ front, w.place ≠ t.place := by
  induction h with
  | here => exact ⟨[], rfl, rfl, by simp⟩
  | @cons w ws ws' hw _ ih =>
    obtain ⟨front, rfl, rfl, hfront⟩ := ih
    exact ⟨w :: front, rfl, rfl, List.forall_mem_cons.mpr ⟨hw, hfront⟩⟩

theorem eq_of_place (h : Cut t post ws ws') (hw : w ∈ ws) (hplace : w.place = t.place) : w = t := by
  obtain ⟨front, rfl, -, hfront⟩ := h.exists_front
  rcases List.mem_append.mp hw with hw | hw
  · exact absurd hplace (hfront w hw)
  · rcases List.mem_cons.mp hw with rfl | hw
    · rfl
    · exact absurd hplace (h.post_ne w hw)

/-- What is read before the name stands at other places. -/
theorem ne_of_mem {used rest rest' : List Word} (h : Cut t post ws ws') (hws : ws = used ++ rest)
    (hrest : Cut t post rest rest') : ∀ w ∈ used, w.place ≠ t.place := by
  obtain ⟨front, hfront, -, hne⟩ := h.exists_front
  obtain ⟨middle, rfl, -, -⟩ := hrest.exists_front
  rw [hfront, ← List.append_assoc] at hws
  rw [List.append_cancel_right hws] at hne
  intro w hw
  exact hne w (List.mem_append_left _ hw)

end Cut

theorem flawHere_cut (h : Cut t post ws ws') (f : SyntaxFlaw) (fallback : Word) :
    flawHere f fallback ws' = flawHere f fallback ws := by
  rw [flawHere, flawHere, List.headD_eq_head?_getD, List.headD_eq_head?_getD, h.head?_eq]

theorem atSymbol_cut (h : Cut t post ws ws') (spellings : List String) :
    atSymbol spellings ws' = atSymbol spellings ws := by
  rw [atSymbol, atSymbol, h.head?_eq]

theorem reference_cut (h : Cut t post ws ws') (prev : Option Word) (w : Word) (write : Bool) :
    reference prev w write ws' = reference prev w write ws := by
  rw [reference, reference, atSymbol_cut h]

/-! ### What is read of them -/

/-- Reading the words that are cut off gives the same, also what `same` says, and the name is still
to be read; or of the whole words the name has been read. -/
def Shortened (t : Word) (post : List Word) (same : Prop) (full cut : Reading) : Prop :=
  (same ∧ ∃ rest', cut = { full with rest := rest' } ∧ Cut t post full.rest rest') ∨
    full.rest <:+ post

variable {same same' : Prop}

theorem Cut.shortened (h : Cut t post ws ws') (hsame : same) (events : List Event) (last : Word) :
    Shortened t post same ⟨events, last, ws⟩ ⟨events, last, ws'⟩ := Or.inl ⟨hsame, ws', rfl, h⟩

theorem Cut.unread (h : Cut t post ws ws') (events : List Event) (last : Word) :
    Shortened t post True ⟨events, last, ws⟩ ⟨events, last, ws'⟩ := h.shortened trivial events last

/-- Two readings one after the other. -/
theorem Shortened.seq {full cut : Reading} {f g : Word → List Word → Reading}
    (h : Shortened t post same full cut) (hsuffix : ∀ prev ws, (f prev ws).rest <:+ ws)
    (hf : same → cut.last = full.last → Cut t post full.rest cut.rest →
      Shortened t post same' (f full.last full.rest) (g cut.last cut.rest)) :
    Shortened t post same'
      ⟨full.events ++ (f full.last full.rest).events, (f full.last full.rest).last,
        (f full.last full.rest).rest⟩
      ⟨cut.events ++ (g cut.last cut.rest).events, (g cut.last cut.rest).last,
        (g cut.last cut.rest).rest⟩ := by
  obtain ⟨hsame, rest', rfl, hcut⟩ | hbeyond := h
  · obtain ⟨hsame', rest'', hnext, hcut'⟩ | hbeyond := hf hsame rfl hcut
    · simp only [hnext]
      exact Or.inl ⟨hsame', rest'', rfl, hcut'⟩
    · exact Or.inr hbeyond
  · exact Or.inr ((hsuffix _ _).trans hbeyond)

/-- The same reader goes on. -/
theorem Shortened.andThen {full cut : Reading} (h : Shortened t post same full cut)
    (f : Word → List Word → Reading) (hsuffix : ∀ prev ws, (f prev ws).rest <:+ ws)
    (hf : same → Cut t post full.rest cut.rest →
      Shortened t post same' (f full.last full.rest) (f full.last cut.rest)) :
    Shortened t post same'
      ⟨full.events ++ (f full.last full.rest).events, (f full.last full.rest).last,
        (f full.last full.rest).rest⟩
      ⟨cut.events ++ (f cut.last cut.rest).events, (f cut.last cut.rest).last,
        (f cut.last cut.rest).rest⟩ := by
  apply h.seq hsuffix
  intro hsame hlast hcut
  rw [hlast]
  exact hf hsame hcut

theorem Shortened.mono {full cut : Reading} (h : Shortened t post same full cut)
    (himp : same → same') : Shortened t post same' full cut :=
  h.imp_left fun h => ⟨himp h.1, h.2⟩

/-- Words are passed over, and something is told of them. -/
theorem Shortened.told {last last' : Word} {rest rest' : List Word} {events events' : List Event}
    (h : Shortened t post same (silent (last, rest)) (silent (last', rest')))
    (hevents : same → Cut t post rest rest' → events' = events ∧ same') :
    Shortened t post same' ⟨events, last, rest⟩ ⟨events', last', rest'⟩ := by
  obtain ⟨hsame, rest'', hcut, hrest⟩ | hbeyond := h
  · cases hcut
    obtain ⟨rfl, hsame'⟩ := hevents hsame hrest
    exact Or.inl ⟨hsame', rest', rfl, hrest⟩
  · exact Or.inr hbeyond

/-! ### Clauses -/

theorem synchronize_cut (h : Cut t post ws ws') (prev : Word) :
    Shortened t post True (silent (synchronize prev ws)) (silent (synchronize prev ws')) := by
  induction h generalizing prev with
  | here ht _ =>
    have hname : synchronize prev (t :: post) = synchronize t post := by
      simp [synchronize, Word.isSymbol_of_isIdentifier ht, startsStatement_of_isIdentifier ht]
    rw [hname]
    exact Or.inr (synchronize_suffix t post)
  | @cons w ws ws' hw h ih =>
    simp only [synchronize]
    split
    · exact h.unread [] w
    · split
      · exact (h.cons hw).unread [] prev
      · exact ih w

theorem abandon_cut (h : Cut t post ws ws') (f : SyntaxFlaw) (fallback prev : Word) :
    Shortened t post True (abandon f fallback prev ws) (abandon f fallback prev ws') :=
  (synchronize_cut h prev).told fun _ _ => ⟨by rw [flawHere_cut h], trivial⟩

theorem finishStatement_cut (h : Cut t post ws ws') (keyword prev : Word) :
    Shortened t post True (finishStatement keyword prev ws) (finishStatement keyword prev ws') := by
  have habandon := abandon_cut h (.missingSemicolon keyword.text) keyword prev
  cases h with
  | here ht hpost => simpa [finishStatement, Word.isSymbol_of_isIdentifier ht] using habandon
  | @cons w ws ws' hw h =>
    simp only [finishStatement]
    split
    · exact h.unread [] w
    · exact habandon

/-! ### The first word -/

/-- A punctuation character that comes first is read, or the words are left as they are. -/
theorem symbol_cut {f : List Word → Reading} (h : Cut t post ws ws') (hsame : same)
    (spellings : List String) (told : Word → List Event) (last : Word)
    (hf : ∀ w ws, f (w :: ws) =
      if w.isSymbol spellings then ⟨[], w, ws⟩ else ⟨told w, last, w :: ws⟩) :
    Shortened t post same (f ws) (f ws') := by
  cases h with
  | here ht hpost =>
    rw [hf, hf, Word.isSymbol_of_isIdentifier ht]
    exact (Cut.here ht hpost).shortened hsame (told t) last
  | @cons w ws ws' hw h =>
    rw [hf, hf]
    split
    · exact h.shortened hsame [] w
    · exact (h.cons hw).shortened hsame (told w) last

/-- A name that comes first is read with what follows it, or the words are read in another way. -/
theorem name_cut {f other : List Word → Reading} {named : Word → List Word → Reading}
    (h : Cut t post ws ws') (hother : Shortened t post same (other ws) (other ws'))
    (hf : ∀ w ws, f (w :: ws) = if w.isIdentifier then named w ws else other (w :: ws))
    (hsuffix : ∀ w ws, (named w ws).rest <:+ ws)
    (hnamed : ∀ w {ws ws' : List Word}, Cut t post ws ws' →
      Shortened t post same (named w ws) (named w ws')) :
    Shortened t post same (f ws) (f ws') := by
  cases h with
  | here ht hpost =>
    rw [hf, if_pos ht]
    exact Or.inr (hsuffix t post)
  | @cons w ws ws' hw h =>
    rw [hf, hf]
    split
    · exact hnamed w h
    · exact hother

/-! ### Numbers of words -/

/-- So many of the words and so many of those that are cut off: the same number, in front of the
name; or of the one beyond the name, and of the other all. -/
inductive Reach (t : Word) (post : List Word) : List Word → List Word → Nat → Nat → Prop where
  | stop {ws ws' : List Word} (h : Cut t post ws ws') : Reach t post ws ws' 0 0
  | past (h : Cut t post (t :: post) [t]) (n : Nat) : Reach t post (t :: post) [t] (n + 1) 1
  | cons {w : Word} {ws ws' : List Word} {n n' : Nat} (hw : w.place ≠ t.place)
      (h : Reach t post ws ws' n n') : Reach t post (w :: ws) (w :: ws') (n + 1) (n' + 1)

variable {n n' : Nat}

theorem Reach.cut (h : Reach t post ws ws' n n') : Cut t post ws ws' := by
  induction h with
  | stop h => exact h
  | past h => exact h
  | cons hw _ ih => exact ih.cons hw

theorem Reach.drop_cases (h : Reach t post ws ws' n n') :
    (n' = n ∧ ws'.take (n + 1) = ws.take (n + 1) ∧ Cut t post (ws.drop n) (ws'.drop n)) ∨
      ws.drop n <:+ post := by
  induction h with
  | @stop ws ws' h =>
    refine Or.inl ⟨rfl, ?_, h⟩
    cases h with
    | here => simp
    | cons => simp
  | past _ n => exact Or.inr (List.drop_suffix n post)
  | @cons w ws ws' n n' _ _ ih =>
    obtain ⟨rfl, htake, hcut⟩ | hbeyond := ih
    · exact Or.inl ⟨rfl, by rw [List.take_succ_cons, List.take_succ_cons, htake], hcut⟩
    · exact Or.inr hbeyond

theorem clauseSize_reach (h : Cut t post ws ws') :
    Reach t post ws ws' (clauseSize ws) (clauseSize ws') := by
  induction h with
  | here ht hpost =>
    simp only [clauseSize, Word.isSymbol_of_isIdentifier ht, startsStatement_of_isIdentifier ht]
    exact .past (.here ht hpost) _
  | cons hw h ih =>
    simp only [clauseSize]
    split
    · exact .stop (h.cons hw)
    · exact .cons hw ih

theorem groupSize_reach (h : Cut t post ws ws') (depth : Nat) :
    Reach t post ws ws' (groupSize depth ws) (groupSize depth ws') := by
  induction h generalizing depth with
  | here ht hpost =>
    simp only [groupSize, Word.isSymbol_of_isIdentifier ht]
    exact .past (.here ht hpost) _
  | cons hw h ih =>
    simp only [groupSize]
    split
    · exact .cons hw (ih (depth + 1))
    · split
      · cases depth with
        | zero => exact .stop (h.cons hw)
        | succ depth => exact .cons hw (ih depth)
      · split
        · exact .stop (h.cons hw)
        · exact .cons hw (ih depth)

theorem namesSize_reach (h : Cut t post ws ws') :
    Reach t post ws ws' (namesSize ws) (namesSize ws') := by
  induction h with
  | here ht hpost =>
    simp only [namesSize, ht]
    exact .past (.here ht hpost) _
  | cons hw h ih =>
    simp only [namesSize]
    split
    · exact .cons hw ih
    · exact .stop (h.cons hw)

theorem typeSize_reach (h : Cut t post ws ws') (depth : Nat) :
    Reach t post ws ws' (typeSize depth ws) (typeSize depth ws') := by
  induction h generalizing depth with
  | here ht hpost =>
    simp only [typeSize, Word.isSymbol_of_isIdentifier ht, Bool.and_false]
    exact .past (.here ht hpost) _
  | cons hw h ih =>
    simp only [typeSize]
    split
    · exact .stop (h.cons hw)
    · split
      · exact .stop (h.cons hw)
      · split
        · exact .cons hw (ih (depth + 1))
        · split
          · exact .cons hw (ih (depth - 1))
          · exact .cons hw (ih depth)

/-! ### What the first words settle -/

theorem lastOf_eq (prev : Word) (n : Nat) (ws : List Word) :
    lastOf prev n ws = (ws.take n).getLast?.getD prev := by
  fun_induction lastOf prev n ws with
  | case1 => simp
  | case2 => simp
  | case3 prev n w rest ih => rw [ih, List.take_succ_cons, List.getLast?_cons, Option.getD_some]

theorem atSymbol_take (spellings : List String) (n : Nat) (ws : List Word) :
    atSymbol spellings (ws.take (n + 1)) = atSymbol spellings ws := by
  cases ws with
  | nil => rfl
  | cons => rfl

/-! ### Words that are told one by one -/

/-- The event resolves no name. -/
def isSilent (e : Event) : Bool := !e.isReference

/-- Events of the first words that are told word by word: a name tells its reference; what another
word tells is settled by the word, and resolves nothing. -/
structure Clausal (f : Word → Nat → List Word → List Event) : Prop where
  zero : ∀ prev ws, f prev 0 ws = []
  nil : ∀ prev n, f prev n [] = []
  name : ∀ prev w, w.isIdentifier = true → ∀ n ws,
    f prev (n + 1) (w :: ws) = reference (some prev) w false ws ++ f w n ws
  other : ∀ prev w, w.isIdentifier = false → ∃ told, Only isSilent told ∧
    ∀ n ws, f prev (n + 1) (w :: ws) = told ++ f w n ws

theorem references_clausal : Clausal references := by
  refine ⟨fun _ _ => rfl, ?_, ?_, ?_⟩
  · intro prev n
    cases n <;> rfl
  · intro prev w hw n ws
    simp [references, hw]
  · intro prev w hw
    exact ⟨[], only_nil, by simp [references, hw]⟩

theorem taskClause_clausal (keyword : Word) (priority : Bool) :
    Clausal (taskClause keyword priority) := by
  refine ⟨fun _ _ => rfl, ?_, ?_, ?_⟩
  · intro prev n
    cases n <;> rfl
  · intro prev w hw n ws
    simp [taskClause, hw, Word.isKeyword_of_isIdentifier hw]
  · intro prev w hw
    refine ⟨if w.isKeyword ["PRIO", "PRIORITY"] then
      if priority then [] else [.flaw (.forbiddenPriority keyword.text w.text) w.place] else [],
      ?_, by simp [taskClause, hw]⟩
    split
    · split
      · exact only_nil
      · exact only_singleton rfl
    · exact only_nil

theorem reference_take (prev : Option Word) (w : Word) (write : Bool) (n : Nat) (ws : List Word) :
    reference prev w write (ws.take (n + 1)) = reference prev w write ws := by
  rw [reference, reference, atSymbol_take]

/-- What is told of the first words is settled by them and the next one. -/
theorem Clausal.take {f : Word → Nat → List Word → List Event} (h : Clausal f) (prev : Word)
    (n : Nat) (ws : List Word) : f prev n (ws.take (n + 1)) = f prev n ws := by
  induction n generalizing prev ws with
  | zero => rw [h.zero, h.zero]
  | succ n ih =>
    cases ws with
    | nil => rw [List.take_nil]
    | cons w ws =>
      rw [List.take_succ_cons]
      cases hname : w.isIdentifier with
      | true => rw [h.name prev w hname, h.name prev w hname, reference_take, ih]
      | false =>
        obtain ⟨told, -, htold⟩ := h.other prev w hname
        rw [htold, htold, ih]

/-- Words that are passed over, with what is told of them. -/
theorem Reach.shortened (h : Reach t post ws ws' n n') (prev : Word) :
    Shortened t post (n' = n ∧ ws'.take (n + 1) = ws.take (n + 1))
      (silent (lastOf prev n ws, ws.drop n)) (silent (lastOf prev n' ws', ws'.drop n')) := by
  obtain ⟨rfl, htake, hcut⟩ | hbeyond := h.drop_cases
  · have hlast : lastOf prev n' ws' = lastOf prev n' ws := by
      have hfirst := congrArg (List.take n') htake
      rw [List.take_take, List.take_take, Nat.min_eq_left (Nat.le_succ n')] at hfirst
      rw [lastOf_eq, lastOf_eq, hfirst]
    rw [hlast]
    exact hcut.shortened ⟨rfl, htake⟩ [] _
  · exact Or.inr hbeyond

/-- The same is told of the same words. -/
theorem Reach.told (h : Reach t post ws ws' n n') (events : Nat → List Word → List Event)
    (htake : ∀ n ws, events n (ws.take (n + 1)) = events n ws) (prev : Word) :
    Shortened t post (ws'.take n' = ws.take n) ⟨events n ws, lastOf prev n ws, ws.drop n⟩
      ⟨events n' ws', lastOf prev n' ws', ws'.drop n'⟩ := by
  apply (h.shortened prev).told
  rintro ⟨rfl, hfirst⟩ _
  rw [← htake n' ws', hfirst, htake]
  have hinner := congrArg (List.take n') hfirst
  rw [List.take_take, List.take_take, Nat.min_eq_left (Nat.le_succ n')] at hinner
  exact ⟨rfl, hinner⟩

/-! ### Groups and names -/

theorem groupEnd_cut (h : Cut t post ws ws') (hsame : same) (opening last : Word) :
    Shortened t post same (groupEnd opening last ws) (groupEnd opening last ws') :=
  symbol_cut h hsame [")", "]"]
    (fun w => [.flaw (.missingBracket (closingBracket opening)) w.place]) last fun _ _ => rfl

theorem group_cut (h : Cut t post ws ws') (resolve : Bool) (opening : Word) :
    Shortened t post ((group resolve opening ws').inner = (group resolve opening ws).inner)
      (group resolve opening ws).reading (group resolve opening ws').reading := by
  have hinner := (groupSize_reach h 0).told
    (fun n ws => if resolve then references opening n ws else [])
    (by simp [references_clausal.take]) opening
  exact hinner.andThen (groupEnd opening) (groupEnd_suffix opening) fun hsame hcut =>
    groupEnd_cut hcut hsame opening _

/-- A group that may be there is there in both, or in none. -/
theorem optionalGroup_cut (h : Cut t post ws ws') (brackets : List String) (resolve : Bool)
    (prev : Word) :
    Shortened t post
      ((optionalGroup brackets resolve ws').map (·.inner) =
        (optionalGroup brackets resolve ws).map (·.inner))
      ⟨groupEvents (optionalGroup brackets resolve ws),
        (afterGroup (optionalGroup brackets resolve ws) prev ws).1,
        (afterGroup (optionalGroup brackets resolve ws) prev ws).2⟩
      ⟨groupEvents (optionalGroup brackets resolve ws'),
        (afterGroup (optionalGroup brackets resolve ws') prev ws').1,
        (afterGroup (optionalGroup brackets resolve ws') prev ws').2⟩ := by
  cases h with
  | here ht hpost =>
    simp only [optionalGroup, Word.isSymbol_of_isIdentifier ht]
    exact (Cut.here ht hpost).shortened rfl _ _
  | @cons w ws ws' hw h =>
    simp only [optionalGroup]
    split
    · obtain ⟨hinner, rest', hcut, hrest⟩ | hbeyond := group_cut h resolve w
      · refine Or.inl ⟨congrArg some hinner, rest', ?_, hrest⟩
        simp [groupEvents, afterGroup, hcut]
      · exact Or.inr hbeyond
    · exact (h.cons hw).shortened rfl _ _

/-- What is left behind names. -/
def Names.passed (ns : Names) : Reading := silent (ns.last, ns.rest)

theorem names_namesEnd (names : List Word) (last : Word) (ws : List Word) :
    (namesEnd names last ws).names = names := by
  unfold namesEnd
  split
  · split <;> rfl
  · rfl

theorem closed_namesEnd (names : List Word) (last : Word) (ws : List Word) :
    (namesEnd names last ws).closed = atSymbol [")"] ws := by
  cases ws with
  | nil => rfl
  | cons w ws =>
    cases hw : w.isSymbol [")"] with
    | true => simp [namesEnd, atSymbol, hw]
    | false => simp [namesEnd, atSymbol, hw]

theorem namesEnd_cut (h : Cut t post ws ws') (hsame : same) (names : List Word) (last : Word) :
    Shortened t post same (namesEnd names last ws).passed (namesEnd names last ws').passed := by
  apply symbol_cut h hsame [")"] (fun _ => []) last
  intro w ws
  cases hw : w.isSymbol [")"] <;> simp [namesEnd, Names.passed, silent, hw]

theorem bracketedNames_cut (h : Cut t post ws ws') (opening : Word) :
    Shortened t post ((bracketedNames opening ws').names = (bracketedNames opening ws).names ∧
        (bracketedNames opening ws').closed = (bracketedNames opening ws).closed)
      (bracketedNames opening ws).passed (bracketedNames opening ws').passed := by
  have hinner := (namesSize_reach h).told (fun _ _ => []) (fun _ _ => rfl) opening
  refine hinner.seq (f := fun last rest => (namesEnd _ last rest).passed)
    (g := fun last rest => (namesEnd _ last rest).passed) (namesEnd_suffix _) ?_
  intro htake hlast hcut
  dsimp only at hlast ⊢
  rw [hlast, htake]
  apply namesEnd_cut hcut
  simp only [bracketedNames, names_namesEnd, closed_namesEnd]
  exact ⟨by rw [htake], atSymbol_cut hcut _⟩

/-- Names that are read of the whole words are read of the words that are cut off. -/
theorem names?_cut (h : Cut t post ws ws') {ns : Names} (hns : names? w ws = some ns) :
    (∃ rest', names? w ws' = some { ns with rest := rest' } ∧ Cut t post ns.rest rest') ∨
      ns.rest <:+ post := by
  unfold names? at hns ⊢
  split at hns
  · rename_i hopen
    cases hns
    rw [if_pos hopen]
    obtain ⟨⟨hnames, hclosed⟩, rest', hpassed, hcut⟩ | hbeyond := bracketedNames_cut h w
    · refine Or.inl ⟨rest', ?_, hcut⟩
      have hlast : (bracketedNames w ws').last = (bracketedNames w ws).last :=
        congrArg Reading.last hpassed
      have hrest : (bracketedNames w ws').rest = rest' := congrArg Reading.rest hpassed
      rw [← hnames, ← hclosed, ← hlast, ← hrest]
    · exact Or.inr hbeyond
  · rename_i hopen
    rw [if_neg hopen]
    split at hns
    · rename_i hname
      cases hns
      rw [if_pos hname]
      exact Or.inl ⟨ws', rfl, h⟩
    · cases hns

theorem names?_eq_none (hns : names? w ws = none) (ws' : List Word) : names? w ws' = none := by
  unfold names? at hns ⊢
  split at hns
  · cases hns
  · rename_i hopen
    rw [if_neg hopen]
    split at hns
    · cases hns
    · rename_i hname
      rw [if_neg hname]

end Event

end Pearl
