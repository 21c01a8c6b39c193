import Pearl.Event.Statement

namespace Pearl.Event

/-! ### Loops over words -/

/-- What one round of a loop comes to. -/
inductive Round (σ ρ : Type) where
  /-- The loop is left with what it gives. -/
  | leave (r : ρ)
  /-- The loop goes on; `join` adds what this round gave to what the rounds after it give. -/
  | next (s : σ) (join : ρ → ρ)

/-- A loop that reads words. `rest` holds the words that are left before a round. -/
structure Loop (σ ρ : Type) where
  rest : σ → List Word
  round : σ → Round σ ρ

/-- A round of a loop took no word, or went beyond the words that were left. -/
structure Stuck where
  rest : List Word

/-- The words are what is left of others after at least one of them has been taken. -/
def IsLeftOf (rest words : List Word) : Prop := rest.length < words.length ∧ rest <:+ words

instance (rest words : List Word) : Decidable (IsLeftOf rest words) :=
  inferInstanceAs (Decidable (_ ∧ _))

theorem isLeftOf_cons {rest words : List Word} (h : rest <:+ words) (w : Word) :
    IsLeftOf rest (w :: words) :=
  ⟨Nat.lt_succ_of_le h.length_le, h.trans (List.suffix_cons w words)⟩

namespace Loop

variable {σ ρ : Type}

/-- Runs a loop. Every round that goes on is checked to have taken a word. -/
def run (l : Loop σ ρ) (s : σ) : Except Stuck ρ :=
  match l.round s with
  | .leave r => .ok r
  | .next s' join =>
    if h : IsLeftOf (l.rest s') (l.rest s) then
      have := h.1
      (run l s').map join
    else .error ⟨l.rest s⟩
termination_by (l.rest s).length

/-- A round from a state on is one of the reader: it gives what the reader gives, or it takes a
word and leads to where the reader goes on. -/
inductive IsRoundOf (l : Loop σ ρ) (reader : σ → ρ) (s : σ) : Round σ ρ → Prop where
  | leave {r : ρ} (hreader : reader s = r) : IsRoundOf l reader s (.leave r)
  | next {s' : σ} {join : ρ → ρ} (hleft : IsLeftOf (l.rest s') (l.rest s))
      (hreader : reader s = join (reader s')) : IsRoundOf l reader s (.next s' join)

/-- Round by round, the loop does what the reader does. -/
def Follows (l : Loop σ ρ) (reader : σ → ρ) : Prop := ∀ s, l.IsRoundOf reader s (l.round s)

theorem Follows.run_eq {l : Loop σ ρ} {reader : σ → ρ} (h : l.Follows reader) (s : σ) :
    l.run s = .ok (reader s) := by
  induction hn : (l.rest s).length using Nat.strongRecOn generalizing s with
  | _ n ih =>
    have hround := h s
    rw [run]
    cases hs : l.round s with
    | leave r =>
      rw [hs] at hround
      cases hround with
      | leave hreader => exact congrArg Except.ok hreader.symm
    | next s' join =>
      rw [hs] at hround
      cases hround with
      | next hleft hreader =>
        dsimp only
        rw [dif_pos hleft, ih _ (hn ▸ hleft.1) s' rfl, hreader]
        rfl

end Loop

def Reading.after (events : List Event) (r : Reading) : Reading :=
  ⟨events ++ r.events, r.last, r.rest⟩

/-! ### The loops of the readers -/

/-- Statements up to the end of the words. -/
def statements : Loop (Option Word × Bool × List Word) (List Event) where
  rest s := s.2.2
  round
    | (_, _, []) => .leave []
    | (prev, start, w :: rest) =>
      let r := statement prev start w rest
      .next (some r.1.last, r.2, r.1.rest) (r.1.events ++ ·)

theorem statements_follows : statements.Follows fun s => eventsAfter s.1 s.2.1 s.2.2 := by
  rintro ⟨prev, start, _ | ⟨w, rest⟩⟩
  · exact .leave (by rw [eventsAfter])
  · exact .next (isLeftOf_cons (statement_suffix prev start w rest) w) (by rw [eventsAfter])

/-- Words that are dropped: up to and with one that satisfies `last`, or up to one before which
the loop is left. -/
def droppedWords (last before : Word → Bool) : Loop (Word × List Word) (Word × List Word) where
  rest s := s.2
  round
    | (prev, []) => .leave (prev, [])
    | (prev, w :: rest) =>
      if last w then .leave (w, rest)
      else if before w then .leave (prev, w :: rest)
      else .next (w, rest) id

theorem droppedWords_follows {last before : Word → Bool}
    (reader : Word → List Word → Word × List Word) (hnil : ∀ prev, reader prev [] = (prev, []))
    (hcons : ∀ prev w rest, reader prev (w :: rest) =
      if last w then (w, rest) else if before w then (prev, w :: rest) else reader w rest) :
    (droppedWords last before).Follows fun s => reader s.1 s.2 := by
  rintro ⟨prev, _ | ⟨w, rest⟩⟩
  · exact .leave (hnil prev)
  · have hreader := hcons prev w rest
    dsimp only [droppedWords]
    split
    · rename_i hlast
      exact .leave (by rw [hreader, if_pos hlast])
    · rename_i hlast
      rw [if_neg hlast] at hreader
      split
      · rename_i hbefore
        exact .leave (by rw [hreader, if_pos hbefore])
      · rename_i hbefore
        rw [if_neg hbefore] at hreader
        exact .next (isLeftOf_cons (List.suffix_refl rest) w) hreader

/-- The number of words up to one at which the loop is left. -/
def wordsBefore (stop : Word → Bool) : Loop (List Word) Nat where
  rest := id
  round
    | [] => .leave 0
    | w :: rest => if stop w then .leave 0 else .next rest (· + 1)

theorem wordsBefore_follows {stop : Word → Bool} {reader : List Word → Nat} (hnil : reader [] = 0)
    (hcons : ∀ w rest, reader (w :: rest) = if stop w then 0 else reader rest + 1) :
    (wordsBefore stop).Follows reader := by
  rintro (_ | ⟨w, rest⟩)
  · exact .leave hnil
  · have hreader := hcons w rest
    dsimp only [wordsBefore]
    split
    · rename_i hstop
      exact .leave (by rw [hreader, if_pos hstop])
    · rename_i hstop
      rw [if_neg hstop] at hreader
      exact .next (isLeftOf_cons (List.suffix_refl rest) w) hreader

/-- The words before the bracket that closes a group, of which `depth` are open inside it. -/
def groupWords : Loop (Nat × List Word) Nat where
  rest s := s.2
  round
    | (_, []) => .leave 0
    | (depth, w :: rest) =>
      if w.isSymbol ["(", "["] then .next (depth + 1, rest) (· + 1)
      else if w.isSymbol [")", "]"] then
        match depth with
        | 0 => .leave 0
        | d + 1 => .next (d, rest) (· + 1)
      else if w.isSymbol [";"] then .leave 0
      else .next (depth, rest) (· + 1)

theorem groupWords_follows : groupWords.Follows fun s => groupSize s.1 s.2 := by
  rintro ⟨depth, _ | ⟨w, rest⟩⟩
  · exact .leave rfl
  · have hleft := isLeftOf_cons (List.suffix_refl rest) w
    dsimp only [groupWords]
    split
    · rename_i hopen
      exact .next hleft (by simp only [groupSize, if_pos hopen])
    · rename_i hopen
      split
      · rename_i hclose
        cases depth with
        | zero => exact .leave (by simp only [groupSize, if_neg hopen, if_pos hclose])
        | succ d => exact .next hleft (by simp only [groupSize, if_neg hopen, if_pos hclose])
      · rename_i hclose
        split
        · rename_i hend
          exact .leave (by simp only [groupSize, if_neg hopen, if_neg hclose, if_pos hend])
        · rename_i hend
          exact .next hleft (by simp only [groupSize, if_neg hopen, if_neg hclose, if_neg hend])

/-- The words of the type of a parameter, inside `depth` brackets. -/
def typeWords : Loop (Nat × List Word) Nat where
  rest s := s.2
  round
    | (_, []) => .leave 0
    | (depth, w :: rest) =>
      if w.isSymbol [";"] || depth = 0 && w.isSymbol [",", ")"] then .leave 0
      else .next (if w.isSymbol ["("] then depth + 1
        else if w.isSymbol [")"] then depth - 1 else depth, rest) (· + 1)

theorem typeWords_follows : typeWords.Follows fun s => typeSize s.1 s.2 := by
  rintro ⟨depth, _ | ⟨w, rest⟩⟩
  · exact .leave rfl
  · dsimp only [typeWords]
    split
    · rename_i hend
      refine .leave ?_
      simp only [typeSize]
      split
      · rfl
      · simp_all
    · rename_i hend
      simp only [Bool.or_eq_true, not_or] at hend
      refine .next (isLeftOf_cons (List.suffix_refl rest) w) ?_
      simp only [typeSize, if_neg hend.1, if_neg hend.2]
      split
      · rfl
      · split <;> rfl

/-- The parameters of a list whose opening bracket has been read. -/
def parameterItems (opening : Word) : Loop (Word × List Word) Reading where
  rest s := s.2
  round
    | (prev, []) => .leave ⟨[flawHere .missingParameterBracket opening []], prev, []⟩
    | (prev, w :: rest) =>
      if w.isSymbol [")"] then .leave ⟨[], w, rest⟩
      else if w.isSymbol [";"] then
        .leave ⟨[flawHere .missingParameterBracket opening (w :: rest)], prev, w :: rest⟩
      else
        let item := parameterItem w rest
        .next (item.last, item.rest) (Reading.after item.events)

theorem parameterItems_follows (opening : Word) :
    (parameterItems opening).Follows fun s => parameters opening s.1 s.2 := by
  rintro ⟨prev, _ | ⟨w, rest⟩⟩
  · exact .leave (by rw [parameters])
  · dsimp only [parameterItems]
    split
    · rename_i hclose
      exact .leave (by rw [parameters, if_pos hclose])
    · rename_i hclose
      split
      · rename_i hend
        exact .leave (by rw [parameters, if_neg hclose, if_pos hend])
      · rename_i hend
        refine .next (isLeftOf_cons (parameterItem_suffix w rest) w) ?_
        rw [parameters, if_neg hclose, if_neg hend]
        rfl

def headerParts (keyword : Word) : Loop (Word × List Word) Reading where
  rest s := s.2
  round
    | (prev, []) =>
      .leave ⟨[flawHere (.missingHeaderSemicolon keyword.text) keyword []], prev, []⟩
    | (prev, w :: rest) =>
      if w.isSymbol [";"] then .leave ⟨[], w, rest⟩
      else match headerWord? w with
        | none =>
          .leave ⟨[flawHere (.missingHeaderSemicolon keyword.text) keyword (w :: rest)], prev,
            w :: rest⟩
        | some k =>
          let step := headerStep prev w rest k
          .next (step.last, step.rest) (Reading.after step.events)

theorem headerParts_follows (keyword : Word) :
    (headerParts keyword).Follows fun s => header keyword s.1 s.2 := by
  rintro ⟨prev, _ | ⟨w, rest⟩⟩
  · exact .leave (by rw [header])
  · dsimp only [headerParts]
    split
    · rename_i hend
      exact .leave (by rw [header, if_pos hend])
    · rename_i hend
      cases hw : headerWord? w with
      | none => exact .leave (by rw [header, if_neg hend, hw])
      | some k =>
        refine .next (isLeftOf_cons (headerStep_suffix prev w rest k) w) ?_
        rw [header, if_neg hend, hw]
        rfl

def attributeWords : Loop (Item × Word × List Word) ItemReading where
  rest s := s.2.2
  round
    | (item, prev, []) => .leave ⟨item, [], prev, []⟩
    | (item, prev, w :: rest) =>
      if endsItem w then .leave ⟨item, [], prev, w :: rest⟩
      else
        let step := attributeStep item w rest
        .next (step.item, step.reading.last, step.reading.rest) fun more =>
          ⟨more.item, more.reading.after step.reading.events⟩

theorem attributeWords_follows :
    attributeWords.Follows fun s => itemAttributes s.1 s.2.1 s.2.2 := by
  rintro ⟨item, prev, _ | ⟨w, rest⟩⟩
  · exact .leave (by rw [itemAttributes])
  · dsimp only [attributeWords]
    split
    · rename_i hend
      exact .leave (by rw [itemAttributes, if_pos hend])
    · rename_i hend
      refine .next (isLeftOf_cons (attributeStep_suffix item w rest) w) ?_
      rw [itemAttributes, if_neg hend]
      rfl

def declaredItems (keyword : Word) (specification : Bool) : Loop (Word × List Word) Reading where
  rest s := s.2
  round
    | (prev, []) => .leave (nameless keyword [] prev [])
    | (prev, w :: left) =>
      match names? w left with
      | none => .leave (nameless keyword [] prev (w :: left))
      | some ns =>
        if ns.names.isEmpty then
          .leave (nameless keyword
            (if ns.closed then [] else [flawHere .missingListBracket keyword ns.rest])
            ns.last ns.rest)
        else
          let item := declarationItem keyword specification ns
          match comma? item.rest with
          | some (comma, more) => .next (comma, more) (Reading.after item.events)
          | none => .leave ((finishStatement keyword item.last item.rest).after item.events)

theorem declarationItems_cons (keyword : Word) (specification : Bool) (prev w : Word)
    (left : List Word) :
    declarationItems keyword specification prev (w :: left) = match names? w left with
      | none => nameless keyword [] prev (w :: left)
      | some ns =>
        if ns.names.isEmpty then
          nameless keyword
            (if ns.closed then [] else [flawHere .missingListBracket keyword ns.rest]) ns.last
            ns.rest
        else
          let item := declarationItem keyword specification ns
          Reading.after item.events (match comma? item.rest with
            | some (comma, more) => declarationItems keyword specification comma more
            | none => finishStatement keyword item.last item.rest) := by
  rw [declarationItems]
  split
  · rename_i hnames
    rw [hnames]
  · rename_i ns hnames
    simp only [hnames, Reading.after]
    congr 1
    split
    · rename_i hcomma
      rw [hcomma]
    · rename_i hcomma
      rw [hcomma]

theorem declaredItems_follows (keyword : Word) (specification : Bool) :
    (declaredItems keyword specification).Follows fun s =>
      declarationItems keyword specification s.1 s.2 := by
  rintro ⟨prev, _ | ⟨w, left⟩⟩
  · exact .leave (by rw [declarationItems])
  · have hreader := declarationItems_cons keyword specification prev w left
    dsimp only [declaredItems]
    cases hnames : names? w left with
    | none => exact .leave (by rw [hreader, hnames])
    | some ns =>
      rw [hnames] at hreader
      dsimp only at hreader ⊢
      split
      · rename_i hempty
        exact .leave (by rw [hreader, if_pos hempty])
      · rename_i hempty
        rw [if_neg hempty] at hreader
        cases hcomma : comma? (declarationItem keyword specification ns).rest with
        | none => exact .leave (by rw [hreader, hcomma])
        | some next =>
          rw [hcomma] at hreader
          have hitem : (declarationItem keyword specification ns).rest <:+ left :=
            (itemTail_suffix ..).trans (names?_suffix hnames)
          rw [comma?_eq_some hcomma] at hitem
          exact .next (isLeftOf_cons ((List.suffix_cons _ _).trans hitem) w) hreader

def objectWords (keyword : Word) (kind : SymbolKind) : Loop (Word × List Word) Reading where
  rest s := s.1 :: s.2
  round
    | (w, c :: n :: rest) =>
      if c.isSymbol [","] then
        if n.isIdentifier then
          .next (n, rest) (Reading.after [.operate keyword.text kind w.occurrence])
        else .leave ⟨[.operate keyword.text kind w.occurrence], c, n :: rest⟩
      else .leave ⟨[.operate keyword.text kind w.occurrence], w, c :: n :: rest⟩
    | (w, [c]) =>
      if c.isSymbol [","] then .leave ⟨[.operate keyword.text kind w.occurrence], c, []⟩
      else .leave ⟨[.operate keyword.text kind w.occurrence], w, [c]⟩
    | (w, []) => .leave ⟨[.operate keyword.text kind w.occurrence], w, []⟩

theorem objectWords_follows (keyword : Word) (kind : SymbolKind) :
    (objectWords keyword kind).Follows fun s => objectNames keyword kind s.1 s.2 := by
  rintro ⟨w, _ | ⟨c, _ | ⟨n, rest⟩⟩⟩
  · exact .leave rfl
  · dsimp only [objectWords]
    split
    · rename_i hcomma
      exact .leave (by simp only [objectNames, if_pos hcomma])
    · rename_i hcomma
      exact .leave (by simp only [objectNames, if_neg hcomma])
  · dsimp only [objectWords]
    split
    · rename_i hcomma
      split
      · rename_i hname
        refine .next (isLeftOf_cons (List.suffix_cons c (n :: rest)) w) ?_
        simp only [objectNames, if_pos hcomma, if_pos hname]
        rfl
      · rename_i hname
        exact .leave (by simp only [objectNames, if_pos hcomma, if_neg hname])
    · rename_i hcomma
      exact .leave (by simp only [objectNames, if_neg hcomma])

/-! ### All of them end -/

/-- Every loop of the readers ends with what is read, and each of its rounds before takes at least
one of the words that are left and never more than these. -/
structure LoopsEnd : Prop where
  statements : ∀ prev start words,
    statements.run (prev, start, words) = .ok (eventsAfter prev start words)
  synchronize : ∀ prev rest, (droppedWords (·.isSymbol [";"]) startsStatement).run (prev, rest) =
    .ok (synchronize prev rest)
  systemPart : ∀ prev rest, (droppedWords (fun _ => false)
    (·.isKeyword ["PROBLEM", "MODEND"])).run (prev, rest) = .ok (systemPart prev rest)
  skipStatement : ∀ prev rest, (droppedWords (·.isSymbol [";"]) fun _ => false).run (prev, rest) =
    .ok (skipStatement prev rest)
  group : ∀ depth rest, groupWords.run (depth, rest) = .ok (groupSize depth rest)
  header : ∀ keyword prev rest, (headerParts keyword).run (prev, rest) =
    .ok (header keyword prev rest)
  parameters : ∀ opening prev rest, (parameterItems opening).run (prev, rest) =
    .ok (parameters opening prev rest)
  parameterType : ∀ depth rest, typeWords.run (depth, rest) = .ok (typeSize depth rest)
  names : ∀ rest, (wordsBefore fun w => !(w.isIdentifier || w.isSymbol [","])).run rest =
    .ok (namesSize rest)
  declaration : ∀ keyword specification prev rest,
    (declaredItems keyword specification).run (prev, rest) =
      .ok (declarationItems keyword specification prev rest)
  attributes : ∀ item prev rest, attributeWords.run (item, prev, rest) =
    .ok (itemAttributes item prev rest)
  /-- Task control, semaphore arrays and input or output. -/
  clause : ∀ rest, (wordsBefore fun w => w.isSymbol [";"] || startsStatement w).run rest =
    .ok (clauseSize rest)
  objects : ∀ keyword kind w rest, (objectWords keyword kind).run (w, rest) =
    .ok (objectNames keyword kind w rest)

theorem loopsEnd : LoopsEnd where
  statements _ _ _ := statements_follows.run_eq _
  synchronize _ _ :=
    (droppedWords_follows Event.synchronize (fun _ => rfl) fun _ _ _ => rfl).run_eq _
  systemPart _ _ :=
    (droppedWords_follows Event.systemPart (fun _ => rfl) fun _ _ _ => rfl).run_eq _
  skipStatement _ _ :=
    (droppedWords_follows Event.skipStatement (fun _ => rfl) fun _ _ _ => rfl).run_eq _
  group _ _ := groupWords_follows.run_eq _
  header keyword _ _ := (headerParts_follows keyword).run_eq _
  parameters opening _ _ := (parameterItems_follows opening).run_eq _
  parameterType _ _ := typeWords_follows.run_eq _
  names := (wordsBefore_follows rfl fun w rest => by
    rw [namesSize]
    cases w.isIdentifier || w.isSymbol [","] <;> rfl).run_eq
  declaration keyword specification _ _ := (declaredItems_follows keyword specification).run_eq _
  attributes _ _ _ := attributeWords_follows.run_eq _
  clause := (wordsBefore_follows rfl fun _ _ => rfl).run_eq
  objects keyword kind _ _ := (objectWords_follows keyword kind).run_eq _

end Pearl.Event
