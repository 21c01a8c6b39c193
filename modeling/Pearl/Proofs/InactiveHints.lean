import Pearl.Proofs.ExpandedTokens
import Pearl.Proofs.InactiveRuns

namespace Pearl.Scan

variable {σ : Setting} {src : Source} {s : State} {text rest : List Char} {p : Piece}

/-! ### Lines that are switched off -/

/-- There is only one way to go on. -/
theorem Next.unique {directives : Bool} {p' : Piece} {text' rest' : List Char}
    (h : Next directives s text p rest) (h' : Next directives s text' p' rest')
    (htext : text = text') : p = p' ∧ rest = rest' := by
  have hnewline : Lexeme.isSpace '\n' = false := by decide
  have hhash : Lexeme.isSpace '#' = false := by decide
  have hsplit : ∀ {line rest line' rest' : List Char}, '\n' ∉ line → Text.AtLineEnd rest →
      '\n' ∉ line' → Text.AtLineEnd rest' → line ++ rest = line' ++ rest' →
      line = line' ∧ rest = rest' := by
    intro line rest line' rest' hline hrest hline' hrest' heq
    have h := Text.splitLine_append hline hrest
    rw [heq, Text.splitLine_append hline' hrest'] at h
    exact ⟨(congrArg Prod.fst h).symm, (congrArg Prod.snd h).symm⟩
  cases h with
  | newline =>
    cases h' with
    | newline => simpa using htext
    | space _ hc =>
      cases htext
      simp [hnewline] at hc
    | directive => cases htext
    | inactive hn | element hn =>
      cases htext
      exact absurd rfl hn
  | space _ hc =>
    cases h' with
    | newline =>
      cases htext
      simp [hnewline] at hc
    | space => simpa using htext
    | directive =>
      cases htext
      simp [hhash] at hc
    | inactive _ hc' | element _ hc' =>
      cases htext
      simp [hc] at hc'
  | directive hd hs hline hrest =>
    cases h' with
    | newline => cases htext
    | space _ hc =>
      cases htext
      simp [hhash] at hc
    | directive hd' hs' hline' hrest' =>
      obtain ⟨rfl, rfl⟩ := hsplit hline hrest hline' hrest' (List.cons.inj htext).2
      simp
    | inactive hn hc hs' hd' =>
      exact absurd ⟨hd, (List.cons.inj htext).1.symm⟩ hd'
    | element hn hc hs' =>
      exact absurd ⟨hd, (List.cons.inj htext).1.symm⟩ (hs' hs).1
  | inactive hn hc hs hd ha hline hrest =>
    cases h' with
    | newline => exact absurd (List.cons.inj htext).1 hn
    | space _ hc' =>
      rw [(List.cons.inj htext).1, hc'] at hc
      cases hc
    | directive hd' => exact absurd ⟨hd', (List.cons.inj htext).1⟩ hd
    | inactive hn' hc' hs' hd' ha' hline' hrest' =>
      obtain ⟨rfl, htail⟩ := List.cons.inj htext
      obtain ⟨rfl, rfl⟩ := hsplit hline hrest hline' hrest' htail
      simp
    | element hn' hc' hs' =>
      have hactive := (hs' hs).2
      simp [ha] at hactive
  | element hn hc hs =>
    cases h' with
    | newline => exact absurd (List.cons.inj htext).1 hn
    | space _ hc' =>
      rw [(List.cons.inj htext).1, hc'] at hc
      cases hc
    | directive hd' hs' => exact absurd ⟨hd', (List.cons.inj htext).1⟩ (hs hs').1
    | inactive hn' hc' hs' hd' ha' =>
      have hactive := (hs hs').2
      simp [ha'] at hactive
    | element =>
      obtain ⟨rfl, rfl⟩ := List.cons.inj htext
      simp

/-- A piece that may give the token of an inactive line gives nothing else. -/
theorem Piece.Gives.eq_singleton {directives : Bool} {uri : String} {own : List Token} {t : Token}
    (h : p.Gives s uri own) (h' : p.Gives s uri [t]) (ht : t.kind = .inactive)
    (hnext : Next directives s text p rest) : own = [t] := by
  generalize hown' : [t] = own' at h'
  cases h' with
  | newline | space => cases hown'
  | directive =>
    cases hown'
    cases ht
  | @idle line hw =>
    cases hown'
    cases h with
    | @directive _ word hword ha =>
      obtain ⟨hactive, hconditional⟩ := hw word hword
      simp [hactive, hconditional] at ha
    | idle => rfl
  | inactive =>
    cases hown'
    cases h
    rfl
  | plain l =>
    cases hown'
    cases hnext with
    | @element c cs =>
      have helement := isElement_head s.part c cs
      rw [show (Lexeme.head s.part c cs).kind = .inactive from ht] at helement
      cases helement
  | reference l m =>
    obtain ⟨rfl, -⟩ := List.cons.inj hown'
    cases ht

namespace Moment

/-- From a moment on, within the same text, the token is made where lines do not count: it is that
of a line that is switched off. -/
def SwitchesOff (σ : Setting) (m : Moment) (t : Token) : Prop :=
  ∃ s text p rest, Relation.ReflTransGen (Step σ) m ⟨m.levels, m.src, s, text⟩ ∧
    Next σ.directives s text p rest ∧ s.conditions.active = false ∧
    p.Gives s m.src.uri [t] ∧ t.kind = .inactive

theorem levels_le_of_steps {m m' : Moment} (h : Relation.ReflTransGen (Step σ) m m') :
    m'.levels ≤ m.levels := by
  induction h with
  | refl => exact Nat.le_refl _
  | tail _ hstep ih =>
    cases hstep with
    | piece => exact ih
    | enter =>
      simp only at ih ⊢
      omega

/-- Within one text, reading goes on from piece to piece. -/
theorem steps_cases {levels : Nat} {s' : State} {text' : List Char}
    (hnext : Next σ.directives s text p rest)
    (h : Relation.ReflTransGen (Step σ) ⟨levels, src, s, text⟩ ⟨levels, src, s', text'⟩) :
    (s = s' ∧ text = text') ∨ Relation.ReflTransGen (Step σ)
      ⟨levels, src, s.take σ src (reader? σ levels) p, rest⟩ ⟨levels, src, s', text'⟩ := by
  rcases h.cases_head with heq | ⟨m, hstep, hsteps⟩
  · cases heq
    exact .inl ⟨rfl, rfl⟩
  · right
    generalize hm : (⟨levels, src, s, text⟩ : Moment) = m₀ at hstep
    cases hstep with
    | piece hnext' =>
      cases hm
      obtain ⟨rfl, rfl⟩ := hnext.unique hnext' rfl
      exact hsteps
    | enter =>
      cases hm
      have hle := levels_le_of_steps hsteps
      simp only at hle
      omega

theorem switchesOff_iff {levels : Nat} (hnext : Next σ.directives s text p rest) (t : Token) :
    SwitchesOff σ ⟨levels, src, s, text⟩ t ↔
      (s.conditions.active = false ∧ p.Gives s src.uri [t] ∧ t.kind = .inactive) ∨
      SwitchesOff σ ⟨levels, src, s.take σ src (reader? σ levels) p, rest⟩ t := by
  constructor
  · rintro ⟨s', text', p', rest', hsteps, hnext', hoff⟩
    rcases steps_cases hnext hsteps with ⟨rfl, rfl⟩ | hsteps
    · obtain ⟨rfl, rfl⟩ := hnext.unique hnext' rfl
      exact .inl hoff
    · exact .inr ⟨s', text', p', rest', hsteps, hnext', hoff⟩
  · rintro (hoff | ⟨s', text', p', rest', hsteps, hnext', hoff⟩)
    · exact ⟨s, text, p, rest, .refl, hnext, hoff⟩
    · exact ⟨s', text', p', rest', hsteps.head (.piece hnext), hnext', hoff⟩

theorem not_switchesOff_nil (levels : Nat) (src : Source) (s : State) (t : Token) :
    ¬SwitchesOff σ ⟨levels, src, s, []⟩ t := by
  rintro ⟨s', text, p, rest, hsteps, hnext, -⟩
  rcases hsteps.cases_head with heq | ⟨m, hstep, -⟩
  · cases heq
    cases hnext
  · generalize hm : (⟨levels, src, s, []⟩ : Moment) = m₀ at hstep
    cases hstep with
    | piece hnext' =>
      cases hm
      cases hnext'
    | enter hnext' =>
      cases hm
      cases hnext'

end Moment

/-! ### Findings of a text -/

def isHintIn (uri : String) (d : Diagnostic) : Bool := d.uri = uri && d.code = "inactive-code"

theorem isHintIn_inactiveCode (uri : String) (first last : Token) :
    isHintIn uri (.inactiveCode uri first last) = true := by
  simp [isHintIn, Diagnostic.inactiveCode]

theorem isHintIn_of_concerns (uri : String) {d : Diagnostic} {t : Token} (h : d.Concerns t) :
    isHintIn uri d = false := by
  simp [isHintIn, h.code]

theorem filter_isHintIn_pending (uri : String) (s : State) :
    (s.pending uri).filter (isHintIn uri) = s.pending uri := by
  apply List.filter_eq_self.mpr
  intro d hd
  obtain ⟨lines, -, rfl⟩ := List.mem_map.mp hd
  exact isHintIn_inactiveCode uri lines.1 lines.2

/-- Between two pieces: lines wait only where lines do not count, what opened the conditions is on
one line, and where lines do not count a line is read as a whole. -/
structure State.Ready (s : State) (text : List Char) : Prop where
  quiet : s.Quiet
  openers : ∀ t ∈ s.conditions.unclosed, '\n' ∉ t.text.toList
  whole : s.conditions.active = false → s.lineStart = false → Text.AtLineEnd text

/-- No element is read where lines do not count. -/
theorem State.Ready.active {l : Lexeme} (h : s.Ready text)
    (hnext : Next σ.directives s text (.element l) rest) : s.conditions.active = true := by
  by_contra hactive
  rw [Bool.not_eq_true] at hactive
  cases hnext with
  | @element c cs hn hc hs =>
    cases hline : s.lineStart with
    | true =>
      have ha := (hs hline).2
      simp [hactive] at ha
    | false => exact hn (h.whole hactive hline c rfl)

theorem State.conditions_element (s : State) (uri : String) (l : Lexeme) :
    (s.element uri l).conditions = s.conditions := by
  unfold State.element
  split
  · rfl
  · exact conditions_plain s uri l

theorem State.Ready.take {Q : Diagnostic → Prop} {nested : Option Reader} {own : List Token}
    (h : s.Ready text) (hnext : Next σ.directives s text p rest)
    (hcourse : Course Q src s p own (s.take σ src nested p)) :
    (s.take σ src nested p).Ready rest := by
  refine ⟨hcourse.quiet, ?_, ?_⟩
  · intro t ht
    rcases hcourse.openers t ht with ht | ⟨-, ht⟩
    · exact h.openers t ht
    · exact ht
  · intro hactive hline
    rw [lineStart_take] at hline
    cases hnext with
    | newline => cases hline
    | space rest hc =>
      have hend := h.whole hactive hline _ rfl
      rw [hend] at hc
      exact absurd hc (by decide)
    | directive hd hs hl hrest => exact hrest
    | inactive hn hc hs hd ha hl hrest => exact hrest
    | element hn hc hs =>
      have hcounts := h.active (.element hn hc hs)
      simp only [State.take, State.conditions_element] at hactive
      simp [hactive] at hcounts

/-- The first token that a piece gives is the only one of the document's own. -/
theorem Piece.Gives.filter_isOwnIn {uri : String} {own : List Token} (h : p.Gives s uri own) :
    own.filter (isOwnIn uri) = own.head?.toList := by
  cases h with
  | newline | space => simp
  | directive | idle | inactive | plain => simp [isOwnIn_tokenHere]
  | reference l m =>
    have hmarker : isOwnIn uri (s.markerHere uri m l.text) = true := by
      simp [isOwnIn, State.markerHere, State.tokenHere, Token.isOwn]
    have hexpanded := filter_isOwnIn_expanded uri (s.markerHere uri m l.text)
      (Expansion.ofMacro s.macros s.part m).lexemes rfl
      (Expansion.isTrivia_of_mem_ofText s.macros [m.name] s.part m.value.toList)
    rw [List.filter_cons_of_pos hmarker, hexpanded]
    rfl

/-- Where lines do not count, a piece that is not switched off is blank or a directive on
conditions. -/
theorem Piece.Gives.isConditional {own : List Token} (h : p.Gives s src.uri own)
    (hready : s.Ready text) (hnext : Next σ.directives s text p rest)
    (hactive : s.conditions.active = false)
    (hkind : ∀ t ∈ own, t.kind = .inactive → s.conditions.active = true) :
    ∀ t ∈ own.head?, t.isConditional = true := by
  intro t ht
  have hidle : ∀ t ∈ own, t.kind ≠ .inactive := by
    intro t ht hk
    have hcounts := hkind t ht hk
    simp [hactive] at hcounts
  cases h with
  | newline | space => cases ht
  | @directive line word hw ha =>
    cases ht
    have hc : word.isConditional = true := by simpa [hactive] using ha
    simp [Token.isConditional, State.tokenHere, hw, hc]
  | idle | inactive => exact absurd rfl (hidle _ List.mem_cons_self)
  | plain | reference =>
    have hcounts := hready.active hnext
    simp [hactive] at hcounts

/-- What a text leaves behind from a moment on, taken together: its tokens, with whether they were
switched off, the runs that are reported as inactive, and findings on single tokens. -/
structure Moment.Account (σ : Setting) (m : Moment) (ms : List (Token × Bool))
    (runs : List (Token × Token)) (ts : List Token) (ds : List Diagnostic) : Prop where
  tokens : (m.outcome σ).tokens.toList = m.state.tokens.toList ++ ts
  own : ts.filter (isOwnIn m.src.uri) = ms.map (·.1)
  switchedOff : ∀ t, m.SwitchesOff σ t ↔ (t, true) ∈ ms
  shades : Shades m.state.inactive ms runs
  diagnostics : (m.outcome σ).diagnostics.toList = m.state.diagnostics.toList ++ ds
  hints : ds.filter (isHintIn m.src.uri) = runs.map fun r => .inactiveCode m.src.uri r.1 r.2
  others : ∀ d ∈ ds, d.uri = m.src.uri → isHintIn m.src.uri d = false →
    ∃ t, (t ∈ m.state.conditions.unclosed ∨ t ∈ ms.map (·.1)) ∧ d.Concerns t

namespace Moment

variable {levels : Nat} {ms : List (Token × Bool)} {runs : List (Token × Token)}
  {ts : List Token} {ds : List Diagnostic}

theorem account_nil (σ : Setting) (levels : Nat) (src : Source) (h : s.Ready []) :
    ∃ ts ds, Account σ ⟨levels, src, s, []⟩ [] s.inactive.toList ts ds := by
  have hend : outcome σ ⟨levels, src, s, []⟩ = s.finish src.uri := by
    rw [outcome, text_eq_run, run_nil]
  have hconcerns : ∀ t ∈ s.conditions.unclosed, (State.unclosedFinding t).Concerns t := by
    intro t ht
    exact Diagnostic.concerns_atToken .error _ _ (by decide) (h.openers t ht)
  have hunclosed : (s.conditions.unclosed.map State.unclosedFinding).filter
      (isHintIn src.uri) = [] := by
    apply List.filter_eq_nil_iff.mpr
    intro d hd
    obtain ⟨t, ht, rfl⟩ := List.mem_map.mp hd
    simp [isHintIn_of_concerns src.uri (hconcerns t ht)]
  refine ⟨[], s.pending src.uri ++ s.conditions.unclosed.map State.unclosedFinding, ?_, ?_, ?_, ?_,
    ?_, ?_, ?_⟩
  · rw [hend, (State.agrees_finish s src.uri).tokens]
    simp
  · simp
  · intro t
    simp [not_switchesOff_nil]
  · exact .done _
  · rw [hend, State.diagnostics_finish]
  · rw [List.filter_append, filter_isHintIn_pending, hunclosed, List.append_nil]
    rfl
  · intro d hd huri hhint
    rcases List.mem_append.mp hd with hd | hd
    · obtain ⟨lines, -, rfl⟩ := List.mem_map.mp hd
      simp [isHintIn_inactiveCode] at hhint
    · obtain ⟨t, ht, rfl⟩ := List.mem_map.mp hd
      exact ⟨t, .inl ht, hconcerns t ht⟩

/-- What a piece leaves behind comes before what the rest of the text does. -/
theorem Account.of_next {s' : State} (hs' : s' = s.take σ src (reader? σ levels) p)
    (h : Account σ ⟨levels, src, s', rest⟩ ms runs ts ds)
    (hnext : Next σ.directives s text p rest) {ts₀ : List Token} (ms₀ : List (Token × Bool))
    {ds₀ : List Diagnostic} {runs' : List (Token × Token)}
    (htokens : s'.tokens.toList = s.tokens.toList ++ ts₀)
    (hown : ts₀.filter (isOwnIn src.uri) = ms₀.map (·.1))
    (hoff : ∀ t, (s.conditions.active = false ∧ p.Gives s src.uri [t] ∧ t.kind = .inactive) ↔
      (t, true) ∈ ms₀)
    (hshades : Shades s.inactive (ms₀ ++ ms) runs')
    (hdiagnostics : s'.diagnostics.toList = s.diagnostics.toList ++ ds₀)
    (hhints : ds₀.filter (isHintIn src.uri) ++ runs.map (fun r => .inactiveCode src.uri r.1 r.2) =
      runs'.map fun r => .inactiveCode src.uri r.1 r.2)
    (hothers : ∀ d ∈ ds₀, d.uri = src.uri → isHintIn src.uri d = false →
      ∃ t ∈ ms₀.map (·.1), d.Concerns t)
    (hopeners : ∀ t ∈ s'.conditions.unclosed, t ∈ s.conditions.unclosed ∨ t ∈ ms₀.map (·.1)) :
    Account σ ⟨levels, src, s, text⟩ (ms₀ ++ ms) runs' (ts₀ ++ ts) (ds₀ ++ ds) := by
  have houtcome : outcome σ ⟨levels, src, s, text⟩ = outcome σ ⟨levels, src, s', rest⟩ := by
    rw [hs']
    exact outcome_of_next levels src hnext
  refine ⟨?_, ?_, ?_, hshades, ?_, ?_, ?_⟩
  · rw [houtcome, h.tokens, htokens, List.append_assoc]
  · rw [List.filter_append, hown, h.own, List.map_append]
  · intro t
    rw [switchesOff_iff hnext, ← hs', h.switchedOff t, hoff t, List.mem_append]
  · rw [houtcome, h.diagnostics, hdiagnostics, List.append_assoc]
  · rw [List.filter_append, h.hints, hhints]
  · intro d hd huri hhint
    rcases List.mem_append.mp hd with hd | hd
    · obtain ⟨t, ht, hconcerns⟩ := hothers d hd huri hhint
      exact ⟨t, .inr (by simp only [List.map_append, List.mem_append]; exact .inl ht), hconcerns⟩
    · obtain ⟨t, ht, hconcerns⟩ := h.others d hd huri hhint
      refine ⟨t, ?_, hconcerns⟩
      rw [List.map_append, List.mem_append]
      rcases ht with ht | ht
      · exact (hopeners t ht).imp_right .inl
      · exact .inr (.inr ht)

section Piece

variable {own foreign : List Token} {s' : State}

/-- A line that is switched off joins the run that waits. -/
theorem Account.of_off (h : Account σ ⟨levels, src, s', rest⟩ ms runs ts ds)
    (hs' : s' = s.take σ src (reader? σ levels) p) (hnext : Next σ.directives s text p rest)
    (htokens : s'.tokens.toList = s.tokens.toList ++ (own ++ foreign))
    (hown : (own ++ foreign).filter (isOwnIn src.uri) = own.head?.toList)
    (hgives : p.Gives s src.uri own) (hactive : s.conditions.active = false)
    (hsingle : own = [s.tokenHere src.uri .inactive p.chars])
    (hline : s' = s.inactiveLine src.uri p.chars) :
    ∃ ms' runs' ts' ds', Account σ ⟨levels, src, s, text⟩ ms' runs' ts' ds' := by
  subst hsingle
  have hdiagnostics : s'.diagnostics.toList = s.diagnostics.toList ++ [] := by
    simp [hline, State.inactiveLine, State.addInactive, State.advance, State.emit]
  have hshades : Shades s'.inactive ms runs := h.shades
  rw [hline] at hshades
  refine ⟨_, _, _, _, h.of_next hs' hnext [(s.tokenHere src.uri .inactive p.chars, true)]
    htokens (by simpa using hown) ?_ (.off hshades) hdiagnostics rfl (by simp) ?_⟩
  · intro t
    constructor
    · rintro ⟨-, hgives', hkind⟩
      have hsame := hgives.eq_singleton hgives' hkind hnext
      simpa using hsame.symm
    · intro ht
      cases List.mem_singleton.mp ht
      exact ⟨hactive, hgives, rfl⟩
  · intro t ht
    rw [hline] at ht
    exact .inl ht

/-- A blank leaves everything as it is. -/
theorem Account.of_blank (h : Account σ ⟨levels, src, s', rest⟩ ms runs ts ds)
    (hs' : s' = s.take σ src (reader? σ levels) p) (hnext : Next σ.directives s text p rest)
    (hgives : p.Gives s src.uri []) :
    ∃ ms' runs' ts' ds', Account σ ⟨levels, src, s, text⟩ ms' runs' ts' ds' := by
  have hblank : s'.tokens = s.tokens ∧ s'.inactive = s.inactive ∧
      s'.diagnostics = s.diagnostics ∧ s'.conditions = s.conditions := by
    generalize hempty : ([] : List Token) = own at hgives
    cases hgives with
    | newline | space =>
      rw [hs']
      exact ⟨rfl, rfl, rfl, rfl⟩
    | directive | idle | inactive | plain | reference => cases hempty
  obtain ⟨htokens, hinactive, hdiagnostics, hconditions⟩ := hblank
  have htokens' : s'.tokens.toList = s.tokens.toList ++ [] := by simp [htokens]
  have hdiagnostics' : s'.diagnostics.toList = s.diagnostics.toList ++ [] := by
    simp [hdiagnostics]
  have hshades : Shades s'.inactive ms runs := h.shades
  rw [hinactive] at hshades
  refine ⟨_, _, _, _, h.of_next hs' hnext [] htokens' rfl ?_ hshades hdiagnostics' rfl
    (by simp) ?_⟩
  · intro t
    have hnone : ¬(s.conditions.active = false ∧ p.Gives s src.uri [t] ∧ t.kind = .inactive) := by
      rintro ⟨-, hgives', hkind⟩
      cases hgives.eq_singleton hgives' hkind hnext
    simpa using hnone
  · intro t ht
    rw [hconditions] at ht
    exact .inl ht

/-- A token that is not switched off stands where no run waits, or is a directive on conditions,
which may end the run. -/
theorem Account.of_on {t : Token} (h : Account σ ⟨levels, src, s', rest⟩ ms runs ts ds)
    (hready : s.Ready text)
    (hs' : s' = s.take σ src (reader? σ levels) p) (hnext : Next σ.directives s text p rest)
    (htokens : s'.tokens.toList = s.tokens.toList ++ (own ++ foreign))
    (hown : (own ++ foreign).filter (isOwnIn src.uri) = own.head?.toList)
    (hgives : p.Gives s src.uri own) (hhead : own.head? = some t)
    (hkind : ∀ t ∈ own, t.kind = .inactive → s.conditions.active = true)
    (hproceeds : State.Proceeds (·.uri ≠ src.uri) src s own s') :
    ∃ ms' runs' ts' ds', Account σ ⟨levels, src, s, text⟩ ms' runs' ts' ds' := by
  have hoff : ∀ t, ¬(s.conditions.active = false ∧ p.Gives s src.uri [t] ∧
      t.kind = .inactive) := by
    rintro t ⟨hactive, hgives', hinactive⟩
    have hsame := hgives.eq_singleton hgives' hinactive hnext
    have hcounts := hkind t (by simp [hsame]) hinactive
    simp [hactive] at hcounts
  obtain ⟨ds₀, hdiagnostics, hds⟩ := hproceeds.findings
  have hnohint : ∀ d ∈ ds₀, isHintIn src.uri d = false := by
    intro d hd
    rcases hds d hd with huri | ⟨t, -, hconcerns⟩
    · simp [isHintIn, huri]
    · exact isHintIn_of_concerns src.uri hconcerns
  -- Behind the findings of the piece there may be one on the lines that waited.
  have hfinish : ∀ (hints : List Diagnostic) (runs' : List (Token × Token)),
      (∀ d ∈ hints, isHintIn src.uri d = true) →
      s'.diagnostics.toList = s.diagnostics.toList ++ (ds₀ ++ hints) →
      hints ++ runs.map (fun r => .inactiveCode src.uri r.1 r.2) =
        runs'.map (fun r => .inactiveCode src.uri r.1 r.2) →
      Shades s.inactive ((t, false) :: ms) runs' →
      ∃ ms' runs' ts' ds', Account σ ⟨levels, src, s, text⟩ ms' runs' ts' ds' := by
    intro hints runs' hall hdiagnostics hruns hshades
    refine ⟨_, _, _, _, h.of_next hs' hnext [(t, false)] htokens (by simp [hown, hhead])
      ?_ hshades hdiagnostics ?_ ?_ ?_⟩
    · intro t'
      simpa using hoff t'
    · rw [List.filter_append, List.filter_eq_nil_iff.mpr (by simpa using hnohint),
        List.filter_eq_self.mpr hall, List.nil_append, hruns]
    · intro d hd huri hhint
      rcases List.mem_append.mp hd with hd | hd
      · rcases hds d hd with hne | ⟨t', ht', hconcerns⟩
        · exact absurd huri hne
        · cases hhead.symm.trans ht'
          exact ⟨t, by simp, hconcerns⟩
      · simp [hall d hd] at hhint
    · intro t' ht'
      rcases hproceeds.openers t' ht' with ht' | ⟨ht', -⟩
      · exact .inl ht'
      · cases hhead.symm.trans ht'
        exact .inr (by simp)
  have hpending : ∀ d ∈ s.pending src.uri, isHintIn src.uri d = true :=
    List.filter_eq_self.mp (filter_isHintIn_pending src.uri s)
  have hinactive := hproceeds.inactive
  have hshades : Shades s'.inactive ms runs := h.shades
  cases hactive : s.conditions.active with
  | true =>
    have hnone := hready.quiet hactive
    have hempty : s.pending src.uri = [] := by simp [State.pending, hnone]
    have hnone' : s'.inactive = none := by simp [hinactive, hnone]
    rw [hnone'] at hshades
    refine hfinish [] runs (by simp) ?_ rfl ?_
    · simpa [hempty] using hdiagnostics
    · rw [hnone]
      exact .active hshades
  | false =>
    have hconditional : t.isConditional = true :=
      hgives.isConditional hready hnext hactive hkind t hhead
    cases hactive' : s'.conditions.active with
    | true =>
      rw [hactive', if_pos rfl] at hinactive hdiagnostics
      rw [hinactive] at hshades
      refine hfinish (s.pending src.uri) (s.inactive.toList ++ runs) hpending hdiagnostics ?_
        (.stop hconditional hshades)
      rw [List.map_append]
      rfl
    | false =>
      rw [hactive', if_neg (by simp)] at hinactive hdiagnostics
      rw [hinactive] at hshades
      exact hfinish [] runs (by simp) hdiagnostics rfl (.within hconditional hshades)

/-- The account of a piece and the rest, by what comes of the piece. -/
theorem Account.of_course (h : Account σ ⟨levels, src, s', rest⟩ ms runs ts ds)
    (hready : s.Ready text) (hs' : s' = s.take σ src (reader? σ levels) p)
    (hnext : Next σ.directives s text p rest)
    (htokens : s'.tokens.toList = s.tokens.toList ++ (own ++ foreign))
    (hgives : p.Gives s src.uri own) (hforeign : ∀ t ∈ foreign, t.uri ≠ src.uri)
    (hcourse : State.Course (·.uri ≠ src.uri) src s p own s') :
    ∃ ms' runs' ts' ds', Account σ ⟨levels, src, s, text⟩ ms' runs' ts' ds' := by
  have hown : (own ++ foreign).filter (isOwnIn src.uri) = own.head?.toList := by
    have hnone : foreign.filter (isOwnIn src.uri) = [] := by
      apply List.filter_eq_nil_iff.mpr
      intro t ht
      simp [isOwnIn, hforeign t ht]
    rw [List.filter_append, hgives.filter_isOwnIn, hnone, List.append_nil]
  cases hcourse with
  | off hactive hsingle hline =>
    exact h.of_off hs' hnext htokens hown hgives hactive hsingle hline
  | on hkind hproceeds =>
    cases hhead : own.head? with
    | none =>
      rw [List.head?_eq_none_iff.mp hhead] at hgives
      exact h.of_blank hs' hnext hgives
    | some t => exact h.of_on hready hs' hnext htokens hown hgives hhead hkind hproceeds

end Piece

/-- By induction along the pieces: every text has an account. -/
theorem exists_account (σ : Setting) (levels : Nat) {src : Source} (hbars : src.Bars src.uri)
    (s : State)
    (text : List Char) (hready : s.Ready text) :
    ∃ ms runs ts ds, Account σ ⟨levels, src, s, text⟩ ms runs ts ds := by
  obtain ⟨hgives, htells⟩ := reader?_foreign σ levels hbars
  induction s, text using run_induction σ src (reader? σ levels) with
  | nil s =>
    obtain ⟨ts, ds, haccount⟩ := account_nil σ levels src hready
    exact ⟨_, _, ts, ds, haccount⟩
  | next s text p rest hnext ih =>
    obtain ⟨own, foreign, htokens, hown, hforeign, hcourse⟩ :=
      State.exists_course hready.quiet hgives htells hnext
    obtain ⟨ms, runs, ts, ds, haccount⟩ := ih (hready.take hnext hcourse)
    exact haccount.of_course hready rfl hnext htokens hown hforeign hcourse

/-- What is switched off is a line of its own. -/
theorem SwitchesOff.inactive {m : Moment} {t : Token} (h : m.SwitchesOff σ t) :
    t.kind = .inactive ∧ '\n' ∉ t.text.toList := by
  obtain ⟨s, text, p, rest, -, hnext, -, hgives, hkind⟩ := h
  refine ⟨hkind, ?_⟩
  generalize hown : [t] = own at hgives
  cases hgives with
  | newline | space => cases hown
  | directive =>
    cases hown
    cases hkind
  | idle =>
    cases hown
    cases hnext with
    | directive _ _ hline => simpa [State.tokenHere] using hline
  | inactive =>
    cases hown
    cases hnext with
    | inactive hn _ _ _ _ hline => simpa [State.tokenHere, Ne.symm hn] using hline
  | plain l =>
    cases hown
    cases hnext with
    | @element c cs =>
      have helement := isElement_head s.part c cs
      rw [show (Lexeme.head s.part c cs).kind = .inactive from hkind] at helement
      cases helement
  | reference l m =>
    obtain ⟨rfl, -⟩ := List.cons.inj hown
    cases hkind

theorem ready_initial (σ : Setting) (cache : IncludeCache) (part : Part) (cs : List Char) :
    (initial σ cache part).Ready cs := by
  refine ⟨fun _ => rfl, ?_, ?_⟩
  · simp [initial, Conditional.unclosed]
  · intro hactive
    cases hactive

end Moment

/-- What a document leaves behind, taken together: its own tokens with whether they were switched
off, the runs of them that are reported as inactive, and findings on single tokens. -/
structure Summary (σ : Setting) (src : Source) (cache : IncludeCache) (part : Part)
    (cs : List Char) (ms : List (Token × Bool)) (runs : List (Token × Token)) : Prop where
  own : (document σ src cache part cs).tokens.toList.filter (isOwnIn src.uri) = ms.map (·.1)
  switchedOff : ∀ t, (Moment.first σ src cache part cs).SwitchesOff σ t ↔ (t, true) ∈ ms
  shades : Shades none ms runs
  inOrder : Shades.InOrder none ms
  ends : ∀ r ∈ runs, (r.1, true) ∈ ms ∧ (r.2, true) ∈ ms
  hints : (document σ src cache part cs).diagnostics.toList.filter (isHintIn src.uri) =
    runs.map fun r => .inactiveCode src.uri r.1 r.2
  others : ∀ d ∈ (document σ src cache part cs).diagnostics.toList, d.uri = src.uri →
    isHintIn src.uri d = false → ∃ t ∈ ms.map (·.1), d.Concerns t

theorem exists_summary (σ : Setting) {src : Source} (hbars : src.Bars src.uri)
    (cache : IncludeCache) (part : Part) (cs : List Char) :
    ∃ ms runs, Summary σ src cache part cs ms runs := by
  obtain ⟨ms, runs, ts, ds, h⟩ := Moment.exists_account σ (levels σ.options) hbars
    (initial σ cache part) cs (Moment.ready_initial σ cache part cs)
  have htokens : (document σ src cache part cs).tokens.toList = ts := h.tokens
  have hdiagnostics : (document σ src cache part cs).diagnostics.toList = ds := h.diagnostics
  have hown : ts.filter (isOwnIn src.uri) = ms.map (·.1) := h.own
  have hshades : Shades none ms runs := h.shades
  refine ⟨ms, runs, ?_, h.switchedOff, hshades, ?_, ?_, ?_, ?_⟩
  · rw [htokens, hown]
  · have hpairwise := (document_tiling σ src hbars cache part cs).pairwise
    rw [htokens, hown, List.pairwise_map] at hpairwise
    exact ⟨hpairwise.imp And.left, by simp, by simp⟩
  · intro r hr
    simpa using hshades.ends r hr
  · rw [hdiagnostics]
    exact h.hints
  · intro d hd huri hhint
    rw [hdiagnostics] at hd
    obtain ⟨t, ht, hconcerns⟩ := h.others d hd huri hhint
    have ht' : t ∈ ms.map (·.1) := by simpa [initial, Conditional.unclosed] using ht
    exact ⟨t, ht', hconcerns⟩

/-- The hints on inactive code cover what the conditions switch off, and nothing else that stands in
the document. They follow one another without overlap, each from the start of a token that is
switched off to the end of one. Every such token lies in one of them and in no other, and whatever
else lies in one is a directive on conditions. -/
theorem document_inactive_hints (σ : Setting) {uri : String} {src : Source}
    (hsrc : Source.ofUri σ.files uri = .ok src) (cache : IncludeCache) (part : Part)
    (cs : List Char) :
    let scan := document σ src cache part cs
    let own := scan.tokens.toList.filter (isOwnIn uri)
    let hints := scan.diagnostics.toList.filter (isHintIn uri)
    let off := (Moment.first σ src cache part cs).SwitchesOff σ
    (hints.Pairwise fun d d' => d.stop ≤ d'.start) ∧
    (∀ d ∈ hints, d.start < d.stop ∧ ∃ first last, off first ∧ off last ∧
      d.start = first.start.place ∧ d.stop = last.stop.place) ∧
    (∀ t, off t → t ∈ own ∧ t.kind = .inactive ∧ ∃! d, d ∈ hints ∧ d.Encloses t) ∧
    ∀ t ∈ own, ∀ d ∈ hints, d.Encloses t → off t ∨ t.isConditional = true := by
  obtain ⟨rfl, hbars⟩ := bars_ofUri hsrc
  intro scan own hints off
  obtain ⟨ms, runs, h⟩ := exists_summary σ hbars cache part cs
  have hown : own = ms.map (·.1) := h.own
  have hhints : hints = runs.map fun r => .inactiveCode src.uri r.1 r.2 := h.hints
  have hoff : ∀ t, off t ↔ (t, true) ∈ ms := h.switchedOff
  have htiling : Tiling .zero cs own := document_tiling σ src hbars cache part cs
  have hmem : ∀ t, off t → t ∈ own := by
    intro t ht
    rw [hown]
    exact List.mem_map.mpr ⟨_, (hoff t).mp ht, rfl⟩
  have hends : ∀ r ∈ runs, off r.1 ∧ off r.2 := by
    intro r hr
    rw [hoff, hoff]
    exact h.ends r hr
  obtain ⟨hpairwise, hforward⟩ := h.shades.ordered h.inOrder
  have hmem₁ : ∀ r ∈ runs, r.1 ∈ own := fun r hr => hmem _ (hends r hr).1
  have hmem₂ : ∀ r ∈ runs, r.2 ∈ own := fun r hr => hmem _ (hends r hr).2
  have hline : ∀ r ∈ runs, '\n' ∉ r.2.text.toList := fun r hr => (hends r hr).2.inactive.2
  have hstop : ∀ r ∈ runs, (Diagnostic.inactiveCode src.uri r.1 r.2).stop = r.2.stop.place :=
    fun r hr => htiling.stop_inactiveCode src.uri r.1 (hmem₂ r hr) (hline r hr)
  have hencloses : ∀ r ∈ runs, ∀ t ∈ own, (Diagnostic.inactiveCode src.uri r.1 r.2).Encloses t ↔
      r.1.start.offset ≤ t.start.offset ∧ t.start.offset ≤ r.2.start.offset :=
    fun r hr t ht => htiling.encloses_iff (hmem₁ r hr) (hmem₂ r hr) (hline r hr) ht
  rw [hhints]
  refine ⟨?_, ?_, ?_, ?_⟩
  · rw [List.pairwise_map]
    apply hpairwise.imp_of_mem
    intro r r' hr hr' hlt
    obtain ⟨hpos, -, hbound, -, hplace⟩ := htiling.places (hmem₂ r hr)
    obtain ⟨-, -, hbound', hplace', -⟩ := htiling.places (hmem₁ r' hr')
    have hbefore : r.2.start.offset + r.2.length ≤ r'.1.start.offset := by
      rcases htiling.eq_or_before (hmem₂ r hr) (hmem₁ r' hr') with heq | hbefore | hbefore
      · rw [heq] at hlt
        omega
      · exact hbefore
      · omega
    rw [hstop r hr, Tiling.start_inactiveCode, hplace, hplace',
      Position.place_le_iff (by omega) (by omega)]
    exact hbefore
  · intro d hd
    obtain ⟨r, hr, rfl⟩ := List.mem_map.mp hd
    obtain ⟨-, -, hbound₁, hplace₁, -⟩ := htiling.places (hmem₁ r hr)
    obtain ⟨hpos, -, hbound₂, -, hplace₂⟩ := htiling.places (hmem₂ r hr)
    have hle := hforward r hr
    refine ⟨?_, r.1, r.2, (hends r hr).1, (hends r hr).2, rfl, hstop r hr⟩
    rw [hstop r hr, Tiling.start_inactiveCode, hplace₁, hplace₂,
      Position.place_lt_iff (by omega) (by omega)]
    omega
  · intro t ht
    refine ⟨hmem t ht, ht.inactive.1, ?_⟩
    obtain ⟨r, hr, hwithin⟩ := h.shades.exists_run h.inOrder ((hoff t).mp ht)
    refine ⟨_, ⟨List.mem_map_of_mem hr, (hencloses r hr t (hmem t ht)).mpr hwithin⟩, ?_⟩
    rintro d ⟨hd, hd'⟩
    obtain ⟨r', hr', rfl⟩ := List.mem_map.mp hd
    have hwithin' := (hencloses r' hr' t (hmem t ht)).mp hd'
    have hsymm : Std.Symm fun r r' : Token × Token => r.2.start.offset < r'.1.start.offset ∨
        r'.2.start.offset < r.1.start.offset := ⟨fun _ _ => Or.symm⟩
    have hboth : runs.Pairwise fun r r' => r.2.start.offset < r'.1.start.offset ∨
        r'.2.start.offset < r.1.start.offset := hpairwise.imp .inl
    by_contra hne
    have hapart := hboth.forall hr hr' fun heq => hne (by rw [heq])
    omega
  · intro t ht d hd hd'
    obtain ⟨r, hr, rfl⟩ := List.mem_map.mp hd
    obtain ⟨hfirst, hlast⟩ := (hencloses r hr t ht).mp hd'
    rw [hown] at ht
    obtain ⟨⟨t, switched⟩, hms, rfl⟩ := List.mem_map.mp ht
    cases switched with
    | true => exact .inl ((hoff t).mpr hms)
    | false => exact .inr (h.shades.isConditional_of_mem h.inOrder hms hr hfirst hlast)

/-- A run that goes on over a nested condition and an unknown directive, and one up to the end of
the text. -/
theorem document_inactive_hints_two_runs :
    let σ : Setting := { files := { cwd := Path.ofString "/ws" } }
    let src : Source := ⟨"untitled:a", none, []⟩
    let cs := "#ifdef M\n a\n#ifndef N\nb\n#endif\n#no\n#else\n#no\n#endif\n#ifdef M\nc d".toList
    let hints := (document σ src {} .problem cs).diagnostics.toList.filter (isHintIn "untitled:a")
    Source.ofUri σ.files "untitled:a" = .ok src ∧
    hints.map (fun d => (d.line, d.column, d.endLine, d.endColumn)) =
      [(1, 1, 5, 3), (10, 0, 10, 3)] ∧
    (hints.Pairwise fun d d' => d.stop ≤ d'.start) ∧ ∀ d ∈ hints, d.start < d.stop := by
  intro σ src cs hints
  have hsrc : Source.ofUri σ.files "untitled:a" = .ok src := by decide +kernel
  obtain ⟨hordered, hranges, -⟩ := document_inactive_hints σ hsrc {} .problem cs
  exact ⟨hsrc, by decide +kernel, hordered, fun d hd => (hranges d hd).1⟩

end Pearl.Scan
