import Mathlib.Data.List.Pairwise
import Mathlib.Data.Prod.Lex
import Pearl.Proofs.ScanFindings

namespace Pearl

/-! ### Places -/

namespace Position

def place (p : Position) : Nat ×ₗ Nat := toLex (p.line, p.column)

theorem place_lt_advance (p : Position) {cs : List Char} (h : cs ≠ []) :
    p.place < (p.advance cs).place := by
  have hlength := List.length_pos_iff.mpr h
  rw [place, place, Prod.Lex.toLex_lt_toLex]
  by_cases hmem : '\n' ∈ cs
  · have hcount := List.count_pos_iff.mpr hmem
    have hline := line_advance p cs
    left
    simp only
    omega
  · rw [advance_of_not_mem p cs hmem]
    right
    simpa using hlength

/-- Places in a text are in the order of their offsets. -/
theorem place_le_iff {cs : List Char} {o o' : Nat} (ho : o ≤ cs.length) (ho' : o' ≤ cs.length) :
    (zero.advance (cs.take o)).place ≤ (zero.advance (cs.take o')).place ↔ o ≤ o' := by
  have hlt : ∀ o o', o < o' → o' ≤ cs.length →
      (zero.advance (cs.take o)).place < (zero.advance (cs.take o')).place := by
    intro o o' hlt hle
    have hsplit : cs.take o' = cs.take o ++ (cs.take o').drop o := by
      have htake : (cs.take o').take o = cs.take o := by
        rw [List.take_take, Nat.min_eq_left (Nat.le_of_lt hlt)]
      rw [← htake, List.take_append_drop]
    rw [hsplit, advance_append]
    apply place_lt_advance
    apply List.ne_nil_of_length_pos
    rw [List.length_drop, List.length_take]
    omega
  constructor
  · intro hle
    by_contra hnot
    exact absurd hle (not_le_of_gt (hlt o' o (by omega) ho))
  · intro hle
    rcases Nat.lt_or_eq_of_le hle with h | rfl
    · exact le_of_lt (hlt o o' h ho')
    · exact le_refl _

theorem place_lt_iff {cs : List Char} {o o' : Nat} (ho : o ≤ cs.length) (ho' : o' ≤ cs.length) :
    (zero.advance (cs.take o)).place < (zero.advance (cs.take o')).place ↔ o < o' := by
  rw [← not_le, place_le_iff ho' ho, not_le]

end Position

def Token.stop (t : Token) : Position := t.start.advance t.text.toList

/-- The place behind a token of one line is on that line. -/
theorem Token.stop_of_not_mem {t : Token} (hlength : t.length = t.text.toList.length)
    (h : '\n' ∉ t.text.toList) :
    t.stop = ⟨t.start.line, t.start.column + t.length, t.start.offset + t.length⟩ := by
  rw [stop, Position.advance_of_not_mem t.start _ h, hlength]

namespace Diagnostic

def start (d : Diagnostic) : Nat ×ₗ Nat := toLex (d.line, d.column)

def stop (d : Diagnostic) : Nat ×ₗ Nat := toLex (d.endLine, d.endColumn)

def Encloses (d : Diagnostic) (t : Token) : Prop := d.start ≤ t.start.place ∧ t.stop.place ≤ d.stop

end Diagnostic

namespace Tiling

variable {cs : List Char} {ts : List Token} {t t' : Token}

/-- Where a token starts and ends is where its offsets are in the text. -/
theorem places (h : Tiling .zero cs ts) (ht : t ∈ ts) :
    0 < t.length ∧ t.length = t.text.toList.length ∧ t.start.offset + t.length ≤ cs.length ∧
    t.start.place = (Position.zero.advance (cs.take t.start.offset)).place ∧
    t.stop.place = (Position.zero.advance (cs.take (t.start.offset + t.length))).place := by
  obtain ⟨hpos, hlength, before, after, hcs, hstart⟩ := h.written t ht
  have hoffset : t.start.offset = before.length := by
    rw [hstart, Position.offset_advance]
    simp [Position.zero]
  have hbound := (h.bounds t ht).2
  have hbefore : cs.take t.start.offset = before := by simp [hoffset, hcs]
  have htext : cs.take (t.start.offset + t.length) = before ++ t.text.toList := by
    rw [hoffset, hlength, hcs, List.take_length_add_append]
    simp
  refine ⟨hpos, hlength, by simpa [Position.zero] using hbound, ?_, ?_⟩
  · rw [hbefore, ← hstart]
  · rw [htext, Position.advance_append, Token.stop, ← hstart]

/-- Two different tokens lie one behind the other. -/
theorem eq_or_before {p : Position} (h : Tiling p cs ts) (ht : t ∈ ts) (ht' : t' ∈ ts) :
    t = t' ∨ t.start.offset + t.length ≤ t'.start.offset ∨
      t'.start.offset + t'.length ≤ t.start.offset := by
  have hboth : ts.Pairwise fun t t' => t.start.offset + t.length ≤ t'.start.offset ∨
      t'.start.offset + t'.length ≤ t.start.offset := h.pairwise.imp fun hlt => .inl hlt.2
  have hsymm : Std.Symm fun t t' : Token => t.start.offset + t.length ≤ t'.start.offset ∨
      t'.start.offset + t'.length ≤ t.start.offset := ⟨fun _ _ => Or.symm⟩
  by_cases heq : t = t'
  · exact .inl heq
  · exact .inr (hboth.forall ht ht' heq)

variable {uri : String} {first last : Token}

theorem start_inactiveCode (uri : String) (first last : Token) :
    (Diagnostic.inactiveCode uri first last).start = first.start.place := rfl

/-- A hint up to a token of one line ends where the token does. -/
theorem stop_inactiveCode (h : Tiling .zero cs ts) (uri : String) (first : Token)
    (hlast : last ∈ ts) (hline : '\n' ∉ last.text.toList) :
    (Diagnostic.inactiveCode uri first last).stop = last.stop.place := by
  rw [Token.stop_of_not_mem (h.places hlast).2.1 hline]
  rfl

/-- A hint from one token to another holds the tokens from the one to the other. -/
theorem encloses_iff (h : Tiling .zero cs ts) (hfirst : first ∈ ts) (hlast : last ∈ ts)
    (hline : '\n' ∉ last.text.toList) (ht : t ∈ ts) :
    (Diagnostic.inactiveCode uri first last).Encloses t ↔
      first.start.offset ≤ t.start.offset ∧ t.start.offset ≤ last.start.offset := by
  obtain ⟨hpos, -, hbound, hstart, hstop⟩ := h.places ht
  obtain ⟨-, -, hbound₁, hstart₁, -⟩ := h.places hfirst
  obtain ⟨hpos₂, -, hbound₂, -, hstop₂⟩ := h.places hlast
  have hbehind : t.start.offset + t.length ≤ last.start.offset + last.length ↔
      t.start.offset ≤ last.start.offset := by
    rcases h.eq_or_before ht hlast with rfl | hbefore | hbefore
    · omega
    · omega
    · omega
  rw [Diagnostic.Encloses, start_inactiveCode, h.stop_inactiveCode uri first hlast hline, hstart,
    hstart₁, hstop, hstop₂, Position.place_le_iff (by omega) (by omega),
    Position.place_le_iff (by omega) (by omega), hbehind]

end Tiling

/-- The token is a directive that opens, turns or closes a condition. -/
def Token.isConditional (t : Token) : Bool :=
  t.kind = .directive && (Scan.wordOf? t.text.toList).any (·.isConditional)

namespace Scan

/-! ### Runs of inactive lines -/

/-- The tokens of a text, each with whether it was switched off, and the runs of them that are
reported, each by its first and its last token. What is switched off joins the run that waits. A
directive on conditions leaves the run waiting or ends it, and so does the end of the text; every
other token stands where no run waits. -/
inductive Shades : Option (Token × Token) → List (Token × Bool) → List (Token × Token) → Prop where
  | done (run : Option (Token × Token)) : Shades run [] run.toList
  | off {run : Option (Token × Token)} {t : Token} {ms : List (Token × Bool)}
      {runs : List (Token × Token)} (h : Shades (some ((run.map (·.1)).getD t, t)) ms runs) :
      Shades run ((t, true) :: ms) runs
  | within {run : Option (Token × Token)} {t : Token} {ms : List (Token × Bool)}
      {runs : List (Token × Token)} (ht : t.isConditional = true) (h : Shades run ms runs) :
      Shades run ((t, false) :: ms) runs
  | stop {run : Option (Token × Token)} {t : Token} {ms : List (Token × Bool)}
      {runs : List (Token × Token)} (ht : t.isConditional = true) (h : Shades none ms runs) :
      Shades run ((t, false) :: ms) (run.toList ++ runs)
  | active {t : Token} {ms : List (Token × Bool)} {runs : List (Token × Token)}
      (h : Shades none ms runs) : Shades none ((t, false) :: ms) runs

namespace Shades

variable {run : Option (Token × Token)} {ms : List (Token × Bool)} {runs : List (Token × Token)}

/-- The run that waits is reported first, up to its own last token or to a later one. -/
theorem exists_head {lines : Token × Token} (h : Shades (some lines) ms runs) :
    ∃ last rest, runs = (lines.1, last) :: rest ∧ (last = lines.2 ∨ (last, true) ∈ ms) := by
  generalize hrun : some lines = run at h
  induction h generalizing lines with
  | done run =>
    subst hrun
    exact ⟨lines.2, [], by simp, .inl rfl⟩
  | @off run t ms runs _ ih =>
    subst hrun
    obtain ⟨last, rest, hruns, hlast⟩ := ih rfl
    refine ⟨last, rest, hruns, .inr ?_⟩
    rcases hlast with rfl | hlast
    · simp
    · simp [hlast]
  | within ht _ ih =>
    obtain ⟨last, rest, hruns, hlast⟩ := ih hrun
    refine ⟨last, rest, hruns, hlast.imp_right ?_⟩
    intro hmem
    simp [hmem]
  | @stop run t ms runs ht _ _ =>
    subst hrun
    exact ⟨lines.2, runs, by simp, .inl rfl⟩
  | active _ _ => cases hrun

/-- Runs start and end with tokens that were switched off. -/
theorem ends (h : Shades run ms runs) : ∀ r ∈ runs,
    ((r.1, true) ∈ ms ∨ ∃ lines ∈ run, r.1 = lines.1) ∧
    ((r.2, true) ∈ ms ∨ ∃ lines ∈ run, r.2 = lines.2) := by
  induction h with
  | done run =>
    intro r hr
    have hr' : r ∈ run := by simpa using hr
    exact ⟨.inr ⟨r, hr', rfl⟩, .inr ⟨r, hr', rfl⟩⟩
  | @off run t ms runs _ ih =>
    intro r hr
    obtain ⟨hfirst, hlast⟩ := ih r hr
    constructor
    · rcases hfirst with hfirst | ⟨lines, hlines, hfirst⟩
      · simp [hfirst]
      · cases hlines
        cases run with
        | none => simp [hfirst]
        | some lines => exact .inr ⟨lines, rfl, by simpa using hfirst⟩
    · left
      rcases hlast with hlast | ⟨lines, hlines, hlast⟩
      · simp [hlast]
      · cases hlines
        simp [hlast]
  | within ht _ ih | active _ ih =>
    intro r hr
    obtain ⟨hfirst, hlast⟩ := ih r hr
    exact ⟨hfirst.imp_left (List.mem_cons_of_mem _), hlast.imp_left (List.mem_cons_of_mem _)⟩
  | @stop run t ms runs ht _ ih =>
    intro r hr
    rcases List.mem_append.mp hr with hr | hr
    · have hr' : r ∈ run := by simpa using hr
      exact ⟨.inr ⟨r, hr', rfl⟩, .inr ⟨r, hr', rfl⟩⟩
    · obtain ⟨hfirst, hlast⟩ := ih r hr
      simp only [Option.not_mem_none, false_and, exists_false, or_false] at hfirst hlast
      simp [hfirst, hlast]

/-- The tokens follow one another, behind the run that waits. -/
structure InOrder (run : Option (Token × Token)) (ms : List (Token × Bool)) : Prop where
  ordered : ms.Pairwise fun m m' => m.1.start.offset < m'.1.start.offset
  within : ∀ lines ∈ run, lines.1.start.offset ≤ lines.2.start.offset
  before : ∀ lines ∈ run, ∀ m ∈ ms, lines.2.start.offset < m.1.start.offset

theorem InOrder.off {t : Token} (h : InOrder run ((t, true) :: ms)) :
    InOrder (some ((run.map (·.1)).getD t, t)) ms := by
  obtain ⟨hfirst, hordered⟩ := List.pairwise_cons.mp h.ordered
  refine ⟨hordered, ?_, ?_⟩
  · intro lines hlines
    cases hlines
    cases hrun : run with
    | none => simp
    | some lines =>
      have hwithin := h.within lines hrun
      have hbefore : lines.2.start.offset < t.start.offset :=
        h.before lines hrun (t, true) List.mem_cons_self
      simp only [Option.map_some, Option.getD_some]
      omega
  · intro lines hlines
    cases hlines
    exact hfirst

theorem InOrder.tail {m : Token × Bool} (h : InOrder run (m :: ms)) : InOrder run ms :=
  ⟨(List.pairwise_cons.mp h.ordered).2, h.within,
    fun lines hlines m' hm' => h.before lines hlines m' (List.mem_cons_of_mem m hm')⟩

theorem InOrder.none (h : InOrder run ms) : InOrder none ms := ⟨h.ordered, by simp, by simp⟩

/-- Runs follow one another, and each one runs forwards. -/
theorem ordered (h : Shades run ms runs) (horder : InOrder run ms) :
    (runs.Pairwise fun r r' => r.2.start.offset < r'.1.start.offset) ∧
    ∀ r ∈ runs, r.1.start.offset ≤ r.2.start.offset := by
  induction h with
  | done run =>
    cases run with
    | none => simp
    | some lines => simpa using horder.within lines rfl
  | off _ ih => exact ih horder.off
  | within ht _ ih | active _ ih => exact ih horder.tail
  | @stop run t ms runs ht h ih =>
    obtain ⟨hpairwise, hforward⟩ := ih horder.tail.none
    refine ⟨List.pairwise_append.mpr ⟨?_, hpairwise, ?_⟩, ?_⟩
    · cases run <;> simp
    · intro r hr r' hr'
      have hfirst : (r'.1, true) ∈ ms := by simpa using (h.ends r' hr').1
      exact horder.tail.before r (by simpa using hr) _ hfirst
    · intro r hr
      rcases List.mem_append.mp hr with hr | hr
      · exact horder.within r (by simpa using hr)
      · exact hforward r hr

/-- What was switched off lies in a run. -/
theorem exists_run (h : Shades run ms runs) (horder : InOrder run ms) {t : Token}
    (ht : (t, true) ∈ ms) :
    ∃ r ∈ runs, r.1.start.offset ≤ t.start.offset ∧ t.start.offset ≤ r.2.start.offset := by
  induction h with
  | done run => cases ht
  | @off run t' ms runs h ih =>
    rcases List.mem_cons.mp ht with heq | ht
    · cases heq
      have hoff := horder.off
      obtain ⟨last, rest, hruns, hlast⟩ := h.exists_head
      have hmem : ((run.map (·.1)).getD t, last) ∈ runs := by simp [hruns]
      refine ⟨_, hmem, hoff.within _ rfl, ?_⟩
      rcases hlast with rfl | hlast
      · exact Nat.le_refl _
      · exact Nat.le_of_lt (hoff.before _ rfl (last, true) hlast)
    · exact ih horder.off ht
  | within _ _ ih | active _ ih =>
    rcases List.mem_cons.mp ht with heq | ht
    · cases heq
    · exact ih horder.tail ht
  | stop _ _ ih =>
    rcases List.mem_cons.mp ht with heq | ht
    · cases heq
    · obtain ⟨r, hr, hwithin⟩ := ih horder.tail.none ht
      exact ⟨r, List.mem_append_right _ hr, hwithin⟩

/-- Of the tokens that were not switched off, a run holds only directives on conditions. -/
theorem isConditional_of_mem (h : Shades run ms runs) (horder : InOrder run ms) {t : Token}
    (ht : (t, false) ∈ ms) {r : Token × Token} (hr : r ∈ runs)
    (hfirst : r.1.start.offset ≤ t.start.offset) (hlast : t.start.offset ≤ r.2.start.offset) :
    t.isConditional = true := by
  induction h with
  | done run => cases ht
  | off _ ih =>
    rcases List.mem_cons.mp ht with heq | ht
    · cases heq
    · exact ih horder.off ht hr
  | within ht' _ ih =>
    rcases List.mem_cons.mp ht with heq | ht
    · cases heq
      exact ht'
    · exact ih horder.tail ht hr
  | stop ht' _ ih =>
    rcases List.mem_cons.mp ht with heq | ht
    · cases heq
      exact ht'
    · rcases List.mem_append.mp hr with hr | hr
      · have hbefore := horder.tail.before r (by simpa using hr) _ ht
        simp only at hbefore
        omega
      · exact ih horder.tail.none ht hr
  | @active t' ms runs h ih =>
    rcases List.mem_cons.mp ht with heq | ht
    · cases heq
      have hmem : (r.1, true) ∈ ms := by simpa using (h.ends r hr).1
      have hbefore := (List.pairwise_cons.mp horder.ordered).1 _ hmem
      simp only at hbefore
      omega
    · exact ih horder.tail ht hr

end Shades

end Scan

end Pearl
