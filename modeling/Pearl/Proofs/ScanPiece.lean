import Mathlib.Data.List.TakeWhile
import Pearl.Scan.Run

namespace Pearl

/-! ### Ends of lines -/

/-- The current line ends here. -/
def Text.AtLineEnd (cs : List Char) : Prop := ∀ c ∈ cs.head?, c = '\n'

theorem Text.atLineEnd_splitLine (cs : List Char) : AtLineEnd (splitLine cs).2 := by
  intro c hc
  have h := List.head?_dropWhile_not (· ≠ '\n') cs
  rw [splitLine] at hc
  simp only [Option.mem_def] at hc
  rw [hc] at h
  simpa using h

theorem Text.not_mem_splitLine (cs : List Char) : '\n' ∉ (splitLine cs).1 := by
  intro h
  have hp := List.mem_takeWhile_imp h
  simp at hp

theorem Text.splitLine_append_self (cs : List Char) : (splitLine cs).1 ++ (splitLine cs).2 = cs :=
  List.takeWhile_append_dropWhile

theorem Text.splitLine_append {line rest : List Char} (hline : '\n' ∉ line)
    (hrest : AtLineEnd rest) : splitLine (line ++ rest) = (line, rest) := by
  have hpos : ∀ c ∈ line, decide (c ≠ '\n') = true := by
    intro c hc
    exact decide_eq_true fun he => hline (he ▸ hc)
  rw [splitLine, List.takeWhile_append_of_pos hpos, List.dropWhile_append_of_pos hpos]
  cases rest with
  | nil => simp
  | cons c rest =>
    have hc : c = '\n' := hrest c rfl
    simp [hc]

namespace Scan

/-! ### Pieces -/

inductive Piece where
  | newline
  | space (c : Char)
  | directive (line : List Char)
  | inactive (line : List Char)
  | element (l : Lexeme)

def Piece.chars : Piece → List Char
  | newline => ['\n']
  | space c => [c]
  | directive line => line
  | inactive line => line
  | element l => l.text

def State.take (σ : Setting) (src : Source) (nested : Option Reader) (s : State) : Piece → State
  | .newline => s.newline
  | .space c => s.space c
  | .directive line => s.directiveLine σ src nested line
  | .inactive line => s.inactiveLine src.uri line
  | .element l => s.element src.uri l

/-- The piece that is taken from a text next, and what follows it. -/
inductive Next (directives : Bool) (s : State) : List Char → Piece → List Char → Prop where
  | newline (rest : List Char) : Next directives s ('\n' :: rest) .newline rest
  | space {c : Char} (rest : List Char) (hc : Lexeme.isSpace c = true) :
      Next directives s (c :: rest) (.space c) rest
  | directive {line rest : List Char} (hd : directives = true) (hs : s.lineStart = true)
      (hline : '\n' ∉ line) (hrest : Text.AtLineEnd rest) :
      Next directives s ('#' :: (line ++ rest)) (.directive ('#' :: line)) rest
  | inactive {c : Char} {line rest : List Char} (hn : c ≠ '\n') (hc : Lexeme.isSpace c = false)
      (hs : s.lineStart = true) (hd : ¬(directives = true ∧ c = '#'))
      (ha : s.conditions.active = false) (hline : '\n' ∉ line) (hrest : Text.AtLineEnd rest) :
      Next directives s (c :: (line ++ rest)) (.inactive (c :: line)) rest
  | element {c : Char} {cs : List Char} (hn : c ≠ '\n') (hc : Lexeme.isSpace c = false)
      (hs : s.lineStart = true → ¬(directives = true ∧ c = '#') ∧ s.conditions.active = true) :
      Next directives s (c :: cs) (.element (Lexeme.head s.part c cs)) (Lexeme.tail s.part c cs)

theorem exists_next (directives : Bool) (s : State) (c : Char) (cs : List Char) :
    ∃ p rest, Next directives s (c :: cs) p rest := by
  by_cases hn : c = '\n'
  · exact hn ▸ ⟨_, _, .newline cs⟩
  cases hc : Lexeme.isSpace c with
  | true => exact ⟨_, _, .space cs hc⟩
  | false =>
    have hl := Text.not_mem_splitLine cs
    have hr := Text.atLineEnd_splitLine cs
    rw [← Text.splitLine_append_self cs]
    by_cases hs : s.lineStart = true
    · by_cases hd : directives = true ∧ c = '#'
      · obtain ⟨hd, rfl⟩ := hd
        exact ⟨_, _, .directive hd hs hl hr⟩
      · cases ha : s.conditions.active with
        | true => exact ⟨_, _, .element hn hc fun _ => ⟨hd, ha⟩⟩
        | false => exact ⟨_, _, .inactive hn hc hs hd ha hl hr⟩
    · exact ⟨_, _, .element hn hc fun h => absurd h hs⟩

variable {directives : Bool} {s : State} {text rest : List Char} {p : Piece}

/-- Nothing is lost between a piece and what follows it. -/
theorem Next.chars_append (h : Next directives s text p rest) : p.chars ++ rest = text := by
  cases h with
  | newline | space | directive | inactive => rfl
  | element => exact Lexeme.head_append_tail ..

/-- Every piece takes at least one character. -/
theorem Next.chars_ne_nil (h : Next directives s text p rest) : p.chars ≠ [] := by
  cases h with
  | newline | space | directive | inactive => exact List.cons_ne_nil _ _
  | element => exact List.cons_ne_nil _ _

theorem Next.length_lt (h : Next directives s text p rest) : rest.length < text.length := by
  have hp := List.length_pos_iff.mpr h.chars_ne_nil
  rw [← h.chars_append, List.length_append]
  omega

/-- A text is read piece by piece. -/
theorem run_of_next (σ : Setting) (src : Source) (nested : Option Reader)
    (h : Next σ.directives s text p rest) :
    run σ src nested s text = run σ src nested (s.take σ src nested p) rest := by
  cases h with
  | newline rest => rw [run, if_pos rfl]; rfl
  | space rest hc =>
    have hn : ∀ c, Lexeme.isSpace c = true → c ≠ '\n' := by
      rintro c hc rfl
      exact absurd hc (by decide)
    rw [run, if_neg (hn _ hc), if_pos hc]
    rfl
  | directive hd hs hline hrest =>
    have hb : (s.lineStart && σ.directives && decide ('#' = '#')) = true := by simp [hd, hs]
    rw [run, if_neg (by decide), if_neg (by decide), if_pos hb,
      Text.splitLine_append hline hrest]
    rfl
  | @inactive c line rest hn hc hs hd ha hline hrest =>
    have hb : ¬(s.lineStart && σ.directives && decide (c = '#')) = true := by
      simpa [hs] using hd
    have hi : (s.lineStart && !s.conditions.active) = true := by simp [hs, ha]
    rw [run, if_neg hn, if_neg (by simp [hc]), if_neg hb, if_pos hi,
      Text.splitLine_append hline hrest]
    rfl
  | @element c cs hn hc hs =>
    have hb : ¬(s.lineStart && σ.directives && decide (c = '#')) = true := by
      intro hb
      simp only [Bool.and_eq_true, decide_eq_true_eq] at hb
      exact (hs hb.1.1).1 ⟨hb.1.2, hb.2⟩
    have hi : ¬(s.lineStart && !s.conditions.active) = true := by
      intro hi
      simp only [Bool.and_eq_true, Bool.not_eq_true'] at hi
      exact absurd (hs hi.1).2 (by simp [hi.2])
    rw [run, if_neg hn, if_neg (by simp [hc]), if_neg hb, if_neg hi]
    rfl

theorem run_nil (σ : Setting) (src : Source) (nested : Option Reader) (s : State) :
    run σ src nested s [] = s := by
  rw [run]

/-- What holds at the end of a text and is carried back over each piece holds from the start. -/
@[elab_as_elim]
theorem run_induction (σ : Setting) (src : Source) (nested : Option Reader)
    {motive : State → List Char → Prop} (s : State) (text : List Char)
    (nil : ∀ s, motive s [])
    (next : ∀ s text p rest, Next σ.directives s text p rest →
      motive (s.take σ src nested p) rest → motive s text) : motive s text := by
  induction hn : text.length using Nat.strongRecOn generalizing s text with
  | _ n ih =>
    cases text with
    | nil => exact nil s
    | cons c cs =>
      obtain ⟨p, rest, h⟩ := exists_next σ.directives s c cs
      exact next s _ p rest h (ih _ (hn ▸ h.length_lt) _ _ rfl)

end Scan

end Pearl
