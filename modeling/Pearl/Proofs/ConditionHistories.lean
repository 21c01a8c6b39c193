import Mathlib.Data.List.Induction
import Mathlib.Logic.Function.Iterate
import Pearl.Conditional

namespace Pearl.Conditional

variable {α : Type}

/-! ### Histories -/

/-- What may happen to the open conditions: one is opened, or the innermost one is turned over or
closed. -/
inductive Change (α : Type) where
  | push (outcome : Bool) (opener : α)
  | invert
  | pop
  deriving Repr

/-- What a change answers, and the state after it. The answer to a closed condition is what opened
it. -/
def perform (s : Conditional α) : Change α → Except ConditionalError (Option α) × Conditional α
  | .push outcome opener => (.ok none, s.push outcome opener)
  | .invert =>
    match s.invert with
    | .error e => (.error e, s)
    | .ok s' => (.ok none, s')
  | .pop =>
    match s.pop with
    | .error e => (.error e, s)
    | .ok (opener, s') => (.ok (some opener), s')

def after (h : List (Change α)) : Conditional α := h.foldl (fun s c => (s.perform c).2) {}

theorem after_concat (h : List (Change α)) (c : Change α) :
    after (h ++ [c]) = ((after h).perform c).2 := by
  simp [after]

/-! ### Conditions that stay open

Each opening is followed through the rest of the history on its own. No stack is kept for that:
it is enough to count the conditions that have been opened within it. -/

/-- How many of the conditions that are open before a history are closed in it. -/
def closes : List (Change α) → Nat
  | [] => 0
  | .push _ _ :: h => closes h - 1
  | .invert :: h => closes h
  | .pop :: h => closes h + 1

/-- How often a history turns over a condition within which `inner` others are open before it. -/
def turns : Nat → List (Change α) → Nat
  | _, [] => 0
  | inner, .push _ _ :: h => turns (inner + 1) h
  | inner, .invert :: h => (if inner = 0 then 1 else 0) + turns inner h
  | 0, .pop :: _ => 0
  | inner + 1, .pop :: h => turns inner h

/-- A condition that a history leaves open: its outcome at first, how often it has been turned over
since, and what opened it. -/
structure Opened (α : Type) where
  first : Bool
  turned : Nat
  opener : α
  deriving Repr

def Opened.outcome (c : Opened α) : Bool := not^[c.turned] c.first

/-- The condition after it has been turned over once more. -/
def Opened.turn (c : Opened α) : Opened α := { c with turned := c.turned + 1 }

/-- The conditions that a history leaves open, outermost first. -/
def opened : List (Change α) → List (Opened α)
  | [] => []
  | .push outcome opener :: h =>
    if closes h = 0 then ⟨outcome, turns 0 h, opener⟩ :: opened h else opened h
  | .invert :: h => opened h
  | .pop :: h => opened h

theorem outcome_turn (c : Opened α) : c.turn.outcome = !c.outcome :=
  Function.iterate_succ_apply' not c.turned c.first

theorem opened_push_eq_nil {outcome : Bool} {opener : α} {h : List (Change α)} :
    opened (.push outcome opener :: h) = [] ↔ closes h ≠ 0 ∧ opened h = [] := by
  rw [opened]
  split
  · simp [*]
  · simp [*]

/-! ### Longer histories -/

theorem closes_append {g : List (Change α)} (hg : closes g = 0) (h : List (Change α)) :
    closes (h ++ g) = closes h := by
  induction h with
  | nil => exact hg
  | cons c h ih => cases c <;> simp only [List.cons_append, closes, ih]

theorem turns_append {g : List (Change α)} (hg : ∀ inner, turns inner g = 0) (inner : Nat)
    (h : List (Change α)) : turns inner (h ++ g) = turns inner h := by
  fun_induction turns inner h with
  | case1 inner => exact hg inner
  | case2 inner outcome opener h ih => simp only [List.cons_append, turns, ih]
  | case3 inner h ih => simp only [List.cons_append, turns, ih]
  | case4 h => rfl
  | case5 inner h ih => simp only [List.cons_append, turns, ih]

/-- What neither closes nor turns over what was open before only adds to it. -/
theorem opened_append {g : List (Change α)} (hcloses : closes g = 0)
    (hturns : ∀ inner, turns inner g = 0) (h : List (Change α)) :
    opened (h ++ g) = opened h ++ opened g := by
  induction h with
  | nil => rfl
  | cons c h ih =>
    cases c with
    | push outcome opener =>
      simp only [List.cons_append, opened, ih, closes_append hcloses, turns_append hturns]
      split <;> rfl
    | invert => exact ih
    | pop => exact ih

theorem opened_concat_push (h : List (Change α)) (outcome : Bool) (opener : α) :
    opened (h ++ [.push outcome opener]) = opened h ++ [⟨outcome, 0, opener⟩] :=
  opened_append rfl (fun _ => rfl) h

/-- A condition is turned over where all that were opened within it have been closed, and it has
not been closed itself. -/
theorem turns_concat_invert (inner : Nat) (h : List (Change α)) :
    turns inner (h ++ [.invert]) =
      turns inner h + if closes h = inner ∧ opened h = [] then 1 else 0 := by
  fun_induction turns inner h with
  | case1 inner => simp [turns, closes, opened, eq_comm]
  | case2 inner outcome opener h ih =>
    have hiff : (closes h = inner + 1 ∧ opened h = []) ↔
        (closes h - 1 = inner ∧ closes h ≠ 0 ∧ opened h = []) := by
      constructor
      · intro hc
        exact ⟨by omega, by omega, hc.2⟩
      · intro hc
        exact ⟨by omega, hc.2.2⟩
    simp only [List.cons_append, turns, ih, closes, opened_push_eq_nil, if_congr hiff rfl rfl]
  | case3 inner h ih =>
    rw [List.cons_append, turns, ih, Nat.add_assoc]
    rfl
  | case4 h => simp [turns, closes]
  | case5 inner h ih =>
    rw [List.cons_append, turns, ih]
    exact congrArg _ (if_congr (and_congr_left' Nat.succ_inj.symm) rfl rfl)

/-- It is the innermost condition that is turned over. -/
theorem opened_concat_invert (h : List (Change α)) :
    opened (h ++ [.invert]) =
      (opened h).dropLast ++ ((opened h).getLast?.map Opened.turn).toList := by
  induction h with
  | nil => rfl
  | cons c h ih =>
    cases c with
    | push outcome opener =>
      simp only [List.cons_append, opened, ih, closes_append (g := [.invert]) rfl,
        turns_concat_invert]
      split
      · rename_i hcloses
        cases hopen : opened h with
        | nil => simp [hcloses, Opened.turn]
        | cons d ds => simp [List.getLast?_cons]
      · rfl
    | invert => exact ih
    | pop => exact ih

/-- A closing goes to a condition of the history itself, as long as it has left one open. -/
theorem closes_concat_pop (h : List (Change α)) :
    closes (h ++ [.pop]) = closes h + if opened h = [] then 1 else 0 := by
  induction h with
  | nil => rfl
  | cons c h ih =>
    cases c with
    | push outcome opener =>
      simp only [List.cons_append, closes, ih, opened_push_eq_nil]
      by_cases hopen : opened h = []
      · by_cases hcloses : closes h = 0
        · simp [hopen, hcloses]
        · simp only [hopen, hcloses, ne_eq, not_false_eq_true, and_self, if_true]
          omega
      · simp [hopen]
    | invert => exact ih
    | pop =>
      change closes (h ++ [.pop]) + 1 = closes h + 1 + if opened h = [] then 1 else 0
      rw [ih]
      omega

/-- It is the innermost condition that is closed. -/
theorem opened_concat_pop (h : List (Change α)) :
    opened (h ++ [.pop]) = (opened h).dropLast := by
  induction h with
  | nil => rfl
  | cons c h ih =>
    cases c with
    | push outcome opener =>
      have hturns : ∀ inner, turns inner [Change.pop (α := α)] = 0 := by
        intro inner
        cases inner <;> rfl
      simp only [List.cons_append, opened, ih, closes_concat_pop, turns_append hturns]
      cases hopen : opened h with
      | nil =>
        simp only [if_true, Nat.add_eq_zero_iff, Nat.one_ne_zero, and_false, if_false]
        split <;> rfl
      | cons d ds =>
        simp only [reduceCtorEq, if_false, Nat.add_zero]
        split <;> rfl
    | invert => exact ih
    | pop => exact ih

/-! ### The state after a history -/

/-- What is kept of open conditions, innermost first: the outcome of each, its outcome together
with those around it, and what opened it. -/
def table : List (Opened α) → List (Condition α)
  | [] => []
  | c :: outer => ⟨c.outcome, (c :: outer).all (·.outcome), c.opener⟩ :: table outer

theorem active_table (cs : List (Opened α)) :
    (Conditional.mk (table cs)).active = cs.all (·.outcome) := by
  cases cs <;> rfl

theorem map_opener_table (cs : List (Opened α)) :
    (table cs).map (·.opener) = cs.map (·.opener) := by
  induction cs with
  | nil => rfl
  | cons c outer ih => rw [table, List.map_cons, ih, List.map_cons]

theorem perform_push_table (outer : List (Opened α)) (outcome : Bool) (opener : α) :
    (Conditional.mk (table outer)).perform (.push outcome opener) =
      (.ok none, ⟨table (⟨outcome, 0, opener⟩ :: outer)⟩) := by
  rw [perform, push, active_table, Bool.and_comm]
  rfl

theorem perform_invert_table (c : Opened α) (outer : List (Opened α)) :
    (Conditional.mk (table (c :: outer))).perform .invert =
      (.ok none, ⟨table (c.turn :: outer)⟩) := by
  have hactive := active_table outer
  simp only [perform, invert, table, hactive, List.all_cons, outcome_turn, Bool.and_comm]
  rfl

theorem perform_pop_table (c : Opened α) (outer : List (Opened α)) :
    (Conditional.mk (table (c :: outer))).perform .pop =
      (.ok (some c.opener), ⟨table outer⟩) := rfl

/-- Where no condition is open, none can be turned over or closed. -/
theorem perform_of_nil {s : Conditional α} (hs : s.conditions = []) :
    s.perform .invert = (.error .unmatchedElse, s) ∧
      s.perform .pop = (.error .unmatchedEndif, s) := by
  obtain ⟨conditions⟩ := s
  cases hs
  exact ⟨rfl, rfl⟩

/-- The state is what a history leaves open, and nothing else of it. -/
theorem after_eq (h : List (Change α)) : after h = ⟨table (opened h).reverse⟩ := by
  induction h using List.reverseRecOn with
  | nil => rfl
  | append_singleton h c ih =>
    rw [after_concat, ih]
    cases c with
    | push outcome opener =>
      rw [perform_push_table, opened_concat_push, List.reverse_append]
      rfl
    | invert =>
      rw [opened_concat_invert]
      rcases List.eq_nil_or_concat (opened h) with hopen | ⟨outer, c, hopen⟩
      · rw [hopen]
        rfl
      · rw [List.concat_eq_append] at hopen
        rw [hopen, List.reverse_concat, perform_invert_table]
        simp
    | pop =>
      rw [opened_concat_pop]
      rcases List.eq_nil_or_concat (opened h) with hopen | ⟨outer, c, hopen⟩
      · rw [hopen]
        rfl
      · rw [List.concat_eq_append] at hopen
        rw [hopen, List.reverse_concat, perform_pop_table]
        simp

theorem turns_eq_zero {inner : Nat} {h : List (Change α)} (hcloses : closes h ≤ inner) :
    turns (inner + 1) h = 0 := by
  induction h generalizing inner with
  | nil => rfl
  | cons c h ih =>
    cases c with
    | push outcome opener => exact ih (by simp only [closes] at hcloses; omega)
    | invert =>
      rw [turns, if_neg (Nat.succ_ne_zero inner), ih hcloses]
    | pop =>
      cases inner with
      | zero => exact absurd hcloses (by simp [closes])
      | succ inner => exact ih (Nat.le_of_succ_le_succ hcloses)

/-- What a condition holds does not reach what is around it. -/
theorem opened_append_push (h : List (Change α)) {body : List (Change α)} (hcloses : closes body = 0)
    (hopened : opened body = []) (outcome : Bool) (opener : α) :
    opened (h ++ .push outcome opener :: body) =
      opened h ++ [⟨outcome, turns 0 body, opener⟩] := by
  have hblock : closes (.push outcome opener :: body) = 0 := by rw [closes, hcloses]
  have hturns : ∀ inner, turns inner (.push outcome opener :: body) = 0 := by
    intro inner
    exact turns_eq_zero (by omega)
  rw [opened_append hblock hturns, opened, if_pos hcloses, hopened]

/-- After every history, one that was refused in parts included, there are as many outcomes,
combined outcomes and openers as conditions that it leaves open. Each outcome is that of the
opening, turned over once for each `#else` that met the condition, and lines count exactly where
all outcomes hold. A condition that is closed was opened last of those that are open: the answer
is what opened it, and the state is the one before the opening. Without an open condition none is
turned over or closed, and the state stays. -/
theorem after_tracks_openings (h : List (Change α)) :
    let s := after h
    ((s.conditions.map (·.outcome)).length = (opened h).length ∧
      (s.conditions.map (·.active)).length = (opened h).length ∧
      s.unclosed.length = (opened h).length) ∧
    s.conditions = table (opened h).reverse ∧
    s.active = (opened h).all (·.outcome) ∧
    s.unclosed = (opened h).map (·.opener) ∧
    (∀ outcome opener body, closes body = 0 → opened body = [] →
      (after (h ++ .push outcome opener :: body)).perform .pop = (.ok (some opener), s)) ∧
    (opened h = [] → s.perform .invert = (.error .unmatchedElse, s) ∧
      s.perform .pop = (.error .unmatchedEndif, s)) ∧
    (opened h ≠ [] → (s.perform .invert).1 = .ok none ∧
      (s.perform .pop).1 = .ok s.unclosed.getLast?) := by
  intro s
  have hs : s = ⟨table (opened h).reverse⟩ := after_eq h
  have hopeners : s.unclosed = (opened h).map (·.opener) := by
    rw [unclosed, List.map_reverse, hs, map_opener_table, List.map_reverse, List.reverse_reverse]
  have hlength : s.conditions.length = (opened h).length := by
    have hlength := congrArg List.length hopeners
    simpa [unclosed] using hlength
  refine ⟨⟨by simpa using hlength, by simpa using hlength, by simp [hopeners]⟩,
    congrArg conditions hs, ?_, hopeners, ?_, ?_, ?_⟩
  · rw [hs, active_table, List.all_reverse]
  · intro outcome opener body hcloses hopened
    rw [after_eq, opened_append_push h hcloses hopened, List.reverse_concat, perform_pop_table,
      ← hs]
  · intro hopen
    exact perform_of_nil (by rw [hs, hopen]; rfl)
  · intro hopen
    obtain ⟨outer, c, hlast⟩ := (List.eq_nil_or_concat (opened h)).resolve_left hopen
    rw [List.concat_eq_append] at hlast
    rw [hopeners, hs, hlast, List.reverse_concat, perform_invert_table, perform_pop_table]
    simp

/-- A closing and an `#else` without a condition are refused, two conditions stay open after
that, and a third one is opened, turned over and closed within them. -/
theorem after_tracks_openings_nested :
    let h : List (Change Nat) := [.pop, .invert, .push true 1, .push false 2, .invert]
    let body : List (Change Nat) := [.invert, .push true 4, .invert, .pop, .invert]
    (closes body = 0 ∧ opened body = [] ∧ opened h ≠ [] ∧ opened (h.take 2) = []) ∧
    (after h).active = true ∧ (after h).unclosed = [1, 2] ∧
    (after (h ++ .push true 3 :: body)).perform .pop = (.ok (some 3), after h) ∧
    ((after h).perform .pop).1 = .ok (some 2) ∧
    (after (h.take 2)).perform .pop = (.error .unmatchedEndif, after (h.take 2)) := by
  intro h body
  have hbody : closes body = 0 ∧ opened body = [] := ⟨rfl, rfl⟩
  have hopen : opened h ≠ [] := by simp [h, opened, closes]
  have hnone : opened (h.take 2) = [] := rfl
  obtain ⟨-, -, hactive, hunclosed, hclose, -, hlast⟩ := after_tracks_openings h
  obtain ⟨-, -, -, -, -, hrefused, -⟩ := after_tracks_openings (h.take 2)
  refine ⟨⟨hbody.1, hbody.2, hopen, hnone⟩, hactive.trans rfl, hunclosed.trans rfl,
    hclose true 3 body hbody.1 hbody.2, (hlast hopen).2.trans ?_, (hrefused hnone).2⟩
  rw [hunclosed]
  rfl

end Pearl.Conditional
