import Mathlib.Data.List.Induction
import Pearl.Proofs.VisibleNames

namespace Pearl.Arena

/-! ### Changes and answers -/

/-- What may be done to an arena. Names are declared and replaced in the innermost scope, or in the
open scope at a level. -/
inductive Change where
  | push (keyword : Option String)
  | pop
  | declare (level : Option Int) (y : Symbol)
  | replace (level : Option Int) (y : Symbol)
  | use (name : String)
  | takeClosed

/-- What a change answers: the scope that is opened or closed, the symbol that has the name
already, the symbol that is used, the scopes that are taken, or why it is refused. -/
inductive Answer where
  | opened (scope : Nat)
  | closed (scope : Nat)
  | declared (holder : Option Nat)
  | replaced
  | used (id : Option Nat)
  | taken (scopes : List Nat)
  | refused (e : ArenaError)
  deriving DecidableEq, Repr

/-- The innermost scope, or the open scope at a level. -/
def placeOf (a : Arena) : Option Int → Except ArenaError Nat
  | none => .ok a.current
  | some level => a.atLevel level

/-- What a change answers, and the arena after it. -/
def perform (a : Arena) : Change → Answer × Arena
  | .push keyword => (.opened a.scopes.size, a.push keyword)
  | .pop =>
    match a.pop with
    | .ok (scope, a') => (.closed scope, a')
    | .error e => (.refused e, a)
  | .declare level y =>
    match a.placeOf level with
    | .ok scope => (.declared (a.declare scope y).1, (a.declare scope y).2)
    | .error e => (.refused e, a)
  | .replace level y =>
    match a.placeOf level with
    | .ok scope => (.replaced, a.add scope y)
    | .error e => (.refused e, a)
  | .use name =>
    match a.lookup name with
    | some id => (.used (some id), a.markUsed id)
    | none => (.used none, a)
  | .takeClosed => (.taken a.takeClosed.1, a.takeClosed.2)

/-- The answers to changes from the beginning, and the arena after them. -/
def ofChanges (changes : List Change) : List Answer × Arena :=
  changes.foldl (fun r c => (r.1 ++ [(r.2.perform c).1], (r.2.perform c).2)) ([], {})

def Answer.closed? : Answer → Option Nat
  | closed scope => some scope
  | _ => none

def Answer.delivered : Answer → List Nat
  | taken scopes => scopes
  | _ => []

def closings (answers : List Answer) : List Nat := answers.filterMap Answer.closed?

def deliveries (answers : List Answer) : List Nat := answers.flatMap Answer.delivered

theorem ofChanges_concat (changes : List Change) (c : Change) :
    ofChanges (changes ++ [c]) =
      ((ofChanges changes).1 ++ [((ofChanges changes).2.perform c).1],
        ((ofChanges changes).2.perform c).2) := by
  simp [ofChanges]

theorem closings_concat (answers : List Answer) (answer : Answer) :
    closings (answers ++ [answer]) = closings answers ++ answer.closed?.toList := by
  rw [closings, List.filterMap_append]
  cases h : answer.closed? <;> simp [closings, h]

theorem deliveries_concat (answers : List Answer) (answer : Answer) :
    deliveries (answers ++ [answer]) = deliveries answers ++ answer.delivered := by
  simp [deliveries]

/-! ### Open scopes -/

variable {a : Arena} {answers : List Answer}

theorem mem_stack_of_atLevel {level : Int} {scope : Nat} (h : a.atLevel level = .ok scope) :
    scope ∈ a.stack := by
  unfold atLevel at h
  dsimp only at h
  split at h
  · rename_i n _
    cases hn : a.stack[n]? with
    | none =>
      rw [hn] at h
      cases h
    | some i =>
      rw [hn] at h
      cases h
      exact List.mem_of_getElem? hn
  · cases h

theorem mem_stack_of_placeOf (hopen : a.stack ≠ []) {level : Option Int} {scope : Nat}
    (h : a.placeOf level = .ok scope) : scope ∈ a.stack := by
  cases level with
  | none =>
    cases h
    obtain ⟨i, outer, hstack⟩ := List.exists_cons_of_ne_nil hopen
    rw [current, hstack]
    exact List.mem_cons_self
  | some level => exact mem_stack_of_atLevel h

/-- The open scopes grow inwards from the global one, what has been closed and not handed over is
kept in order, every scope is open or has been closed, not both, and no scope holds a name
twice. -/
structure Accounted (answers : List Answer) (a : Arena) : Prop where
  ascending : a.stack.Pairwise (· > ·)
  bottom : a.stack.getLast? = some 0
  delivered : deliveries answers ++ a.closed = closings answers
  partition : (closings answers ++ a.stack).Perm (List.range a.scopes.size)
  distinct : a.Distinct

namespace Accounted

theorem stack_ne_nil (h : Accounted answers a) : a.stack ≠ [] := by
  intro hnil
  have hbottom := h.bottom
  rw [hnil] at hbottom
  cases hbottom

theorem lt_size (h : Accounted answers a) {scope : Nat} (hscope : scope ∈ a.stack) :
    scope < a.scopes.size :=
  List.mem_range.mp (h.partition.mem_iff.mp (List.mem_append_right _ hscope))

/-- What opens, closes and hands over nothing leaves the account as it is. -/
theorem keep (h : Accounted answers a) {answer : Answer} (hcloses : answer.closed? = none)
    (hdelivers : answer.delivered = []) : Accounted (answers ++ [answer]) a := by
  have hclosings : closings (answers ++ [answer]) = closings answers := by
    rw [closings_concat, hcloses, Option.toList_none, List.append_nil]
  have hdeliveries : deliveries (answers ++ [answer]) = deliveries answers := by
    rw [deliveries_concat, hdelivers, List.append_nil]
  refine ⟨h.ascending, h.bottom, ?_, ?_, h.distinct⟩
  · rw [hdeliveries, hclosings]
    exact h.delivered
  · rw [hclosings]
    exact h.partition

theorem add (h : Accounted answers a) {level : Option Int} {scope : Nat}
    (hscope : a.placeOf level = .ok scope) (y : Symbol) : Accounted answers (a.add scope y) := by
  have hlt := h.lt_size (mem_stack_of_placeOf h.stack_ne_nil hscope)
  refine ⟨h.ascending, h.bottom, h.delivered, ?_, h.distinct.add hlt y⟩
  rw [Arena.add, Array.size_modify]
  exact h.partition

theorem markUsed (h : Accounted answers a) (id : Nat) : Accounted answers (a.markUsed id) :=
  ⟨h.ascending, h.bottom, h.delivered, h.partition, h.distinct⟩

theorem push (h : Accounted answers a) (keyword : Option String) :
    Accounted (answers ++ [.opened a.scopes.size]) (a.push keyword) := by
  have hclosings : closings (answers ++ [.opened a.scopes.size]) = closings answers := by
    rw [closings_concat]
    exact List.append_nil _
  refine ⟨?_, ?_, ?_, ?_, ?_⟩
  · exact List.pairwise_cons.mpr ⟨fun scope hscope => h.lt_size hscope, h.ascending⟩
  · change (a.scopes.size :: a.stack).getLast? = some 0
    rw [List.getLast?_cons, h.bottom]
    rfl
  · rw [hclosings, deliveries_concat, ← h.delivered]
    exact congrArg (· ++ a.closed) (List.append_nil _)
  · rw [hclosings]
    change (closings answers ++ a.scopes.size :: a.stack).Perm _
    rw [Arena.push, Array.size_push, List.range_succ]
    exact List.perm_middle.trans
      ((h.partition.cons _).trans (List.perm_append_singleton _ _).symm)
  · intro i
    rw [entries_push]
    exact h.distinct i

/-- Closing the innermost scope succeeds unless it is the global one. -/
theorem perform_pop (h : Accounted answers a) :
    a.perform .pop =
      if a.stack = [0] then (.refused .closingGlobal, a)
      else (.closed a.current,
        { a with stack := a.stack.tail, closed := a.closed ++ [a.current] }) := by
  have hbottom := h.bottom
  unfold perform Arena.pop current
  rcases hstack : a.stack with _ | ⟨i, _ | ⟨outer, rest⟩⟩
  · exact absurd hstack h.stack_ne_nil
  · rw [hstack] at hbottom
    cases hbottom
    rfl
  · simp

theorem pop (h : Accounted answers a) {scope outer : Nat} {rest : List Nat}
    (hstack : a.stack = scope :: outer :: rest) :
    Accounted (answers ++ [.closed scope])
      { a with stack := outer :: rest, closed := a.closed ++ [scope] } := by
  have hclosings : closings (answers ++ [.closed scope]) = closings answers ++ [scope] := by
    rw [closings_concat]
    rfl
  have hdeliveries : deliveries (answers ++ [.closed scope]) = deliveries answers := by
    rw [deliveries_concat]
    exact List.append_nil _
  have hascending := h.ascending
  have hbottom := h.bottom
  have hpartition := h.partition
  rw [hstack] at hascending hbottom hpartition
  refine ⟨hascending.of_cons, ?_, ?_, ?_, h.distinct⟩
  · rwa [List.getLast?_cons_cons] at hbottom
  · rw [hclosings, hdeliveries, ← h.delivered, List.append_assoc]
  · rw [hclosings, List.append_assoc]
    exact hpartition

theorem takeClosed (h : Accounted answers a) :
    Accounted (answers ++ [.taken a.closed]) { a with closed := [] } := by
  have hclosings : closings (answers ++ [.taken a.closed]) = closings answers := by
    rw [closings_concat]
    exact List.append_nil _
  refine ⟨h.ascending, h.bottom, ?_, ?_, h.distinct⟩
  · rw [hclosings, deliveries_concat, ← h.delivered]
    exact List.append_nil _
  · rw [hclosings]
    exact h.partition

theorem perform (h : Accounted answers a) (c : Change) :
    Accounted (answers ++ [(a.perform c).1]) (a.perform c).2 := by
  cases c with
  | push keyword => exact h.push keyword
  | pop =>
    rw [Arena.perform, Arena.pop]
    split
    · rename_i scope a' hpop
      split at hpop
      · rename_i hstack
        cases hpop
        exact h.pop hstack
      · cases hpop
    · exact h.keep rfl rfl
  | declare level y =>
    rw [Arena.perform]
    split
    · rename_i scope hscope
      rw [Arena.declare]
      split
      · exact h.keep rfl rfl
      · exact (h.add hscope y).keep rfl rfl
    · exact h.keep rfl rfl
  | replace level y =>
    rw [Arena.perform]
    split
    · rename_i scope hscope
      exact (h.add hscope y).keep rfl rfl
    · exact h.keep rfl rfl
  | use name =>
    rw [Arena.perform]
    split
    · rename_i id _
      exact (h.markUsed id).keep rfl rfl
    · exact h.keep rfl rfl
  | takeClosed => exact h.takeClosed

end Accounted

theorem accounted_empty : Accounted [] {} := by
  refine ⟨List.pairwise_singleton _ _, rfl, rfl, List.Perm.refl _, ?_⟩
  intro i
  have hempty : ((({} : Arena).scope i).entries) = [] := by
    cases i with
    | zero => rfl
    | succ i => rfl
  rw [hempty]
  exact List.nodup_nil

theorem accounted_ofChanges (changes : List Change) :
    Accounted (ofChanges changes).1 (ofChanges changes).2 := by
  induction changes using List.reverseRecOn with
  | nil => exact accounted_empty
  | append_singleton changes c ih =>
    rw [ofChanges_concat]
    exact ih.perform c

/-- After any changes the open scopes go up from the global one, whose number is 0. Each scope is
in one place: it is open, or closed and not handed over yet, or it has been handed over, once. All
that have been closed are handed over in the order of their ends, and the next time the rest of
them. The global scope is not closed, and an attempt changes nothing. And a name is found exactly
if it is visible, with the same meaning. -/
theorem scopes_delivered_once (changes : List Change) :
    let answers := (ofChanges changes).1
    let a := (ofChanges changes).2
    (a.stack.reverse.head? = some 0 ∧ a.stack.reverse.Pairwise (· < ·)) ∧
    (deliveries answers ++ a.closed ++ a.stack).Perm (List.range a.scopes.size) ∧
    deliveries answers ++ a.closed = closings answers ∧
    deliveries (answers ++ [(a.perform .takeClosed).1]) = closings answers ∧
    a.perform .pop =
      (if a.stack = [0] then (.refused .closingGlobal, a)
      else (.closed a.current,
        { a with stack := a.stack.tail, closed := a.closed ++ [a.current] })) ∧
    (a.visible.map (·.1)).Nodup ∧
    ∀ name, a.visible.lookup name = a.lookup name := by
  intro answers a
  have h : Accounted answers a := accounted_ofChanges changes
  refine ⟨⟨?_, ?_⟩, ?_, h.delivered, ?_, h.perform_pop, a.nodup_visible, lookup_visible h.distinct⟩
  · rw [List.head?_reverse]
    exact h.bottom
  · exact List.pairwise_reverse.mpr h.ascending
  · rw [h.delivered]
    exact h.partition
  · rw [deliveries_concat, ← h.delivered]
    rfl

end Pearl.Arena
