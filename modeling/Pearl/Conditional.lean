import Pearl.Failure

namespace Pearl

/-- An open condition. `outcome` is its own one, `active` the one together with all conditions
around it. -/
structure Condition (α : Type) where
  outcome : Bool
  active : Bool
  opener : α
  deriving Repr

/-- The conditions that are open at a line, innermost first. -/
structure Conditional (α : Type) where
  conditions : List (Condition α) := []
  deriving Repr

/-- A directive that needs an open condition and has none. -/
inductive ConditionalError where
  | unmatchedElse
  | unmatchedEndif
  deriving DecidableEq, Repr

def ConditionalError.toFailure (e : ConditionalError) (location : Option Location) : Failure :=
  match e with
  | unmatchedElse => ⟨"#else without matching #ifdef/#ifndef", location, none⟩
  | unmatchedEndif => ⟨"#endif without matching #ifdef/#ifndef", location, none⟩

namespace Conditional

variable {α : Type}

/-- Lines at this place count. -/
def active (s : Conditional α) : Bool :=
  match s.conditions with
  | [] => true
  | c :: _ => c.active

def depth (s : Conditional α) : Nat := s.conditions.length

def push (s : Conditional α) (outcome : Bool) (opener : α) : Conditional α :=
  ⟨⟨outcome, s.active && outcome, opener⟩ :: s.conditions⟩

def invert (s : Conditional α) : Except ConditionalError (Conditional α) :=
  match s.conditions with
  | [] => .error .unmatchedElse
  | c :: outer =>
    .ok ⟨⟨!c.outcome, (Conditional.mk outer).active && !c.outcome, c.opener⟩ :: outer⟩

/-- Closes the innermost condition and tells what opened it. -/
def pop (s : Conditional α) : Except ConditionalError (α × Conditional α) :=
  match s.conditions with
  | [] => .error .unmatchedEndif
  | c :: outer => .ok (c.opener, ⟨outer⟩)

/-- What opened the conditions that are still open, outermost first. -/
def unclosed (s : Conditional α) : List α := s.conditions.reverse.map (·.opener)

end Conditional

end Pearl
