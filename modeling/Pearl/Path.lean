import Pearl.Text.Split

namespace Pearl

/-- What a path starts from: the current directory, the root, or the root written with exactly
two slashes, which is kept apart from the plain one. -/
inductive Anchor where
  | relative
  | root
  | doubleRoot
  deriving DecidableEq, Repr

/-- A component of a path: not empty, not a dot, and without slashes. -/
def IsComponent (part : String) : Prop := part ≠ "" ∧ part ≠ "." ∧ '/' ∉ part.toList

/-- A path by its components. Empty components and `.` are never held; `..` is. -/
structure Path where
  anchor : Anchor
  parts : List String
  isComponent : ∀ part ∈ parts, IsComponent part
  deriving DecidableEq, Repr

namespace Path

/-- The anchor of a written path, by the number of slashes it starts with. -/
def anchorOf (cs : List Char) : Anchor :=
  match (cs.takeWhile (· = '/')).length with
  | 0 => .relative
  | 2 => .doubleRoot
  | _ => .root

def partsOf (cs : List Char) : List String :=
  ((Text.splitOn '/' cs).filter fun piece => piece ≠ [] ∧ piece ≠ ['.']).map String.ofList

/-- Components hold no slashes, because they stand between slashes. -/
theorem isComponent_of_mem_partsOf {cs : List Char} {part : String} (h : part ∈ partsOf cs) :
    IsComponent part := by
  simp only [partsOf, List.mem_map, List.mem_filter, decide_eq_true_eq] at h
  obtain ⟨piece, ⟨hp, hne, hdot⟩, rfl⟩ := h
  refine ⟨?_, ?_, ?_⟩
  · intro he
    exact hne (by simpa using congrArg String.toList he)
  · intro he
    exact hdot (by simpa using congrArg String.toList he)
  · rw [String.toList_ofList]
    exact Text.not_mem_of_mem_splitOn hp

def ofString (s : String) : Path :=
  ⟨anchorOf s.toList, partsOf s.toList, fun _ h => isComponent_of_mem_partsOf h⟩

/-- The slashes an anchor is written with. -/
def Anchor.text : Anchor → String
  | .relative => ""
  | .root => "/"
  | .doubleRoot => "//"

/-- Writes a path; the empty one is a dot. -/
def toString (p : Path) : String :=
  if p.anchor = .relative && p.parts.isEmpty then "."
  else Anchor.text p.anchor ++ "/".intercalate p.parts

/-- The path `q` as seen from the directory `p`. -/
def join (p q : Path) : Path :=
  if q.anchor = .relative then
    ⟨p.anchor, p.parts ++ q.parts,
      fun part h => (List.mem_append.mp h).elim (p.isComponent part) (q.isComponent part)⟩
  else q

/-- The directory that holds a path; a bare anchor is its own. -/
def parent (p : Path) : Path :=
  ⟨p.anchor, p.parts.dropLast, fun part h => p.isComponent part (List.dropLast_subset _ h)⟩

/-- One component on the way down, the innermost directory first: `..` goes back up, and stays
put at the root. -/
def descend (stack : List String) (part : String) : List String :=
  if part = ".." then stack.tail else part :: stack

/-- The components with every `..` carried out. -/
def normalizeParts (parts : List String) : List String := (parts.foldl descend []).reverse

theorem mem_of_mem_foldl_descend {part : String} {parts stack : List String}
    (h : part ∈ parts.foldl descend stack) : part ∈ parts ∨ part ∈ stack := by
  induction parts generalizing stack with
  | nil => exact Or.inr h
  | cons p parts ih =>
    rcases ih h with h | h
    · exact Or.inl (List.mem_cons_of_mem p h)
    · unfold descend at h
      split at h
      · exact Or.inr (List.mem_of_mem_tail h)
      · rcases List.mem_cons.mp h with rfl | h
        · exact Or.inl List.mem_cons_self
        · exact Or.inr h

theorem mem_of_mem_normalizeParts {part : String} {parts : List String}
    (h : part ∈ normalizeParts parts) : part ∈ parts := by
  have hf := mem_of_mem_foldl_descend (List.mem_reverse.mp h)
  simpa using hf

/-- The absolute path without `..` that `p` stands for in the directory `cwd`, as far as its names
tell. -/
def absolute (cwd p : Path) : Path :=
  ⟨.root, normalizeParts (cwd.join p).parts,
    fun part h => (cwd.join p).isComponent part (mem_of_mem_normalizeParts h)⟩

end Path

end Pearl
