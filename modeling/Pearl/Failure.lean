import Pearl.Location

namespace Pearl

/-- A failure as it is shown: what is wrong, where, and what may help. -/
structure Failure where
  message : String
  location : Option Location := none
  hint : Option String := none
  deriving DecidableEq, Repr

/-- A failure with its place already in words. The place comes first, the hint on a line of its
own; an empty hint is none. -/
def Failure.renderAt (place : Option String) (f : Failure) : String :=
  let head := match place with
    | some p => s!"{p}: error: {f.message}"
    | none => s!"error: {f.message}"
  match f.hint with
  | none | some "" => head
  | some h => s!"{head}\nhint: {h}"

/-- A failure in full. -/
def Failure.render (f : Failure) : Except UriError String :=
  match f.location with
  | none => .ok (f.renderAt none)
  | some l => l.render.map fun place => f.renderAt (some place)

/-- A failure on one line, for a place that is known anyway. -/
def Failure.brief (f : Failure) : String :=
  match f.hint with
  | none | some "" => f.message
  | some h => s!"{f.message} ({h})"

/-- A file that could not be included: its name as written, the reason, and the directory in
which it was looked for. -/
structure IncludeFailure where
  filename : String
  reason : String
  location : Option Location := none
  searched : Option String := none
  deriving DecidableEq, Repr

def IncludeFailure.toFailure (f : IncludeFailure) : Failure :=
  ⟨s!"cannot include '{f.filename}': {f.reason}", f.location,
    match f.searched with
    | none | some "" => none
    | some d => some s!"searched relative to: {d}"⟩

end Pearl
