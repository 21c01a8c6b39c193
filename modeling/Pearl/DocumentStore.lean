import Pearl.Entries
import Pearl.IncludeCache
import Pearl.RealPath

namespace Pearl

/-- What is known about each open document, in the order in which they were opened, and the texts
of the files they include. -/
structure DocumentStore (α : Type) where
  results : List (String × α) := []
  cache : IncludeCache := {}

namespace DocumentStore

variable {α : Type}

def get? (s : DocumentStore α) (uri : String) : Option α := s.results.lookup uri

def contains (s : DocumentStore α) (uri : String) : Bool := (s.get? uri).isSome

def size (s : DocumentStore α) : Nat := s.results.length

def uris (s : DocumentStore α) : List String := s.results.map (·.1)

/-- The store with a new result for a document, which keeps the place it has. -/
def put (s : DocumentStore α) (uri : String) (result : α) : DocumentStore α :=
  { s with results := Entries.assign uri result s.results }

theorem get?_put (s : DocumentStore α) (uri : String) (result : α) (other : String) :
    (s.put uri result).get? other = if other = uri then some result else s.get? other :=
  Entries.lookup_assign uri result s.results other

def erase (s : DocumentStore α) (uri : String) : DocumentStore α :=
  { s with results := s.results.filter (·.1 ≠ uri) }

theorem get?_erase (s : DocumentStore α) (uri other : String) :
    (s.erase uri).get? other = if other = uri then none else s.get? other :=
  Entries.lookup_filter_ne uri s.results other

/-- Forgets a closed document and, if it is a file, the text held for it. The document is forgotten
even if the path of the file is not to be found. -/
def forget (s : DocumentStore α) (files : FileTree) (uri : String) :
    DocumentStore α × Option DocumentError :=
  let s := s.erase uri
  if Uri.isFile uri then
    match files.locate uri with
    | .ok p => ({ s with cache := s.cache.invalidate p }, none)
    | .error e => (s, some e)
  else (s, none)

theorem results_forget (s : DocumentStore α) (files : FileTree) (uri : String) :
    (s.forget files uri).1.results = (s.erase uri).results := by
  unfold forget
  dsimp only
  split
  · split <;> rfl
  · rfl

theorem get?_forget (s : DocumentStore α) (files : FileTree) (uri other : String) :
    (s.forget files uri).1.get? other = if other = uri then none else s.get? other := by
  rw [get?, results_forget]
  exact s.get?_erase uri other

end DocumentStore

end Pearl
