import Pearl.FileTree

namespace Pearl

inductive IncludeFault where
  /-- The file is not there. -/
  | missing
  /-- The file may not be opened. -/
  | forbidden
  /-- The file is no UTF-8 text. -/
  | undecodable
  /-- The file system refuses for another reason. -/
  | refused (e : OsError)
  deriving DecidableEq, Repr

def IncludeFault.reason : IncludeFault → String
  | missing => "file not found"
  | forbidden => "permission denied"
  | undecodable => "file is not valid UTF-8"
  | refused e => e.reason

def IncludeFault.ofStat : OsError → IncludeFault
  | .notFound => .missing
  | e => .refused e

/-- The fault of a file that can be inspected and not be read. -/
def IncludeFault.ofRead : ReadError → IncludeFault
  | .os .permissionDenied => .forbidden
  | .os e => .refused e
  | .encoding _ => .undecodable

/-- The text a file had at a time of modification. -/
structure CachedFile where
  modified : Int
  text : String
  deriving DecidableEq, Repr

/-- The texts of included files by path, and how often one was found here or had to be read. -/
structure IncludeCache where
  files : List (Path × CachedFile) := []
  hits : Nat := 0
  misses : Nat := 0
  deriving DecidableEq, Repr

namespace IncludeCache

def get? (c : IncludeCache) (p : Path) : Option CachedFile := c.files.lookup p

def contains (c : IncludeCache) (p : Path) : Bool := (c.get? p).isSome

def size (c : IncludeCache) : Nat := c.files.length

def invalidate (c : IncludeCache) (p : Path) : IncludeCache :=
  { c with files := c.files.filter (·.1 ≠ p) }

def clear (c : IncludeCache) : IncludeCache := { c with files := [] }

def insert (c : IncludeCache) (p : Path) (f : CachedFile) : IncludeCache :=
  { c with files := (p, f) :: (c.invalidate p).files }

/-- Reading a file without looking into any cache. -/
def readDirectly (files : FileTree) (p : Path) : Except IncludeFault String :=
  match files.stat p with
  | .error e => .error (.ofStat e)
  | .ok _ =>
    match files.readText p with
    | .error e => .error (.ofRead e)
    | .ok text => .ok text

/-- Reads a file that is not held, or not in its present state. -/
def readAnew (c : IncludeCache) (files : FileTree) (p : Path) (modified : Int) :
    Except IncludeFault String × IncludeCache :=
  let c := { c with misses := c.misses + 1 }
  match files.readText p with
  | .error e => (.error (.ofRead e), c)
  | .ok text => (.ok text, c.insert p ⟨modified, text⟩)

/-- The text of a file, read again if it was modified since. A file that is gone is forgotten. -/
def read (c : IncludeCache) (files : FileTree) (p : Path) :
    Except IncludeFault String × IncludeCache :=
  match files.stat p with
  | .error .notFound => (.error .missing, c.invalidate p)
  | .error e => (.error (.ofStat e), c)
  | .ok status =>
    match c.get? p with
    | some f =>
      if f.modified = status.modified then (.ok f.text, { c with hits := c.hits + 1 })
      else c.readAnew files p status.modified
    | none => c.readAnew files p status.modified

end IncludeCache

end Pearl
