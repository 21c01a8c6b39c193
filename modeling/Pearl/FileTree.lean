import Pearl.Path
import Pearl.Text.Newline
import Pearl.Text.Quoted
import Pearl.Text.Utf8

namespace Pearl

/-- Why the file system refuses an operation. -/
inductive OsError where
  | notFound
  | inputOutput
  | permissionDenied
  | notDirectory
  | isDirectory
  | nameTooLong
  /-- Symbolic links that lead back to themselves. -/
  | linkLoop
  deriving DecidableEq, Repr

def OsError.number : OsError → Nat
  | .notFound => 2
  | .inputOutput => 5
  | .permissionDenied => 13
  | .notDirectory => 20
  | .isDirectory => 21
  | .nameTooLong => 36
  | .linkLoop => 40

def OsError.reason : OsError → String
  | .notFound => "No such file or directory"
  | .inputOutput => "Input/output error"
  | .permissionDenied => "Permission denied"
  | .notDirectory => "Not a directory"
  | .isDirectory => "Is a directory"
  | .nameTooLong => "File name too long"
  | .linkLoop => "Too many levels of symbolic links"

def OsError.message (e : OsError) (path : String) : String :=
  s!"[Errno {e.number}] {e.reason}: {Text.quoteString path}"

/-- What a file holds: a text, or bytes that may be none. -/
inductive Content where
  | text (s : String)
  | bytes (bs : List UInt8)

/-- The characters of a file, with line ends as they stand in it. -/
def Content.decode : Content → Except Text.Utf8.Fault (List Char)
  | .text s => .ok s.toList
  | .bytes bs => Text.Utf8.decode bs

/-- An entry of the file system. `statError` keeps it from being inspected, `openError` keeps it
from being opened. -/
structure Entry where
  content : Content := .text ""
  modified : Int := 0
  isDirectory : Bool := false
  statError : Option OsError := none
  openError : Option OsError := none

/-- How the names of files are written down: by a codec in which some characters have a form. -/
structure NameEncoding where
  codec : String := "utf-8"
  holds : Char → Bool := fun _ => true
  /-- What is said of a character without a form. -/
  reason : String := "surrogates not allowed"

/-- A file system: entries by absolute path, the current directory, and how names are written
down. Every directory on the way to an entry exists. A path stands for what it leads to, so the
only symbolic links among the entries are those that lead nowhere because they lead back to
themselves; their `statError` says so. -/
structure FileTree where
  entries : List (Path × Entry) := []
  cwd : Path
  names : NameEncoding := {}

/-- What inspecting a path tells. -/
structure FileStatus where
  modified : Int
  isDirectory : Bool
  deriving DecidableEq, Repr

/-- Why the text of a file cannot be had. -/
inductive ReadError where
  | os (e : OsError)
  | encoding (fault : Text.Utf8.Fault)
  deriving DecidableEq, Repr

/-- The wording of an encoding fault: the byte, or the range of bytes, that is no UTF-8. -/
def encodingMessage (f : Text.Utf8.Fault) : String :=
  let place :=
    if f.count = 1 then
      let code := String.ofList (Text.hexDigits 2 f.byte.toNat)
      s!"byte 0x{code} in position {f.position}"
    else s!"bytes in position {f.position}-{f.position + f.count - 1}"
  s!"'utf-8' codec can't decode {place}: {f.reason.message}"

def ReadError.message (path : String) : ReadError → String
  | os e => e.message path
  | encoding fault => encodingMessage fault

namespace FileTree

def entry? (t : FileTree) (p : Path) : Option Entry := t.entries.lookup p

/-- `p` is a directory on the way to `q`, or `q` itself. -/
def leadsTo (p q : Path) : Bool := p.parts.isPrefixOf q.parts

/-- `p` is a directory because an entry or the current directory lies below it. -/
def isAncestor (t : FileTree) (p : Path) : Bool :=
  leadsTo p t.cwd || t.entries.any fun e => e.1 ≠ p && leadsTo p e.1

/-- Some directory on the way to the path is a file. -/
def passesFile (t : FileTree) (p : Path) : Bool :=
  t.entries.any fun e => !e.2.isDirectory && e.1 ≠ p && leadsTo e.1 p

/-- The way along the components from the root comes to a link that leads back to itself. -/
def isCircular (t : FileTree) (parts : List String) : Bool :=
  t.entries.any fun e => e.2.statError = some .linkLoop && e.1.parts.isPrefixOf parts

/-- What stands at an absolute path, or why the way to it is barred. -/
def find (t : FileTree) (p : Path) : Except OsError Entry :=
  if t.isCircular p.parts then .error .linkLoop
  else if p.parts.any fun part => 255 < part.utf8ByteSize then .error .nameTooLong
  else match t.entry? p with
    | some e => .ok e
    | none =>
      if t.isAncestor p then .ok ⟨.text "", 0, true, none, none⟩
      else if t.passesFile p then .error .notDirectory
      else .error .notFound

def stat (t : FileTree) (p : Path) : Except OsError FileStatus :=
  match t.find (Path.absolute t.cwd p) with
  | .error e => .error e
  | .ok e =>
    match e.statError with
    | some err => .error err
    | none => .ok ⟨e.modified, e.isDirectory⟩

/-- Reads the text of a file, with line ends made uniform. -/
def readText (t : FileTree) (p : Path) : Except ReadError String :=
  match t.find (Path.absolute t.cwd p) with
  | .error e => .error (.os e)
  | .ok e =>
    if e.isDirectory then .error (.os .isDirectory)
    else match e.openError with
      | some err => .error (.os err)
      | none =>
        match e.content.decode with
        | .error fault => .error (.encoding fault)
        | .ok cs => .ok (String.ofList (Text.universalNewlines cs))

def erase (t : FileTree) (p : Path) : FileTree :=
  { t with entries := t.entries.filter fun e => e.1 ≠ p }

def insert (t : FileTree) (p : Path) (e : Entry) : FileTree :=
  { t with entries := (p, e) :: (t.erase p).entries }

end FileTree

end Pearl
