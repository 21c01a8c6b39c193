import Pearl.FileTree
import Pearl.Uri

namespace Pearl

/-- The first characters of a text that have no form in the names of files. -/
structure EncodeFault where
  codec : String
  char : Char
  position : Nat
  count : Nat
  reason : String
  deriving DecidableEq, Repr

/-- The wording of a fault: the character by its code point, or the range of characters. -/
def EncodeFault.message (f : EncodeFault) : String :=
  let place :=
    if f.count = 1 then
      let code := String.ofList (Text.codePoint f.char)
      s!"character '{code}' in position {f.position}"
    else s!"characters in position {f.position}-{f.position + f.count - 1}"
  s!"'{f.codec}' codec can't encode {place}: {f.reason}"

inductive ResolveError where
  | nullByte
  | unencodable (fault : EncodeFault)
  | linkLoop (path : Path)
  deriving DecidableEq, Repr

def ResolveError.message : ResolveError → String
  | nullByte => "embedded null byte"
  | unencodable fault => fault.message
  | linkLoop path => s!"Symlink loop from {Text.quoteString path.toString}"

/-- Why a text cannot be handed to the file system as a path. -/
def NameEncoding.fault? (n : NameEncoding) (cs : List Char) : Option ResolveError :=
  match cs.dropWhile n.holds with
  | c :: rest =>
    some (.unencodable ⟨n.codec, c, (cs.takeWhile n.holds).length,
      (rest.takeWhile fun c => !n.holds c).length + 1, n.reason⟩)
  | [] => if cs.contains '\x00' then some .nullByte else none

/-- One component on the way down a path that starts at `anchor`. Where the path is relative, `..`
is kept as long as there is no name to take back. -/
def Path.descendFrom (anchor : Anchor) (stack : List String) (part : String) : List String :=
  if part = ".." && anchor = .relative && stack.all (· = "..") then part :: stack
  else descend stack part

namespace FileTree

/-- The components of the place that is reached on the way down a path that starts at `anchor`. -/
def reached (t : FileTree) (anchor : Anchor) (stack : List String) : List String :=
  Path.normalizeParts ((if anchor = .relative then t.cwd.parts else []) ++ stack.reverse)

/-- Looks at the places on the way along `parts`, from `stack` on, the innermost directory first.
Nothing is looked at any more behind a link that leads back to itself. -/
def walk (t : FileTree) (anchor : Anchor) (stack : List String) :
    List String → Except ResolveError Unit
  | [] => .ok ()
  | part :: parts =>
    let place := Path.descendFrom anchor stack part
    if part = ".." then t.walk anchor place parts
    else
      let written := (if anchor = .relative then "" else "/") ++ "/".intercalate place.reverse
      match t.names.fault? written.toList with
      | some e => .error e
      | none =>
        if t.isCircular (t.reached anchor place) then .ok () else t.walk anchor place parts

/-- The absolute path without `..` and symbolic links that `p` stands for. Every place on the way
is looked at, and then the path as a whole. -/
def resolve (t : FileTree) (p : Path) : Except ResolveError Path :=
  match t.walk p.anchor [] p.parts with
  | .error e => .error e
  | .ok () =>
    let real := Path.absolute t.cwd p
    match t.names.fault? real.toString.toList with
    | some e => .error e
    | none => if t.isCircular real.parts then .error (.linkLoop real) else .ok real

theorem resolve_eq_ok {t : FileTree} {p q : Path} :
    t.resolve p = .ok q ↔ t.walk p.anchor [] p.parts = .ok () ∧ q = Path.absolute t.cwd p ∧
      t.names.fault? q.toString.toList = none ∧ t.isCircular q.parts = false := by
  unfold resolve
  constructor
  · intro h
    split at h
    · cases h
    · rename_i hwalk
      dsimp only at h
      split at h
      · cases h
      · rename_i hfault
        split at h
        · cases h
        · rename_i hcircular
          cases h
          exact ⟨hwalk, rfl, hfault, Bool.eq_false_iff.mpr hcircular⟩
  · rintro ⟨hwalk, rfl, hfault, hcircular⟩
    simp only [hwalk, hfault, hcircular, Bool.false_eq_true, if_false]

end FileTree

inductive DocumentError where
  | uri (e : UriError)
  | path (e : ResolveError)
  /-- Too many files are being read, each included by the one before. -/
  | stack
  deriving DecidableEq, Repr

def DocumentError.message : DocumentError → String
  | uri e => e.message
  | path e => e.message
  | stack => "maximum recursion depth exceeded"

namespace FileTree

def reach (t : FileTree) (p : Path) : Except DocumentError Path :=
  match t.resolve p with
  | .error e => .error (.path e)
  | .ok q => .ok q

theorem reach_eq_ok {t : FileTree} {p q : Path} : t.reach p = .ok q ↔ t.resolve p = .ok q := by
  unfold reach
  cases t.resolve p <;> simp

/-- The path of a document in the file system, by its URI. -/
def locate (t : FileTree) (uri : String) : Except DocumentError Path :=
  match Uri.toPath uri with
  | .error e => .error (.uri e)
  | .ok p => t.reach p

theorem locate_eq_ok {t : FileTree} {uri : String} {q : Path} :
    t.locate uri = .ok q ↔ ∃ p, Uri.toPath uri = .ok p ∧ t.resolve p = .ok q := by
  unfold locate
  cases Uri.toPath uri <;> simp [reach_eq_ok]

end FileTree

end Pearl
