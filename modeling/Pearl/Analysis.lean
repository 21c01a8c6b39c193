import Pearl.Resolution.Program
import Pearl.Scan.Run

namespace Pearl

/-- A token and what its name stands for. `place` is its place among the tokens that count. -/
structure LinkedToken where
  token : Token
  place : Option Nat := none
  definition : Option Nat := none
  builtin : Option Builtin := none
  deriving Repr

namespace LinkedToken

/-- A table of the first entries for each of the first `size` places. -/
def table {α : Type} (size : Nat) (entries : Array (Nat × α)) : Array (Option α) :=
  entries.foldl (fun t e => t.modify e.1 fun slot => slot.or (some e.2))
    (Array.replicate size none)

/-- Tokens with their links, of which the first that counts has the given place. -/
def attach (definitions : Array (Option Nat)) (builtins : Array (Option Builtin)) :
    Nat → List Token → List LinkedToken
  | _, [] => []
  | place, t :: rest =>
    if t.kind.isSignificant then
      ⟨t, some place, definitions.getD place none, builtins.getD place none⟩ ::
        attach definitions builtins (place + 1) rest
    else { token := t } :: attach definitions builtins place rest

def ofResolution (s : Resolution.State) (tokens : List Token) : List LinkedToken :=
  let size := (Word.significant tokens).length
  attach (table size s.links) (table size s.builtins) 0 tokens

end LinkedToken

/-- What is known about one version of a document. `counted` holds the tokens that count. -/
structure Analysis where
  uri : String
  text : String
  tokens : List LinkedToken
  counted : Array Token
  symbols : Array Symbol
  lineStarts : Array Nat
  diagnostics : List Diagnostic
  folding : List FoldingRegion
  macros : MacroTable
  version : Option Int := none

/-- What came of an attempt to analyse a text, the cache as it was left behind, and the files that
were looked for to be included. -/
structure Attempt where
  result : Except DocumentError Analysis
  cache : IncludeCache
  asked : List Path := []

namespace Analysis

def ofScan (options : Options) (src : Scan.Source) (text : String) (version : Option Int)
    (scan : Scan.State) : Analysis :=
  let tokens := scan.tokens.toList
  let counted := Word.significant tokens
  let program := Resolution.program (Word.ofTokens counted) options.reportUnused
  { uri := src.uri, text
    tokens := LinkedToken.ofResolution program tokens
    counted := counted.toArray
    symbols := program.arena.symbols
    lineStarts := (Text.lineStarts text.toList).toArray
    diagnostics := scan.diagnostics.toList ++ program.diagnostics counted.toArray
    folding := scan.folding.toList ++ program.folding counted.toArray
    macros := scan.macros
    version }

/-- Analyses a text to its end, even if reading it has been given up. The cache comes back with the
files that were included. -/
def run (files : FileTree) (options : Options) (cache : IncludeCache) (src : Scan.Source)
    (text : String) (version : Option Int) : Analysis × IncludeCache :=
  let scan := Scan.document { files, options } src cache .problem text.toList
  (ofScan options src text version scan, scan.cache)

/-- Analyses a text, unless reading it is given up. -/
def attempt (files : FileTree) (options : Options) (cache : IncludeCache) (src : Scan.Source)
    (text : String) (version : Option Int) : Attempt :=
  let scan := Scan.document { files, options } src cache .problem text.toList
  { result := scan.outcome.map (ofScan options src text version)
    cache := scan.cache
    asked := scan.asked.toList }

/-- What comes of an attempt is the analysis of the whole text. -/
theorem eq_run_of_attempt {files : FileTree} {options : Options} {cache : IncludeCache}
    {src : Scan.Source} {text : String} {version : Option Int} {a : Analysis}
    (h : (attempt files options cache src text version).result = .ok a) :
    a = (run files options cache src text version).1 := by
  unfold attempt Scan.State.outcome at h
  dsimp only at h
  split at h
  · cases h
  · cases h
    rfl

/-- An attempt that comes to nothing has been given up on reading the text. -/
theorem failure_of_attempt {files : FileTree} {options : Options} {cache : IncludeCache}
    {src : Scan.Source} {text : String} {version : Option Int} {e : DocumentError}
    (h : (attempt files options cache src text version).result = .error e) :
    (Scan.document { files, options } src cache .problem text.toList).failure = some e := by
  unfold attempt Scan.State.outcome at h
  dsimp only at h
  split at h
  · cases h
    assumption
  · cases h

/-- Analyses a file. It is read first, and located then. -/
def runFile (files : FileTree) (options : Options) (cache : IncludeCache) (path : String) :
    Except ReadError Attempt :=
  match files.readText (Path.ofString path) with
  | .error e => .error e
  | .ok text =>
    match files.resolve (Path.ofString path) with
    | .error e => .ok { result := .error (.path e), cache }
    | .ok p => .ok (attempt files options cache ⟨Uri.ofPath p, some p, [p]⟩ text none)

def hasErrors (a : Analysis) : Bool := Diagnostic.anyError a.diagnostics

/-- The URI that is asked for; without one the document itself. -/
def targetUri (a : Analysis) : Option String → String
  | none | some "" => a.uri
  | some uri => uri

def diagnosticsFor (a : Analysis) (uri : Option String) : List Diagnostic :=
  a.diagnostics.filter (·.uri = a.targetUri uri)

def foldingFor (a : Analysis) (uri : Option String) : List FoldingRegion :=
  a.folding.filter (·.uri = a.targetUri uri)

def documentTokens (a : Analysis) : List LinkedToken := a.tokens.filter (·.token.uri = a.uri)

/-- The offset of a line and a character; places outside of the text are moved to the nearest
one in it. -/
def offsetAt (a : Analysis) (line character : Int) : Nat :=
  match line with
  | .negSucc _ => 0
  | .ofNat n =>
    match a.lineStarts[n]? with
    | none => a.text.length
    | some start =>
      let limit := match a.lineStarts[n + 1]? with
        | some next => next - 1
        | none => a.text.length
      min (start + character.toNat) limit

/-- The first token that covers an offset, in a list of tokens by offset. -/
def findCovering (offset : Nat) : List LinkedToken → Option LinkedToken
  | [] => none
  | t :: rest =>
    if t.token.covers offset then some t
    else if offset < t.token.start.offset then none
    else findCovering offset rest

def tokenAt (a : Analysis) (line character : Int) : Option LinkedToken :=
  findCovering (a.offsetAt line character) a.documentTokens

def symbol? (a : Analysis) (id : Nat) : Option Symbol := a.symbols[id]?

/-- The defining occurrence of a symbol. -/
def site? (a : Analysis) (s : Symbol) : Option Token := a.counted[s.declaredAt]?

/-- A symbol in short, with the place of its defining occurrence. -/
def summary (s : Symbol) (site : Token) : String :=
  let name := Text.quoteString s.name
  s!"Symbol({s.kind.name}, {name}, {site.start.line}:{site.start.column})"

/-- The tokens in short, and after them the symbols they are linked to. -/
def summaries (a : Analysis) : List String :=
  a.tokens.map (·.token.summary) ++
    a.tokens.filterMap fun t =>
      (t.definition.bind a.symbol?).bind fun s => (a.site? s).map (summary s)

/-- The tokens up to an offset of a document; without a document that of any token counts. -/
def cutOff (uri : Option String) (offset : Int) (tokens : List Token) : List Token :=
  tokens.takeWhile fun t => !(uri.all (· = t.uri) && offset < t.start.offset)

def visibleAt (a : Analysis) (line character : Int) : List (String × Symbol) :=
  let tokens := cutOff (some a.uri) (a.offsetAt line character) a.counted.toList
  Resolution.byName (Resolution.ofWords (Word.ofTokens tokens)).visible

end Analysis

end Pearl
