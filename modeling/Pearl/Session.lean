import Pearl.DocumentStore
import Pearl.Feature.Completion
import Pearl.Feature.Folding
import Pearl.Feature.SemanticTokens
import Pearl.Settings

namespace Pearl

/-- Findings sent to the editor. They replace what was sent before for the same document. -/
structure Publication where
  uri : String
  version : Option Int := none
  diagnostics : List Diagnostic := []
  deriving DecidableEq, Repr

inductive SessionError where
  | settings (e : Settings.SettingsError)
  | document (e : DocumentError)
  deriving DecidableEq, Repr

/-- An editing session. `texts` holds the texts that were sent last, and `included` for each
document the other documents that its findings were last published in. -/
structure Session where
  files : FileTree
  options : Options := {}
  workspaceRoot : Option Path := none
  texts : List (String × String) := []
  documents : DocumentStore Analysis := {}
  included : List (String × List String) := []
  logLevel : LogLevel := .warning

/-- A message that is refused: why, and the session that is left. -/
structure Refusal where
  error : SessionError
  session : Session

namespace Session

/-! ### Settings -/

/-- Applies settings to the analyses to come. A log level that was set before stays unless the
settings name one. -/
def configure (s : Session) (settings : Value) : Except SessionError Session :=
  match Settings.toOptions settings s.workspaceRoot with
  | .error e => .error (.settings e)
  | .ok (options, _) => .ok { s with options, logLevel := options.logLevel.getD s.logLevel }

/-- The root of the workspace as the editor gives it: directly, or as the first of its folders. -/
def rootUri (root : Option String) (folders : List String) : Option String :=
  (root.filter (· ≠ "")).or folders.head?

/-- Takes over the root of the workspace, if it is a directory of the file system. -/
def enterRoot (s : Session) (root : Option String) : Except SessionError Session :=
  match root.filter Uri.isFile with
  | none => .ok s
  | some uri =>
    match Uri.toPath uri with
    | .ok path => .ok { s with workspaceRoot := some path }
    | .error e => .error (.document (.uri e))

/-- Starts a session. The root of the workspace is kept even if the settings are refused. -/
def start (s : Session) (root : Option String) (folders : List String) (settings : Value) :
    Session × Option SessionError :=
  match s.enterRoot (rootUri root folders) with
  | .error e => (s, some e)
  | .ok s =>
    match s.configure settings with
    | .error e => (s, some e)
    | .ok s => (s, none)

/-! ### Publishing -/

/-- URIs in order, each once. -/
def inOrder (uris : List String) : List String :=
  uris.eraseDups.mergeSort fun a b => decide (a ≤ b)

/-- The document a finding is published in. -/
def target (a : Analysis) (d : Diagnostic) : String := if d.uri = "" then a.uri else d.uri

def findingsIn (a : Analysis) (uri : String) : List Diagnostic :=
  a.diagnostics.filter fun d => target a d = uri

/-- The other documents that an analysis has findings in. Open ones have analyses of their own. -/
def includedBy (s : Session) (a : Analysis) : List String :=
  inOrder ((a.diagnostics.map (target a)).filter fun uri =>
    uri ≠ a.uri && !s.documents.contains uri)

/-- The other documents that the findings of a document were last published in. -/
def lastIncluded (s : Session) (uri : String) : List String := (s.included.lookup uri).getD []

/-- Publishes the findings of an analysis: those in the document itself, then those in included
ones. Included documents that had findings the last time and have none now are cleared. -/
def publish (s : Session) (a : Analysis) : Session × List Publication :=
  let included := s.includedBy a
  let stale := (s.lastIncluded a.uri).filter fun uri => !included.contains uri
  ({ s with included := Entries.assign a.uri included s.included },
    { uri := a.uri, version := a.version, diagnostics := findingsIn a a.uri } ::
      included.map (fun uri => { uri, diagnostics := findingsIn a uri }) ++
      (inOrder stale).map ({ uri := · }))

/-! ### Documents -/

/-- The text of a document that was sent last. -/
def textOf (s : Session) (uri : String) : String := (s.texts.lookup uri).getD ""

/-- Analyses a text and keeps the result in place of the one before. A text that is refused leaves
its traces in the cache. -/
def analyze (s : Session) (uri text : String) (version : Option Int) :
    Except Refusal (Session × Analysis) :=
  let s := { s with texts := Entries.assign uri text s.texts }
  match Scan.Source.ofUri s.files uri with
  | .error e => .error ⟨.document e, s⟩
  | .ok src =>
    let tried := Analysis.attempt s.files s.options s.documents.cache src text version
    let s := { s with documents := { s.documents with cache := tried.cache } }
    match tried.result with
    | .error e => .error ⟨.document e, s⟩
    | .ok a => .ok ({ s with documents := s.documents.put uri a }, a)

def refresh (s : Session) (uri text : String) (version : Option Int) :
    Except Refusal (Session × List Publication) :=
  match s.analyze uri text version with
  | .error r => .error r
  | .ok (s, a) => .ok (s.publish a)

/-- Takes over the last texts of documents again, one after the other, up to one that is refused. -/
def refreshAll (s : Session) :
    List (String × Analysis) → Session × List Publication × Option SessionError
  | [] => (s, [], none)
  | (uri, a) :: rest =>
    match s.refresh uri (s.textOf uri) a.version with
    | .error r => (r.session, [], some r.error)
    | .ok (s, published) =>
      let (s, later, error) := s.refreshAll rest
      (s, published ++ later, error)

/-- Applies new settings and analyses all open documents again. Settings that are no object are
ignored, unless they are empty. -/
def reconfigure (s : Session) (settings : Value) :
    Session × List Publication × Option SessionError :=
  match s.configure settings with
  | .error _ => (s, [], none)
  | .ok s => s.refreshAll s.documents.results

/-- Forgets a closed document and clears whatever was published for it. If its path is not to be
found, nothing is cleared. -/
def close (s : Session) (uri : String) : Except Refusal (Session × List Publication) :=
  let s := { s with texts := s.texts.filter (·.1 ≠ uri) }
  match s.documents.forget s.files uri with
  | (documents, some e) => .error ⟨.document e, { s with documents }⟩
  | (documents, none) =>
    .ok ({ s with documents, included := s.included.filter (·.1 ≠ uri) },
      (inOrder (s.lastIncluded uri)).map ({ uri := · }) ++ [{ uri }])

/-! ### Requests -/

/-- What there is to say about a place of a document. A failure says nothing. -/
def hover (s : Session) (uri : String) (line character : Int) : Option String :=
  (s.documents.get? uri).bind fun a => (a.hover line character).toOption.join

def definitionAt (s : Session) (uri : String) (line character : Int) : Option DefinitionTarget :=
  (s.documents.get? uri).bind (·.definitionAt line character)

def foldingRegions (s : Session) (uri : String) : List FoldingRegion :=
  ((s.documents.get? uri).map (·.foldingRegions)).getD []

def semanticTokens (s : Session) (uri : String) : List Int :=
  ((s.documents.get? uri).map (·.semanticTokens)).getD []

def completionsAt (s : Session) (uri : String) (line character : Int) :
    Option (List Completion) :=
  (s.documents.get? uri).map (·.completionsAt line character)

end Session

end Pearl
