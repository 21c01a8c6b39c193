import Pearl.Analysis
import Pearl.CommandLine.Arguments
import Pearl.Settings
import Pearl.Text.CaseFolding

namespace Pearl.CommandLine

/-- What an existing path is asked to be. -/
inductive PathKind where
  | file
  | directory
  deriving DecidableEq, Repr

def requirePath (files : FileTree) (hint : String) (kind : PathKind) (path : String) :
    Except UsageError Unit :=
  let shown := Text.quoteString path
  let noun := if kind = .file then "File" else "Directory"
  match if path = "" then none else (files.stat (Path.ofString path)).toOption, kind with
  | none, _ => .error (.invalidValue hint s!"{noun} {shown} does not exist.")
  | some status, .file =>
    if status.isDirectory then .error (.invalidValue hint s!"{noun} {shown} is a directory.")
    else .ok ()
  | some status, .directory =>
    if status.isDirectory then .ok ()
    else .error (.invalidValue hint s!"{noun} {shown} is a file.")

namespace Check

/-- The options of the command that checks files. -/
inductive Param where
  | define
  | includeMode
  | workspace
  | noHints
  | noUnused
  | verbose
  | version
  | help
  deriving DecidableEq, Repr

/-- How the options are written. -/
def specs : List (OptionSpec Param) :=
  [{ key := .define, long := "--define", short := some 'D', takesValue := true },
   { key := .includeMode, long := "--include-mode", takesValue := true },
   { key := .workspace, long := "--workspace", takesValue := true },
   { key := .noHints, long := "--no-hints" },
   { key := .noUnused, long := "--no-unused" },
   { key := .verbose, long := "--verbose", short := some 'v' },
   { key := .version, long := "--version" },
   { key := .help, long := "--help" }]

def parameters : String := "[OPTIONS] FILES..."

/-- What is to be checked, and how. -/
structure Request where
  paths : List String
  definitions : List String
  includeMode : IncludeMode
  workspace : Option String
  hints : Bool
  unused : Bool
  verbose : Bool
  deriving DecidableEq, Repr

/-- The include mode of a value, whatever its case. -/
def includeMode? (value : String) : Option IncludeMode :=
  [IncludeMode.file, .workspace].find? fun mode => Text.equalsFolded mode.name value

def validate (files : FileTree) (a : Arguments Param) (key : Param) : Except UsageError Unit :=
  match key, a.value? key with
  | .includeMode, some value =>
    match includeMode? value with
    | some _ => .ok ()
    | none =>
      let shown := Text.quoteString value
      .error (.invalidValue "'--include-mode'" s!"{shown} is not one of 'file', 'workspace'.")
  | .workspace, some value => requirePath files "'--workspace'" .directory value
  | _, _ => .ok ()

/-- The request of a command line. Options are looked at in the order given, then the files. -/
def request (files : FileTree) (a : Arguments Param) : Except UsageError Request := do
  a.keys.forM (validate files a)
  if a.rest.isEmpty then throw (.missingArgument "FILES...")
  a.rest.forM (requirePath files "'FILES...'" .file)
  return { paths := a.rest
           definitions := a.values .define
           includeMode := ((a.value? .includeMode).bind includeMode?).getD .file
           workspace := a.value? .workspace
           hints := !a.contains .noHints
           unused := !a.contains .noUnused
           verbose := a.contains .verbose }

def Request.options (r : Request) (files : FileTree) (predefined : List (String × String)) :
    Except ResolveError Options :=
  (files.resolve ((r.workspace.map Path.ofString).getD files.cwd)).map fun root =>
    { predefined, includeMode := r.includeMode, reportUnused := r.unused
      workspaceRoot := some root }

/-- What is known after some of the files. -/
structure Progress where
  cache : IncludeCache := {}
  diagnostics : List Diagnostic := []
  output : String := ""
  asked : List Path := []

/-- A file that cannot be read ends the command. One that is missing, barred or no text is the
caller's mistake. -/
def unreadable (path : String) (e : ReadError) : Outcome :=
  match e with
  | .os .notFound | .os .permissionDenied | .encoding _ => .ofUnreadable (e.message path)
  | .os _ => .ofBreakdown (e.message path)

def checkFiles (files : FileTree) (options : Options) (verbose : Bool) (p : Progress) :
    List String → Progress × Option Outcome
  | [] => (p, none)
  | path :: paths =>
    let shown := (Path.ofString path).toString
    let output := if verbose then p.output ++ s!"Checking {shown}...\n" else p.output
    match Analysis.runFile files options p.cache path with
    | .error e => ({ p with output }, some { unreadable shown e with output })
    | .ok tried =>
      let p := { p with cache := tried.cache, asked := p.asked ++ tried.asked, output }
      match tried.result with
      | .error e => (p, some { Outcome.ofBreakdown e.message with output })
      | .ok a =>
        checkFiles files options verbose { p with diagnostics := p.diagnostics ++ a.diagnostics }
          paths

def Request.conclude (r : Request) (p : Progress) : Outcome :=
  let closing :=
    if r.verbose then s!"Include cache: {p.cache.hits} hits, {p.cache.misses} misses\n" else ""
  match Diagnostic.report p.diagnostics r.hints with
  | .error e => { Outcome.ofBreakdown e.message with output := p.output }
  | .ok report =>
    { status := if Diagnostic.anyError p.diagnostics then Outcome.findings else 0
      output := p.output ++ report ++ "\n" ++ closing }

/-- Carries a request out. The files that were looked for come with the outcome. -/
def Request.run (r : Request) (files : FileTree) : Outcome × List Path :=
  match Settings.definitions r.definitions with
  | .error e => (.ofFailure (e.toFailure.renderAt none), [])
  | .ok predefined =>
    match r.options files predefined with
    | .error e => (.ofBreakdown e.message, [])
    | .ok options =>
      match checkFiles files options r.verbose {} r.paths with
      | (p, some outcome) => (outcome, p.asked)
      | (p, none) => (r.conclude p, p.asked)

end Check

/-- Checks the files named on a command line. The files that were looked for come with the
outcome. -/
def check (files : FileTree) (args : List String) : Outcome × List Path :=
  match Arguments.read Check.specs args with
  | .error e => (.ofUsage Check.parameters e, [])
  | .ok a =>
    match a.keys.find? fun key => key = .version || key = .help with
    | some .version => (.version "pearl-check", [])
    | some _ => (.help Check.parameters, [])
    | none =>
      match Check.request files a with
      | .error e => (.ofUsage Check.parameters e, [])
      | .ok r => r.run files

end Pearl.CommandLine
