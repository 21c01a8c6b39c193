import Pearl.Path

namespace Pearl

/-- What relative names of included files refer to: the directory of the file that includes them,
or the root of the workspace. -/
inductive IncludeMode where
  | file
  | workspace
  deriving DecidableEq, Repr

def IncludeMode.name : IncludeMode → String
  | file => "file"
  | workspace => "workspace"

def IncludeMode.ofName? : String → Option IncludeMode
  | "file" => some file
  | "workspace" => some workspace
  | _ => none

/-- How much is logged. -/
inductive LogLevel where
  | debug
  | info
  | warning
  | error
  deriving DecidableEq, Repr

def LogLevel.name : LogLevel → String
  | debug => "debug"
  | info => "info"
  | warning => "warning"
  | error => "error"

def LogLevel.ofName? : String → Option LogLevel
  | "debug" => some debug
  | "info" => some info
  | "warning" => some warning
  | "error" => some error
  | _ => none

/-- What shapes an analysis. -/
structure Options where
  predefined : List (String × String) := []
  includeMode : IncludeMode := .file
  workspaceRoot : Option Path := none
  maxIncludeDepth : Int := 10
  reportUnused : Bool := true
  logLevel : Option LogLevel := none
  deriving DecidableEq, Repr

/-- The directory that relative names of included files refer to, for an including file that is
at `document` or has no path. -/
def Options.includeBase (o : Options) (cwd : Path) (document : Option Path) : Path :=
  match o.includeMode, o.workspaceRoot, document with
  | .workspace, some root, _ => root
  | _, _, some path => path.parent
  | _, some root, none => root
  | _, none, none => cwd

end Pearl
