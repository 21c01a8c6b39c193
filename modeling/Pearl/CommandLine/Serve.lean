import Pearl.CommandLine.Check
import Pearl.Text.Integer

namespace Pearl.CommandLine

/-- How a server talks to its editor. -/
inductive Transport where
  | standardStreams
  | tcp (host : String) (port : Int)
  deriving DecidableEq, Repr

namespace Serve

inductive Param where
  | tcp
  | host
  | port
  | verbose
  | logFile
  | version
  | help
  deriving DecidableEq, Repr

def specs : List (OptionSpec Param) :=
  [{ key := .tcp, long := "--tcp" },
   { key := .host, long := "--host", takesValue := true },
   { key := .port, long := "--port", takesValue := true },
   { key := .verbose, long := "--verbose", short := some 'v' },
   { key := .logFile, long := "--log-file", takesValue := true },
   { key := .version, long := "--version" },
   { key := .help, long := "--help" }]

def parameters : String := "[OPTIONS]"

structure Request where
  transport : Transport
  logLevel : LogLevel
  deriving DecidableEq, Repr

/-- The TCP port that a value names. -/
def port (value : String) : Except UsageError Int :=
  match Text.integer? value with
  | none =>
    let shown := Text.quoteString value
    .error (.invalidValue "'--port'" s!"{shown} is not a valid integer range.")
  | some n =>
    if 1 ≤ n && n ≤ 65535 then .ok n
    else .error (.invalidValue "'--port'" s!"{n} is not in the range 1<=x<=65535.")

/-- Looks whether a log may be written to a path. -/
def requireNoDirectory (files : FileTree) (path : String) : Except UsageError Unit :=
  match files.stat (Path.ofString path) with
  | .ok ⟨_, true⟩ =>
    let shown := Text.quoteString path
    .error (.invalidValue "'--log-file'" s!"File {shown} is a directory.")
  | _ => .ok ()

def validate (files : FileTree) (a : Arguments Param) (key : Param) : Except UsageError Unit :=
  match key, a.value? key with
  | .port, some value => (port value).map fun _ => ()
  | .logFile, some value => requireNoDirectory files value
  | _, _ => .ok ()

def request (files : FileTree) (a : Arguments Param) : Except UsageError Request := do
  a.keys.forM (validate files a)
  if !a.rest.isEmpty then throw (.extraArguments a.rest)
  let number ← ((a.value? .port).map port).getD (.ok 2087)
  return { transport :=
             if a.contains .tcp then .tcp ((a.value? .host).getD "127.0.0.1") number
             else .standardStreams
           logLevel := if a.contains .verbose then .debug else .info }

/-- The outcome of a server that came to its end, with what stopped it if anything did. -/
def conclude : Option String → Outcome
  | none => { status := 0 }
  | some text => .ofBreakdown text

end Serve

/-- The server that a command line asks for, or the outcome if it asks for none. -/
def serve (files : FileTree) (args : List String) : Except Outcome Serve.Request :=
  match Arguments.read Serve.specs args with
  | .error e => .error (.ofUsage Serve.parameters e)
  | .ok a =>
    match a.keys.find? fun key => key = .version || key = .help with
    | some .version => .error (.version "pearl-lsp")
    | some _ => .error (.help Serve.parameters)
    | none => (Serve.request files a).mapError (.ofUsage Serve.parameters)

end Pearl.CommandLine
