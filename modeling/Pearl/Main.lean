import Pearl.CommandLine.Check

/-!
The command that checks files of the real file system. A check works on a file tree, so the files
it asks for are read in until it asks for no new ones.
-/

namespace Pearl.Main

def load (path : Path) : IO (Option Entry) := do
  let place := (← IO.currentDir) / path.toString
  if let .error (.invalidArgument _ code _) ← place.metadata.toBaseIO then
    -- The number of the error is handed over with its sign turned.
    if code + UInt32.ofNat (OsError.number .linkLoop) = 0 then
      return some { statError := some .linkLoop }
  if ← place.isDir then return some { isDirectory := true }
  if !(← place.pathExists) then return none
  try
    let bytes ← IO.FS.readBinFile place
    return some { content := .bytes bytes.toList }
  catch _ => return some { openError := some .permissionDenied }

def loadAll (files : FileTree) (paths : List Path) : IO FileTree :=
  paths.foldlM (fun files path => do
    match ← load path with
    | some entry => return files.insert path entry
    | none => return files) files

/-- Checks files until no other files are asked for than those that have been looked at. -/
partial def settle (files : FileTree) (seen : List Path) (args : List String) :
    IO CommandLine.Outcome := do
  let (outcome, asked) := CommandLine.check files args
  let new := asked.eraseDups.filter fun path => !seen.contains path
  if new.isEmpty then return outcome
  else settle (← loadAll files new) (new ++ seen) args

end Pearl.Main

def main (args : List String) : IO UInt32 := do
  let cwd := Pearl.Path.ofString (← IO.currentDir).toString
  let named := args.map fun arg => Pearl.Path.absolute cwd (Pearl.Path.ofString arg)
  let files ← Pearl.Main.loadAll { cwd } named
  let outcome ← Pearl.Main.settle files named args
  IO.print outcome.output
  IO.eprint outcome.errors
  return outcome.status.toUInt32
