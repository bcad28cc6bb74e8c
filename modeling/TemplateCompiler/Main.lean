import TemplateCompiler.Cli.Run

/-!
# The program

Fetches the files and environment variables that a request needs, and prints what comes of it.
-/

namespace TemplateCompiler

def FileError.ofSystem : IO.Error → FileError
  | .permissionDenied .. => .denied
  | .inappropriateType .. => .isFolder
  | .noSuchThing .. => .notFolder
  | .invalidArgument .. => .badName
  | _ => .missing

def readFile (path : Text) : IO (Except FileError Text) := do
  match path.toString? with
  | none => return .error .missing
  | some name =>
    try return .ok (← IO.FS.readBinFile name).toList
    catch e => return .error (.ofSystem e)

/-- The value of an environment variable. -/
def readEnv (name : Text) : IO Text := do
  match name.toString? with
  | none => return []
  | some name => return ((← IO.getEnv name).map Text.ofString).getD []

/-- The files that a request reads, and the environment variables that they ask for. -/
def Request.surroundings (request : Request) : IO Surroundings := do
  let files ← request.paths.mapM fun path => do return (path, ← readFile path)
  let texts := files.filterMap fun (_, content) => content.toOption
  let env ← (texts.flatMap Text.envNames).mapM fun name => do return (name, ← readEnv name)
  return ⟨fun path => (files.lookup path).getD (.error .missing),
    fun name => (env.lookup name).getD []⟩

def writeText (stream : IO.FS.Stream) (text : Text) : IO Unit := do
  stream.write ⟨text.toArray⟩
  stream.flush

def runProgram (words : List Text) : IO (Except CliError Text) := do
  match Request.ofWords words with
  | .error e => return .error (.usage e)
  | .ok request => return request.run (← request.surroundings)

end TemplateCompiler

open TemplateCompiler in
/-- Prints the result on standard output; an error goes to standard error and makes the program
fail. -/
def main (args : List String) : IO UInt32 := do
  match ← runProgram (args.map Text.ofString) with
  | .ok text =>
    writeText (← IO.getStdout) text
    return 0
  | .error e =>
    writeText (← IO.getStderr) ("Error: " ++ e.message ++ "\n")
    return 1
