import ModalTableau.Program

/-!
The command line: gathers what the program may look at, runs it, and prints what it leaves behind.
-/

namespace ModalTableau.Main

def variableNames : List String :=
  let keys := ["CONFIG", "MAX_ITERATIONS", "MAX_WORLDS", "BLOCKING", "PARALLEL", "NOTATION"]
  keys.map ("KTAB_" ++ ·) ++ keys.map (Environment.lower <| "KTAB_" ++ ·) ++
    ["CLICOLOR_FORCE", "CLICOLOR", "NO_COLOR"]

def environment : IO Environment := do
  variableNames.filterMapM fun name => do return (← IO.getEnv name).map (name, ·)

/-- The number of a system error, which may be given with its sign turned round. -/
def errorNumber (code : UInt32) : Nat :=
  if code < 0x80000000 then code.toNat else (0 - code).toNat

def systemFailure (code : UInt32) (details : String) : ReadFailure :=
  .system details.capitalize (errorNumber code)

def readFailure : IO.Error → ReadFailure
  | .noFileOrDirectory _ code details | .inappropriateType _ code details
  | .permissionDenied _ code details | .invalidArgument _ code details
  | .otherError code details => systemFailure code details
  | e => .system e.toString 0

def contents (path : String) : IO Contents := do
  try
    return .ok (← IO.FS.readBinFile path)
  catch e =>
    return .error (readFailure e)

def globalFile : IO (Option SettingsFile) := do
  let directory := match ← IO.getEnv "XDG_CONFIG_HOME", ← IO.getEnv "HOME" with
    | some dir, home => if dir.startsWith "/" then some dir else home.map (· ++ "/.config")
    | none, home => home.map (· ++ "/.config")
  match directory with
  | none => return none
  | some dir =>
    let path := dir ++ "/ktab/ktab.toml"
    match ← contents path with
    | .error (.system _ 2) => return none
    | found => return some ⟨path, found⟩

def wanted (i : Invocation) : List String :=
  i.configFile.toList ++ match i.command with
    | .batch path _ => if Session.isStandardInput path then [] else [path]
    | _ => []

def readsInput (i : Invocation) : Bool :=
  match i.command with
  | .batch path _ => Session.isStandardInput path
  | _ => false

def surroundings (args : List String) : IO Surroundings := do
  let env ← environment
  let invocation := (CommandLine.parse args env).toOption
  let names := (invocation.map wanted).getD []
  let files ← names.mapM fun name => return (name, ← contents name)
  let stdout ← IO.getStdout
  return {
    environment := env
    globalFile := ← globalFile
    file := fun name => (files.lookup name).getD (.error (.system "No such file or directory" 2))
    input := ← if invocation.any readsInput then (← IO.getStdin).readBinToEnd else pure .empty
    colour := (Console.colourWish env).getD (← stdout.isTty) }

end ModalTableau.Main

def main (args : List String) : IO UInt32 := do
  let transcript := ModalTableau.Program.run .tasks (← ModalTableau.Main.surroundings args) args
  (← IO.getStdout).putStr transcript.stdout
  (← IO.getStderr).putStr transcript.stderr
  return transcript.exitCode.toUInt32
