import ModalTableau.Session

/-!
The whole program: reading the words of the command line and carrying out what they say.
-/

namespace ModalTableau.Program

def version : String := "0.3.0"

def usage : String :=
  "Decide validity and satisfiability of modal formulas (logic K) with semantic tableaux\n\n" ++
  "Usage: ktab [-d...] [--config FILE] [--unicode] <COMMAND>\n\n" ++
  "Commands:\n" ++
  "  check <FORMULA> [--tree] [--json]  Run both checks and classify the formula\n" ++
  "  valid <FORMULA> [--tree]           Validity check only\n" ++
  "  sat <FORMULA> [--tree]             Satisfiability check only\n" ++
  "  parse <FORMULA>                    Show the formula with its structure profile\n" ++
  "  batch <FILE> [--json]              Check one formula per line\n" ++
  "  config [--template]                Show effective settings as TOML"

def halt : Halt → Transcript
  | .usage => { exitCode := 64 }
  | .help => { output := [usage] }
  | .version program => { output := [s!"{program} {version}"] }

def verbosityRemark (verbosity : Nat) : List String :=
  if 3 < verbosity then ["Don't be crazy, max is -d -d -d"] else []

def run (pool : Pool) (s : Surroundings) (args : List String) : Transcript :=
  match CommandLine.parse args s.environment with
  | .error h => halt h
  | .ok invocation =>
    let t := Session.run pool s invocation
    { t with remarks := verbosityRemark invocation.verbosity ++ t.remarks }

end ModalTableau.Program
