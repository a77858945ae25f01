import ModalTableau.CommandLine
import ModalTableau.Console
import ModalTableau.Report.Json
import ModalTableau.Settings.Environment

/-!
Carrying out a command: from the words of the command line, the environment and the files to the
text printed and the exit code.
-/

namespace ModalTableau

structure Surroundings where
  environment : Environment
  globalFile : Option SettingsFile
  file : String → Contents
  input : ByteArray
  colour : Bool
  libraries : Libraries := .own

/-- What a command leaves behind; every entry of the two lists is printed with a line feed. -/
structure Transcript where
  output : List String := []
  remarks : List String := []
  exitCode : Nat := 0

namespace Transcript

def stdout (t : Transcript) : String := String.join (t.output.map (· ++ "\n"))

def stderr (t : Transcript) : String := String.join (t.remarks.map (· ++ "\n"))

end Transcript

inductive SessionError where
  | settings (error : SettingsError)
  | failure (failure : Failure)
  | input (action path : String)
deriving DecidableEq

namespace SessionError

def message : SessionError → String
  | settings error => "config error: " ++ error.message
  | failure f => f.message
  | input action path => s!"{action}: {path}"

def exitCode : SessionError → Nat
  | settings _ => 78
  | failure (.malformed _) => 65
  | failure (.exhausted _) => 70
  | input _ _ => 66

end SessionError

namespace Session

def profileLines (colour : Bool) (p : Profile) : List String :=
  let connectives := match p.connectives.toList with
    | [] => "none"
    | cs => ", ".intercalate (cs.map Connective.name)
  [Console.field colour "Kind" (if p.modal then "modal" else "propositional"),
    Console.field colour "Connectives" connectives,
    Console.field colour "Atoms" (", ".intercalate p.atoms.toList),
    Console.field colour "Size"
      s!"{p.size} connectives, depth {p.depth}, modal depth {p.modalDepth}"]

def treeLines (t : Tree String) : List String := t.draw ++ [""]

def outcomeLines (colour : Bool) (n : Notation) (title : String) (tree : Bool) (o : Outcome) :
    List String :=
  let model := match o.model with
    | none => []
    | some m =>
      (if o.verdict = Verdict.invalid then "countermodel" else "model") :: (m.outline n).draw
  Console.verdictLine colour title o.verdict :: model.map Console.detail ++
    if tree then
      Console.header colour (title ++ " tableau") :: treeLines (Tableau.outline n o.tableau)
    else
      []

def formulaLines (colour : Bool) (n : Notation) (f : Formula) : List String :=
  Console.field colour "Formula" (f.render n) :: profileLines colour f.profile

def reportLines (colour : Bool) (n : Notation) (tree : Bool) (r : Report) : List String :=
  formulaLines colour n r.formula ++
    outcomeLines colour n Check.validity.title tree r.validity ++
    outcomeLines colour n Check.satisfiability.title tree r.satisfiability ++
    [Console.field colour "Classification" r.classification.text,
      Console.detail r.classification.explanation]

def batchTranscript (colour : Bool) (n : Notation) (entries : List Batch.Entry) : Transcript where
  output := entries.filterMap fun e =>
    match e.result with
    | .ok r =>
      some (Text.padLeft 4 (toString e.line.number) ++ "  " ++
        Text.padRight 14 r.classification.text ++ " " ++ r.formula.render n)
    | .error _ => none
  remarks := entries.filterMap fun e =>
    match e.result with
    | .ok _ => none
    | .error f =>
      some (Console.warningLine colour s!"line {e.line.number}: {e.line.text}: {f.message}")

/-- Whether a path stands for the standard input: its one component is a dash. -/
def isStandardInput (path : String) : Bool :=
  match path.splitOn "/" with
  | "-" :: rest => rest.all fun part => part.isEmpty || part == "."
  | _ => false

def batchInput (s : Surroundings) (path : String) : Except SessionError String :=
  if isStandardInput path then
    (Contents.text (.ok s.input)).mapError fun _ => .input "read stdin" path
  else
    (s.file path).text.mapError fun _ => .input "read batch file" path

def perform (pool : Pool) (s : Surroundings) (settings : Settings) :
    Command → Except SessionError Transcript
  | .check formula tree json => do
    let r ← (Report.solve (settings.service pool) formula).mapError .failure
    return { output :=
      if json then [r.toJson.pretty] else reportLines s.colour settings.style tree r }
  | .ask question formula tree => do
    let o ← (question.ask settings.limits formula).mapError .failure
    return { output := outcomeLines s.colour settings.style question.title tree o }
  | .parse formula => do
    let f ← (readFormula formula).mapError .failure
    return { output := formulaLines s.colour settings.style f }
  | .batch path json => do
    let entries := Batch.run (settings.service pool) (← batchInput s path)
    if json then
      return { output := [(Json.ofList Batch.Entry.toJson entries).pretty] }
    else
      return batchTranscript s.colour settings.style entries
  | .config template => do
    if template then
      return { output := [Settings.template] }
    else
      return { output := [← (settings.toToml s.libraries).mapError .settings] }
  | .completion _ => return {}

def settings (s : Surroundings) (i : Invocation) : Except SessionError Settings := do
  let explicit := i.configFile.map fun path => ⟨path, s.file path⟩
  let loaded ← (Settings.load s.libraries s.globalFile explicit s.environment).mapError .settings
  return if i.unicode then { loaded with style := .unicode } else loaded

def attempt (pool : Pool) (s : Surroundings) (i : Invocation) : Except SessionError Transcript :=
  match i.command with
  | .completion _ => .ok {}
  | command => do perform pool s (← settings s i) command

def run (pool : Pool) (s : Surroundings) (i : Invocation) : Transcript :=
  match attempt pool s i with
  | .ok t => t
  | .error e => { remarks := [Console.errorLine s.colour e.message], exitCode := e.exitCode }

end Session
end ModalTableau
