import ModalTableau.Settings.Environment
import ModalTableau.Verdict

/-!
The words of the command line. Options for the whole program may stand before the command or after
it; where both places give a value, the one after the command counts. On one side of the command an
option other than `-d` may stand once.
-/

namespace ModalTableau

inductive Verb where
  | check | valid | sat | parse | batch | config | completion
deriving DecidableEq

namespace Verb

def name : Verb → String
  | check => "check" | valid => "valid" | sat => "sat" | parse => "parse" | batch => "batch"
  | config => "config" | completion => "completion"

def all : List Verb := [check, valid, sat, parse, batch, config, completion]

def ofName? (s : String) : Option Verb := all.find? (·.name = s)

def switches : Verb → List String
  | check => ["tree", "json"]
  | valid | sat => ["tree"]
  | batch => ["json"]
  | config => ["template"]
  | parse | completion => []

def shells : List String := ["bash", "elvish", "fish", "powershell", "zsh"]

def accepts : Verb → String → Bool
  | config, _ => false
  | batch, s => !s.isEmpty
  | completion, s => shells.contains s
  | _, _ => true

end Verb

inductive Command where
  | check (formula : String) (tree json : Bool)
  | ask (question : Check) (formula : String) (tree : Bool)
  | parse (formula : String)
  | batch (file : String) (json : Bool)
  | config (template : Bool)
  | completion (shell : String)
deriving DecidableEq

structure Invocation where
  verbosity : Nat
  configFile : Option String
  unicode : Bool
  command : Command
deriving DecidableEq

inductive Halt where
  | usage
  | help
  | version (program : String)
deriving DecidableEq

namespace CommandLine

structure Side where
  verb : Option Verb
  verbosity : Nat := 0
  configFile : Option String := none
  unicode : Bool := false
  switches : List String := []
  operand : Option String := none

namespace Side

def programName (s : Side) : String := s.verb.elim "ktab" ("ktab-" ++ ·.name)

def setConfig (s : Side) (path : String) : Except Halt Side :=
  if path.isEmpty || s.configFile.isSome then
    .error .usage
  else
    .ok { s with configFile := some path }

def setOperand (s : Side) (word : String) : Except Halt Side :=
  if s.operand.isNone && s.verb.any (·.accepts word) then
    .ok { s with operand := some word }
  else
    .error .usage

def setSwitch (s : Side) (name : String) : Except Halt Side :=
  if s.verb.any (·.switches.contains name) && !s.switches.contains name then
    .ok { s with switches := name :: s.switches }
  else
    .error .usage

def setLong (s : Side) : String → Except Halt Side
  | "debug" => .ok { s with verbosity := s.verbosity + 1 }
  | "unicode" => if s.unicode then .error .usage else .ok { s with unicode := true }
  | "version" => .error (.version s.programName)
  | "help" => .error .help
  | name => s.setSwitch name

def setShort (s : Side) : Char → Except Halt Side
  | 'd' => s.setLong "debug"
  | 'V' => s.setLong "version"
  | 'h' => s.setLong "help"
  | _ => .error .usage

end Side

/-- The kinds of word: `--`, `--name`, `--name=value`, `-letters`, and plain words. -/
inductive Word where
  | escape
  | long (name : String)
  | assignment (name value : String)
  | short (letters : List Char)
  | plain (text : String)
deriving DecidableEq

def Word.ofString (s : String) : Word :=
  match s.toList with
  | ['-', '-'] => .escape
  | '-' :: '-' :: rest =>
    match rest.span (· != '=') with
    | (name, _ :: value) => .assignment (String.ofList name) (String.ofList value)
    | (name, []) => .long (String.ofList name)
  | '-' :: c :: rest => .short (c :: rest)
  | _ => .plain s

/-- Reads one side of the command. It ends where the words end, or before the command at the word
that names it; then the command and the words after it are given too. -/
def readSide (s : Side) : List String → Except Halt (Side × Option (Verb × List String))
  | [] => .ok (s, none)
  | word :: rest =>
    match Word.ofString word with
    | .escape =>
      if s.verb.isSome then do
        return (← rest.foldlM Side.setOperand s, none)
      else
        .error .usage
    | .long "config" =>
      match rest with
      | value :: rest =>
        match Word.ofString value with
        | .plain path => do readSide (← s.setConfig path) rest
        | _ => .error .usage
      | [] => .error .usage
    | .long name => do readSide (← s.setLong name) rest
    | .assignment "config" path => do readSide (← s.setConfig path) rest
    | .assignment _ _ => .error .usage
    | .short letters => do readSide (← letters.foldlM Side.setShort s) rest
    | .plain text =>
      if s.verb.isSome then do
        readSide (← s.setOperand text) rest
      else
        match Verb.ofName? text with
        | some verb => .ok (s, some (verb, rest))
        | none => .error (if text == "help" && isTopic rest then .help else .usage)
where
  /-- Whether help can be given on the words. -/
  isTopic : List String → Bool
    | [] | ["help"] => true
    | [word] => (Verb.ofName? word).isSome
    | _ => false

def command? (verb : Verb) (s : Side) : Option Command :=
  let has := s.switches.contains
  match verb with
  | .check => s.operand.map (.check · (has "tree") (has "json"))
  | .valid => s.operand.map (.ask .validity · (has "tree"))
  | .sat => s.operand.map (.ask .satisfiability · (has "tree"))
  | .parse => s.operand.map .parse
  | .batch => s.operand.map (.batch · (has "json"))
  | .config => some (.config (has "template"))
  | .completion => s.operand.map .completion

/-- The path in the environment takes part on each side that names no file. -/
def configFile (before after : Side) (fromEnv : Option String) : Except Halt (Option String) :=
  if fromEnv = some "" && (before.configFile.isNone || after.configFile.isNone) then
    .error .usage
  else
    .ok (after.configFile <|> before.configFile <|> fromEnv)

def parse (args : List String) (env : Environment) : Except Halt Invocation := do
  let (before, found) ← readSide { verb := none } args
  match found with
  | none => .error .usage
  | some (verb, rest) =>
    let (after, _) ← readSide { verb := some verb } rest
    match command? verb after with
    | none => .error .usage
    | some command =>
      return {
        verbosity := if after.verbosity = 0 then before.verbosity else after.verbosity
        configFile := ← configFile before after (env.get? "KTAB_CONFIG")
        unicode := before.unicode || after.unicode
        command }

end CommandLine
end ModalTableau
