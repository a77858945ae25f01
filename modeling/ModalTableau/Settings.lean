import ModalTableau.Service
import ModalTableau.Text
import ModalTableau.Token
import ModalTableau.Toml

/-!
The settings of the program, and partial settings laid over them.
-/

namespace ModalTableau

inductive SettingsError where
  | unreadable (file : String) (failure : ReadFailure)
  /-- The file is no document, or says something that is no setting. -/
  | malformed (file : String)
  | unknownNotation (found : String)
  | zeroCeiling (key : String)
  | environment
  | unwritable
deriving DecidableEq

def SettingsError.message : SettingsError → String
  | unreadable file failure => s!"read {file}: {failure.message}"
  | malformed file => s!"parse {file}"
  | unknownNotation found => s!"notation must be 'ascii' or 'unicode', got '{found}'"
  | zeroCeiling key => s!"{key} must be greater than 0"
  | environment => "environment"
  | unwritable => "serialize config"

structure Settings where
  maxIterations : Nat
  maxWorlds : Nat
  blocking : Bool
  parallel : Bool
  style : Notation
deriving DecidableEq

/-- Settings of which some are left as they are. -/
structure Overlay where
  maxIterations : Option Nat := none
  maxWorlds : Option Nat := none
  blocking : Option Bool := none
  parallel : Option Bool := none
  style : Option Notation := none
deriving DecidableEq

namespace Settings

def default : Settings :=
  let limits : Limits := {}
  ⟨limits.maxIterations, limits.maxWorlds, limits.blocking, true, .ascii⟩

def limits (s : Settings) : Limits := ⟨s.maxIterations, s.maxWorlds, s.blocking⟩

def overlay (s : Settings) (o : Overlay) : Settings where
  maxIterations := o.maxIterations.getD s.maxIterations
  maxWorlds := o.maxWorlds.getD s.maxWorlds
  blocking := o.blocking.getD s.blocking
  parallel := o.parallel.getD s.parallel
  style := o.style.getD s.style

def toTable (s : Settings) : Toml.Table :=
  [("max_iterations", .integer s.maxIterations), ("max_worlds", .integer s.maxWorlds),
    ("blocking", .boolean s.blocking), ("parallel", .boolean s.parallel),
    ("notation", .string s.style.tag)]

def validate (s : Settings) : Except SettingsError Settings :=
  if s.maxIterations = 0 then .error (.zeroCeiling "max_iterations")
  else if s.maxWorlds = 0 then .error (.zeroCeiling "max_worlds")
  else .ok s

def service (s : Settings) (pool : Pool) : Service := ⟨s.limits, s.parallel, pool⟩

def template : String :=
  "# ktab configuration\n" ++
  "#\n" ++
  "# Locations (by precedence, lowest to highest):\n" ++
  "#   Global:   ~/.config/ktab/ktab.toml\n" ++
  "#   Explicit: ktab --config <file>\n" ++
  "#   Env:      KTAB_* environment variables (e.g. KTAB_MAX_WORLDS=64)\n" ++
  "\n" ++
  "# Rule applications allowed along one tableau branch\n" ++
  "# max_iterations = 10000\n" ++
  "\n" ++
  "# Worlds allowed on one tableau branch\n" ++
  "# max_worlds = 512\n" ++
  "\n" ++
  "# Reuse an existing world for a modal-exists rule when it already holds\n" ++
  "# everything a fresh successor would receive\n" ++
  "# blocking = true\n" ++
  "\n" ++
  "# Run the validity and satisfiability checks in parallel\n" ++
  "# parallel = true\n" ++
  "\n" ++
  "# \"ascii\" (~ & | -> [] <>) or \"unicode\"\n" ++
  "# notation = \"ascii\"\n"

end Settings
end ModalTableau
