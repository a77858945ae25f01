import ModalTableau.Settings

/-!
The layers that make up the settings in force: what is built in, the global file, the file named on
the command line, the environment. Later layers win. Documents are read and written, and variables
looked up, by libraries that the settings do not choose.
-/

namespace ModalTableau

abbrev Environment := List (String × String)

inductive Found (α : Type) where
  | missing
  /-- There is a value, but of another kind. -/
  | unusable
  | value (a : α)
deriving DecidableEq

structure Libraries where
  readToml? : String → Option Toml.Table
  writeToml? : Toml.Table → Option String
  natural : Environment → (key : String) → Found Nat
  boolean : Environment → (key : String) → Found Bool
  text : Environment → (key : String) → Found String

structure SettingsFile where
  name : String
  contents : Contents

/-- A notation is named by a string, or by the only key of a table if nothing is under that key. -/
def Notation.ofToml? : Toml.Value → Option Notation
  | .string tag | .table _ [(tag, .array [])] | .table _ [(tag, .table _ [])] => ofTag? tag
  | _ => none

namespace Overlay

def natural? (n : Int) : Option Nat := if 0 ≤ n then some n.toNat else none

def insert? (o : Overlay) : String × Toml.Value → Option Overlay
  | ("max_iterations", .integer n) => do return { o with maxIterations := some (← natural? n) }
  | ("max_worlds", .integer n) => do return { o with maxWorlds := some (← natural? n) }
  | ("blocking", .boolean b) => some { o with blocking := some b }
  | ("parallel", .boolean b) => some { o with parallel := some b }
  | ("notation", v) => do return { o with style := some (← Notation.ofToml? v) }
  | _ => none

def ofTable? (t : Toml.Table) : Option Overlay := t.foldlM insert? {}

end Overlay

def SettingsFile.overlay (libs : Libraries) (f : SettingsFile) : Except SettingsError Overlay := do
  let text ← f.contents.text.mapError (.unreadable f.name)
  match (libs.readToml? text).bind Overlay.ofTable? with
  | some o => .ok o
  | none => .error (.malformed f.name)

namespace Environment

def lower (s : String) : String := String.ofList (s.toList.map Char.toLower)

def style (value : String) : Except SettingsError Notation :=
  match Notation.ofTag? (lower value) with
  | some n => .ok n
  | none => .error (.unknownNotation (lower value))

def setting {α : Type} : Found α → Except SettingsError (Option α)
  | .missing => .ok none
  | .unusable => .error .environment
  | .value a => .ok (some a)

def overlay (libs : Libraries) (env : Environment) : Except SettingsError Overlay := do
  let maxIterations ← setting (libs.natural env "max_iterations")
  let maxWorlds ← setting (libs.natural env "max_worlds")
  let blocking ← setting (libs.boolean env "blocking")
  let parallel ← setting (libs.boolean env "parallel")
  let style ← (← setting (libs.text env "notation")).mapM style
  return ⟨maxIterations, maxWorlds, blocking, parallel, style⟩

end Environment

namespace Settings

def overlayFile (libs : Libraries) (s : Settings) :
    Option SettingsFile → Except SettingsError Settings
  | none => .ok s
  | some file => (file.overlay libs).map s.overlay

def load (libs : Libraries) (global explicit : Option SettingsFile) (env : Environment) :
    Except SettingsError Settings := do
  let s ← default.overlayFile libs global
  let s ← s.overlayFile libs explicit
  (s.overlay (← env.overlay libs)).validate

def toToml (libs : Libraries) (s : Settings) : Except SettingsError String :=
  match libs.writeToml? s.toTable with
  | some text => .ok text
  | none => .error .unwritable

end Settings
end ModalTableau
