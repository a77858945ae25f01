import ModalTableau.Settings.Environment
import ModalTableau.Text
import ModalTableau.Verdict

/-!
The lines that the program prints, with or without colour.
-/

namespace ModalTableau.Console

inductive Paint where
  | bold | green | red | yellow | boldRed | boldCyan
deriving DecidableEq

def Paint.code : Paint → String
  | bold => "1" | green => "32" | red => "31" | yellow => "33" | boldRed => "1;31"
  | boldCyan => "1;36"

def paint (colour : Bool) (p : Paint) (text : String) : String :=
  if colour then s!"\x1b[{p.code}m{text}\x1b[0m" else text

def errorLine (colour : Bool) (message : String) : String :=
  paint colour .boldRed "error" ++ ": " ++ message

def warningLine (colour : Bool) (message : String) : String :=
  paint colour .yellow "Warning" ++ ": " ++ message

def header (colour : Bool) (text : String) : String := paint colour .boldCyan text

/-- A labelled value; the values stand in one column. -/
def field (colour : Bool) (label value : String) : String :=
  paint colour .bold (Text.padRight 16 (label ++ ":")) ++ value

def verdictLine (colour : Bool) (label : String) (v : Verdict) : String :=
  let p := if v.isPositive then Paint.green else .red
  let mark := if v.isPositive then "✓" else "✗"
  field colour label (paint colour p mark ++ " " ++ paint colour p v.text)

def detail (text : String) : String := "  " ++ text

/-- Whether the variables ask for colour or forbid it; else it depends on where the text goes. -/
def colourWish (env : Environment) : Option Bool :=
  let set (name : String) : Option Bool := (env.get? name).map (· != "0")
  if set "CLICOLOR_FORCE" = some true then some true
  else if (set "NO_COLOR").isSome then some false
  else if set "CLICOLOR" = some false then some false
  else none

end ModalTableau.Console
