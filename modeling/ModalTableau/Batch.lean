import ModalTableau.Report
import ModalTableau.Text

/-!
Lists of formulas, one a line. Blank lines and lines that start with `#` are left out; a line that
fails does not touch the others.
-/

namespace ModalTableau.Batch

/-- A formula and the number of its line, counted from one. -/
structure Line where
  number : Nat
  text : String
deriving DecidableEq

def isFormula (text : String) : Bool :=
  match text.toList with
  | [] | '#' :: _ => false
  | _ => true

def number : (first : Nat) → List String → List Line
  | _, [] => []
  | n, text :: rest => ⟨n, Text.trim text⟩ :: number (n + 1) rest

def lines (input : String) : List Line :=
  (number 1 (Text.lines input)).filter fun line => isFormula line.text

structure Entry where
  line : Line
  result : Except Failure Report

def run (s : Service) (input : String) : List Entry :=
  s.each (fun line => ⟨line, Report.solve s line.text⟩) (lines input)

end ModalTableau.Batch
