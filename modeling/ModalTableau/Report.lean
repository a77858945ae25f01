import ModalTableau.Formula.Reading
import ModalTableau.Service
import ModalTableau.Verdict

/-!
Both questions about a formula given as text, and what the two answers make of it.
-/

namespace ModalTableau

inductive Classification where
  | tautology
  | contingent
  | contradiction
deriving DecidableEq

namespace Classification

def ofVerdicts : (validity satisfiability : Verdict) → Classification
  | .valid, _ => tautology
  | _, .unsatisfiable => contradiction
  | _, _ => contingent

def text : Classification → String
  | tautology => "tautology"
  | contingent => "contingent"
  | contradiction => "contradiction"

def explanation : Classification → String
  | tautology =>
    "The formula holds at every world of every Kripke model: the tableau for its negation closes."
  | contingent =>
    "The formula holds in some model and fails in another: both tableaux leave an open branch."
  | contradiction =>
    "No world of any Kripke model makes the formula true: its tableau closes."

end Classification

inductive Failure where
  | malformed (error : SyntaxError)
  | exhausted (fault : Fault)
deriving DecidableEq

namespace Failure

def message : Failure → String
  | malformed error => "syntax error: " ++ error.message
  | exhausted fault => fault.message

def isFault : Failure → Bool
  | exhausted _ => true
  | malformed _ => false

end Failure

def readFormula (text : String) : Except Failure Formula :=
  (Formula.parse text).mapError .malformed

def Check.ask (c : Check) (limits : Limits) (text : String) : Except Failure Outcome := do
  (c.run limits (← readFormula text)).mapError .exhausted

structure Report where
  formula : Formula
  validity : Outcome
  satisfiability : Outcome

namespace Report

def classification (r : Report) : Classification :=
  .ofVerdicts r.validity.verdict r.satisfiability.verdict

/-- Asks both questions; if neither has an answer, the first one says why. -/
def ofFormula (s : Service) (f : Formula) : Except Fault Report := do
  let (validity, satisfiability) := s.both (fun _ => Check.validity.run s.limits f)
    (fun _ => Check.satisfiability.run s.limits f)
  return ⟨f, ← validity, ← satisfiability⟩

def solve (s : Service) (text : String) : Except Failure Report := do
  (ofFormula s (← readFormula text)).mapError .exhausted

end Report
end ModalTableau
