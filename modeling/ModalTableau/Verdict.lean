import ModalTableau.Model
import ModalTableau.Tableau.Growth

/-!
The two questions about a formula. Each is answered by a tableau at world 0: a formula is valid if
no branch lets it be false, and unsatisfiable if no branch lets it be true. The first open branch
shows the contrary.
-/

namespace ModalTableau

inductive Verdict where
  | valid
  | invalid
  | satisfiable
  | unsatisfiable
deriving DecidableEq

namespace Verdict

def isPositive : Verdict → Bool
  | valid | satisfiable => true
  | invalid | unsatisfiable => false

def text : Verdict → String
  | valid => "valid"
  | invalid => "invalid"
  | satisfiable => "satisfiable"
  | unsatisfiable => "unsatisfiable"

end Verdict

inductive Check where
  | validity
  | satisfiability
deriving DecidableEq

namespace Check

def sign : Check → Sign
  | validity => .F
  | satisfiability => .T

def whenClosed : Check → Verdict
  | validity => .valid
  | satisfiability => .unsatisfiable

def whenOpen : Check → Verdict
  | validity => .invalid
  | satisfiability => .satisfiable

def title : Check → String
  | validity => "Validity"
  | satisfiability => "Satisfiability"

end Check

structure Outcome where
  verdict : Verdict
  tableau : Tableau
  model : Option Model

namespace Check

def judge (c : Check) (t : Tableau) : Outcome :=
  if t.isClosed then
    ⟨c.whenClosed, t, none⟩
  else
    ⟨c.whenOpen, t, t.firstOpenBranch?.bind Model.ofBranch?⟩

def run (c : Check) (limits : Limits) (f : Formula) : Except Fault Outcome :=
  (Tableau.build limits ⟨0, c.sign, f⟩).map c.judge

end Check
end ModalTableau
