/-!
Bounds on the work that goes into one branch, and the fault of passing one.
-/

namespace ModalTableau

structure Limits where
  /-- Rule applications along one branch. -/
  maxIterations : Nat := 10000
  /-- Worlds on one branch. -/
  maxWorlds : Nat := 512
  /-- Whether a world already on the branch may serve as a successor. -/
  blocking : Bool := true
deriving DecidableEq

inductive Ceiling where
  | iterations (limit : Nat)
  | worlds (limit : Nat)
deriving DecidableEq

def Ceiling.text : Ceiling → String
  | iterations limit => s!"max_iterations={limit}"
  | worlds limit => s!"max_worlds={limit}"

/-- A branch passed a ceiling after so many rule applications, with so many worlds on it. -/
structure Fault where
  ceiling : Ceiling
  iterations : Nat
  worlds : Nat
deriving DecidableEq

def Fault.message (f : Fault) : String :=
  s!"internal loop fault: branch exceeded {f.ceiling.text} " ++
    s!"(after {f.iterations} rule applications, {f.worlds} worlds)"

end ModalTableau
