import ModalTableau.Ascending

/-!
Formulas of propositional modal logic, their connectives, and the measures of their structure.
-/

namespace ModalTableau

inductive Connective where
  | not | and | or | implies | box | diamond
deriving DecidableEq

namespace Connective

/-- The place of a connective in every listing. -/
def rank : Connective → Nat
  | not => 0 | and => 1 | or => 2 | implies => 3 | box => 4 | diamond => 5

theorem rank_inj {c d : Connective} (h : c.rank = d.rank) : c = d := by
  cases c <;> cases d <;> simp_all [rank]

instance : Ord Connective := ⟨compareOn rank⟩

instance : Std.TransOrd Connective := inferInstanceAs (Std.TransCmp (compareOn rank))

instance : Std.LawfulEqOrd Connective where
  compare_self {c} := show compare c.rank c.rank = .eq from Std.ReflCmp.compare_self
  eq_of_compare h := rank_inj (Nat.compare_eq_eq.mp h)

def isModal : Connective → Bool
  | box | diamond => true
  | _ => false

def isBinary : Connective → Bool
  | and | or | implies => true
  | _ => false

def tag : Connective → String
  | not => "not" | and => "and" | or => "or" | implies => "implies" | box => "box"
  | diamond => "diamond"

def name : Connective → String
  | not => "negation" | and => "conjunction" | or => "disjunction" | implies => "implication"
  | box => "necessity" | diamond => "possibility"

end Connective

inductive Formula where
  | atom (name : String)
  | not (f : Formula)
  | and (f g : Formula)
  | or (f g : Formula)
  | implies (f g : Formula)
  | box (f : Formula)
  | diamond (f : Formula)
deriving DecidableEq

namespace Formula

def connective? : Formula → Option Connective
  | atom _ => none
  | not _ => some .not
  | and _ _ => some .and
  | or _ _ => some .or
  | implies _ _ => some .implies
  | box _ => some .box
  | diamond _ => some .diamond

def isAtom : Formula → Bool
  | atom _ => true
  | _ => false

def isModal : Formula → Bool
  | atom _ => false
  | not f => f.isModal
  | and f g | or f g | implies f g => f.isModal || g.isModal
  | box _ | diamond _ => true

/-- The number of connective occurrences. -/
def size : Formula → Nat
  | atom _ => 0
  | not f | box f | diamond f => f.size + 1
  | and f g | or f g | implies f g => f.size + g.size + 1

def depth : Formula → Nat
  | atom _ => 0
  | not f | box f | diamond f => f.depth + 1
  | and f g | or f g | implies f g => max f.depth g.depth + 1

def modalDepth : Formula → Nat
  | atom _ => 0
  | not f => f.modalDepth
  | and f g | or f g | implies f g => max f.modalDepth g.modalDepth
  | box f | diamond f => f.modalDepth + 1

def collectAtoms (seen : Ascending String) : Formula → Ascending String
  | atom name => seen.insert name
  | not f | box f | diamond f => f.collectAtoms seen
  | and f g | or f g | implies f g => g.collectAtoms (f.collectAtoms seen)

def atoms (f : Formula) : Ascending String := f.collectAtoms .empty

def children : Formula → List Formula
  | atom _ => []
  | not f | box f | diamond f => [f]
  | and f g | or f g | implies f g => [f, g]

/-- A bound on the visits that are still to be made. -/
def workload : List Formula → Nat
  | [] => 0
  | f :: pending => 2 * f.size + 1 + workload pending

theorem workload_children (f : Formula) (pending : List Formula) :
    workload (f.children ++ pending) < workload (f :: pending) := by
  cases f <;> simp [workload, children, size] <;> omega

/-- Visits a stack of formulas, collecting the connectives met. -/
def collectConnectives (seen : Ascending Connective) : List Formula → Ascending Connective
  | [] => seen
  | f :: pending =>
    collectConnectives (f.connective?.elim seen seen.insert) (f.children ++ pending)
termination_by pending => workload pending
decreasing_by exact workload_children f pending

def connectives (f : Formula) : Ascending Connective := collectConnectives .empty [f]

end Formula

structure Profile where
  modal : Bool
  connectives : Ascending Connective
  atoms : Ascending String
  size : Nat
  depth : Nat
  modalDepth : Nat

def Formula.profile (f : Formula) : Profile where
  modal := f.isModal
  connectives := f.connectives
  atoms := f.atoms
  size := f.size
  depth := f.depth
  modalDepth := f.modalDepth

end ModalTableau
