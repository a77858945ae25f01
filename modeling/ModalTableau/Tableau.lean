import ModalTableau.Branch
import ModalTableau.Tree

/-!
Tableaux as trees of segments. A segment is the stretch of a branch between two splits, or between
the last split and the end of the branch.
-/

namespace ModalTableau

inductive Status where
  | building
  /-- The rule for `premise` splits the branch here; the children carry the alternatives. -/
  | split (rule : Rule) (premise : Signed)
  | closed (clash : Signed)
  | saturated
deriving DecidableEq

namespace Status

def isClosed : Status → Bool
  | closed _ => true
  | _ => false

def isTerminal : Status → Bool
  | closed _ | saturated => true
  | _ => false

end Status

structure Segment where
  /-- What the segment starts with: the root, or one alternative of a split. -/
  seed : List Signed
  inferences : List Inference
  status : Status
  /-- The whole branch, kept where it ends. -/
  branch : Option Branch

namespace Segment

def ofSeed (seed : List Signed) : Segment := ⟨seed, [], .building, none⟩

def isOpen (s : Segment) : Bool := s.status = .saturated

def prepend (inferences : List Inference) (s : Segment) : Segment :=
  { s with inferences := inferences ++ s.inferences }

def text (n : Notation) (s : Segment) : String :=
  let seed := ", ".intercalate (s.seed.map (·.render n))
  match s.status with
  | .building => seed
  | .split rule premise => s!"{seed}  => split [{rule.text}] on {premise.render n}"
  | .closed clash => s!"{seed}  => closed: {clash.render n} / {clash.conjugate.render n}"
  | .saturated => s!"{seed}  => open (saturated)"

end Segment

abbrev Tableau := Tree Segment

namespace Tableau

def openSegments (t : Tableau) : List Segment := t.labels.filter Segment.isOpen

def isComplete (t : Tableau) : Bool :=
  t.subtrees.all fun u => !u.isLeaf || u.label.status.isTerminal

def isClosed (t : Tableau) : Bool :=
  t.subtrees.all fun u => !u.isLeaf || u.label.status.isClosed

def openBranches (t : Tableau) : List Branch := t.openSegments.filterMap (·.branch)

def firstOpenBranch? (t : Tableau) : Option Branch := t.openSegments.head?.bind (·.branch)

mutual
/-- A line for every segment; its inferences stand below it, before its children. -/
def outline (n : Notation) : Tableau → Tree String
  | .node s ts => .node (s.text n) (s.inferences.map (.leaf <| ·.render n) ++ outlines n ts)

def outlines (n : Notation) : List Tableau → List (Tree String)
  | [] => []
  | t :: ts => outline n t :: outlines n ts
end

end Tableau
end ModalTableau
