import ModalTableau.Tableau

/-!
A tableau put together by hand. Segments are numbered in the order in which they are put in, and
each names the segment above it. A segment that names nothing above it becomes the root, in place of
any earlier root; one that names a number not yet given out keeps that name but belongs to no tree.
-/

namespace ModalTableau

structure Draft.Node where
  segment : Segment
  parent : Option Nat
  children : List Nat

namespace Draft.Node

def parentIn (nodes : Array Node) (n : Nat) : Option Nat := nodes[n]?.bind (·.parent)

def childrenIn (nodes : Array Node) (n : Nat) : List Nat := nodes[n]?.elim [] (·.children)

/-- The children of a segment are those that were put in below it when it was there. -/
def Linked (nodes : Array Node) : Prop :=
  ∀ n, childrenIn nodes n =
    (List.range nodes.size).filter fun m => n < m ∧ parentIn nodes m = some n

/-- Makes the next number a child of `parent`, if there is such a segment. -/
def link (nodes : Array Node) : (parent : Option Nat) → Array Node
  | none => nodes
  | some p => nodes.modify p fun node => { node with children := node.children ++ [nodes.size] }

variable {nodes : Array Node} {parent : Option Nat}

@[simp] theorem size_link : (link nodes parent).size = nodes.size := by
  cases parent <;> simp [link]

theorem parentIn_link (m : Nat) : parentIn (link nodes parent) m = parentIn nodes m := by
  cases parent with
  | none => rfl
  | some p =>
    simp only [link, parentIn, Array.getElem?_modify]
    split <;> cases nodes[m]? <;> rfl

theorem childrenIn_link (n : Nat) : childrenIn (link nodes parent) n =
    childrenIn nodes n ++ if n < nodes.size ∧ parent = some n then [nodes.size] else [] := by
  cases parent with
  | none => simp [link]
  | some p =>
    simp only [link, childrenIn, Array.getElem?_modify]
    by_cases hn : n < nodes.size
    · by_cases hp : p = n <;> simp [hn, hp]
    · simp [hn]

theorem parentIn_push (node : Node) (m : Nat) :
    parentIn (nodes.push node) m = if m = nodes.size then node.parent else parentIn nodes m := by
  rw [parentIn, Array.getElem?_push]
  exact apply_ite (Option.bind · Node.parent) ..

theorem childrenIn_push (node : Node) (n : Nat) :
    childrenIn (nodes.push node) n = if n = nodes.size then node.children else childrenIn nodes n := by
  rw [childrenIn, Array.getElem?_push]
  exact apply_ite (Option.elim · [] Node.children) ..

theorem Linked.push {segment : Segment} (h : Linked nodes) :
    Linked ((link nodes parent).push ⟨segment, parent, []⟩) := by
  intro n
  have hold : ∀ m ∈ List.range nodes.size,
      decide (n < m ∧ parentIn ((link nodes parent).push ⟨segment, parent, []⟩) m = some n) =
        decide (n < m ∧ parentIn nodes m = some n) := by
    intro m hm
    rw [parentIn_push, size_link, if_neg (Nat.ne_of_lt (List.mem_range.mp hm)), parentIn_link]
  rw [Array.size_push, size_link, List.range_succ, List.filter_append, List.filter_congr hold, ← h n,
    childrenIn_push, childrenIn_link, size_link]
  by_cases hn : n = nodes.size
  · simp [hn, childrenIn]
  · rw [if_neg hn, List.filter_cons, parentIn_push, size_link, if_pos rfl]
    simp

theorem Linked.modify (h : Linked nodes) (n : Nat) (f : Segment → Segment) :
    Linked (nodes.modify n fun node => { node with segment := f node.segment }) := by
  have hparent (m : Nat) : parentIn (nodes.modify n fun node =>
      { node with segment := f node.segment }) m = parentIn nodes m := by
    simp only [parentIn, Array.getElem?_modify]
    split <;> cases nodes[m]? <;> rfl
  intro m
  simp only [hparent, Array.size_modify, ← h m, childrenIn, Array.getElem?_modify]
  split <;> cases nodes[m]? <;> rfl

end Draft.Node

structure Draft where
  nodes : Array Draft.Node
  root : Option Nat
  linked : Draft.Node.Linked nodes

namespace Draft

def empty : Draft := ⟨#[], none, fun _ => rfl⟩

def size (d : Draft) : Nat := d.nodes.size

def get? (d : Draft) (n : Nat) : Option Segment := d.nodes[n]?.map (·.segment)

def parent? (d : Draft) (n : Nat) : Option Nat := Node.parentIn d.nodes n

/-- The segments directly below, in the order in which they were put in. -/
def children (d : Draft) (n : Nat) : List Nat := Node.childrenIn d.nodes n

theorem children_eq (d : Draft) (n : Nat) :
    d.children n = (List.range d.size).filter fun m => n < m ∧ d.parent? m = some n :=
  d.linked n

/-- Puts a segment below `parent`, or at the root. Its number is the size of the draft before. -/
def insert (d : Draft) (segment : Segment) (parent : Option Nat) : Draft where
  nodes := (Node.link d.nodes parent).push ⟨segment, parent, []⟩
  root := if parent.isNone then some d.size else d.root
  linked := d.linked.push

def modify (d : Draft) (n : Nat) (f : Segment → Segment) : Draft where
  nodes := d.nodes.modify n fun node => { node with segment := f node.segment }
  root := d.root
  linked := d.linked.modify n f

/-- Visits a stack of segments, each before what is below it, and takes at most `steps` of them. -/
def walk (d : Draft) : (steps : Nat) → List Nat → List Nat
  | 0, _ | _, [] => []
  | steps + 1, n :: pending => n :: d.walk steps (d.children n ++ pending)

/-- The segments that hang together with the root, each before what is below it. No segment is met
twice, so there are no more than the draft has. -/
def order (d : Draft) : List Nat := d.walk d.size d.root.toList

def leaves (d : Draft) : List Nat := d.order.filter fun n => (d.children n).isEmpty

def openLeaves (d : Draft) : List Nat := d.order.filter fun n => (d.get? n).any Segment.isOpen

theorem lt_of_mem_children {d : Draft} {n m : Nat} (h : m ∈ d.children n) :
    d.size - m < d.size - n := by
  simp only [children_eq, List.mem_filter, List.mem_range, decide_eq_true_eq] at h
  omega

def numbersBelow (d : Draft) (n : Nat) : Tree Nat :=
  .node n ((d.children n).attach.map fun ⟨m, _⟩ => d.numbersBelow m)
termination_by d.size - n
decreasing_by exact lt_of_mem_children ‹_›

def tableau? (d : Draft) : Option Tableau :=
  d.root.map fun n => (d.numbersBelow n).map fun m => (d.get? m).getD (.ofSeed [])

def outline (d : Draft) (n : Notation) : Tree String :=
  d.tableau?.elim (.leaf "Empty tree") (Tableau.outline n)

end Draft
end ModalTableau
