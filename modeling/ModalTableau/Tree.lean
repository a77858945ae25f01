/-!
Finite trees with a list of children at every node, and the usual ways of walking them. Trees of text
are drawn with box characters, one node a line: the children of a node stand below it, indented by
four columns, and a line connects each child with the next.
-/

namespace ModalTableau

inductive Tree (α : Type) where
  | node (label : α) (children : List (Tree α))

namespace Tree

variable {α β : Type}

def label : Tree α → α
  | node a _ => a

def children : Tree α → List (Tree α)
  | node _ ts => ts

def leaf (a : α) : Tree α := node a []

def isLeaf (t : Tree α) : Bool := t.children.isEmpty

def mapLabel (f : α → α) : Tree α → Tree α
  | node a ts => node (f a) ts

mutual
def map (f : α → β) : Tree α → Tree β
  | node a ts => node (f a) (mapAll f ts)

def mapAll (f : α → β) : List (Tree α) → List (Tree β)
  | [] => []
  | t :: ts => t.map f :: mapAll f ts
end

mutual
/-- Every subtree, a node before its children and children from left to right. -/
def subtrees : Tree α → List (Tree α)
  | node a ts => node a ts :: subtreesAll ts

def subtreesAll : List (Tree α) → List (Tree α)
  | [] => []
  | t :: ts => t.subtrees ++ subtreesAll ts
end

mutual
def depth : Tree α → Nat
  | node _ ts => depthAll ts + 1

def depthAll : List (Tree α) → Nat
  | [] => 0
  | t :: ts => max t.depth (depthAll ts)
end

def labels (t : Tree α) : List α := t.subtrees.map label

def size (t : Tree α) : Nat := t.subtrees.length

def leaves (t : Tree α) : List (Tree α) := t.subtrees.filter isLeaf

mutual
def drawChild (indent : String) (last : Bool) : Tree String → List String
  | node text ts =>
    (indent ++ (if last then "└── " else "├── ") ++ text) ::
      drawChildren (indent ++ (if last then "    " else "│   ")) ts

def drawChildren (indent : String) : List (Tree String) → List String
  | [] => []
  | t :: ts => drawChild indent ts.isEmpty t ++ drawChildren indent ts
end

def draw (t : Tree String) : List String :=
  t.label :: drawChildren "" t.children

end Tree
end ModalTableau
