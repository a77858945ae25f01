import ModalTableau.Rule

/-!
A branch of the tableau: the signed formulas asserted along it in the order of their arrival, each
once, with a record of the rules already applied to them, and the worlds and edges that have come up.
A branch only grows.
-/

namespace ModalTableau

structure Entry where
  signed : Signed
  /-- Its rule has been applied. Rules that speak of every successor are never used up. -/
  used : Bool
  /-- The successors that a rule about every successor has reached. -/
  reached : Ascending World

namespace Entry

def ofSigned (s : Signed) : Entry := ⟨s, false, .empty⟩

def isKind (e : Entry) (kind : RuleKind) : Bool :=
  e.signed.rule?.any (·.kind = kind)

def isApplied (e : Entry) : Bool := e.used && (e.isKind .alpha || e.isKind .beta)

def isFulfilled (e : Entry) : Bool := e.used && e.isKind .someSuccessor

end Entry

structure Branch where
  entries : List Entry
  worlds : Ascending World
  edges : Ascending Edge
  /-- The edges that lead to a world found on the branch instead of a new one. -/
  reused : Ascending Edge
  /-- The true side of the first contradiction. -/
  clash : Option Signed

namespace Branch

/-- Nothing is asserted, and there is the one world that every branch has. -/
def empty : Branch := ⟨[], .singleton 0, .empty, .empty, none⟩

def formulas (b : Branch) : List Signed := b.entries.map (·.signed)

def contains (b : Branch) (s : Signed) : Bool := b.entries.any (·.signed = s)

def isClosed (b : Branch) : Bool := b.clash.isSome

def label (b : Branch) (w : World) : List Signed := b.formulas.filter (·.world = w)

def successors (b : Branch) (w : World) : List World :=
  (b.edges.toList.filter (·.source = w)).map (·.target)

/-- The contradiction that `s` would complete, by its true side. -/
def clashWith? (b : Branch) (s : Signed) : Option Signed :=
  if b.contains s.conjugate then
    some { s with sign := .T }
  else
    none

/-- Asserts `s`; nothing happens if it is asserted already. -/
def add (b : Branch) (s : Signed) : Branch :=
  if b.contains s then
    b
  else
    { b with
      entries := b.entries ++ [.ofSigned s]
      worlds := b.worlds.insert s.world
      clash := b.clash <|> b.clashWith? s }

def addEdge (b : Branch) (e : Edge) : Branch :=
  { b with
    worlds := (b.worlds.insert e.source).insert e.target
    edges := b.edges.insert e }

def nextWorld (b : Branch) : World := b.worlds.toList.foldl max 0 + 1

def addWorld (b : Branch) : Branch := { b with worlds := b.worlds.insert b.nextWorld }

def addAll (b : Branch) : List Signed → Branch × List Signed
  | [] => (b, [])
  | s :: rest =>
    let (after, new) := (b.add s).addAll rest
    (after, if b.contains s then new else s :: new)

def ofRoot (root : Signed) : Branch := empty.add root

def ofParts (formulas : List Signed) (edges : List Edge) : Branch :=
  edges.foldl addEdge (formulas.foldl add empty)

end Branch
end ModalTableau
