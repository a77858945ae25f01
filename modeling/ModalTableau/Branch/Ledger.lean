import ModalTableau.Branch.Step

/-!
A branch with the means of finding things on it. The positions of its formulas are looked up in an
index, a contradiction is a pair of positions, and the number of the next world is counted on from
world to world. Numbers of worlds have 64 bits, so after the last one the count starts again.
-/

namespace ModalTableau

namespace World

def last : World := 18446744073709551615

def next (w : World) : World := if w = last then 0 else w + 1

end World

structure Ledger where
  entries : List Entry
  index : List (Signed × Nat)
  worlds : Ascending World
  edges : Ascending Edge
  reused : Ascending Edge
  /-- The positions of the true and the false side of the first contradiction. -/
  clash : Option (Nat × Nat)
  nextWorld : World

namespace Ledger

def empty : Ledger := ⟨[], [], .singleton 0, .empty, .empty, none, 1⟩

def signed? (l : Ledger) (n : Nat) : Option Signed := l.entries[n]?.map (·.signed)

def position? (l : Ledger) (s : Signed) : Option Nat := l.index.lookup s

def contains (l : Ledger) (s : Signed) : Bool := (l.position? s).isSome

def clash? (l : Ledger) : Option (Signed × Signed) := do
  let (t, f) ← l.clash
  return (← l.signed? t, ← l.signed? f)

def branch (l : Ledger) : Branch :=
  ⟨l.entries, l.worlds, l.edges, l.reused, l.clash?.map (·.1)⟩

def register (l : Ledger) (w : World) : Ledger :=
  { l with
    worlds := l.worlds.insert w
    nextWorld := if l.nextWorld ≤ w then World.next w else l.nextWorld }

/-- The positions of a formula and its conjugate, the true side first. -/
def sides (s : Signed) (position other : Nat) : Nat × Nat :=
  match s.sign with
  | .T => (position, other)
  | .F => (other, position)

/-- Asserts `s` and says whether it is new. -/
def add (l : Ledger) (s : Signed) : Bool × Ledger :=
  if l.contains s then
    (false, l)
  else
    let position := l.entries.length
    (true,
      { l.register s.world with
        entries := l.entries ++ [.ofSigned s]
        index := (s, position) :: l.index
        clash := l.clash <|> (l.position? s.conjugate).map (sides s position) })

def addEdge (l : Ledger) (e : Edge) : Bool × Ledger :=
  (e ∉ l.edges, { (l.register e.source).register e.target with edges := l.edges.insert e })

def freshWorld (l : Ledger) : World × Ledger := (l.nextWorld, l.register l.nextWorld)

def addAll (l : Ledger) : List Signed → Ledger × List Signed
  | [] => (l, [])
  | s :: rest =>
    let (isNew, l) := l.add s
    let (after, new) := l.addAll rest
    (after, if isNew then s :: new else new)

def blocker? (l : Ledger) (source : World) (sign : Sign) (f : Formula) : Option World :=
  let wanted := (sign, f) :: (l.branch.label source).filterMap Branch.spread?
  l.worlds.toList.find? fun w => wanted.all fun (sign, f) => l.contains ⟨w, sign, f⟩

def grant (l : Ledger) (blocking : Bool) (rule : Rule) (premise : Signed) (sign : Sign)
    (f : Formula) : List Inference × Ledger :=
  match if blocking then l.blocker? premise.world sign f else none with
  | some target =>
    let edge := ⟨premise.world, target⟩
    let (isNew, after) := l.addEdge edge
    ([.access edge rule premise true],
      if isNew then { after with reused := after.reused.insert edge } else after)
  | none =>
    let (target, l) := l.freshWorld
    let edge := ⟨premise.world, target⟩
    let conclusion := ⟨target, sign, f⟩
    ([.access edge rule premise false, .derived conclusion rule premise],
      ((l.addEdge edge).2.add conclusion).2)

def step (blocking : Bool) (l : Ledger) : Step Ledger :=
  match updateFirst l.branch.linear? l.entries with
  | some ((rule, premise, conclusions), entries) =>
    let (after, new) := { l with entries }.addAll conclusions
    .extended (new.map (.derived · rule premise)) after
  | none =>
    match updateFirst Branch.alternatives? l.entries with
    | some ((rule, premise, left, right), entries) =>
      .split rule premise left right { l with entries }
    | none =>
      match updateFirst Branch.demand? l.entries with
      | some ((rule, premise, sign, f), entries) =>
        let (inferences, after) := { l with entries }.grant blocking rule premise sign f
        .extended inferences after
      | none => .saturated

def ofRoot (root : Signed) : Ledger := (empty.add root).2

def ofParts (formulas : List Signed) (edges : List Edge) : Ledger :=
  edges.foldl (fun l e => (l.addEdge e).2) (formulas.foldl (fun l s => (l.add s).2) empty)

end Ledger
end ModalTableau
