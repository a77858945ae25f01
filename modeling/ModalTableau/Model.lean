import ModalTableau.Ascending.Map
import ModalTableau.Branch
import ModalTableau.Tree

/-!
Finite Kripke models. An atom that has no value at a world is false there.
-/

namespace ModalTableau

structure Spot where
  world : World
  atom : String
deriving DecidableEq

namespace Spot

instance : Ord Spot := ⟨compareLex (compareOn world) (compareOn atom)⟩

instance : Std.TransOrd Spot :=
  inferInstanceAs (Std.TransCmp (compareLex (compareOn world) (compareOn atom)))

instance : Std.LawfulEqOrd Spot where
  compare_self {s} := Std.ReflCmp.compare_self
  eq_of_compare {s s'} h := by
    obtain ⟨hw, ha⟩ := Ordering.then_eq_eq.mp h
    have hw : s.world = s'.world := Nat.compare_eq_eq.mp hw
    have ha : compare s.atom s'.atom = .eq := ha
    cases s
    cases s'
    cases hw
    cases Std.LawfulEqCmp.eq_of_compare ha
    rfl

end Spot

structure Model where
  worlds : Ascending World
  relation : Ascending Edge
  valuation : Ascending.Map Spot Bool
deriving DecidableEq

namespace Model

/-- The model with the given worlds and edges, and the worlds at the ends of the edges. -/
def ofParts (worlds : List World) (relation : List Edge) : Model where
  worlds := (Ascending.ofList worlds).insertMany (relation.flatMap fun e => [e.source, e.target])
  relation := .ofList relation
  valuation := .empty

def set (m : Model) (w : World) (atom : String) (value : Bool) : Model :=
  { m with
    worlds := m.worlds.insert w
    valuation := m.valuation.insert ⟨w, atom⟩ value }

def record (m : Model) (s : Signed) : Model :=
  match s.formula with
  | .atom name => m.set s.world name s.sign.holds
  | _ => m

/-- The worlds, edges and atoms of a branch that has no contradiction. -/
def ofBranch? (b : Branch) : Option Model :=
  if b.isClosed then
    none
  else
    some (b.formulas.foldl record (ofParts b.worlds.toList b.edges.toList))

def successors (m : Model) (w : World) : List World :=
  (m.relation.toList.filter (·.source = w)).map (·.target)

def value (m : Model) (w : World) (atom : String) : Bool :=
  (m.valuation.get? ⟨w, atom⟩).getD false

def isConstrained (m : Model) (w : World) (atom : String) : Bool :=
  (m.valuation.get? ⟨w, atom⟩).isSome

def valuesAt (m : Model) (w : World) : List (String × Bool) :=
  (m.valuation.toList.filter (·.1.world = w)).map fun (spot, value) => (spot.atom, value)

def satisfies (m : Model) : Formula → World → Bool
  | .atom name, w => m.value w name
  | .not f, w => !m.satisfies f w
  | .and f g, w => m.satisfies f w && m.satisfies g w
  | .or f g, w => m.satisfies f w || m.satisfies g w
  | .implies f g, w => !m.satisfies f w || m.satisfies g w
  | .box f, w => (m.successors w).all (m.satisfies f)
  | .diamond f, w => (m.successors w).any (m.satisfies f)

def satisfiesSigned (m : Model) (s : Signed) : Bool :=
  m.satisfies s.formula s.world == s.sign.holds

/-- A world with its literals and its successors, as in `w0: p, ~q -> w1, w2`. -/
def describe (m : Model) (n : Notation) (w : World) : String :=
  let literal := fun (atom, value) => if value then atom else n.symbol .not ++ atom
  let literals := ", ".intercalate ((m.valuesAt w).map literal)
  let successors := ", ".intercalate ((m.successors w).map fun v => s!"w{v}")
  s!"w{w}" ++ (if literals.isEmpty then "" else ": " ++ literals) ++
    (if successors.isEmpty then "" else " -> " ++ successors)

def outline (m : Model) (n : Notation) : Tree String :=
  .node s!"Kripke model ({m.worlds.size} worlds, {m.relation.size} edges)"
    (m.worlds.toList.map (.leaf <| m.describe n ·))

end Model
end ModalTableau
