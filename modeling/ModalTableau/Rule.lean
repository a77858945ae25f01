import ModalTableau.Signed

/-!
The rules of the tableau. A rule is known by the sign and the connective that it takes apart; there
is exactly one for every signed formula that is not atomic.
-/

namespace ModalTableau

structure Rule where
  sign : Sign
  connective : Connective
deriving DecidableEq

inductive RuleKind where
  | alpha
  | beta
  | someSuccessor
  | everySuccessor
deriving DecidableEq

namespace Rule

def kind (r : Rule) : RuleKind :=
  match r.connective, r.sign with
  | .not, _ | .and, .T | .or, .F | .implies, .F => .alpha
  | .and, .F | .or, .T | .implies, .T => .beta
  | .box, .F | .diamond, .T => .someSuccessor
  | .box, .T | .diamond, .F => .everySuccessor

def text (r : Rule) : String := r.sign.tag ++ Notation.ascii.symbol r.connective

end Rule

/-- What a rule concludes from one signed formula. -/
inductive Expansion where
  | alpha (conclusions : List Signed)
  | beta (left right : Signed)
  | someSuccessor (sign : Sign) (formula : Formula)
  | everySuccessor (sign : Sign) (formula : Formula)
deriving DecidableEq

namespace Expansion

def kind : Expansion → RuleKind
  | alpha _ => .alpha
  | beta _ _ => .beta
  | someSuccessor _ _ => .someSuccessor
  | everySuccessor _ _ => .everySuccessor

end Expansion

namespace Signed

def rule? (s : Signed) : Option Rule := s.formula.connective?.map (⟨s.sign, ·⟩)

def expansion? (s : Signed) : Option Expansion :=
  match s.formula, s.sign with
  | .atom _, _ => none
  | .not f, sign => some (.alpha [⟨s.world, sign.flip, f⟩])
  | .and f g, .T => some (.alpha [⟨s.world, .T, f⟩, ⟨s.world, .T, g⟩])
  | .and f g, .F => some (.beta ⟨s.world, .F, f⟩ ⟨s.world, .F, g⟩)
  | .or f g, .T => some (.beta ⟨s.world, .T, f⟩ ⟨s.world, .T, g⟩)
  | .or f g, .F => some (.alpha [⟨s.world, .F, f⟩, ⟨s.world, .F, g⟩])
  | .implies f g, .T => some (.beta ⟨s.world, .F, f⟩ ⟨s.world, .T, g⟩)
  | .implies f g, .F => some (.alpha [⟨s.world, .T, f⟩, ⟨s.world, .F, g⟩])
  | .box f, .T => some (.everySuccessor .T f)
  | .box f, .F => some (.someSuccessor .F f)
  | .diamond f, .T => some (.someSuccessor .T f)
  | .diamond f, .F => some (.everySuccessor .F f)

def expand (s : Signed) : Option (Rule × Expansion) := do
  return (← s.rule?, ← s.expansion?)

end Signed

inductive Inference where
  | derived (conclusion : Signed) (rule : Rule) (premise : Signed)
  /-- An edge for a rule that asks for a successor; `reused` if it leads to a world that was there
  before. -/
  | access (edge : Edge) (rule : Rule) (premise : Signed) (reused : Bool)
deriving DecidableEq

def Inference.render (n : Notation) : Inference → String
  | derived conclusion rule _ => s!"{conclusion.render n}  [{rule.text}]"
  | access edge rule _ reused =>
    let how := if reused then "reuse" else "new"
    s!"w{edge.source} -> w{edge.target}  [{rule.text}, {how}]"

end ModalTableau
