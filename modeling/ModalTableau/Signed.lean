import ModalTableau.Token

/-!
Signed formulas: a formula asserted true or false at a world.
-/

namespace ModalTableau

abbrev World := Nat

inductive Sign where
  | T
  | F
deriving DecidableEq

namespace Sign

def flip : Sign → Sign
  | T => F
  | F => T

def holds : Sign → Bool
  | T => true
  | F => false

def tag : Sign → String
  | T => "T"
  | F => "F"

@[simp] theorem flip_flip (s : Sign) : s.flip.flip = s := by cases s <;> rfl

@[simp] theorem holds_flip (s : Sign) : s.flip.holds = !s.holds := by cases s <;> rfl

end Sign

structure Signed where
  world : World
  sign : Sign
  formula : Formula
deriving DecidableEq

namespace Signed

def conjugate (s : Signed) : Signed := { s with sign := s.sign.flip }

@[simp] theorem conjugate_conjugate (s : Signed) : s.conjugate.conjugate = s := by
  simp [conjugate]

def render (s : Signed) (n : Notation) : String :=
  s!"{s.sign.tag} {s.formula.render n} @w{s.world}"

end Signed

structure Edge where
  source : World
  target : World
deriving DecidableEq

namespace Edge

instance : Ord Edge := ⟨compareLex (compareOn source) (compareOn target)⟩

instance : Std.TransOrd Edge :=
  inferInstanceAs (Std.TransCmp (compareLex (compareOn source) (compareOn target)))

instance : Std.LawfulEqOrd Edge where
  compare_self {e} := Std.ReflCmp.compare_self
  eq_of_compare {e e'} h := by
    obtain ⟨hs, ht⟩ := Ordering.then_eq_eq.mp h
    cases e
    cases e'
    cases Nat.compare_eq_eq.mp hs
    cases Nat.compare_eq_eq.mp ht
    rfl

end Edge
end ModalTableau
