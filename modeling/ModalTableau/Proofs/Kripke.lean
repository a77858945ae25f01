import ModalTableau.Model
import ModalTableau.Proofs.BranchLaws

/-!
# Kripke semantics

Models over any type of worlds, finite or not, and truth in them. `agrees_iff_meets` is the meaning
of the rules: a signed formula is right about a world exactly if what its rule concludes is. The
finite models that are read off branches are such models over numbered worlds.
-/

namespace ModalTableau

universe u

structure Kripke (W : Type u) where
  access : W → W → Prop
  value : W → String → Prop

namespace Kripke

variable {W : Type u}

def Forces (K : Kripke W) : W → Formula → Prop
  | x, .atom name => K.value x name
  | x, .not f => ¬ K.Forces x f
  | x, .and f g => K.Forces x f ∧ K.Forces x g
  | x, .or f g => K.Forces x f ∨ K.Forces x g
  | x, .implies f g => K.Forces x f → K.Forces x g
  | x, .box f => ∀ y, K.access x y → K.Forces y f
  | x, .diamond f => ∃ y, K.access x y ∧ K.Forces y f

def Agrees (K : Kripke W) (x : W) (sign : Sign) (f : Formula) : Prop :=
  K.Forces x f ↔ sign.holds = true

@[simp] theorem agrees_T {K : Kripke W} {x : W} {f : Formula} : K.Agrees x .T f ↔ K.Forces x f := by
  simp [Agrees, Sign.holds]

@[simp] theorem agrees_F {K : Kripke W} {x : W} {f : Formula} :
    K.Agrees x .F f ↔ ¬ K.Forces x f := by
  simp [Agrees, Sign.holds]

theorem not_agrees_flip {K : Kripke W} {x : W} {sign : Sign} {f : Formula}
    (h : K.Agrees x sign f) : ¬ K.Agrees x sign.flip f := by
  cases sign <;> simpa [Sign.flip] using h

def Meets (K : Kripke W) (x : W) : Expansion → Prop
  | .alpha cs => ∀ c ∈ cs, K.Agrees x c.sign c.formula
  | .beta l r => K.Agrees x l.sign l.formula ∨ K.Agrees x r.sign r.formula
  | .someSuccessor sign f => ∃ y, K.access x y ∧ K.Agrees y sign f
  | .everySuccessor sign f => ∀ y, K.access x y → K.Agrees y sign f

theorem agrees_iff_meets {s : Signed} {e : Expansion} (h : s.expansion? = some e) (K : Kripke W)
    (x : W) : K.Agrees x s.sign s.formula ↔ K.Meets x e := by
  obtain ⟨w, sign, f⟩ := s
  cases f <;> cases sign <;> simp only [Signed.expansion?, Option.some.injEq, reduceCtorEq] at h <;>
    subst h <;> simp [Meets, Forces, Sign.flip]
  case and.F f g => by_cases hf : K.Forces x f <;> simp [hf]
  case implies.T f g => by_cases hf : K.Forces x f <;> simp [hf]

end Kripke

namespace Model

def toKripke (m : Model) : Kripke World where
  access w v := ⟨w, v⟩ ∈ m.relation
  value w name := m.value w name = true

theorem mem_successors {m : Model} {v w : World} : v ∈ m.successors w ↔ ⟨w, v⟩ ∈ m.relation :=
  Edge.mem_targets

theorem forces_toKripke (m : Model) (f : Formula) (w : World) :
    m.toKripke.Forces w f ↔ m.satisfies f w = true := by
  induction f generalizing w with
  | atom name => rfl
  | not f ih => simp [Kripke.Forces, satisfies, ih]
  | and f g ihf ihg => simp [Kripke.Forces, satisfies, ihf, ihg]
  | or f g ihf ihg => simp [Kripke.Forces, satisfies, ihf, ihg]
  | implies f g ihf ihg =>
    simp only [Kripke.Forces, ihf, ihg, satisfies]
    cases m.satisfies f w <;> simp
  | box f ih =>
    simp only [Kripke.Forces, ih, satisfies, List.all_eq_true, mem_successors]
    rfl
  | diamond f ih =>
    simp only [Kripke.Forces, ih, satisfies, List.any_eq_true, mem_successors]
    rfl

theorem satisfiesSigned_iff (m : Model) (s : Signed) :
    m.satisfiesSigned s = true ↔ m.toKripke.Agrees s.world s.sign s.formula := by
  rw [satisfiesSigned, Kripke.Agrees, forces_toKripke, beq_iff_eq, Bool.eq_iff_iff]

end Model
end ModalTableau
