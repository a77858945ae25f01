import ModalTableau.Proofs.Canonical
import ModalTableau.Proofs.RuleLaws

/-!
# How deep an accepted formula can be

The levels that reading counts do not bound the depth of what is read. A chain of conjunctions or of
disjunctions opens no level, however long it is, and its formula is as deep as the chain is long. All
else is bounded: between one level and the next a path through the formula passes one chain of either
kind and one implication at most (`Derivation.depth_le`). So the accepted texts of a collection have
formulas of bounded depth exactly if their chains have bounded length.
-/

namespace ModalTableau

namespace Formula

def conjunctions : Formula → Nat
  | and f _ => f.conjunctions + 1
  | _ => 0

def disjunctions : Formula → Nat
  | or f _ => f.disjunctions + 1
  | _ => 0

/-- The length of the longest chain of conjunctions or of disjunctions. -/
def chain : Formula → Nat
  | atom _ => 0
  | not f | box f | diamond f => f.chain
  | and f g => max (f.conjunctions + 1) (max f.chain g.chain)
  | or f g => max (f.disjunctions + 1) (max f.chain g.chain)
  | implies f g => max f.chain g.chain

theorem conjunctions_le_chain (f : Formula) : f.conjunctions ≤ f.chain := by
  cases f with
  | and f g => exact Nat.le_max_left _ _
  | _ => exact Nat.zero_le _

theorem disjunctions_le_chain (f : Formula) : f.disjunctions ≤ f.chain := by
  cases f with
  | or f g => exact Nat.le_max_left _ _
  | _ => exact Nat.zero_le _

theorem conjunctions_le_depth (f : Formula) : f.conjunctions ≤ f.depth := by
  induction f with
  | and f g ihf _ => exact Nat.succ_le_succ (Nat.le_trans ihf (Nat.le_max_left _ _))
  | _ => exact Nat.zero_le _

theorem disjunctions_le_depth (f : Formula) : f.disjunctions ≤ f.depth := by
  induction f with
  | or f g ihf _ => exact Nat.succ_le_succ (Nat.le_trans ihf (Nat.le_max_left _ _))
  | _ => exact Nat.zero_le _

theorem chain_le_depth (f : Formula) : f.chain ≤ f.depth := by
  induction f with
  | atom name => exact Nat.le_refl _
  | not f ih | box f ih | diamond f ih => exact Nat.le_succ_of_le ih
  | and f g ihf ihg =>
    have hf := f.conjunctions_le_depth
    simp only [chain, depth]
    omega
  | or f g ihf ihg =>
    have hf := f.disjunctions_le_depth
    simp only [chain, depth]
    omega
  | implies f g ihf ihg =>
    simp only [chain, depth]
    omega

end Formula

/-- What a formula of the category adds to the depth of what is one level further in, if no chain is
longer than `n`. -/
def Category.height (n : Nat) (f : Formula) : Category → Nat
  | .implication => 2 * n + 1
  | .disjunction => n + f.disjunctions
  | .conjunction => f.conjunctions
  | .unary => 0

namespace Derivation

variable {c : Category} {n : Nat}

theorem height_le {k l x y : Nat} (hk : k ≤ l) (hx : x ≤ y) :
    (2 * n + 1) * k + x ≤ (2 * n + 1) * l + y :=
  Nat.add_le_add (Nat.mul_le_mul_left _ hk) hx

/-- The induction goes through the levels from the inside out. Within one level a chain is counted as
far as it goes, and only where another category takes it over is it counted with its bound. -/
theorem depth_le (d : Derivation c) (h : d.formula.chain ≤ n) :
    d.formula.depth ≤ (2 * n + 1) * d.nesting + c.height n d.formula := by
  induction d with
  | atom name => exact Nat.zero_le _
  | modified m d ih =>
    have hd : d.formula.depth ≤ (2 * n + 1) * d.nesting := ih (by cases m <;> exact h)
    have hdepth : (modified m d).formula.depth = d.formula.depth + 1 := by cases m <;> rfl
    rw [hdepth]
    show d.formula.depth + 1 ≤ (2 * n + 1) * d.nesting + (2 * n + 1)
    exact Nat.add_le_add hd (Nat.le_add_left 1 _)
  | paren d ih => exact ih h
  | unary d ih => exact Nat.le_trans (ih h) (height_le (Nat.le_refl _) (Nat.zero_le _))
  | and d e ihd ihe =>
    obtain ⟨-, hd, he⟩ : _ ∧ d.formula.chain ≤ n ∧ e.formula.chain ≤ n := by
      simpa only [formula, Formula.chain, Nat.max_le] using h
    refine Nat.succ_le_succ (Nat.max_le.mpr ⟨?_, ?_⟩)
    · exact Nat.le_trans (ihd hd) (height_le (Nat.le_max_left _ _) (Nat.le_refl _))
    · exact Nat.le_trans (ihe he) (height_le (Nat.le_max_right _ _) (Nat.zero_le _))
  | conjunction d ih =>
    have hchain := Nat.le_trans d.formula.conjunctions_le_chain h
    exact Nat.le_trans (ih h) (height_le (Nat.le_refl _) (Nat.le_add_right_of_le hchain))
  | or d e ihd ihe =>
    obtain ⟨-, hd, he⟩ : _ ∧ d.formula.chain ≤ n ∧ e.formula.chain ≤ n := by
      simpa only [formula, Formula.chain, Nat.max_le] using h
    have hchain := Nat.le_trans e.formula.conjunctions_le_chain he
    refine Nat.succ_le_succ (Nat.max_le.mpr ⟨?_, ?_⟩)
    · exact Nat.le_trans (ihd hd) (height_le (Nat.le_max_left _ _) (Nat.le_refl _))
    · exact Nat.le_trans (ihe he)
        (height_le (Nat.le_max_right _ _) (Nat.le_add_right_of_le hchain))
  | disjunction d ih =>
    have hchain := Nat.le_trans d.formula.disjunctions_le_chain h
    refine Nat.le_trans (ih h) (height_le (Nat.le_refl _) ?_)
    simp only [Category.height]
    omega
  | implies d e ihd ihe =>
    obtain ⟨hd, he⟩ : d.formula.chain ≤ n ∧ e.formula.chain ≤ n := by
      simpa only [formula, Formula.chain, Nat.max_le] using h
    have hchain := Nat.le_trans d.formula.disjunctions_le_chain hd
    refine Nat.succ_le_succ (Nat.max_le.mpr ⟨?_, ?_⟩)
    · refine Nat.le_trans (ihd hd) (height_le (Nat.le_max_left _ _) ?_)
      simp only [Category.height]
      omega
    · have hlevel : (2 * n + 1) * (e.nesting + 1) ≤ (2 * n + 1) * (implies d e).nesting :=
        Nat.mul_le_mul_left _ (Nat.le_max_right _ _)
      exact Nat.le_trans (ihe he) (Nat.le_add_right_of_le hlevel)

end Derivation

namespace Formula

variable {text : String} {f : Formula}

theorem depth_le_of_parse (h : parse text = .ok f) :
    f.depth ≤ (2 * f.chain + 1) * (nestingLimit + 1) := by
  obtain ⟨d, rfl, shallow, -, -⟩ := exists_derivation_of_parse h
  exact Nat.le_trans (d.depth_le (Nat.le_refl _)) (Nat.mul_le_mul_left _ (Nat.succ_le_succ shallow))

def repeatedly : Nat → Formula
  | 0 => .atom "p"
  | n + 1 => .and (repeatedly n) (.atom "p")

theorem depth_repeatedly (n : Nat) : (repeatedly n).depth = n := by
  induction n with
  | zero => rfl
  | succ n ih => simp [repeatedly, depth, ih]

theorem eq_of_mem_atoms_repeatedly {n : Nat} {a : String} (h : a ∈ (repeatedly n).atoms) : a = "p" := by
  induction n with
  | zero => simpa [repeatedly, atoms, collectAtoms] using h
  | succ n ih =>
    rcases (mem_collectAtoms (.atom "p")).mp h with h | h
    · simpa [atoms, collectAtoms] using h
    · exact ih h

theorem nesting_repeatedly (n : Nat) : ((repeatedly n).written .conjunction).nesting = 0 := by
  induction n with
  | zero => rfl
  | succ n ih =>
    show max ((repeatedly n).written .conjunction).nesting 0 = 0
    rw [ih]
    rfl

theorem parse_repeatedly (n : Nat) : parse ((repeatedly n).render .ascii) = .ok (repeatedly n) := by
  have names : ∀ name ∈ (repeatedly n).atoms, Token.isName name.toList := by
    intro name h
    obtain rfl := eq_of_mem_atoms_repeatedly h
    decide
  rcases parse_render_cases .ascii names with ⟨-, h⟩ | ⟨deep, -⟩
  · exact h
  · have hn := ((repeatedly n).written_spares_written (by decide) :
      ((repeatedly n).written .implication).Spares ((repeatedly n).written .conjunction)).nesting
    rw [nesting_repeatedly] at hn
    omega

theorem depth_unbounded : ¬ ∃ bound, ∀ text f, parse text = .ok f → f.depth ≤ bound := by
  rintro ⟨bound, h⟩
  have hdeep := h _ _ (parse_repeatedly (bound + 1))
  rw [depth_repeatedly] at hdeep
  exact Nat.not_succ_le_self bound hdeep

/-- The depth of what is read is bounded on a collection of texts exactly if the length of the chains
is; and every accepted formula is as deep as its chains and its levels let it be. -/
theorem depth_bounded_iff (texts : String → Prop) :
    ((∃ bound, ∀ text f, texts text → parse text = .ok f → f.depth ≤ bound) ↔
      ∃ length, ∀ text f, texts text → parse text = .ok f → f.chain ≤ length) ∧
    ∀ text f, parse text = .ok f → f.depth ≤ (2 * f.chain + 1) * (nestingLimit + 1) := by
  refine ⟨⟨?_, ?_⟩, fun text f => depth_le_of_parse⟩
  · rintro ⟨bound, h⟩
    exact ⟨bound, fun text f ht hf => Nat.le_trans f.chain_le_depth (h text f ht hf)⟩
  · rintro ⟨length, h⟩
    refine ⟨(2 * length + 1) * (nestingLimit + 1), fun text f ht hf => ?_⟩
    have hchain := h text f ht hf
    exact Nat.le_trans (depth_le_of_parse hf) (Nat.mul_le_mul_right _ (by omega))

end Formula
end ModalTableau
