import ModalTableau.Rule

/-!
# What rules conclude

A rule speaks of immediate subformulas of its premise, which have no atoms but its own. Rules that stay
at the world of the premise never nest boxes and diamonds deeper than it does; rules about successors
take one away.
-/

namespace ModalTableau

namespace Formula

variable {f g : Formula} {a : String}

theorem size_lt_of_mem_children (h : g ∈ f.children) : g.size < f.size := by
  cases f with
  | atom => simp [children] at h
  | not f | box f | diamond f =>
    simp only [children, List.mem_singleton] at h
    simp [size, h]
  | and f₁ f₂ | or f₁ f₂ | implies f₁ f₂ =>
    simp only [children, List.mem_cons, List.not_mem_nil, or_false] at h
    rcases h with rfl | rfl <;> simp only [size] <;> omega

theorem modalDepth_le_of_mem_children (h : g ∈ f.children) : g.modalDepth ≤ f.modalDepth := by
  cases f with
  | atom => simp [children] at h
  | not f | box f | diamond f =>
    simp only [children, List.mem_singleton] at h
    simp [modalDepth, h]
  | and f₁ f₂ | or f₁ f₂ | implies f₁ f₂ =>
    simp only [children, List.mem_cons, List.not_mem_nil, or_false] at h
    rcases h with rfl | rfl <;> simp only [modalDepth] <;> omega

theorem mem_collectAtoms (f : Formula) {seen : Ascending String} :
    a ∈ f.collectAtoms seen ↔ a ∈ f.atoms ∨ a ∈ seen := by
  induction f generalizing seen with
  | atom name => simp [atoms, collectAtoms]
  | not f ih | box f ih | diamond f ih => exact ih
  | and f g ihf ihg | or f g ihf ihg | implies f g ihf ihg =>
    show a ∈ g.collectAtoms (f.collectAtoms seen) ↔ a ∈ g.collectAtoms f.atoms ∨ a ∈ seen
    rw [ihg, ihf, ihg, or_assoc]

theorem mem_atoms_of_child (h : g ∈ f.children) (ha : a ∈ g.atoms) : a ∈ f.atoms := by
  cases f with
  | atom name => simp [children] at h
  | not f | box f | diamond f =>
    obtain rfl : g = f := by simpa [children] using h
    exact ha
  | and f f' | or f f' | implies f f' =>
    rw [atoms, collectAtoms, mem_collectAtoms]
    rcases (by simpa [children] using h : g = f ∨ g = f') with rfl | rfl
    · exact .inr ha
    · exact .inl ha

end Formula

namespace Signed

variable {s c l r : Signed} {rule : Rule} {x : Expansion} {cs : List Signed} {sign : Sign}
  {f : Formula}

theorem expand_eq_some :
    s.expand = some (rule, x) ↔ s.rule? = some rule ∧ s.expansion? = some x := by
  cases hr : s.rule? <;> cases hx : s.expansion? <;> simp [expand, hr, hx]

theorem expansion?_of_expand (h : s.expand = some (rule, x)) : s.expansion? = some x :=
  (expand_eq_some.mp h).2

theorem exists_expand (h : s.expansion? = some x) : ∃ rule, s.expand = some (rule, x) := by
  obtain ⟨w, sign, f⟩ := s
  cases f with
  | atom => simp [expansion?] at h
  | _ => exact ⟨_, expand_eq_some.mpr ⟨rfl, h⟩⟩

theorem expansion?_eq_none (h : s.expansion? = none) : ∃ name, s.formula = .atom name := by
  obtain ⟨w, sign, f⟩ := s
  cases f with
  | atom name => exact ⟨name, rfl⟩
  | _ => cases sign <;> simp [expansion?] at h

theorem alpha_conclusion (h : s.expansion? = some (.alpha cs)) (hc : c ∈ cs) :
    c.world = s.world ∧ c.formula ∈ s.formula.children := by
  obtain ⟨w, sign, f⟩ := s
  cases f <;> cases sign <;> simp [expansion?] at h <;> subst h <;> simp at hc
  all_goals first | obtain rfl := hc | obtain rfl | rfl := hc
  all_goals simp [Formula.children]

theorem beta_alternatives (h : s.expansion? = some (.beta l r)) :
    (l.world = s.world ∧ l.formula ∈ s.formula.children) ∧
      r.world = s.world ∧ r.formula ∈ s.formula.children := by
  obtain ⟨w, sign, f⟩ := s
  cases f <;> cases sign <;> simp [expansion?] at h
  all_goals
    obtain ⟨rfl, rfl⟩ := h
    simp [Formula.children]

theorem world_of_alternative {t : Signed} (h : s.expansion? = some (.beta l r))
    (ht : t = l ∨ t = r) : t.world = s.world := by
  obtain ⟨⟨hl, -⟩, hr, -⟩ := beta_alternatives h
  rcases ht with rfl | rfl
  · exact hl
  · exact hr

theorem someSuccessor_payload (h : s.expansion? = some (.someSuccessor sign f)) :
    f ∈ s.formula.children ∧ f.modalDepth < s.formula.modalDepth := by
  obtain ⟨w, sign', g⟩ := s
  cases g <;> cases sign' <;> simp [expansion?] at h
  all_goals
    obtain ⟨-, rfl⟩ := h
    simp [Formula.children, Formula.modalDepth]

theorem everySuccessor_payload (h : s.expansion? = some (.everySuccessor sign f)) :
    f ∈ s.formula.children ∧ f.modalDepth < s.formula.modalDepth := by
  obtain ⟨w, sign', g⟩ := s
  cases g <;> cases sign' <;> simp [expansion?] at h
  all_goals
    obtain ⟨-, rfl⟩ := h
    simp [Formula.children, Formula.modalDepth]

end Signed
end ModalTableau
