import ModalTableau.Proofs.Interpretation

/-!
# Ranks of worlds

Along a run from a root formula only its subformulas come up. The root's world can be given the
modal depth of the formula as its rank, and every new world one less than its predecessor, so that no
formula at a world nests boxes and diamonds deeper than the rank of the world (`Ranked`). A world of
rank zero asks for no successor.
-/

namespace ModalTableau

namespace Formula

variable {f g h : Formula}

def subformulas : Formula → List Formula
  | atom name => [atom name]
  | not f => not f :: f.subformulas
  | box f => box f :: f.subformulas
  | diamond f => diamond f :: f.subformulas
  | and f g => and f g :: (f.subformulas ++ g.subformulas)
  | or f g => or f g :: (f.subformulas ++ g.subformulas)
  | implies f g => implies f g :: (f.subformulas ++ g.subformulas)

theorem mem_subformulas_self (f : Formula) : f ∈ f.subformulas := by cases f <;> simp [subformulas]

theorem mem_subformulas_of_child (hg : g ∈ f.subformulas) (hh : h ∈ g.children) :
    h ∈ f.subformulas := by
  induction f with
  | atom name =>
    obtain rfl := List.mem_singleton.mp hg
    simp [children] at hh
  | not f ih | box f ih | diamond f ih =>
    rcases List.mem_cons.mp hg with rfl | hg
    · obtain rfl := List.mem_singleton.mp hh
      exact List.mem_cons_of_mem _ h.mem_subformulas_self
    · exact List.mem_cons_of_mem _ (ih hg)
  | and f₁ f₂ ih₁ ih₂ | or f₁ f₂ ih₁ ih₂ | implies f₁ f₂ ih₁ ih₂ =>
    simp only [subformulas, List.mem_cons, List.mem_append] at hg ⊢
    rcases hg with rfl | hg | hg
    · simp only [children, List.mem_cons, List.not_mem_nil, or_false] at hh
      rcases hh with rfl | rfl
      · exact .inr (.inl h.mem_subformulas_self)
      · exact .inr (.inr h.mem_subformulas_self)
    · exact .inr (.inl (ih₁ hg))
    · exact .inr (.inr (ih₂ hg))

end Formula

/-- Ranks as points: a step goes down by one, and a formula holds at a rank if it is not too deep. -/
def rankTarget (φ : Formula) : Target Nat where
  access i j := i = j + 1
  holds i _ f := f ∈ φ.subformulas ∧ f.modalDepth ≤ i
  alpha := by
    rintro i s cs hx ⟨hs, hi⟩ c hc
    have hchild := (Signed.alpha_conclusion hx hc).2
    have hdepth := Formula.modalDepth_le_of_mem_children hchild
    exact ⟨Formula.mem_subformulas_of_child hs hchild, by omega⟩
  demand := by
    rintro i s sign f hx ⟨hs, hi⟩
    obtain ⟨hchild, hdepth⟩ := Signed.someSuccessor_payload hx
    exact ⟨i - 1, by omega, Formula.mem_subformulas_of_child hs hchild, by omega⟩
  spread := by
    rintro i j s sign f hx ⟨hs, hi⟩ rfl
    obtain ⟨hchild, hdepth⟩ := Signed.everySuccessor_payload hx
    exact ⟨Formula.mem_subformulas_of_child hs hchild, by omega⟩

namespace Branch

variable {φ : Formula} {rank : World → Nat} {b b' : Branch} {blocking : Bool} {s : Signed}

/-- A branch on the way from the root `φ`, with a rank for each of its worlds. -/
structure Ranked (φ : Formula) (rank : World → Nat) (b : Branch) : Prop where
  reachable : Reachable [] b
  quiet : ∃ active, b.Quiet active
  interprets : Interprets (rankTarget φ) rank b

theorem ranked_ofRoot (root : Signed) :
    Ranked root.formula (fun _ => root.formula.modalDepth) (ofRoot root) where
  reachable := .ofRoot root
  quiet := ⟨_, quiet_ofParts [root] []⟩
  interprets := interprets_ofRoot ⟨root.formula.mem_subformulas_self, Nat.le_refl _⟩

theorem Ranked.mem_subformulas (h : Ranked φ rank b) (hs : s ∈ b) : s.formula ∈ φ.subformulas :=
  (h.interprets.formulas s hs).1

/-- New worlds get their rank when they come up; the ranks of the others stay. -/
theorem Ranked.next (h : Ranked φ rank b) (hn : Next blocking b b') :
    ∃ rank', Ranked φ rank' b' ∧ ∀ w ∈ b.worlds, rank' w = rank w := by
  obtain ⟨active, hq⟩ := h.quiet
  obtain ⟨active', hq', -⟩ := hq.next h.reachable hn
  have hr := h.reachable.next hn
  cases hn with
  | extended step =>
    obtain ⟨rank', hi, hold⟩ := h.interprets.extended h.reachable.tidy hq step
    exact ⟨rank', ⟨hr, ⟨active', hq'⟩, hi⟩, hold⟩
  | choice step chosen =>
    obtain ⟨hi, hmem, hx⟩ := h.interprets.split step
    obtain ⟨hsub, hdepth⟩ := h.interprets.formulas _ hmem
    obtain ⟨⟨hwl, hl⟩, hwr, hr'⟩ := Signed.beta_alternatives hx
    refine ⟨rank, ⟨hr, ⟨active', hq'⟩, hi.add ?_⟩, fun _ _ => rfl⟩
    rcases chosen with rfl | rfl
    · have hle := Formula.modalDepth_le_of_mem_children hl
      exact ⟨Formula.mem_subformulas_of_child hsub hl, by rw [hwl]; omega⟩
    · have hle := Formula.modalDepth_le_of_mem_children hr'
      exact ⟨Formula.mem_subformulas_of_child hsub hr', by rw [hwr]; omega⟩

end Branch
end ModalTableau
