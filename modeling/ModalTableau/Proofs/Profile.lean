import ModalTableau.Proofs.AscendingLaws
import ModalTableau.Proofs.Ranks

/-!
# The profile of a formula

The connectives of a formula are found by visiting a stack of formulas, the other measures by
recursion. They are tied together by the list of the connectives with all their repetitions, one for
each subformula that is no atom: the visit inserts the members of this list one after the other
(`collectConnectives_eq`), and the list is as long as the formula is large (`length_occurrences`).
-/

namespace ModalTableau.Formula

variable {f : Formula} {c : Connective}

/-- The outermost connectives of the subformulas, with repetitions. -/
def occurrences (f : Formula) : List Connective := f.subformulas.filterMap connective?

theorem mem_occurrences : c ∈ f.occurrences ↔ ∃ g ∈ f.subformulas, g.connective? = some c :=
  List.mem_filterMap

theorem occurrences_eq (f : Formula) :
    f.occurrences = f.connective?.toList ++ f.children.flatMap occurrences := by
  cases f <;> simp [occurrences, subformulas, connective?, children]

theorem length_occurrences (f : Formula) : f.occurrences.length = f.size := by
  induction f with
  | atom name => rfl
  | not f ih | box f ih | diamond f ih =>
    rw [occurrences_eq]
    simp [connective?, children, size, ih]
  | and f g ihf ihg | or f g ihf ihg | implies f g ihf ihg =>
    rw [occurrences_eq]
    simp [connective?, children, size, ihf, ihg]

theorem size_eq_zero_iff : f.size = 0 ↔ ∃ name, f = atom name := by cases f <;> simp [size]

-- ---------------------------------------------------------------------------
-- The visit of all subformulas
-- ---------------------------------------------------------------------------

/-- What is on the stack, and below it, is still to be inserted. A formula that is taken off the stack
leaves its children there, so that its list is shortened by its own connective only. -/
theorem collectConnectives_eq (seen : Ascending Connective) (pending : List Formula) :
    collectConnectives seen pending = seen.insertMany (pending.flatMap occurrences) := by
  fun_induction collectConnectives seen pending with
  | case1 seen => rfl
  | case2 seen f pending ih =>
    rw [ih, List.flatMap_append, List.flatMap_cons, f.occurrences_eq, List.append_assoc]
    cases f.connective? <;> rfl

theorem connectives_eq (f : Formula) : f.connectives = .ofList f.occurrences := by
  rw [connectives, collectConnectives_eq, List.flatMap_singleton, Ascending.ofList]

theorem mem_connectives : c ∈ f.connectives ↔ c ∈ f.occurrences := by
  rw [connectives_eq, Ascending.mem_ofList]

theorem connectives_eq_empty_iff : f.connectives = .empty ↔ f.size = 0 := by
  rw [← length_occurrences, List.length_eq_zero_iff, List.eq_nil_iff_forall_not_mem]
  constructor
  · intro h c hc
    rw [← mem_connectives, h] at hc
    exact Ascending.not_mem_empty hc
  · intro h
    apply Ascending.eq_of_mem_iff
    intro c
    simp [mem_connectives, h c]

-- ---------------------------------------------------------------------------
-- Boxes and diamonds
-- ---------------------------------------------------------------------------

theorem isModal_iff_occurrences : f.isModal ↔ ∃ c ∈ f.occurrences, c.isModal := by
  induction f with
  | atom name => simp [isModal, occurrences, subformulas, connective?]
  | not f ih =>
    rw [occurrences_eq]
    simp [isModal, connective?, children, Connective.isModal, ih]
  | and f g ihf ihg | or f g ihf ihg | implies f g ihf ihg =>
    rw [occurrences_eq]
    simp [isModal, connective?, children, Connective.isModal, ihf, ihg, or_and_right, exists_or]
  | box f | diamond f =>
    rw [occurrences_eq]
    simp [isModal, connective?, Connective.isModal]

theorem isModal_iff_connectives : f.isModal ↔ .box ∈ f.connectives ∨ .diamond ∈ f.connectives := by
  rw [isModal_iff_occurrences, mem_connectives, mem_connectives]
  constructor
  · rintro ⟨c, hc, hmodal⟩
    cases c with
    | box => exact .inl hc
    | diamond => exact .inr hc
    | _ => simp [Connective.isModal] at hmodal
  · rintro (h | h)
    · exact ⟨_, h, rfl⟩
    · exact ⟨_, h, rfl⟩

theorem modalDepth_pos_iff : 0 < f.modalDepth ↔ f.isModal := by
  induction f with
  | atom name => simp [modalDepth, isModal]
  | not f ih => exact ih
  | and f g ihf ihg | or f g ihf ihg | implies f g ihf ihg =>
    simp only [modalDepth, isModal, Bool.or_eq_true, ← ihf, ← ihg]
    omega
  | box f | diamond f => simp [modalDepth, isModal]

-- ---------------------------------------------------------------------------
-- Depth, size and atoms
-- ---------------------------------------------------------------------------

theorem modalDepth_le_depth (f : Formula) : f.modalDepth ≤ f.depth := by
  induction f with
  | atom name => exact Nat.le_refl _
  | not f ih | box f ih | diamond f ih =>
    simp only [modalDepth, depth]
    omega
  | and f g ihf ihg | or f g ihf ihg | implies f g ihf ihg =>
    simp only [modalDepth, depth]
    omega

theorem depth_le_size (f : Formula) : f.depth ≤ f.size := by
  induction f with
  | atom name => exact Nat.le_refl _
  | not f ih | box f ih | diamond f ih => exact Nat.succ_le_succ ih
  | and f g ihf ihg | or f g ihf ihg | implies f g ihf ihg =>
    simp only [depth, size]
    omega

theorem exists_mem_atoms (f : Formula) : ∃ a, a ∈ f.atoms := by
  induction f with
  | atom name => exact ⟨name, by simp [atoms, collectAtoms]⟩
  | not f ih | box f ih | diamond f ih => exact ih
  | and f g ihf ihg | or f g ihf ihg | implies f g ihf ihg =>
    obtain ⟨a, ha⟩ := ihf
    exact ⟨a, mem_atoms_of_child (by simp [children]) ha⟩

/-- Only a connective between two formulas makes room for one more atom. -/
theorem size_collectAtoms_le (f : Formula) (seen : Ascending String) :
    (f.collectAtoms seen).size ≤ seen.size + f.size + 1 := by
  induction f generalizing seen with
  | atom name => exact seen.size_insert_le name
  | not f ih | box f ih | diamond f ih => exact Nat.le_succ_of_le (ih seen)
  | and f g ihf ihg | or f g ihf ihg | implies f g ihf ihg =>
    have hf := ihf seen
    have hg := ihg (f.collectAtoms seen)
    simp only [collectAtoms, size]
    omega

theorem profile_consistent (f : Formula) :
    (∀ c, c ∈ f.profile.connectives ↔ ∃ g ∈ f.subformulas, g.connective? = some c) ∧
    (f.profile.modal ↔ 0 < f.profile.modalDepth) ∧
    (0 < f.profile.modalDepth ↔
      .box ∈ f.profile.connectives ∨ .diamond ∈ f.profile.connectives) ∧
    (f.profile.size = 0 ↔ f.profile.connectives = .empty) ∧
    (f.profile.connectives = .empty ↔ ∃ name, f = atom name) ∧
    f.profile.modalDepth ≤ f.profile.depth ∧ f.profile.depth ≤ f.profile.size ∧
    f.profile.atoms ≠ .empty ∧ f.profile.atoms.size ≤ f.profile.size + 1 := by
  refine ⟨fun c => mem_connectives.trans mem_occurrences, modalDepth_pos_iff.symm,
    modalDepth_pos_iff.trans isModal_iff_connectives, connectives_eq_empty_iff.symm,
    connectives_eq_empty_iff.trans size_eq_zero_iff, f.modalDepth_le_depth, f.depth_le_size, ?_, ?_⟩
  · intro h
    obtain ⟨a, ha⟩ := f.exists_mem_atoms
    have hnone : a ∈ f.profile.atoms := ha
    rw [h] at hnone
    exact Ascending.not_mem_empty hnone
  · have hsize := f.size_collectAtoms_le .empty
    rwa [show (Ascending.empty : Ascending String).size = 0 from rfl, Nat.zero_add] at hsize

end ModalTableau.Formula
