import ModalTableau.Proofs.Ceilings
import ModalTableau.Proofs.Frontier

/-!
# Propositional formulas

A tableau for a formula without boxes and diamonds stays at its one world (`Plain`). Each step uses
up one occurrence of a connective, and no rule gives back what another has used up: the connectives
of the formulas still to be taken apart (`debt`) become fewer with every step, whichever alternative
is chosen. So a branch ends after as many steps as the formula has connectives, and one more to see
that nothing is left to do.
-/

namespace ModalTableau

theorem Formula.isModal_of_mem_children {f g : Formula} (h : g ∈ f.children)
    (hf : f.isModal = false) : g.isModal = false := by
  cases f with
  | atom => simp [children] at h
  | not f =>
    obtain rfl := List.mem_singleton.mp h
    exact hf
  | box f | diamond f => simp [isModal] at hf
  | and f₁ f₂ | or f₁ f₂ | implies f₁ f₂ =>
    obtain ⟨h₁, h₂⟩ := Bool.or_eq_false_iff.mp hf
    simp only [children, List.mem_cons, List.not_mem_nil, or_false] at h
    rcases h with rfl | rfl
    · exact h₁
    · exact h₂

namespace Signed

variable {s : Signed} {cs : List Signed} {x : Expansion}

def sizeIn : List Signed → Nat
  | [] => 0
  | s :: rest => s.formula.size + sizeIn rest

theorem sizeIn_alpha (h : s.expansion? = some (.alpha cs)) : sizeIn cs < s.formula.size := by
  obtain ⟨w, sign, f⟩ := s
  cases f <;> cases sign <;> simp [expansion?] at h <;> subst h <;> simp [sizeIn, Formula.size]

theorem kind_of_propositional (hs : s.formula.isModal = false) (h : s.expansion? = some x) :
    x.kind = .alpha ∨ x.kind = .beta := by
  obtain ⟨w, sign, f⟩ := s
  cases f <;> cases sign <;> simp [expansion?, Formula.isModal] at h hs <;> subst h <;>
    simp [Expansion.kind]

end Signed

namespace Entry

/-- The connectives that rules have yet to take apart. -/
def debt (e : Entry) : Nat := if e.used then 0 else e.signed.formula.size

def debtIn : List Entry → Nat
  | [] => 0
  | e :: rest => e.debt + debtIn rest

theorem debtIn_append (l₁ l₂ : List Entry) : debtIn (l₁ ++ l₂) = debtIn l₁ + debtIn l₂ := by
  induction l₁ with
  | nil => simp [debtIn]
  | cons e rest ih => simp [debtIn, ih, Nat.add_assoc]

end Entry

namespace Branch

variable {b b' : Branch} {e : Entry} {s root : Signed} {l : List Signed} {blocking : Bool} {n : Nat}

-- ---------------------------------------------------------------------------
-- What is still to be taken apart
-- ---------------------------------------------------------------------------

def debt (b : Branch) : Nat := Entry.debtIn b.entries

theorem debt_add_le (b : Branch) (s : Signed) : (b.add s).debt ≤ b.debt + s.formula.size := by
  by_cases hs : s ∈ b
  · rw [add_of_mem hs]
    exact Nat.le_add_right _ _
  · rw [add_of_not_mem hs, debt, Entry.debtIn_append]
    exact Nat.le_refl _

theorem debt_foldl_add_le (b : Branch) (l : List Signed) :
    (l.foldl add b).debt ≤ b.debt + Signed.sizeIn l := by
  induction l generalizing b with
  | nil => exact Nat.le_refl _
  | cons s rest ih =>
    calc (rest.foldl add (b.add s)).debt
      _ ≤ (b.add s).debt + Signed.sizeIn rest := ih (b.add s)
      _ ≤ b.debt + s.formula.size + Signed.sizeIn rest :=
        Nat.add_le_add_right (debt_add_le b s) _
      _ = b.debt + Signed.sizeIn (s :: rest) := Nat.add_assoc _ _ _

theorem Marked.debt_used (h : Marked b e { e with used := true } b') (hu : e.used = false) :
    b'.debt + e.signed.formula.size = b.debt := by
  obtain ⟨l₁, l₂, he, -⟩ := h
  simp only [debt, he, Entry.debtIn_append, Entry.debtIn, Entry.debt, hu, if_true, if_false,
    Bool.false_eq_true]
  omega

-- ---------------------------------------------------------------------------
-- One world
-- ---------------------------------------------------------------------------

/-- Nothing but propositional formulas, all at the world that every branch has. -/
structure Plain (b : Branch) : Prop where
  propositional : ∀ s ∈ b, s.formula.isModal = false
  home : ∀ s ∈ b, s.world = 0
  worlds : b.worlds = .singleton 0
  edges : b.edges = .empty

namespace Plain

theorem add (h : b.Plain) (hs : s.formula.isModal = false) (hw : s.world = 0) :
    (b.add s).Plain := by
  by_cases hm : s ∈ b
  · rwa [add_of_mem hm]
  refine ⟨fun x hx => ?_, fun x hx => ?_, ?_, edges_add.trans h.edges⟩
  · rcases mem_add.mp hx with rfl | hx
    · exact hs
    · exact h.propositional x hx
  · rcases mem_add.mp hx with rfl | hx
    · exact hw
    · exact h.home x hx
  · rw [add_of_not_mem hm, h.worlds, hw]
    exact Ascending.insert_of_mem (Ascending.mem_singleton.mpr rfl)

theorem foldl_add (h : b.Plain) (hs : ∀ s ∈ l, s.formula.isModal = false ∧ s.world = 0) :
    (l.foldl Branch.add b).Plain := by
  induction l generalizing b with
  | nil => exact h
  | cons s rest ih =>
    obtain ⟨⟨hm, hw⟩, hrest⟩ := List.forall_mem_cons.mp hs
    exact ih (h.add hm hw) hrest

theorem marked {e' : Entry} (h : b.Plain) (hm : Marked b e e' b') : b'.Plain where
  propositional := fun s hs => h.propositional s (hm.mem_iff.mp hs)
  home := fun s hs => h.home s (hm.mem_iff.mp hs)
  worlds := hm.worlds_eq.trans h.worlds
  edges := hm.edges_eq.trans h.edges

theorem ofRoot (hroot : root.formula.isModal = false) (hw : root.world = 0) :
    (Branch.ofRoot root).Plain := by
  have hempty : Plain .empty := ⟨by simp [mem_iff_formulas, formulas, empty],
    by simp [mem_iff_formulas, formulas, empty], rfl, rfl⟩
  exact hempty.add hroot hw

theorem of_child (h : b.Plain) (he : e.signed ∈ b)
    (hs : s.world = e.signed.world ∧ s.formula ∈ e.signed.formula.children) :
    s.formula.isModal = false ∧ s.world = 0 :=
  ⟨Formula.isModal_of_mem_children hs.2 (h.propositional _ he), hs.1.trans (h.home _ he)⟩

/-- Only rules that stay at their world are there to be applied, and what they conclude has fewer
connectives than their premise, all conclusions together. -/
theorem next (h : b.Plain) (hn : Next blocking b b') : b'.Plain ∧ b'.debt < b.debt := by
  cases hn with
  | extended step =>
    cases stepped_of step with
    | @alpha e used rule cs marked unused expand =>
      have hx := Signed.expansion?_of_expand expand
      have he := signed_mem marked.mem_entries
      rw [addAll_fst]
      refine ⟨(h.marked marked).foldl_add fun s hs => ?_, ?_⟩
      · exact h.of_child he (Signed.alpha_conclusion hx hs)
      · have hle := debt_foldl_add_le used cs
        have hpaid := marked.debt_used unused
        have hlt := Signed.sizeIn_alpha hx
        omega
    | spread marked _ expand | reuse _ _ marked _ expand | fresh _ _ marked _ expand =>
      have hs := h.propositional _ (signed_mem marked.mem_entries)
      have hkind := Signed.kind_of_propositional hs (Signed.expansion?_of_expand expand)
      simp [Expansion.kind] at hkind
  | @choice rule premise left right after s step chosen =>
    cases stepped_of step with
    | @split e _ _ _ _ _ marked unused expand =>
      obtain ⟨hl, hr⟩ := Signed.beta_alternatives (Signed.expansion?_of_expand expand)
      have hs : s.world = e.signed.world ∧ s.formula ∈ e.signed.formula.children := by
        rcases chosen with rfl | rfl
        · exact hl
        · exact hr
      obtain ⟨hmodal, hw⟩ := h.of_child (signed_mem marked.mem_entries) hs
      refine ⟨(h.marked marked).add hmodal hw, ?_⟩
      have hle := debt_add_le after s
      have hpaid := marked.debt_used unused
      have hlt := Formula.size_lt_of_mem_children hs.2
      omega

theorem run (h : b.Plain) (hr : Run blocking n b b') : b'.Plain ∧ n + b'.debt ≤ b.debt := by
  induction hr with
  | refl => exact ⟨h, Nat.le_of_eq (Nat.zero_add _)⟩
  | head first _ ih =>
    obtain ⟨hplain, hlt⟩ := h.next first
    obtain ⟨hplain', hle⟩ := ih hplain
    exact ⟨hplain', by omega⟩

end Plain

theorem debt_ofRoot_le (root : Signed) : (ofRoot root).debt ≤ root.formula.size := by
  have hle := debt_add_le empty root
  rwa [show empty.debt = 0 from rfl, Nat.zero_add] at hle

end Branch

namespace Tableau

open Branch (Run)

theorem not_overruns_of_plain {limits : Limits} {b : Branch} {n : Nat} (h : b.Plain)
    (steps : b.debt < n) (worlds : 1 ≤ limits.maxWorlds) (fault : Fault) :
    ¬ Overruns limits b n fault := by
  intro hover
  cases hover with
  | iterations run =>
    have hle := (h.run run).2
    omega
  | worlds run _ _ step past =>
    have hplain := ((h.run run).1.next (.extended step)).1
    rw [hplain.worlds] at past
    exact absurd worlds (Nat.not_le_of_lt past)

/-- The tableau of a propositional formula comes to an end if a branch may take one step more than
the formula has connectives, and have one world. No branch takes more steps than there are
connectives before it is closed or saturated, and those left open have world 0 alone and no edge. -/
theorem propositional_ends (limits : Limits) (sign : Sign) (f : Formula) (hf : f.isModal = false)
    (steps : f.size < limits.maxIterations) (worlds : 1 ≤ limits.maxWorlds) :
    ∃ t, build limits ⟨0, sign, f⟩ = .ok t ∧
      (∃ d, Draft.build limits ⟨0, sign, f⟩ = .ok d ∧ d.tableau? = some t) ∧
      (∀ n b, Run limits.blocking n (.ofRoot ⟨0, sign, f⟩) b → n ≤ f.size) ∧
      ∀ s ∈ t.openSegments,
        ∃ b, s.branch = some b ∧ b.worlds.toList = [0] ∧ b.edges.toList = [] := by
  have hplain : (Branch.ofRoot ⟨0, sign, f⟩).Plain := .ofRoot hf rfl
  have hdebt := Branch.debt_ofRoot_le ⟨0, sign, f⟩
  cases hb : build limits ⟨0, sign, f⟩ with
  | error fault =>
    have hover := not_overruns_of_plain hplain (Nat.lt_of_le_of_lt hdebt steps) worlds fault
    exact absurd (overruns_of_grow hb) hover
  | ok t =>
    refine ⟨t, rfl, build_ok_iff.mp hb, fun n b hrun => ?_, fun s hs => ?_⟩
    · have hle := (hplain.run hrun).2
      exact Nat.le_trans (Nat.le_trans (Nat.le_add_right n _) hle) hdebt
    · obtain ⟨k, b, hbranch, hrun, -⟩ := (grown_of_grow hb).branch_of_mem_openSegments hs
      have hend := (hplain.run hrun).1
      exact ⟨b, hbranch, by rw [hend.worlds]; rfl, by rw [hend.edges]; rfl⟩

def choiceAndDenial : Formula := .and (.or (.atom "p") (.atom "q")) (.not (.atom "r"))

/-- Four steps are enough, and three are not. -/
theorem propositional_ends_choiceAndDenial : ∃ t,
    build ⟨4, 1, false⟩ ⟨0, .T, choiceAndDenial⟩ = .ok t ∧ t.openSegments.length = 2 ∧
      (∀ s ∈ t.openSegments, ∃ b, s.branch = some b ∧ b.worlds.toList = [0] ∧ b.edges.toList = []) ∧
      build ⟨3, 1, false⟩ ⟨0, .T, choiceAndDenial⟩ = .error ⟨.iterations 3, 3, 1⟩ := by
  obtain ⟨t, ht, -, -, hopen⟩ :=
    propositional_ends ⟨4, 1, false⟩ .T choiceAndDenial rfl (by decide) (by decide)
  obtain ⟨t', ht', htwo⟩ := ok_of_toOption (show
    (build ⟨4, 1, false⟩ ⟨0, .T, choiceAndDenial⟩).toOption.map (·.openSegments.length) = some 2 by
      decide +kernel)
  obtain rfl : t' = t := Except.ok.inj (ht'.symm.trans ht)
  have hfew : build ⟨3, 1, false⟩ ⟨0, .T, choiceAndDenial⟩ = .error ⟨.iterations 3, 3, 1⟩ :=
    map_error.mp (show
      (build ⟨3, 1, false⟩ ⟨0, .T, choiceAndDenial⟩).map (·.isClosed) = _ by decide +kernel)
  exact ⟨t', ht, htwo, hopen, hfew⟩

end Tableau
end ModalTableau
