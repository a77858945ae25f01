import ModalTableau.Branch.Step
import ModalTableau.Proofs.BranchLaws
import ModalTableau.Proofs.RuleLaws

/-!
# What a step can do

`Stepped` lists the six things that one step does to a branch, with the conditions under which it
does them, and `stepped` says that there are no others. `Next` is one step together with the choice
of an alternative where the branch splits, `Run` a number of such steps in a row.
-/

namespace ModalTableau

theorem updateFirst_eq_none {α β : Type} {f : α → Option (β × α)} {l : List α}
    (h : updateFirst f l = none) : ∀ a ∈ l, f a = none := by
  induction l with
  | nil => simp
  | cons a rest ih =>
    rw [updateFirst] at h
    cases hf : f a with
    | some p => simp [hf] at h
    | none =>
      simp only [hf, Option.map_eq_none_iff] at h
      simpa [hf] using ih h

theorem updateFirst_of_none {α β : Type} {f : α → Option (β × α)} {l : List α}
    (h : ∀ a ∈ l, f a = none) : updateFirst f l = none := by
  induction l with
  | nil => rfl
  | cons a rest ih =>
    simp only [List.mem_cons, forall_eq_or_imp] at h
    simp [updateFirst, h.1, ih h.2]

theorem updateFirst_append {α β : Type} {f : α → Option (β × α)} {l₁ l₂ : List α} {a a' : α} {c : β}
    (h₁ : ∀ x ∈ l₁, f x = none) (ha : f a = some (c, a')) :
    updateFirst f (l₁ ++ a :: l₂) = some (c, l₁ ++ a' :: l₂) := by
  induction l₁ with
  | nil => simp [updateFirst, ha]
  | cons x l₁ ih =>
    simp only [List.mem_cons, forall_eq_or_imp] at h₁
    simp [updateFirst, h₁.1, ih h₁.2]

theorem updateFirst_eq_some {α β : Type} {f : α → Option (β × α)} {l l' : List α} {c : β} :
    updateFirst f l = some (c, l') ↔ ∃ l₁ a a' l₂, l = l₁ ++ a :: l₂ ∧ (∀ x ∈ l₁, f x = none) ∧
      f a = some (c, a') ∧ l' = l₁ ++ a' :: l₂ := by
  constructor
  · intro h
    induction l generalizing l' with
    | nil => simp [updateFirst] at h
    | cons a rest ih =>
      rw [updateFirst] at h
      cases hf : f a with
      | some p =>
        obtain ⟨c', a'⟩ := p
        simp only [hf, Option.some.injEq, Prod.mk.injEq] at h
        obtain ⟨rfl, rfl⟩ := h
        exact ⟨[], a, a', rest, rfl, by simp, hf, rfl⟩
      | none =>
        simp only [hf, Option.map_eq_some_iff, Prod.mk.injEq, Prod.exists] at h
        obtain ⟨c', rest', hrest, rfl, rfl⟩ := h
        obtain ⟨l₁, x, x', l₂, rfl, h₁, hx, rfl⟩ := ih hrest
        exact ⟨a :: l₁, x, x', l₂, rfl, by simpa [hf] using h₁, hx, rfl⟩
  · rintro ⟨l₁, a, a', l₂, rfl, h₁, ha, rfl⟩
    exact updateFirst_append h₁ ha

namespace Branch

variable {b b' : Branch} {s : Signed} {e e' : Entry} {v w : World} {sign : Sign} {f : Formula}
  {blocking : Bool}

-- ---------------------------------------------------------------------------
-- Marking an entry
-- ---------------------------------------------------------------------------

/-- `b'` is `b` with a new record `e'` in place of `e` for the same formula. -/
inductive Marked (b : Branch) (e e' : Entry) : Branch → Prop
  | intro (l₁ l₂ : List Entry) (entries : b.entries = l₁ ++ e :: l₂) (signed : e'.signed = e.signed) :
      Marked b e e' { b with entries := l₁ ++ e' :: l₂ }

namespace Marked

theorem mem_entries (h : Marked b e e' b') : e ∈ b.entries := by
  obtain ⟨l₁, l₂, he, -⟩ := h
  simp [he]

theorem signed_eq (h : Marked b e e' b') : e'.signed = e.signed := by
  obtain ⟨-, -, -, hs⟩ := h
  exact hs

theorem formulas_eq (h : Marked b e e' b') : b'.formulas = b.formulas := by
  obtain ⟨l₁, l₂, he, hs⟩ := h
  simp [formulas, he, hs]

theorem mem_iff (h : Marked b e e' b') : s ∈ b' ↔ s ∈ b := by
  rw [mem_iff_formulas, h.formulas_eq, ← mem_iff_formulas]

theorem premise_mem (h : Marked b e e' b') : e.signed ∈ b' :=
  h.mem_iff.mpr (signed_mem h.mem_entries)

theorem worlds_eq (h : Marked b e e' b') : b'.worlds = b.worlds := by cases h; rfl

theorem edges_eq (h : Marked b e e' b') : b'.edges = b.edges := by cases h; rfl

theorem reused_eq (h : Marked b e e' b') : b'.reused = b.reused := by cases h; rfl

theorem clash_eq (h : Marked b e e' b') : b'.clash = b.clash := by cases h; rfl

theorem entry_of_mem {x : Entry} (h : Marked b e e' b') (hx : x ∈ b'.entries) :
    x = e' ∨ x ∈ b.entries := by
  obtain ⟨l₁, l₂, he, -⟩ := h
  rw [he]
  simp only [List.mem_append, List.mem_cons] at hx ⊢
  rcases hx with hx | hx | hx
  · exact .inr (.inl hx)
  · exact .inl hx
  · exact .inr (.inr (.inr hx))

theorem mem_or_eq {x : Entry} (h : Marked b e e' b') (hx : x ∈ b.entries) :
    x = e ∨ x ∈ b'.entries := by
  obtain ⟨l₁, l₂, he, -⟩ := h
  rw [he] at hx
  simp only [List.mem_append, List.mem_cons] at hx ⊢
  rcases hx with hx | hx | hx
  · exact .inr (.inl hx)
  · exact .inl hx
  · exact .inr (.inr (.inr hx))

theorem mem_entries_new (h : Marked b e e' b') : e' ∈ b'.entries := by
  obtain ⟨l₁, l₂, -, -⟩ := h
  simp

theorem grows (h : Marked b e e' b') : b.Grows b' := by
  refine ⟨h.formulas_eq ▸ List.prefix_rfl, fun w hw => ?_, fun d hd => ?_⟩
  · rwa [h.worlds_eq]
  · rwa [h.edges_eq]

theorem tidy (h : Marked b e e' b') (ht : b.Tidy) : b'.Tidy := by
  constructor
  · exact h.formulas_eq ▸ ht.nodup
  · intro s hs
    exact h.worlds_eq ▸ ht.world_mem s (h.mem_iff.mp hs)
  · exact h.edges_eq ▸ h.worlds_eq ▸ ht.source_mem
  · exact h.edges_eq ▸ h.worlds_eq ▸ ht.target_mem
  · exact h.edges_eq ▸ h.reused_eq ▸ ht.reused_mem
  · intro hc s hs hs'
    exact ht.consistent (h.clash_eq ▸ hc) s (h.mem_iff.mp hs) (h.mem_iff.mp hs')
  · intro c hc
    obtain ⟨hs, hs'⟩ := ht.clashing c (h.clash_eq ▸ hc)
    exact ⟨h.mem_iff.mpr hs, h.mem_iff.mpr hs'⟩
  · exact h.clash_eq ▸ ht.clash_sign

end Marked

-- ---------------------------------------------------------------------------
-- Nothing left to do
-- ---------------------------------------------------------------------------

theorem mem_successors : v ∈ b.successors w ↔ ⟨w, v⟩ ∈ b.edges := Edge.mem_targets

theorem mem_unreached : v ∈ b.unreached e ↔ ⟨e.signed.world, v⟩ ∈ b.edges ∧ v ∉ e.reached := by
  simp [unreached, mem_successors]

/-- No rule that adds to the branch is waiting. -/
def LinearDone (b : Branch) : Prop := ∀ e ∈ b.entries, b.linear? e = none

def ChoiceDone (b : Branch) : Prop := ∀ e ∈ b.entries, alternatives? e = none

def DemandDone (b : Branch) : Prop := ∀ e ∈ b.entries, demand? e = none

theorem LinearDone.alpha {cs : List Signed} (h : b.LinearDone) (he : e ∈ b.entries)
    (hx : e.signed.expansion? = some (.alpha cs)) : e.used = true := by
  obtain ⟨rule, hx⟩ := Signed.exists_expand hx
  simpa [linear?, hx] using h e he

theorem LinearDone.every (h : b.LinearDone) (he : e ∈ b.entries) (hu : e.used = false)
    (hx : e.signed.expansion? = some (.everySuccessor sign f)) (hv : ⟨e.signed.world, v⟩ ∈ b.edges) :
    v ∈ e.reached := by
  obtain ⟨rule, hx⟩ := Signed.exists_expand hx
  have hnone := h e he
  simp only [linear?, hu, Bool.false_eq_true, ↓reduceIte, hx] at hnone
  split at hnone
  next hnil =>
    by_cases hr : v ∈ e.reached
    · exact hr
    · exact absurd (hnil ▸ mem_unreached.mpr ⟨hv, hr⟩) List.not_mem_nil
  next => simp at hnone

theorem ChoiceDone.beta {l r : Signed} (h : b.ChoiceDone) (he : e ∈ b.entries)
    (hx : e.signed.expansion? = some (.beta l r)) : e.used = true := by
  obtain ⟨rule, hx⟩ := Signed.exists_expand hx
  simpa [alternatives?, hx] using h e he

theorem DemandDone.some (h : b.DemandDone) (he : e ∈ b.entries)
    (hx : e.signed.expansion? = some (.someSuccessor sign f)) : e.used = true := by
  obtain ⟨rule, hx⟩ := Signed.exists_expand hx
  simpa [demand?, hx] using h e he

-- ---------------------------------------------------------------------------
-- Blocking
-- ---------------------------------------------------------------------------

theorem mem_holders : w ∈ b.holders sign f ↔ ⟨w, sign, f⟩ ∈ b := by
  simp only [holders, Ascending.mem_ofList, List.mem_map, List.mem_filter, decide_eq_true_eq]
  constructor
  · rintro ⟨⟨_, _, _⟩, ⟨h, rfl, rfl⟩, rfl⟩
    exact h
  · intro h
    exact ⟨_, ⟨h, rfl, rfl⟩, rfl⟩

theorem spread?_eq_some (h : s.expansion? = some (.everySuccessor sign f)) :
    spread? s = some (sign, f) := by
  simp [spread?, h]

/-- A world that blocks has the formula asked for and all that its predecessor says of every
successor. -/
theorem blocker?_eq_some {source : World} (h : b.blocker? source sign f = some w) :
    ⟨w, sign, f⟩ ∈ b ∧ ∀ s ∈ b, s.world = source → ∀ sign' g,
      s.expansion? = some (.everySuccessor sign' g) → ⟨w, sign', g⟩ ∈ b := by
  have hall := List.find?_some h
  refine ⟨mem_holders.mp (List.mem_of_find?_eq_some h), fun s hs hw sign' g hx => ?_⟩
  have hlabel : s ∈ b.label source := List.mem_filter.mpr ⟨hs, by simpa using hw⟩
  have hmore := List.mem_filterMap.mpr ⟨s, hlabel, spread?_eq_some hx⟩
  exact contains_iff.mp (List.all_eq_true.mp hall _ hmore)

theorem grows_reuse (b : Branch) (d : Edge) : b.Grows (b.reuse d) := by
  have hg := grows_addEdge b d
  unfold reuse
  split
  · exact hg
  · exact ⟨hg.formulas, hg.worlds, hg.edges⟩

@[simp] theorem entries_reuse (b : Branch) (d : Edge) : (b.reuse d).entries = b.entries := by
  unfold reuse; split <;> rfl

@[simp] theorem worlds_reuse (b : Branch) (d : Edge) :
    (b.reuse d).worlds = (b.addEdge d).worlds := by
  unfold reuse; split <;> rfl

@[simp] theorem edges_reuse (b : Branch) (d : Edge) : (b.reuse d).edges = (b.addEdge d).edges := by
  unfold reuse; split <;> rfl

@[simp] theorem clash_reuse (b : Branch) (d : Edge) : (b.reuse d).clash = b.clash := by
  unfold reuse; split <;> rfl

@[simp] theorem mem_reuse {d : Edge} : s ∈ b.reuse d ↔ s ∈ b := by
  simp [mem_iff_entry]

theorem mem_reused_reuse {d d' : Edge} :
    d' ∈ (b.reuse d).reused ↔ d' ∈ b.reused ∨ d' = d ∧ d ∉ b.edges := by
  unfold reuse
  split
  next h => simp [addEdge, h]
  next h => simp [addEdge, h, or_comm]

theorem Tidy.reuse (h : b.Tidy) (d : Edge) : (b.reuse d).Tidy := by
  have hd := h.addEdge d
  constructor
  · simpa [formulas] using h.nodup
  · intro s hs
    rw [worlds_reuse]
    exact hd.world_mem s (mem_addEdge.mpr (mem_reuse.mp hs))
  · simpa using hd.source_mem
  · simpa using hd.target_mem
  · intro d' hd'
    rw [edges_reuse, mem_edges_addEdge]
    rcases mem_reused_reuse.mp hd' with hd' | ⟨rfl, -⟩
    · exact .inr (h.reused_mem d' hd')
    · exact .inl rfl
  · simpa using h.consistent
  · simpa using h.clashing
  · simpa using h.clash_sign

-- ---------------------------------------------------------------------------
-- Steps
-- ---------------------------------------------------------------------------

inductive Stepped (blocking : Bool) (b : Branch) : Step Branch → Prop
  /-- A rule adds its conclusions. -/
  | alpha {e b' rule cs} (marked : Marked b e { e with used := true } b') (unused : e.used = false)
      (expand : e.signed.expand = some (rule, .alpha cs)) :
      Stepped blocking b
        (.extended ((b'.addAll cs).2.map (.derived · rule e.signed)) (b'.addAll cs).1)
  /-- A rule about every successor goes to those that it has not reached. -/
  | spread {e b' rule sign f}
      (marked : Marked b e { e with reached := e.reached.insertMany (b.unreached e) } b')
      (unused : e.used = false) (expand : e.signed.expand = some (rule, .everySuccessor sign f))
      (waiting : b.unreached e ≠ []) :
      Stepped blocking b
        (.extended ((b'.addAll ((b.unreached e).map (⟨·, sign, f⟩))).2.map (.derived · rule e.signed))
          (b'.addAll ((b.unreached e).map (⟨·, sign, f⟩))).1)
  | split {e b' rule left right} (linear : b.LinearDone)
      (marked : Marked b e { e with used := true } b') (unused : e.used = false)
      (expand : e.signed.expand = some (rule, .beta left right)) :
      Stepped blocking b (.split rule e.signed left right b')
  /-- A world on the branch serves as the successor asked for. -/
  | reuse {e b' rule sign f v} (linear : b.LinearDone) (choice : b.ChoiceDone)
      (marked : Marked b e { e with used := true } b') (unused : e.used = false)
      (expand : e.signed.expand = some (rule, .someSuccessor sign f)) (block : blocking = true)
      (blocker : b'.blocker? e.signed.world sign f = some v) :
      Stepped blocking b
        (.extended [.access ⟨e.signed.world, v⟩ rule e.signed true] (b'.reuse ⟨e.signed.world, v⟩))
  /-- A new world becomes the successor asked for. -/
  | fresh {e b' rule sign f} (linear : b.LinearDone) (choice : b.ChoiceDone)
      (marked : Marked b e { e with used := true } b') (unused : e.used = false)
      (expand : e.signed.expand = some (rule, .someSuccessor sign f))
      (unblocked : blocking = true → b'.blocker? e.signed.world sign f = none) :
      Stepped blocking b
        (.extended
          [.access ⟨e.signed.world, b'.nextWorld⟩ rule e.signed false,
            .derived ⟨b'.nextWorld, sign, f⟩ rule e.signed]
          ((b'.addEdge ⟨e.signed.world, b'.nextWorld⟩).add ⟨b'.nextWorld, sign, f⟩))
  | saturated (linear : b.LinearDone) (choice : b.ChoiceDone) (demand : b.DemandDone) :
      Stepped blocking b .saturated

theorem linear?_eq_some {rule : Rule} {premise : Signed} {conclusions : List Signed}
    (h : b.linear? e = some ((rule, premise, conclusions), e')) :
    e.used = false ∧ premise = e.signed ∧
      (e.signed.expand = some (rule, .alpha conclusions) ∧ e' = { e with used := true } ∨
        ∃ sign f, e.signed.expand = some (rule, .everySuccessor sign f) ∧ b.unreached e ≠ [] ∧
          conclusions = (b.unreached e).map (⟨·, sign, f⟩) ∧
          e' = { e with reached := e.reached.insertMany (b.unreached e) }) := by
  unfold linear? at h
  split at h
  next => simp at h
  next hu =>
    refine ⟨by simpa using hu, ?_⟩
    split at h
    next r cs hx =>
      simp only [Option.some.injEq, Prod.mk.injEq] at h
      obtain ⟨⟨rfl, rfl, rfl⟩, rfl⟩ := h
      exact ⟨rfl, .inl ⟨hx, rfl⟩⟩
    next r sign f hx =>
      split at h
      next => simp at h
      next hne =>
        simp only [Option.some.injEq, Prod.mk.injEq] at h
        obtain ⟨⟨rfl, rfl, rfl⟩, rfl⟩ := h
        exact ⟨rfl, .inr ⟨sign, f, hx, hne, rfl, rfl⟩⟩
    next => simp at h

theorem alternatives?_eq_some {rule : Rule} {premise left right : Signed}
    (h : alternatives? e = some ((rule, premise, left, right), e')) :
    e.used = false ∧ premise = e.signed ∧ e.signed.expand = some (rule, .beta left right) ∧
      e' = { e with used := true } := by
  unfold alternatives? at h
  split at h
  next => simp at h
  next hu =>
    split at h
    next r l r' hx =>
      simp only [Option.some.injEq, Prod.mk.injEq] at h
      obtain ⟨⟨rfl, rfl, rfl, rfl⟩, rfl⟩ := h
      exact ⟨by simpa using hu, rfl, hx, rfl⟩
    next => simp at h

theorem demand?_eq_some {rule : Rule} {premise : Signed}
    (h : demand? e = some ((rule, premise, sign, f), e')) :
    e.used = false ∧ premise = e.signed ∧ e.signed.expand = some (rule, .someSuccessor sign f) ∧
      e' = { e with used := true } := by
  unfold demand? at h
  split at h
  next => simp at h
  next hu =>
    split at h
    next r sign' g hx =>
      simp only [Option.some.injEq, Prod.mk.injEq] at h
      obtain ⟨⟨rfl, rfl, rfl, rfl⟩, rfl⟩ := h
      exact ⟨by simpa using hu, rfl, hx, rfl⟩
    next => simp at h

theorem stepped_grant {rule : Rule} (linear : b.LinearDone) (choice : b.ChoiceDone)
    (marked : Marked b e { e with used := true } b') (unused : e.used = false)
    (expand : e.signed.expand = some (rule, .someSuccessor sign f)) :
    Stepped blocking b (.extended (b'.grant blocking rule e.signed sign f).1
      (b'.grant blocking rule e.signed sign f).2) := by
  unfold grant
  cases blocking with
  | false => exact .fresh linear choice marked unused expand (by simp)
  | true =>
    cases hb : b'.blocker? e.signed.world sign f with
    | some v => simpa [hb] using Stepped.reuse linear choice marked unused expand rfl hb
    | none =>
      have hf : Stepped true b _ := .fresh linear choice marked unused expand fun _ => hb
      simpa [hb] using hf

theorem stepped (blocking : Bool) (b : Branch) : Stepped blocking b (b.step blocking) := by
  unfold step
  split
  next rule premise conclusions entries hl =>
    obtain ⟨l₁, e, e', l₂, he, -, hf, rfl⟩ := updateFirst_eq_some.mp hl
    obtain ⟨hu, rfl, ⟨hx, rfl⟩ | ⟨sign, f, hx, hne, rfl, rfl⟩⟩ := linear?_eq_some hf
    · exact .alpha (.intro l₁ l₂ he rfl) hu hx
    · exact .spread (.intro l₁ l₂ he rfl) hu hx hne
  next hl =>
    have linear : b.LinearDone := updateFirst_eq_none hl
    split
    next rule premise left right entries ha =>
      obtain ⟨l₁, e, e', l₂, he, -, hf, rfl⟩ := updateFirst_eq_some.mp ha
      obtain ⟨hu, rfl, hx, rfl⟩ := alternatives?_eq_some hf
      exact .split linear (.intro l₁ l₂ he rfl) hu hx
    next ha =>
      have choice : b.ChoiceDone := updateFirst_eq_none ha
      split
      next rule premise sign f entries hd =>
        obtain ⟨l₁, e, e', l₂, he, -, hf, rfl⟩ := updateFirst_eq_some.mp hd
        obtain ⟨hu, rfl, hx, rfl⟩ := demand?_eq_some hf
        exact stepped_grant linear choice (.intro l₁ l₂ he rfl) hu hx
      next hd => exact .saturated linear choice (updateFirst_eq_none hd)

theorem stepped_of {r : Step Branch} (h : b.step blocking = r) : Stepped blocking b r :=
  h ▸ stepped blocking b

-- ---------------------------------------------------------------------------
-- The first rule that waits
-- ---------------------------------------------------------------------------

/-- The rule that comes next is the first that adds to the branch, then the first that splits it; else
nothing more can be said about the worlds that are there. -/
inductive Due (b : Branch) : Prop
  | linear {l₁ e e' l₂ rule premise conclusions} (entries : b.entries = l₁ ++ e :: l₂)
      (first : ∀ x ∈ l₁, b.linear? x = none)
      (due : b.linear? e = some ((rule, premise, conclusions), e'))
  | choice {l₁ e e' l₂ rule premise left right} (linear : b.LinearDone)
      (entries : b.entries = l₁ ++ e :: l₂) (first : ∀ x ∈ l₁, alternatives? x = none)
      (due : alternatives? e = some ((rule, premise, left, right), e'))
  | rest (linear : b.LinearDone) (choice : b.ChoiceDone)

theorem due (b : Branch) : b.Due := by
  cases hl : updateFirst b.linear? b.entries with
  | some found =>
    obtain ⟨⟨rule, premise, conclusions⟩, entries⟩ := found
    obtain ⟨l₁, e, e', l₂, he, first, hf, -⟩ := updateFirst_eq_some.mp hl
    exact .linear he first hf
  | none =>
    have linear : b.LinearDone := updateFirst_eq_none hl
    cases ha : updateFirst alternatives? b.entries with
    | some found =>
      obtain ⟨⟨rule, premise, left, right⟩, entries⟩ := found
      obtain ⟨l₁, e, e', l₂, he, first, hf, -⟩ := updateFirst_eq_some.mp ha
      exact .choice linear he first hf
    | none => exact .rest linear (updateFirst_eq_none ha)

section

variable {l₁ l₂ : List Entry} {rule : Rule} {premise left right : Signed} {conclusions : List Signed}

theorem step_of_linear (entries : b.entries = l₁ ++ e :: l₂) (first : ∀ x ∈ l₁, b.linear? x = none)
    (due : b.linear? e = some ((rule, premise, conclusions), e')) :
    ∃ inferences, b.step blocking =
      .extended inferences (conclusions.foldl add { b with entries := l₁ ++ e' :: l₂ }) := by
  rw [step, entries, updateFirst_append first due, ← addAll_fst]
  exact ⟨_, rfl⟩

theorem step_of_choice (linear : b.LinearDone) (entries : b.entries = l₁ ++ e :: l₂)
    (first : ∀ x ∈ l₁, alternatives? x = none)
    (due : alternatives? e = some ((rule, premise, left, right), e')) :
    b.step blocking = .split rule premise left right { b with entries := l₁ ++ e' :: l₂ } := by
  rw [step, updateFirst_of_none linear, entries, updateFirst_append first due]

theorem step_of_demand (linear : b.LinearDone) (choice : b.ChoiceDone)
    (entries : b.entries = l₁ ++ e :: l₂) (first : ∀ x ∈ l₁, demand? x = none)
    (due : demand? e = some ((rule, premise, sign, f), e')) :
    ∃ inferences, b.step blocking = .extended inferences
      (({ b with entries := l₁ ++ e' :: l₂ } : Branch).grant blocking rule premise sign f).2 := by
  rw [step, updateFirst_of_none linear, updateFirst_of_none choice, entries,
    updateFirst_append first due]
  exact ⟨_, rfl⟩

end

/-- One step, and one of the alternatives if the branch splits. -/
inductive Next (blocking : Bool) (b : Branch) : Branch → Prop
  | extended {inferences after} (step : b.step blocking = .extended inferences after) :
      Next blocking b after
  | choice {rule premise left right after s}
      (step : b.step blocking = .split rule premise left right after)
      (chosen : s = left ∨ s = right) : Next blocking b (after.add s)

theorem Next.eq_of_extended {inferences : List Inference} {after : Branch}
    (h : Next blocking b b') (hs : b.step blocking = .extended inferences after) : b' = after := by
  cases h with
  | extended step =>
    rw [hs] at step
    cases step
    rfl
  | choice step => simp [hs] at step

theorem Next.grows (h : Next blocking b b') : b.Grows b' := by
  cases h with
  | extended step =>
    cases stepped_of step with
    | alpha marked => exact addAll_fst _ _ ▸ marked.grows.trans (grows_foldl_add _ _)
    | spread marked => exact addAll_fst _ _ ▸ marked.grows.trans (grows_foldl_add _ _)
    | reuse _ _ marked => exact marked.grows.trans (grows_reuse _ _)
    | fresh _ _ marked => exact marked.grows.trans ((grows_addEdge _ _).trans (grows_add _ _))
  | choice step _ =>
    cases stepped_of step with
    | split _ marked => exact marked.grows.trans (grows_add _ _)

inductive Run (blocking : Bool) : Nat → Branch → Branch → Prop
  | refl (b : Branch) : Run blocking 0 b b
  | head {n b b' b''} (first : Next blocking b b') (rest : Run blocking n b' b'') :
      Run blocking (n + 1) b b''

theorem Run.trans {m n : Nat} {b'' : Branch} (h : Run blocking m b b') (h' : Run blocking n b' b'') :
    Run blocking (m + n) b b'' := by
  induction h with
  | refl => rwa [Nat.zero_add]
  | head first _ ih =>
    rw [Nat.add_right_comm]
    exact .head first (ih h')

theorem Run.concat {n : Nat} {b'' : Branch} (h : Run blocking n b b') (last : Next blocking b' b'') :
    Run blocking (n + 1) b b'' :=
  h.trans (.head last (.refl b''))

theorem Run.grows {n : Nat} (h : Run blocking n b b') : b.Grows b' := by
  induction h with
  | refl b => exact .refl b
  | head first _ ih => exact first.grows.trans ih

end Branch
end ModalTableau
