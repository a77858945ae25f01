import ModalTableau.Proofs.Quiet

/-!
# Interpretations of branches

An interpretation gives every world of a branch a point of some structure (`Target`) such that what
the branch says of the world holds at the point. Only edges to new worlds have to be steps of the
structure; nothing is asked of reused edges. If the structure is closed under the rules, every step
that does not split carries an interpretation on (`Interprets.extended`), and one that splits carries
it to the alternatives that hold.
-/

namespace ModalTableau

universe u

/-- Points, steps between them and the signed formulas that hold at them, closed under all rules
but those that split. -/
structure Target (X : Type u) where
  access : X → X → Prop
  holds : X → Sign → Formula → Prop
  alpha : ∀ {x : X} {s : Signed} {cs}, s.expansion? = some (.alpha cs) → holds x s.sign s.formula →
    ∀ c ∈ cs, holds x c.sign c.formula
  demand : ∀ {x : X} {s : Signed} {sign f}, s.expansion? = some (.someSuccessor sign f) →
    holds x s.sign s.formula → ∃ y, access x y ∧ holds y sign f
  spread : ∀ {x y : X} {s : Signed} {sign f}, s.expansion? = some (.everySuccessor sign f) →
    holds x s.sign s.formula → access x y → holds y sign f

namespace Branch

variable {X : Type u} {T : Target X} {place : World → X} {b b' after : Branch} {e e' : Entry}
  {s premise left right : Signed} {active : World → Prop} {blocking : Bool} {rule : Rule}
  {inferences : List Inference}

structure Interprets (T : Target X) (place : World → X) (b : Branch) : Prop where
  formulas : ∀ s ∈ b, T.holds (place s.world) s.sign s.formula
  edges : ∀ d ∈ b.edges, d ∉ b.reused → T.access (place d.source) (place d.target)

theorem interprets_ofRoot {root : Signed} (h : T.holds (place root.world) root.sign root.formula) :
    Interprets T place (ofRoot root) := by
  constructor
  · intro s hs
    obtain rfl : s = root :=
      (mem_add.mp hs).resolve_right (by simp [mem_iff_formulas, formulas, empty])
    exact h
  · intro d hd
    simp [ofRoot, empty] at hd

namespace Interprets

theorem marked (h : Interprets T place b) (hm : Marked b e e' b') : Interprets T place b' := by
  constructor
  · intro s hs
    exact h.formulas s (hm.mem_iff.mp hs)
  · rw [hm.edges_eq, hm.reused_eq]
    exact h.edges

theorem foldl_add (h : Interprets T place b) {l : List Signed}
    (hl : ∀ s ∈ l, T.holds (place s.world) s.sign s.formula) :
    Interprets T place (l.foldl Branch.add b) := by
  constructor
  · intro s hs
    exact (mem_foldl_add.mp hs).elim (hl s) (h.formulas s)
  · simpa using h.edges

theorem add (h : Interprets T place b) (hs : T.holds (place s.world) s.sign s.formula) :
    Interprets T place (b.add s) :=
  h.foldl_add (l := [s]) (by simpa using hs)

/-- A reused edge needs no step. An edge that was there before is as good as it was. -/
theorem reuse (h : Interprets T place b) (d : Edge) : Interprets T place (b.reuse d) := by
  constructor
  · simpa using h.formulas
  · intro d' hd' hn
    rw [edges_reuse, mem_edges_addEdge] at hd'
    rw [mem_reused_reuse] at hn
    rcases hd' with rfl | hd'
    · by_cases hold : d' ∈ b.edges
      · exact h.edges d' hold fun hr => hn (.inl hr)
      · exact absurd (.inr ⟨rfl, hold⟩) hn
    · exact h.edges d' hd' fun hr => hn (.inl hr)

theorem fresh {w : World} {sign : Sign} {f : Formula} {y : X} (h : Interprets T place b)
    (ht : b.Tidy) (hw : w ∈ b.worlds) (haccess : T.access (place w) y) (hy : T.holds y sign f) :
    Interprets T (fun u => if u = b.nextWorld then y else place u)
      ((b.addEdge ⟨w, b.nextWorld⟩).add ⟨b.nextWorld, sign, f⟩) := by
  have hne : ∀ u ∈ b.worlds, u ≠ b.nextWorld := fun u hu heq => nextWorld_not_mem (heq ▸ hu)
  constructor
  · intro s hs
    rcases mem_add.mp hs with rfl | hs
    · simpa using hy
    · simpa [hne _ (ht.world_mem s hs)] using h.formulas s hs
  · intro d hd hn
    rw [edges_add, mem_edges_addEdge] at hd
    rw [reused_add] at hn
    rcases hd with rfl | hd
    · simpa [hne w hw] using haccess
    · simpa [hne _ (ht.source_mem d hd), hne _ (ht.target_mem d hd)] using h.edges d hd hn

theorem extended (h : Interprets T place b) (ht : b.Tidy) (hq : b.Quiet active)
    (hs : b.step blocking = .extended inferences after) :
    ∃ place', Interprets T place' after ∧ ∀ w ∈ b.worlds, place' w = place w := by
  cases stepped_of hs with
  | alpha marked unused expand =>
    have hx := Signed.expansion?_of_expand expand
    have hp := h.formulas _ (signed_mem marked.mem_entries)
    refine ⟨place, ?_, fun _ _ => rfl⟩
    rw [addAll_fst]
    refine (h.marked marked).foldl_add fun c hc => ?_
    rw [(Signed.alpha_conclusion hx hc).1]
    exact T.alpha hx hp c hc
  | spread marked unused expand waiting =>
    have hx := Signed.expansion?_of_expand expand
    have hmem := signed_mem marked.mem_entries
    refine ⟨place, ?_, fun _ _ => rfl⟩
    rw [addAll_fst]
    refine (h.marked marked).foldl_add fun c hc => ?_
    obtain ⟨v, hv, rfl⟩ := List.mem_map.mp hc
    have hd := (mem_unreached.mp hv).1
    -- Along a reused edge nothing travels that is not there already.
    rcases hq.travels hmem hx hd with hthere | ⟨hn, -⟩
    · exact h.formulas _ hthere
    · exact T.spread hx (h.formulas _ hmem) (h.edges _ hd hn)
  | reuse linear choice marked unused expand block blocker =>
    exact ⟨place, (h.marked marked).reuse _, fun _ _ => rfl⟩
  | fresh linear choice marked unused expand unblocked =>
    have hx := Signed.expansion?_of_expand expand
    have hmem := signed_mem marked.mem_entries
    obtain ⟨y, haccess, hy⟩ := T.demand hx (h.formulas _ hmem)
    have hw := marked.worlds_eq ▸ ht.world_mem _ hmem
    refine ⟨_, (h.marked marked).fresh (marked.tidy ht) hw haccess hy, fun u hu => if_neg ?_⟩
    rintro rfl
    exact nextWorld_not_mem (marked.worlds_eq ▸ hu)

theorem split (h : Interprets T place b)
    (hs : b.step blocking = .split rule premise left right after) :
    Interprets T place after ∧ premise ∈ b ∧ premise.expansion? = some (.beta left right) := by
  cases stepped_of hs with
  | split linear marked unused expand =>
    exact ⟨h.marked marked, signed_mem marked.mem_entries, Signed.expansion?_of_expand expand⟩

end Interprets
end Branch
end ModalTableau
