import ModalTableau.Proofs.StepLaws

/-!
# Records tell the truth

An entry that is marked as used has got what its rule promises, and a rule about every successor has
left its formula at all worlds that it is said to have reached (`Entry.Backed`). This holds of every
branch that can come up when steps are mixed with formulas, edges and worlds from elsewhere
(`Reachable`), as long as it is remembered which splits nobody has answered yet.
-/

namespace ModalTableau

/-- The splits whose answer is still to come, by their alternatives. -/
abbrev Pending := List (Signed × Signed)

structure Entry.Backed (pending : Pending) (b : Branch) (e : Entry) : Prop where
  alpha : ∀ cs, e.signed.expansion? = some (.alpha cs) → e.used = true → ∀ c ∈ cs, c ∈ b
  beta : ∀ l r, e.signed.expansion? = some (.beta l r) → e.used = true →
    (l, r) ∈ pending ∨ l ∈ b ∨ r ∈ b
  demand : ∀ sign f, e.signed.expansion? = some (.someSuccessor sign f) → e.used = true →
    ∃ v, ⟨e.signed.world, v⟩ ∈ b.edges ∧ ⟨v, sign, f⟩ ∈ b
  unused : ∀ sign f, e.signed.expansion? = some (.everySuccessor sign f) → e.used = false
  spread : ∀ sign f, e.signed.expansion? = some (.everySuccessor sign f) →
    ∀ v ∈ e.reached, ⟨v, sign, f⟩ ∈ b

namespace Entry

variable {b b' : Branch} {e : Entry} {p p' : Pending} {cs : List Signed} {l r : Signed}
  {sign : Sign} {f : Formula}

theorem backed_ofSigned (p : Pending) (b : Branch) (s : Signed) : (ofSigned s).Backed p b := by
  constructor <;> simp [ofSigned]

theorem backed_of_alpha (hx : e.signed.expansion? = some (.alpha cs)) (h : ∀ c ∈ cs, c ∈ b) :
    e.Backed p b := by
  constructor <;> simp_all

theorem backed_of_beta (hx : e.signed.expansion? = some (.beta l r))
    (h : (l, r) ∈ p ∨ l ∈ b ∨ r ∈ b) : e.Backed p b := by
  constructor <;> simp_all

theorem backed_of_demand {v : World} (hx : e.signed.expansion? = some (.someSuccessor sign f))
    (hv : ⟨e.signed.world, v⟩ ∈ b.edges) (h : ⟨v, sign, f⟩ ∈ b) : e.Backed p b := by
  refine ⟨by simp [hx], by simp [hx], fun sign' g hx' _ => ?_, by simp [hx], by simp [hx]⟩
  obtain ⟨rfl, rfl⟩ : sign = sign' ∧ f = g := by simpa [hx] using hx'
  exact ⟨v, hv, h⟩

theorem backed_of_spread (hx : e.signed.expansion? = some (.everySuccessor sign f))
    (hu : e.used = false) (h : ∀ v ∈ e.reached, ⟨v, sign, f⟩ ∈ b) : e.Backed p b := by
  constructor <;> simp_all

/-- A record stays true while the branch grows and splits are only forgotten with an answer. -/
theorem Backed.mono (h : e.Backed p b) (hg : b.Grows b')
    (hp : ∀ q ∈ p, q ∈ p' ∨ q.1 ∈ b' ∨ q.2 ∈ b') : e.Backed p' b' := by
  refine ⟨fun cs hx hu c hc => hg.mem (h.alpha cs hx hu c hc), fun l r hx hu => ?_,
    fun sign f hx hu => ?_, h.unused, fun sign f hx v hv => hg.mem (h.spread sign f hx v hv)⟩
  · rcases h.beta l r hx hu with hq | hl | hr
    · exact hp _ hq
    · exact .inr (.inl (hg.mem hl))
    · exact .inr (.inr (hg.mem hr))
  · obtain ⟨v, hd, hv⟩ := h.demand sign f hx hu
    exact ⟨v, hg.edges _ hd, hg.mem hv⟩

end Entry

namespace Branch

variable {b b' after : Branch} {p p' : Pending} {s left right : Signed} {blocking : Bool}

def Backed (p : Pending) (b : Branch) : Prop := ∀ e ∈ b.entries, e.Backed p b

theorem Backed.of_entries (h : b.Backed p) (hg : b.Grows b')
    (hp : ∀ q ∈ p, q ∈ p' ∨ q.1 ∈ b' ∨ q.2 ∈ b')
    (he : ∀ e ∈ b'.entries, e ∈ b.entries ∨ (∃ s, e = .ofSigned s) ∨ e.Backed p' b') :
    b'.Backed p' := by
  intro e hm
  rcases he e hm with hb | ⟨s, rfl⟩ | hb
  · exact (h e hb).mono hg hp
  · exact Entry.backed_ofSigned _ _ s
  · exact hb

theorem Backed.add (h : b.Backed p) (s : Signed) : (b.add s).Backed p := by
  refine h.of_entries (grows_add b s) (fun _ => .inl) fun e he => ?_
  rcases entry_of_mem_add he with he | ⟨-, rfl⟩
  · exact .inl he
  · exact .inr (.inl ⟨s, rfl⟩)

theorem Backed.addEdge (h : b.Backed p) (d : Edge) : (b.addEdge d).Backed p :=
  h.of_entries (grows_addEdge b d) (fun _ => .inl) fun _ => .inl

theorem Backed.addWorld (h : b.Backed p) : b.addWorld.Backed p :=
  h.of_entries (grows_addWorld b) (fun _ => .inl) fun _ => .inl

theorem backed_ofParts (formulas : List Signed) (edges : List Edge) :
    (ofParts formulas edges).Backed [] :=
  ofParts_induction (by simp [Backed, empty]) (fun _ s h => h.add s) (fun _ d h => h.addEdge d)
    formulas edges

-- ---------------------------------------------------------------------------
-- Steps
-- ---------------------------------------------------------------------------

theorem Backed.marked {e e' : Entry} (h : b.Backed p) (hm : Marked b e e' b') (hg : b'.Grows after)
    (hp : ∀ q ∈ p, q ∈ p') (hb : e'.Backed p' after)
    (he : ∀ x ∈ after.entries, x ∈ b'.entries ∨ ∃ s, x = .ofSigned s) : after.Backed p' := by
  refine h.of_entries (hm.grows.trans hg) (fun q hq => .inl (hp q hq)) fun x hx => ?_
  rcases he x hx with hx | hx
  · rcases hm.entry_of_mem hx with rfl | hx
    · exact .inr (.inr hb)
    · exact .inl hx
  · exact .inr (.inl hx)

theorem Backed.marked_add {e e' : Entry} {l : List Signed} (h : b.Backed p) (hm : Marked b e e' b')
    (hb : e'.Backed p (l.foldl Branch.add b')) : (l.foldl Branch.add b').Backed p := by
  refine h.marked hm (grows_foldl_add _ _) (fun _ => id) hb fun x hx => ?_
  rcases entry_of_mem_foldl_add hx with hx | ⟨s, -, -, rfl⟩
  · exact .inl hx
  · exact .inr ⟨s, rfl⟩

theorem Backed.extended {inferences : List Inference} (h : b.Backed p)
    (hs : b.step blocking = .extended inferences after) : after.Backed p := by
  cases stepped_of hs with
  | alpha marked unused expand =>
    rw [addAll_fst]
    refine h.marked_add marked (Entry.backed_of_alpha (Signed.expansion?_of_expand expand) ?_)
    exact fun c hc => mem_foldl_add.mpr (.inl hc)
  | spread marked unused expand waiting =>
    rename_i e b' rule sign f
    have hx := Signed.expansion?_of_expand expand
    have hold := (h e marked.mem_entries).spread sign f hx
    rw [addAll_fst]
    refine h.marked_add marked (Entry.backed_of_spread hx unused fun v hv => ?_)
    rw [mem_foldl_add]
    rcases Ascending.mem_insertMany.mp hv with hv | hv
    · exact .inl (List.mem_map.mpr ⟨v, hv, rfl⟩)
    · exact .inr (marked.mem_iff.mpr (hold v hv))
  | reuse linear choice marked unused expand block blocker =>
    refine h.marked marked (grows_reuse _ _) (fun _ => id) ?_ fun x hx => ?_
    · refine Entry.backed_of_demand (Signed.expansion?_of_expand expand) ?_
        (mem_reuse.mpr (blocker?_eq_some blocker).1)
      rw [edges_reuse]
      exact mem_edges_addEdge.mpr (.inl rfl)
    · rw [entries_reuse] at hx
      exact .inl hx
  | fresh linear choice marked unused expand unblocked =>
    refine h.marked marked ((grows_addEdge _ _).trans (grows_add _ _)) (fun _ => id) ?_ fun x hx => ?_
    · refine Entry.backed_of_demand (Signed.expansion?_of_expand expand) ?_ mem_add_self
      rw [edges_add]
      exact mem_edges_addEdge.mpr (.inl rfl)
    · rcases entry_of_mem_add hx with hx | ⟨-, rfl⟩
      · exact .inl hx
      · exact .inr ⟨_, rfl⟩

theorem Backed.split {rule : Rule} {premise : Signed} (h : b.Backed p)
    (hs : b.step blocking = .split rule premise left right after) :
    after.Backed ((left, right) :: p) := by
  cases stepped_of hs with
  | split linear marked unused expand =>
    exact h.marked marked (.refl _) (fun q hq => by simp [hq])
      (Entry.backed_of_beta (Signed.expansion?_of_expand expand) (by simp)) fun x hx => .inl hx

theorem Backed.answer (h : b.Backed p) (hs : s = left ∨ s = right) :
    (b.add s).Backed (p.erase (left, right)) := by
  refine (h.add s).of_entries (.refl _) (fun q hq => ?_) fun _ => .inl
  by_cases hq' : q = (left, right)
  · subst hq'
    rcases hs with rfl | rfl
    · exact .inr (.inl mem_add_self)
    · exact .inr (.inr mem_add_self)
  · exact .inl ((List.mem_erase_of_ne hq').mpr hq)

theorem Tidy.extended {inferences : List Inference} (h : b.Tidy)
    (hs : b.step blocking = .extended inferences after) : after.Tidy := by
  cases stepped_of hs with
  | alpha marked unused expand =>
    rw [addAll_fst]
    exact (marked.tidy h).foldl_add _
  | spread marked unused expand waiting =>
    rw [addAll_fst]
    exact (marked.tidy h).foldl_add _
  | reuse linear choice marked unused expand block blocker => exact (marked.tidy h).reuse _
  | fresh linear choice marked unused expand unblocked => exact ((marked.tidy h).addEdge _).add _

theorem Tidy.split {rule : Rule} {premise : Signed} (h : b.Tidy)
    (hs : b.step blocking = .split rule premise left right after) : after.Tidy := by
  cases stepped_of hs with
  | split linear marked unused expand => exact marked.tidy h

-- ---------------------------------------------------------------------------
-- Branches that can come up
-- ---------------------------------------------------------------------------

/-- The branches made from any parts by steps, with blocking or without, and additions in any order.
A split is pending until one of its alternatives is added as its answer, at once or later. -/
inductive Reachable : Pending → Branch → Prop
  | ofParts (formulas : List Signed) (edges : List Edge) : Reachable [] (.ofParts formulas edges)
  | add {p : Pending} {b : Branch} (s : Signed) : Reachable p b → Reachable p (b.add s)
  | addEdge {p : Pending} {b : Branch} (d : Edge) : Reachable p b → Reachable p (b.addEdge d)
  | addWorld {p : Pending} {b : Branch} : Reachable p b → Reachable p b.addWorld
  | extended {p : Pending} {b after : Branch} {blocking : Bool} {inferences : List Inference} :
      Reachable p b → b.step blocking = .extended inferences after → Reachable p after
  | split {p : Pending} {b after : Branch} {blocking : Bool} {rule : Rule}
      {premise left right : Signed} :
      Reachable p b → b.step blocking = .split rule premise left right after →
      Reachable ((left, right) :: p) after
  | answer {p : Pending} {b : Branch} {left right s : Signed} :
      Reachable p b → (left, right) ∈ p → s = left ∨ s = right →
      Reachable (p.erase (left, right)) (b.add s)

namespace Reachable

theorem ofRoot (root : Signed) : Reachable [] (.ofRoot root) := .ofParts [root] []

theorem tidy (h : Reachable p b) : b.Tidy := by
  induction h with
  | ofParts formulas edges => exact tidy_ofParts formulas edges
  | add s _ ih => exact ih.add s
  | addEdge d _ ih => exact ih.addEdge d
  | addWorld _ ih => exact ih.addWorld
  | extended _ hs ih => exact ih.extended hs
  | split _ hs ih => exact ih.split hs
  | answer _ _ _ ih => exact ih.add _

theorem backed (h : Reachable p b) : b.Backed p := by
  induction h with
  | ofParts formulas edges => exact backed_ofParts formulas edges
  | add s _ ih => exact ih.add s
  | addEdge d _ ih => exact ih.addEdge d
  | addWorld _ ih => exact ih.addWorld
  | extended _ hs ih => exact ih.extended hs
  | split _ hs ih => exact ih.split hs
  | answer _ _ hs ih => exact ih.answer hs

theorem next (h : Reachable p b) (hn : Next blocking b b') : Reachable p b' := by
  cases hn with
  | extended step => exact .extended h step
  | choice step chosen =>
    have ha := Reachable.answer (.split h step) (by simp) chosen
    rwa [List.erase_cons_head] at ha

theorem run {n : Nat} (h : Reachable p b) (hr : Run blocking n b b') : Reachable p b' := by
  induction hr with
  | refl => exact h
  | head first _ ih => exact ih (h.next first)

end Reachable

end Branch
end ModalTableau
