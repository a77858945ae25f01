import ModalTableau.Proofs.AscendingLaws
import ModalTableau.Proofs.Records

/-!
# One world at a time

Between two requests for a successor all that is said is said at one world, the one that came up last:
`Frontier a b` says that nothing waits elsewhere than at `a` on the branch `b`, and a step that makes
no edge keeps it. Without blocking every branch that grows from a root has a frontier
(`Frontier.run`). So a rule about every successor has one world to go to at a time, and the marks
on a branch count the steps that led to it (`marks_le_of_run`, `le_marks_of_run`).
-/

namespace ModalTableau

namespace Entry

/-- How often a rule has been applied to the formula, each successor counted. -/
def marks (e : Entry) : Nat := (if e.used then 1 else 0) + e.reached.size

def marksIn : List Entry → Nat
  | [] => 0
  | e :: rest => e.marks + marksIn rest

theorem marksIn_append (l₁ l₂ : List Entry) : marksIn (l₁ ++ l₂) = marksIn l₁ + marksIn l₂ := by
  induction l₁ with
  | nil => simp [marksIn]
  | cons e rest ih => simp [marksIn, ih, Nat.add_assoc]

@[simp] theorem marks_ofSigned (s : Signed) : (ofSigned s).marks = 0 := rfl

theorem marks_used {e : Entry} (h : e.used = false) :
    { e with used := true }.marks = e.marks + 1 := by
  simp [marks, h, Nat.add_comm]

end Entry

namespace Branch

def marks (b : Branch) : Nat := Entry.marksIn b.entries

variable {b b' after : Branch} {e e' : Entry} {s : Signed} {a v w : World} {p : Pending}
  {blocking : Bool} {sign : Sign} {f : Formula} {l : List Signed} {n : Nat} {root : Signed}

-- ---------------------------------------------------------------------------
-- The world where something is still to be said
-- ---------------------------------------------------------------------------

structure Frontier (a : World) (b : Branch) : Prop where
  leaf : ∀ d ∈ b.edges, d.source ≠ a
  alpha : ∀ e ∈ b.entries, e.used = false →
    ∀ cs, e.signed.expansion? = some (.alpha cs) → e.signed.world = a
  beta : ∀ e ∈ b.entries, e.used = false →
    ∀ l r, e.signed.expansion? = some (.beta l r) → e.signed.world = a
  spread : ∀ e ∈ b.entries, ∀ sign f, e.signed.expansion? = some (.everySuccessor sign f) →
    ∀ v ∈ b.unreached e, v = a

theorem frontier_ofRoot (root : Signed) : Frontier root.world (ofRoot root) := by
  have hentry : ∀ e ∈ (ofRoot root).entries, e = .ofSigned root := by
    intro e he
    rcases entry_of_mem_add he with he | ⟨-, rfl⟩
    · simp [empty] at he
    · rfl
  have hedges : (ofRoot root).edges = .empty := edges_add
  refine ⟨by simp [hedges], fun e he _ _ _ => ?_, fun e he _ _ _ _ => ?_, fun e he _ _ _ v hv => ?_⟩
  · rw [hentry e he]
    rfl
  · rw [hentry e he]
    rfl
  · simp [mem_unreached, hedges] at hv

namespace Frontier

/-- A rule that says something new only at `a`, and leaves less to be done about its premise. -/
theorem marked (h : Frontier a b) (hm : Marked b e e' b') (hu : e.used = true → e'.used = true)
    (hr : ∀ v ∈ e.reached, v ∈ e'.reached) (hl : ∀ s ∈ l, s.world = a) :
    Frontier a (l.foldl add b') := by
  have hedges : (l.foldl add b').edges = b.edges := by rw [edges_foldl_add, hm.edges_eq]
  -- An entry is new, and then at `a`, or it is an old one with more done about it.
  have hentry : ∀ x ∈ (l.foldl add b').entries, x.signed.world = a ∨
      ∃ y ∈ b.entries, y.signed = x.signed ∧ (y.used = true → x.used = true) ∧
        ∀ v ∈ y.reached, v ∈ x.reached := by
    intro x hx
    rcases entry_of_mem_foldl_add hx with hx | ⟨s, hs, -, rfl⟩
    · rcases hm.entry_of_mem hx with rfl | hx
      · exact .inr ⟨e, hm.mem_entries, hm.signed_eq.symm, hu, hr⟩
      · exact .inr ⟨x, hx, rfl, id, fun _ => id⟩
    · exact .inl (hl s hs)
  refine ⟨hedges ▸ h.leaf, fun x hx hxu cs hxp => ?_, fun x hx hxu l r hxp => ?_,
    fun x hx sign f hxp v hv => ?_⟩
  · rcases hentry x hx with ha | ⟨y, hy, hs, hyx, -⟩
    · exact ha
    · refine hs ▸ h.alpha y hy ?_ cs (hs ▸ hxp)
      cases hyu : y.used <;> simp_all
  · rcases hentry x hx with ha | ⟨y, hy, hs, hyx, -⟩
    · exact ha
    · refine hs ▸ h.beta y hy ?_ l r (hs ▸ hxp)
      cases hyu : y.used <;> simp_all
  · rw [mem_unreached, hedges] at hv
    rcases hentry x hx with ha | ⟨y, hy, hs, -, hyr⟩
    · exact absurd ha (h.leaf _ hv.1)
    · refine h.spread y hy sign f (hs ▸ hxp) v (mem_unreached.mpr ⟨hs ▸ hv.1, ?_⟩)
      exact fun hvy => hv.2 (hyr v hvy)

theorem extended {inferences : List Inference} (h : Frontier a b)
    (hs : b.step blocking = .extended inferences after) :
    Frontier a after ∨ b.LinearDone ∧ b.ChoiceDone := by
  cases stepped_of hs with
  | alpha marked unused expand =>
    have hx := Signed.expansion?_of_expand expand
    rw [addAll_fst]
    refine .inl (h.marked marked (fun _ => rfl) (fun _ => id) fun s hs => ?_)
    rw [(Signed.alpha_conclusion hx hs).1]
    exact h.alpha _ marked.mem_entries unused _ hx
  | spread marked unused expand waiting =>
    have hx := Signed.expansion?_of_expand expand
    rw [addAll_fst]
    refine .inl (h.marked marked id (fun v hv => ?_) fun s hs => ?_)
    · exact Ascending.mem_insertMany.mpr (.inr hv)
    obtain ⟨v, hv, rfl⟩ := List.mem_map.mp hs
    exact h.spread _ marked.mem_entries _ _ hx v hv
  | reuse linear choice => exact .inr ⟨linear, choice⟩
  | fresh linear choice => exact .inr ⟨linear, choice⟩

theorem choice {rule : Rule} {premise left right : Signed} (h : Frontier a b)
    (hs : b.step blocking = .split rule premise left right after) (hc : s = left ∨ s = right) :
    Frontier a (after.add s) := by
  cases stepped_of hs with
  | split linear marked unused expand =>
    have hx := Signed.expansion?_of_expand expand
    refine h.marked marked (fun _ => rfl) (fun _ => id) (l := [s]) fun c hcs => ?_
    obtain rfl := List.mem_singleton.mp hcs
    rw [Signed.world_of_alternative hx hc]
    exact h.beta _ marked.mem_entries unused _ _ hx

end Frontier

/-- A new world is the frontier: it has no successors, and everything else is done. -/
theorem frontier_of_fresh {rule : Rule} (ht : b.Tidy) (hb : b.Backed p) (linear : b.LinearDone)
    (choice : b.ChoiceDone) (hm : Marked b e { e with used := true } b')
    (expand : e.signed.expand = some (rule, .someSuccessor sign f)) :
    Frontier b'.nextWorld
      ((b'.addEdge ⟨e.signed.world, b'.nextWorld⟩).add ⟨b'.nextWorld, sign, f⟩) := by
  have hx := Signed.expansion?_of_expand expand
  have hne : ∀ w ∈ b.worlds, w ≠ b'.nextWorld := fun w hw heq =>
    nextWorld_not_mem (heq ▸ hm.worlds_eq ▸ hw)
  have hleaf : ∀ d ∈ (b'.addEdge ⟨e.signed.world, b'.nextWorld⟩).edges, d.source ≠ b'.nextWorld := by
    intro d hd
    rcases mem_edges_addEdge.mp hd with rfl | hd
    · exact hne _ (ht.world_mem _ (signed_mem hm.mem_entries))
    · exact hne _ (ht.source_mem d (hm.edges_eq ▸ hd))
  have hentry : ∀ x ∈ ((b'.addEdge ⟨e.signed.world, b'.nextWorld⟩).add
      ⟨b'.nextWorld, sign, f⟩).entries, x = .ofSigned ⟨b'.nextWorld, sign, f⟩ ∨
        x = { e with used := true } ∨ x ∈ b.entries := by
    intro x hx
    rcases entry_of_mem_add hx with hx | ⟨-, rfl⟩
    · exact .inr (hm.entry_of_mem hx)
    · exact .inl rfl
  refine ⟨by simpa using hleaf, fun x hxe hxu cs hxp => ?_, fun x hxe hxu l r hxp => ?_,
    fun x hxe sign' g hxp v hv => ?_⟩
  · rcases hentry x hxe with rfl | rfl | hxe
    · rfl
    · simp [hx] at hxp
    · simp [linear.alpha hxe hxp] at hxu
  · rcases hentry x hxe with rfl | rfl | hxe
    · rfl
    · simp [hx] at hxp
    · simp [choice.beta hxe hxp] at hxu
  · rw [mem_unreached, edges_add] at hv
    rcases hentry x hxe with rfl | rfl | hxe
    · exact absurd rfl (hleaf _ hv.1)
    · simp [hx] at hxp
    · rcases mem_edges_addEdge.mp hv.1 with heq | hd
      · exact congrArg Edge.target heq
      · exact absurd (linear.every hxe ((hb x hxe).unused _ _ hxp) hxp (hm.edges_eq ▸ hd)) hv.2

theorem Frontier.next (h : Frontier a b) (hr : Reachable p b) (hn : Next false b b') :
    ∃ a', Frontier a' b' := by
  cases hn with
  | extended step =>
    rcases h.extended step with h' | ⟨linear, choice⟩
    · exact ⟨a, h'⟩
    · cases stepped_of step with
      | alpha marked unused expand =>
        simp [linear.alpha marked.mem_entries (Signed.expansion?_of_expand expand)] at unused
      | spread marked unused expand waiting =>
        obtain ⟨v, hv⟩ := List.exists_mem_of_ne_nil _ waiting
        have hx := Signed.expansion?_of_expand expand
        obtain ⟨hd, hn⟩ := mem_unreached.mp hv
        exact absurd (linear.every marked.mem_entries unused hx hd) hn
      | reuse _ _ _ _ _ block => cases block
      | fresh _ _ marked _ expand =>
        exact ⟨_, frontier_of_fresh hr.tidy hr.backed linear choice marked expand⟩
  | choice step chosen => exact ⟨a, h.choice step chosen⟩

def Confined (b : Branch) : Prop := ∀ e ∈ b.entries, ∀ v ∈ e.reached, v ∈ b.worlds

theorem confined_ofRoot (root : Signed) : Confined (ofRoot root) := by
  intro e he v hv
  rcases entry_of_mem_add he with he | ⟨-, rfl⟩
  · simp [empty] at he
  · simp [Entry.ofSigned] at hv

theorem Confined.marked (h : Confined b) (hm : Marked b e e' b')
    (hr : ∀ v ∈ e'.reached, v ∈ b.worlds) : Confined b' := by
  intro x hx v hv
  rw [hm.worlds_eq]
  rcases hm.entry_of_mem hx with rfl | hx
  · exact hr v hv
  · exact h x hx v hv

theorem Confined.used (h : Confined b) (hm : Marked b e { e with used := true } b') : Confined b' :=
  h.marked hm (h e hm.mem_entries)

theorem Confined.foldl_add (h : Confined b) (l : List Signed) : Confined (l.foldl add b) := by
  intro x hx v hv
  rcases entry_of_mem_foldl_add hx with hx | ⟨s, -, -, rfl⟩
  · exact (grows_foldl_add b l).worlds v (h x hx v hv)
  · simp [Entry.ofSigned] at hv

theorem Confined.next (h : Confined b) (ht : b.Tidy) (hn : Next blocking b b') : Confined b' := by
  cases hn with
  | extended step =>
    cases stepped_of step with
    | alpha marked =>
      rw [addAll_fst]
      exact (h.used marked).foldl_add _
    | spread marked =>
      rw [addAll_fst]
      refine (h.marked marked fun v hv => ?_).foldl_add _
      rcases Ascending.mem_insertMany.mp hv with hv | hv
      · exact ht.target_mem _ (mem_unreached.mp hv).1
      · exact h _ marked.mem_entries v hv
    | reuse _ _ marked =>
      intro x hx v hv
      rw [entries_reuse] at hx
      exact (grows_reuse _ _).worlds v (h.used marked x hx v hv)
    | fresh _ _ marked =>
      refine foldl_add (l := [_]) fun x hx v hv => ?_
      exact mem_worlds_addEdge.mpr (.inr (.inr (h.used marked x hx v hv)))
  | choice step chosen =>
    cases stepped_of step with
    | split _ marked => exact (h.used marked).foldl_add [_]

-- ---------------------------------------------------------------------------
-- Counting steps
-- ---------------------------------------------------------------------------

theorem nodup_successors (b : Branch) (w : World) : (b.successors w).Nodup := by
  refine List.pairwise_map.mpr (List.Pairwise.imp_of_mem ?_ (b.edges.ascending.filter _))
  rintro ⟨w₁, v₁⟩ ⟨w₂, v₂⟩ h₁ h₂ hlt rfl
  obtain rfl : w₁ = w := by simpa using (List.mem_filter.mp h₁).2
  obtain rfl : w₂ = w₁ := by simpa using (List.mem_filter.mp h₂).2
  simp at hlt

/-- A rule about every successor goes to the frontier and to no other world. -/
theorem Frontier.unreached_eq (h : Frontier a b) (he : e ∈ b.entries)
    (hx : e.signed.expansion? = some (.everySuccessor sign f)) :
    b.unreached e = if a ∈ b.unreached e then [a] else [] := by
  have hall := h.spread e he sign f hx
  have hnodup : (b.unreached e).Nodup := (b.nodup_successors _).filter _
  generalize b.unreached e = l at hall hnodup
  cases l with
  | nil => rfl
  | cons v rest =>
    obtain rfl := hall v (by simp)
    cases rest with
    | nil => simp
    | cons u rest =>
      obtain rfl := hall u (by simp)
      simp at hnodup

theorem Marked.marks_eq (h : Marked b e e' b') : b'.marks + e.marks = b.marks + e'.marks := by
  obtain ⟨l₁, l₂, he, -⟩ := h
  simp only [marks, he, Entry.marksIn_append, Entry.marksIn]
  omega

@[simp] theorem marks_add : (b.add s).marks = b.marks := by
  by_cases h : s ∈ b
  · rw [add_of_mem h]
  · simp [marks, add_of_not_mem h, Entry.marksIn_append, Entry.marksIn]

@[simp] theorem marks_foldl_add : (l.foldl add b).marks = b.marks := by
  induction l generalizing b with
  | nil => rfl
  | cons s rest ih => rw [List.foldl_cons, ih, marks_add]

theorem Marked.marks_used (h : Marked b e { e with used := true } b') (hu : e.used = false) :
    b'.marks = b.marks + 1 := by
  have heq := h.marks_eq
  rw [Entry.marks_used hu] at heq
  omega

/-- Every step leaves a mark. -/
theorem Next.marks_lt (hn : Next blocking b b') : b.marks < b'.marks := by
  cases hn with
  | extended step =>
    cases stepped_of step with
    | alpha marked unused => simp [addAll_fst, marked.marks_used unused]
    | spread marked unused expand waiting =>
      rename_i e b' rule sign f
      obtain ⟨v, hv⟩ := List.exists_mem_of_ne_nil _ waiting
      have hlt : e.reached.size < (e.reached.insertMany (b.unreached e)).size :=
        Ascending.size_lt_insertMany hv fun u hu => (mem_unreached.mp hu).2
      have heq := marked.marks_eq
      simp only [Entry.marks] at heq
      rw [addAll_fst, marks_foldl_add]
      omega
    | reuse _ _ marked unused =>
      have heq := marked.marks_used unused
      simp only [marks, entries_reuse] at heq ⊢
      omega
    | fresh _ _ marked unused =>
      have heq := marked.marks_used unused
      rw [marks_add]
      show b.marks < Branch.marks _
      exact Nat.lt_of_lt_of_eq (Nat.lt_succ_self _) heq.symm
  | choice step chosen =>
    cases stepped_of step with
    | split _ marked unused => simp [marked.marks_used unused]

theorem Frontier.marks_le (h : Frontier a b) (hn : Next blocking b b') : b'.marks ≤ b.marks + 1 := by
  cases hn with
  | extended step =>
    cases stepped_of step with
    | alpha marked unused => simp [addAll_fst, marked.marks_used unused]
    | spread marked unused expand waiting =>
      rename_i e b' rule sign f
      have hsize : (e.reached.insertMany (b.unreached e)).size ≤ e.reached.size + 1 := by
        rw [h.unreached_eq marked.mem_entries (Signed.expansion?_of_expand expand)]
        split
        · exact Ascending.size_insert_le _ _
        · exact Nat.le_succ _
      have heq := marked.marks_eq
      simp only [Entry.marks] at heq
      rw [addAll_fst, marks_foldl_add]
      omega
    | reuse _ _ marked unused =>
      have heq := marked.marks_used unused
      simp only [marks, entries_reuse] at heq ⊢
      omega
    | fresh _ _ marked unused =>
      rw [marks_add]
      exact Nat.le_of_eq (marked.marks_used unused)
  | choice step chosen =>
    cases stepped_of step with
    | split _ marked unused => simp [marked.marks_used unused]

theorem le_marks_of_run (hr : Run blocking n b b') : b.marks + n ≤ b'.marks := by
  induction hr with
  | refl => exact Nat.le_refl _
  | head first _ ih =>
    have hlt := first.marks_lt
    omega

theorem Frontier.run (h : Frontier a b) (hb : Reachable p b) (hr : Run false n b b') :
    (∃ a', Frontier a' b') ∧ b'.marks ≤ b.marks + n := by
  induction hr generalizing a with
  | refl => exact ⟨⟨a, h⟩, Nat.le_refl _⟩
  | head first _ ih =>
    obtain ⟨a', h'⟩ := h.next hb first
    obtain ⟨hend, hle⟩ := ih h' (hb.next first)
    have hstep := h.marks_le first
    exact ⟨hend, by omega⟩

theorem marks_le_of_run (hr : Run false n (ofRoot root) b) : b.marks ≤ n := by
  have hzero : (ofRoot root).marks = 0 := marks_add
  have hle := ((frontier_ofRoot root).run (.ofRoot root) hr).2
  omega

end Branch
end ModalTableau
