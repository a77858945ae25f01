import ModalTableau.Proofs.StepLaws
import ModalTableau.Tableau.Growth

/-!
# How a tableau grows

`Grown` follows the growth of a tableau that comes to an end: each branch closes, is saturated,
splits or is extended. Everything about finished tableaux is proved by induction on it. A finished
tableau is closed exactly if it has no open segment, and the branch kept at an open segment has been
run until nothing was left to do.
-/

namespace ModalTableau

-- ---------------------------------------------------------------------------
-- Trees
-- ---------------------------------------------------------------------------

theorem Tree.subtreesAll_eq {α : Type} (ts : List (Tree α)) :
    subtreesAll ts = ts.flatMap subtrees := by
  induction ts with
  | nil => rfl
  | cons t ts ih => simp [subtreesAll, ih]

namespace Tableau

theorem isClosed_node (s : Segment) (ts : List Tableau) :
    isClosed (.node s ts) = ((!ts.isEmpty || s.status.isClosed) && ts.all isClosed) := by
  simp only [isClosed, Tree.subtrees, Tree.subtreesAll_eq, List.all_cons, List.all_flatMap]
  rfl

theorem openSegments_node (s : Segment) (ts : List Tableau) :
    openSegments (.node s ts) = [s].filter Segment.isOpen ++ ts.flatMap openSegments := by
  simp only [openSegments, Tree.labels, Tree.subtrees, Tree.subtreesAll_eq, List.map_cons, Tree.label,
    List.map_flatMap, List.filter_cons, List.filter_flatMap, List.filter_nil]
  split <;> rfl

theorem isClosed_prepend (t : Tableau) (inferences : List Inference) :
    isClosed (t.mapLabel (·.prepend inferences)) = isClosed t := by
  obtain ⟨s, ts⟩ := t
  rw [Tree.mapLabel, isClosed_node, isClosed_node, Segment.prepend]

theorem mem_openSegments_prepend {t : Tableau} {inferences : List Inference} {s : Segment}
    (h : s ∈ openSegments (t.mapLabel (·.prepend inferences))) :
    ∃ s' ∈ t.openSegments, s'.branch = s.branch := by
  obtain ⟨s₀, ts⟩ := t
  rw [Tree.mapLabel, openSegments_node] at h
  rw [openSegments_node]
  rcases List.mem_append.mp h with h | h
  · obtain ⟨hs, hopen⟩ := List.mem_filter.mp h
    obtain rfl := List.mem_singleton.mp hs
    exact ⟨s₀, List.mem_append_left _ (List.mem_filter.mpr ⟨by simp, hopen⟩), rfl⟩
  · exact ⟨s, List.mem_append_right _ h, rfl⟩

theorem openSegments_prepend_eq_nil {t : Tableau} {inferences : List Inference} :
    openSegments (t.mapLabel (·.prepend inferences)) = [] ↔ t.openSegments = [] := by
  obtain ⟨s, ts⟩ := t
  simp [Tree.mapLabel, openSegments_node, Segment.prepend, Segment.isOpen]

-- ---------------------------------------------------------------------------
-- Growth
-- ---------------------------------------------------------------------------

inductive Grown (limits : Limits) : List Signed → Branch → Nat → Tableau → Prop
  | closed {seed b n clash} (closed : b.clash = some clash) :
      Grown limits seed b n (ending seed (.closed clash) b)
  | saturated {seed b n} (unclosed : b.clash = none) (step : b.step limits.blocking = .saturated) :
      Grown limits seed b (n + 1) (ending seed .saturated b)
  | split {seed b n rule premise left right after leftTree rightTree} (unclosed : b.clash = none)
      (step : b.step limits.blocking = .split rule premise left right after)
      (atLeft : Grown limits [left] (after.add left) n leftTree)
      (atRight : Grown limits [right] (after.add right) n rightTree) :
      Grown limits seed b (n + 1)
        (.node ⟨seed, [], .split rule premise, none⟩ [leftTree, rightTree])
  | extended {seed b n inferences after t} (unclosed : b.clash = none)
      (step : b.step limits.blocking = .extended inferences after)
      (worlds : after.worlds.size ≤ limits.maxWorlds) (rest : Grown limits seed after n t) :
      Grown limits seed b (n + 1) (t.mapLabel (·.prepend inferences))

variable {limits : Limits} {seed : List Signed} {b : Branch} {n : Nat} {t : Tableau}

theorem grown_of_grow (h : grow limits seed b n = .ok t) : Grown limits seed b n t := by
  induction n generalizing seed b t with
  | zero =>
    rw [grow] at h
    split at h
    next clash hc =>
      obtain rfl := Except.ok.inj h
      exact .closed hc
    next => simp at h
  | succ n ih =>
    rw [grow] at h
    split at h
    next clash hc =>
      obtain rfl := Except.ok.inj h
      exact .closed hc
    next hc =>
      split at h
      next hs =>
        obtain rfl := Except.ok.inj h
        exact .saturated hc hs
      next rule premise left right after hs =>
        obtain ⟨leftTree, hl, h⟩ := bind_ok.mp h
        obtain ⟨rightTree, hr, h⟩ := bind_ok.mp h
        obtain rfl := Except.ok.inj h
        exact .split hc hs (ih hl) (ih hr)
      next inferences after hs =>
        split at h
        next => simp at h
        next hw =>
          obtain ⟨t', ht, rfl⟩ := map_ok.mp h
          exact .extended hc hs (Nat.le_of_not_lt hw) (ih ht)

theorem grow_of_grown (h : Grown limits seed b n t) : grow limits seed b n = .ok t := by
  induction h with
  | closed hc =>
    unfold grow
    simp [hc]
  | saturated hc hs => simp [grow, hc, hs]
  | split hc hs _ _ ihl ihr =>
    simp only [grow, Branch.growable_clash?, Branch.growable_step, hc, hs]
    exact bind_ok.mpr ⟨_, ihl, bind_ok.mpr ⟨_, ihr, rfl⟩⟩
  | extended hc hs hw _ ih =>
    simp only [grow, Branch.growable_clash?, Branch.growable_step, Branch.growable_worldCount, hc, hs,
      Nat.not_lt.mpr hw, if_false]
    exact map_ok.mpr ⟨_, ih, rfl⟩

namespace Grown

theorem isClosed_of_openSegments (h : Grown limits seed b n t) (ho : t.openSegments = []) :
    t.isClosed = true := by
  induction h with
  | closed hc => simp [ending, Tree.leaf, isClosed_node, Status.isClosed]
  | saturated => simp [ending, Tree.leaf, openSegments_node, Segment.isOpen] at ho
  | split _ _ _ _ ihl ihr =>
    simp only [openSegments_node, List.append_eq_nil_iff, List.flatMap_cons, List.flatMap_nil] at ho
    obtain ⟨-, hl, hr, -⟩ := ho
    simp [isClosed_node, ihl hl, ihr hr]
  | extended _ _ _ _ ih =>
    rw [isClosed_prepend]
    exact ih (openSegments_prepend_eq_nil.mp ho)

/-- An open segment keeps a branch that the steps along its path lead to. -/
theorem branch_of_mem_openSegments {s : Segment} (h : Grown limits seed b n t)
    (hs : s ∈ t.openSegments) :
    ∃ k b', s.branch = some b' ∧ Branch.Run limits.blocking k b b' ∧ b'.clash = none ∧
      b'.step limits.blocking = .saturated := by
  induction h generalizing s with
  | closed => simp [ending, Tree.leaf, openSegments_node, Segment.isOpen] at hs
  | @saturated seed b n hc hstep =>
    have heq : s = ⟨seed, [], .saturated, some b⟩ := by
      simpa [ending, Tree.leaf, openSegments_node, Segment.isOpen] using hs
    exact ⟨0, b, by rw [heq], .refl b, hc, hstep⟩
  | split _ hstep _ _ ihl ihr =>
    rw [openSegments_node] at hs
    simp only [List.flatMap_cons, List.flatMap_nil, List.append_nil, List.mem_append] at hs
    rcases hs with hs | hs | hs
    · simp [Segment.isOpen] at hs
    · obtain ⟨k, b', hb', hr, hend⟩ := ihl hs
      exact ⟨k + 1, b', hb', .head (.choice hstep (.inl rfl)) hr, hend⟩
    · obtain ⟨k, b', hb', hr, hend⟩ := ihr hs
      exact ⟨k + 1, b', hb', .head (.choice hstep (.inr rfl)) hr, hend⟩
  | extended _ hstep _ _ ih =>
    obtain ⟨s', hs', hbranch⟩ := mem_openSegments_prepend hs
    obtain ⟨k, b', hb', hr, hend⟩ := ih hs'
    exact ⟨k + 1, b', hbranch ▸ hb', .head (.extended hstep) hr, hend⟩

end Grown
end Tableau
end ModalTableau
