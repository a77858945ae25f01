import ModalTableau.Proofs.Trails
import ModalTableau.Proofs.TruthLemma
import ModalTableau.Proofs.Worklist

/-!
# The shape of a finished tableau

In a tableau that has been built, every node either splits its branch between two children or ends
it, and then keeps it. A branch ends at its first contradiction or when no rule applies any more, and
no rule is applied to it after that. Nothing that was put in on the way is left outside the tableau.
-/

namespace ModalTableau

open Branch (Trail Reachable)

-- ---------------------------------------------------------------------------
-- Saturation
-- ---------------------------------------------------------------------------

namespace Branch

theorem isSettled_of_done {p : Pending} {b : Branch} {e : Entry} (hb : b.Backed p)
    (linear : b.LinearDone) (choice : b.ChoiceDone) (demand : b.DemandDone) (he : e ∈ b.entries) :
    b.isSettled e = true := by
  unfold isSettled
  cases hx : e.signed.expansion? with
  | none => rfl
  | some x =>
    cases x with
    | alpha cs => exact linear.alpha he hx
    | beta left right => exact choice.beta he hx
    | someSuccessor sign f => exact demand.some he hx
    | everySuccessor sign f =>
      simp only [List.all_eq_true, decide_eq_true_eq]
      intro v hv
      exact linear.every he ((hb e he).unused sign f hx) hx (mem_successors.mp hv)

theorem isSaturated_of_step {p : Pending} {b : Branch} {blocking : Bool} (hb : b.Backed p)
    (h : b.step blocking = .saturated) : b.isSaturated = true := by
  obtain ⟨linear, choice, demand⟩ := done_of_saturated h
  exact List.all_eq_true.mpr fun e he => isSettled_of_done hb linear choice demand he

end Branch

-- ---------------------------------------------------------------------------
-- Nodes
-- ---------------------------------------------------------------------------

namespace Tableau

def Forks (u : Tableau) : Prop :=
  ∃ rule premise left right, u.label.status = .split rule premise ∧ u.label.branch = none ∧
    premise.expand = some (rule, .beta left right) ∧
    u.children.map (·.label.seed) = [[left], [right]]

/-- A branch is kept here, which is either contradictory or saturated without a contradiction. -/
def Ends (u : Tableau) : Prop :=
  ∃ b, u.label.branch = some b ∧
    ((∃ clash, u.label.status = .closed clash ∧ clash.sign = .T ∧ clash ∈ b ∧
        clash.conjugate ∈ b) ∨
      u.label.status = .saturated ∧ b.clash = none ∧ b.isSaturated = true)

variable {limits : Limits} {seed : List Signed} {root : Signed} {b : Branch} {n : Nat}
  {t u : Tableau} {path : List Segment}

theorem Forks.children_ne_nil (h : u.Forks) : u.children ≠ [] := by
  obtain ⟨rule, premise, left, right, -, -, -, hseeds⟩ := h
  intro hnil
  simp [hnil] at hseeds

theorem Grown.forks_or_terminal (h : Grown limits seed b n t) (hu : u ∈ t.subtrees) :
    u.Forks ∨ u.children = [] ∧ u.label.status.isTerminal = true := by
  induction h generalizing u with
  | closed =>
    obtain rfl := List.mem_singleton.mp hu
    exact .inr ⟨rfl, rfl⟩
  | saturated =>
    obtain rfl := List.mem_singleton.mp hu
    exact .inr ⟨rfl, rfl⟩
  | @split seed b n rule premise left right after leftTree rightTree _ hstep atLeft atRight ihl ihr =>
    rcases Tree.mem_subtrees_node.mp hu with rfl | ⟨t, ht, hut⟩
    · cases Branch.stepped_of hstep with
      | split linear marked unused expand =>
        refine .inl ⟨rule, _, left, right, rfl, rfl, expand, ?_⟩
        simp [Tree.children, atLeft.seed_eq, atRight.seed_eq]
    · simp only [List.mem_cons, List.not_mem_nil, or_false] at ht
      rcases ht with rfl | rfl
      · exact ihl hut
      · exact ihr hut
  | @extended seed b n inferences after t _ _ _ _ ih =>
    obtain ⟨s, ts⟩ := t
    rcases Tree.mem_subtrees_node.mp hu with rfl | hut
    · have hroot : Forks (.node s ts) ∨ ts = [] ∧ s.status.isTerminal = true :=
        ih (Tree.mem_subtrees_node.mpr (.inl rfl))
      exact hroot
    · exact ih (Tree.mem_subtrees_node.mpr (.inr hut))

theorem Kept.ends {blocking : Bool} (h : Kept blocking u.label b) (hr : Reachable [] b) : u.Ends := by
  cases h with
  | closed status branch contradiction =>
    obtain ⟨hmem, hconjugate⟩ := hr.tidy.clashing _ contradiction
    exact ⟨b, branch,
      .inl ⟨_, status, hr.tidy.clash_sign _ contradiction, hmem, hconjugate⟩⟩
  | saturated status branch unclosed step =>
    exact ⟨b, branch, .inr ⟨status, unclosed, Branch.isSaturated_of_step hr.backed step⟩⟩

section Build

variable (hb : build limits root = .ok t)
include hb

theorem forks_or_terminal (hu : u ∈ t.subtrees) :
    u.Forks ∨ u.children = [] ∧ u.label.status.isTerminal = true :=
  (grown_of_grow hb).forks_or_terminal hu

theorem forks_of_children (hu : u ∈ t.subtrees) (hc : u.children ≠ []) : u.Forks :=
  (forks_or_terminal hb hu).resolve_right fun h => hc h.1

theorem isTerminal_of_leaf (hu : u ∈ t.subtrees) (hc : u.children = []) :
    u.label.status.isTerminal = true :=
  ((forks_or_terminal hb hu).resolve_left fun h => h.children_ne_nil hc).2

theorem ends_of_leaf (hu : u ∈ t.subtrees) (hc : u.children = []) : u.Ends := by
  obtain ⟨path, hpath⟩ := t.exists_route u hu
  obtain ⟨lines, b, -, htrail, hkept⟩ := trail_of_build hb hpath (isTerminal_of_leaf hb hu hc)
  obtain ⟨k, hrun⟩ := htrail.run
  exact hkept.ends ((Reachable.ofRoot root).run hrun)

theorem isComplete_of_build : t.isComplete = true := by
  refine List.all_eq_true.mpr fun u hu => ?_
  cases hc : u.children with
  | nil => simp [isTerminal_of_leaf hb hu hc]
  | cons => simp [Tree.isLeaf, hc]

theorem status_ne_building (hu : u ∈ t.subtrees) : u.label.status ≠ .building := by
  intro h
  rcases forks_or_terminal hb hu with ⟨rule, premise, left, right, hstatus, -⟩ | ⟨-, hterminal⟩
  · simp [hstatus] at h
  · simp [h, Status.isTerminal] at hterminal

theorem exists_branch_of_open {s : Segment} (hs : s ∈ t.openSegments) : ∃ b, s.branch = some b := by
  obtain ⟨k, b', hbranch, -⟩ := (grown_of_grow hb).branch_of_mem_openSegments hs
  exact ⟨b', hbranch⟩

theorem openBranches_map : t.openBranches.map some = t.openSegments.map (·.branch) := by
  have hbranch := fun s hs => exists_branch_of_open hb (s := s) hs
  rw [openBranches]
  generalize t.openSegments = l at hbranch
  induction l with
  | nil => rfl
  | cons s l ih =>
    obtain ⟨b, hs⟩ := hbranch s (by simp)
    simp [hs, ih fun s hs => hbranch s (by simp [hs])]

theorem isClosed_iff : t.isClosed = true ↔ t.openSegments = [] := by
  refine ⟨fun h => ?_, (grown_of_grow hb).isClosed_of_openSegments⟩
  simp only [openSegments, List.filter_eq_nil_iff, Tree.labels, List.mem_map]
  rintro s ⟨u, hu, rfl⟩ hopen
  have hstatus : u.label.status = .saturated := of_decide_eq_true hopen
  have hclosed := List.all_eq_true.mp h u hu
  rcases forks_or_terminal hb hu with ⟨rule, premise, left, right, hsplit, -⟩ | ⟨hc, -⟩
  · simp [hsplit] at hstatus
  · simp [Tree.isLeaf, hc, hstatus, Status.isClosed] at hclosed

theorem exists_draft : ∃ d, Draft.build limits root = .ok d ∧ d.tableau? = some t ∧
    d.order.Perm (List.range d.size) ∧ d.order.filterMap d.get? = t.labels := by
  have hmap := Draft.build_map_tableau? limits root
  rw [hb] at hmap
  obtain ⟨d, hd, htableau⟩ := map_ok.mp hmap
  obtain ⟨t', ht', hplanted⟩ := Draft.exists_planted hd
  obtain rfl : t' = t := Except.ok.inj (ht'.symm.trans hb)
  exact ⟨d, hd, htableau, hplanted.order_perm, hplanted.filterMap_order⟩

theorem exists_trail (hr : Tree.Route t path u) (hc : u.children = []) :
    ∃ lines b, u.label.branch = some b ∧ path.flatMap Segment.lines = .seed root :: lines ∧
      Trail limits.blocking (.ofRoot root) lines b := by
  obtain ⟨lines, b, hlines, htrail, hkept⟩ :=
    trail_of_build hb hr (isTerminal_of_leaf hb hr.mem_subtrees hc)
  exact ⟨lines, b, hkept.branch_eq, hlines, htrail⟩

end Build

structure Finished (limits : Limits) (root : Signed) (t : Tableau) : Prop where
  complete : t.isComplete = true
  /-- Grown with a stack, the tableau takes up every segment that was put in. -/
  connected : ∃ d, Draft.build limits root = .ok d ∧ d.tableau? = some t ∧
    d.order.Perm (List.range d.size) ∧ d.order.filterMap d.get? = t.labels
  settled : ∀ u ∈ t.subtrees, u.label.status ≠ .building
  forks : ∀ u ∈ t.subtrees, u.children ≠ [] → Forks u
  ends : ∀ u ∈ t.subtrees, u.children = [] → Ends u
  /-- What is done on the way to a leaf is a trail, so that no step is made on a closed branch. -/
  unclosed : ∀ path u, Tree.Route t path u → u.children = [] → ∃ lines b,
    u.label.branch = some b ∧ path.flatMap Segment.lines = .seed root :: lines ∧
      Trail limits.blocking (.ofRoot root) lines b
  isClosed_iff : t.isClosed = true ↔ t.openSegments = []
  openBranches_map : t.openBranches.map some = t.openSegments.map (·.branch)

theorem finished_of_build (hb : build limits root = .ok t) : Finished limits root t where
  complete := isComplete_of_build hb
  connected := exists_draft hb
  settled := fun _ hu => status_ne_building hb hu
  forks := fun _ hu hc => forks_of_children hb hu hc
  ends := fun _ hu hc => ends_of_leaf hb hu hc
  unclosed := fun _ _ hr hc => exists_trail hb hr hc
  isClosed_iff := isClosed_iff hb
  openBranches_map := openBranches_map hb

def twoSplits : Signed :=
  ⟨4, .T, .and (.or (.atom "p") (.atom "q")) (.or (.not (.atom "p")) (.atom "r"))⟩

theorem finished_of_build_twoSplits :
    ∃ t d, build ⟨20, 3, true⟩ twoSplits = .ok t ∧ t.isClosed = false ∧ t.openBranches.length = 3 ∧
      Draft.build ⟨20, 3, true⟩ twoSplits = .ok d ∧ d.order = [0, 1, 3, 4, 2, 5, 6] ∧
      Finished ⟨20, 3, true⟩ twoSplits t := by
  obtain ⟨t, hb, ht⟩ := ok_of_toOption (show
    (build ⟨20, 3, true⟩ twoSplits).toOption.map (fun t => (t.isClosed, t.openBranches.length)) =
      some (false, 3) by decide +kernel)
  obtain ⟨d, hd, horder⟩ := ok_of_toOption (show
    (Draft.build ⟨20, 3, true⟩ twoSplits).toOption.map Draft.order =
      some [0, 1, 3, 4, 2, 5, 6] by decide +kernel)
  obtain ⟨hclosed, hopen⟩ := Prod.mk.inj ht
  exact ⟨t, d, hb, hclosed, hopen, hd, horder, finished_of_build hb⟩

end Tableau
end ModalTableau
