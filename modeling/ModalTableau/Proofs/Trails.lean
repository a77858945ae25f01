import ModalTableau.Proofs.TableauLaws

/-!
# Paths and the runs behind them

A path from the root of a tableau to one of its nodes (`Tree.Route`) tells, segment by segment, what
was done to a branch: its lines are the seeds, the inferences and the splits. `Trail` is a run of
steps that keeps such an account, and every step of it is made on a branch that is not closed. The
path to the end of a branch is the account of a trail that leads to the branch kept there
(`Grown.trail`).
-/

namespace ModalTableau

-- ---------------------------------------------------------------------------
-- Routes
-- ---------------------------------------------------------------------------

namespace Tree

variable {α : Type}

/-- The labels passed on the way from the root to a subtree, those of both ends included. -/
inductive Route : Tree α → List α → Tree α → Prop
  | here (a : α) (ts : List (Tree α)) : Route (.node a ts) [a] (.node a ts)
  | down {a : α} {ts : List (Tree α)} {t u : Tree α} {path : List α} (child : t ∈ ts)
      (rest : Route t path u) : Route (.node a ts) (a :: path) u

theorem Route.label_eq {t u : Tree α} {a : α} {path : List α} (h : Route t (a :: path) u) :
    t.label = a := by
  cases h <;> rfl

theorem mem_subtrees_node {a : α} {ts : List (Tree α)} {u : Tree α} :
    u ∈ subtrees (.node a ts) ↔ u = .node a ts ∨ ∃ t ∈ ts, u ∈ t.subtrees := by
  simp [subtrees, subtreesAll_eq]

theorem Route.mem_subtrees {t u : Tree α} {path : List α} (h : Route t path u) :
    u ∈ t.subtrees := by
  induction h with
  | here a ts => exact mem_subtrees_node.mpr (.inl rfl)
  | down child _ ih => exact mem_subtrees_node.mpr (.inr ⟨_, child, ih⟩)

theorem exists_route (t u : Tree α) (h : u ∈ t.subtrees) : ∃ path, Route t path u := by
  match t with
  | .node a ts =>
    rcases mem_subtrees_node.mp h with rfl | ⟨t', ht', hu⟩
    · exact ⟨[a], .here a ts⟩
    · obtain ⟨path, hpath⟩ := exists_route t' u hu
      exact ⟨a :: path, .down ht' hpath⟩

end Tree

-- ---------------------------------------------------------------------------
-- Lines
-- ---------------------------------------------------------------------------

inductive Segment.Line where
  | seed (s : Signed)
  | inferred (i : Inference)
  | split (rule : Rule) (premise : Signed)

def Status.lines : Status → List Segment.Line
  | .split rule premise => [.split rule premise]
  | _ => []

namespace Segment

def body (s : Segment) : List Line := s.inferences.map .inferred ++ s.status.lines

def lines (s : Segment) : List Line := s.seed.map .seed ++ s.body

theorem body_prepend (inferences : List Inference) (s : Segment) :
    (s.prepend inferences).body = inferences.map .inferred ++ s.body := by
  simp [body, prepend]

end Segment

-- ---------------------------------------------------------------------------
-- Trails
-- ---------------------------------------------------------------------------

open Segment (Line)

namespace Branch

inductive Trail (blocking : Bool) : Branch → List Line → Branch → Prop
  | refl (b : Branch) : Trail blocking b [] b
  | extended {b b' after lines inferences} (unclosed : b.clash = none)
      (step : b.step blocking = .extended inferences after) (rest : Trail blocking after lines b') :
      Trail blocking b (inferences.map .inferred ++ lines) b'
  | choice {b b' after lines rule premise left right s} (unclosed : b.clash = none)
      (step : b.step blocking = .split rule premise left right after)
      (chosen : s = left ∨ s = right) (rest : Trail blocking (after.add s) lines b') :
      Trail blocking b ([.split rule premise, .seed s] ++ lines) b'

theorem Trail.run {blocking : Bool} {b b' : Branch} {lines : List Line}
    (h : Trail blocking b lines b') : ∃ n, Run blocking n b b' := by
  induction h with
  | refl b => exact ⟨0, .refl b⟩
  | extended _ step _ ih =>
    obtain ⟨n, hrun⟩ := ih
    exact ⟨n + 1, .head (.extended step) hrun⟩
  | choice _ step chosen _ ih =>
    obtain ⟨n, hrun⟩ := ih
    exact ⟨n + 1, .head (.choice step chosen) hrun⟩

end Branch

namespace Tableau

open Branch (Trail)

variable {limits : Limits} {seed : List Signed} {b : Branch} {n : Nat} {t u : Tableau}
  {s : Segment} {path : List Segment}

/-- The branch kept at the end of a path, and why it ends there. -/
inductive Kept (blocking : Bool) (s : Segment) (b : Branch) : Prop
  | closed {clash} (status : s.status = .closed clash) (branch : s.branch = some b)
      (contradiction : b.clash = some clash)
  | saturated (status : s.status = .saturated) (branch : s.branch = some b)
      (unclosed : b.clash = none) (step : b.step blocking = .saturated)

theorem Kept.branch_eq {blocking : Bool} (h : Kept blocking s b) : s.branch = some b := by
  cases h <;> assumption

theorem Kept.clash_eq {blocking : Bool} {clash : Signed} (h : Kept blocking s b)
    (hs : s.status = .closed clash) : b.clash = some clash := by
  cases h with
  | closed status branch contradiction =>
    obtain rfl := Status.closed.inj (status.symm.trans hs)
    exact contradiction
  | saturated status branch unclosed step => simp [status] at hs

theorem Kept.prepend {blocking : Bool} (h : Kept blocking s b) (inferences : List Inference) :
    Kept blocking (s.prepend inferences) b := by
  cases h with
  | closed status branch contradiction => exact .closed status branch contradiction
  | saturated status branch unclosed step => exact .saturated status branch unclosed step

namespace Grown

theorem seed_eq (h : Grown limits seed b n t) : t.label.seed = seed := by
  induction h with
  | closed => rfl
  | saturated => rfl
  | split => rfl
  | @extended _ _ _ _ _ t _ _ _ _ ih =>
    obtain ⟨s, ts⟩ := t
    exact ih

/-- The induction follows the growth: a step puts its inferences in front of the first body, a split
begins a new segment. -/
theorem trail (h : Grown limits seed b n t) (hr : Tree.Route t (s :: path) u)
    (hu : u.label.status.isTerminal = true) :
    ∃ b', Trail limits.blocking b (s.body ++ path.flatMap Segment.lines) b' ∧
      Kept limits.blocking u.label b' := by
  induction h generalizing s path u with
  | @closed seed b n clash hc =>
    cases hr with
    | here => exact ⟨b, .refl b, .closed rfl rfl hc⟩
    | down child => simp at child
  | @saturated seed b n hc hstep =>
    cases hr with
    | here => exact ⟨b, .refl b, .saturated rfl rfl hc hstep⟩
    | down child => simp at child
  | @split seed b n rule premise left right after _ _ hc hstep atLeft atRight ihl ihr =>
    cases hr with
    | here => simp [Tree.label, Status.isTerminal] at hu
    | @down _ _ t _ path child rest =>
      cases path with
      | nil => cases rest
      | cons s' path =>
        obtain ⟨c, hchosen, hseed, b', htrail, hkept⟩ :
            ∃ c, (c = left ∨ c = right) ∧ t.label.seed = [c] ∧ ∃ b',
              Trail limits.blocking (after.add c) (s'.body ++ path.flatMap Segment.lines) b' ∧
                Kept limits.blocking u.label b' := by
          simp only [List.mem_cons, List.not_mem_nil, or_false] at child
          rcases child with rfl | rfl
          · exact ⟨left, .inl rfl, atLeft.seed_eq, ihl rest hu⟩
          · exact ⟨right, .inr rfl, atRight.seed_eq, ihr rest hu⟩
        refine ⟨b', ?_, hkept⟩
        rw [rest.label_eq] at hseed
        simpa [Segment.body, Segment.lines, Status.lines, hseed] using
          Trail.choice hc hstep hchosen htrail
  | @extended seed b n inferences after t hc hstep hw hg ih =>
    obtain ⟨s₀, ts⟩ := t
    cases hr with
    | here =>
      obtain ⟨b', htrail, hkept⟩ := ih (.here s₀ ts) hu
      refine ⟨b', ?_, hkept.prepend inferences⟩
      rw [Segment.body_prepend, List.append_assoc]
      exact .extended hc hstep htrail
    | down child rest =>
      obtain ⟨b', htrail, hkept⟩ := ih (.down child rest) hu
      refine ⟨b', ?_, hkept⟩
      rw [Segment.body_prepend, List.append_assoc]
      exact .extended hc hstep htrail

end Grown

theorem trail_of_build {root : Signed} (hb : build limits root = .ok t) (hr : Tree.Route t path u)
    (hu : u.label.status.isTerminal = true) :
    ∃ lines b, path.flatMap Segment.lines = .seed root :: lines ∧
      Trail limits.blocking (.ofRoot root) lines b ∧ Kept limits.blocking u.label b := by
  have hg := grown_of_grow hb
  cases path with
  | nil => cases hr
  | cons s path =>
    obtain ⟨b, htrail, hkept⟩ := hg.trail hr hu
    refine ⟨_, b, ?_, htrail, hkept⟩
    have hseed := hg.seed_eq
    rw [hr.label_eq] at hseed
    simp [Segment.lines, hseed]

end Tableau
end ModalTableau
