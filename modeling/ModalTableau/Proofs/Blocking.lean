import ModalTableau.Proofs.Ceilings
import ModalTableau.Proofs.Ledgers
import ModalTableau.Proofs.Trails

/-!
# Blocking costs nothing

With the same ceilings a tableau that comes to an end without blocking does so with it
(`build_of_unblocked`). A branch on which worlds are reused lies inside a branch that makes new ones
(`Branch.exists_unblocked_path`), and that branch of the other tableau has kept to the ceilings. Where
the root alone passes the ceiling for worlds no step that adds to a branch is allowed, and blocking
makes no difference. All this carries over to ledgers as long as the numbers of worlds do not start
again (`blocking_never_fails`); where they do, blocking may cost a step too many
(`blocking_fails_atLastWorld`).
-/

namespace ModalTableau

namespace Branch

variable {b b' : Branch} {blocking : Bool} {s : Signed}

/-- Blocking matters only for steps that add to the branch. -/
theorem step_of_not_extended {r : Step Branch} (h : b.step false = r)
    (hr : ∀ inferences after, r ≠ .extended inferences after) : b.step true = r := by
  subst h
  unfold step at hr ⊢
  split at hr
  next => exact absurd rfl (hr _ _)
  next =>
    split at hr
    next => rfl
    next =>
      split at hr
      next => exact absurd rfl (hr _ _)
      next => rfl

theorem Grows.worlds_size_le (h : b.Grows b') : b.worlds.size ≤ b'.worlds.size :=
  Mirrors.size_le_of_over fun w hw => ⟨w, h.worlds w hw, id_eq w⟩

theorem worlds_of_choice {rule : Rule} {premise left right : Signed} {after : Branch} (ht : b.Tidy)
    (hs : b.step blocking = .split rule premise left right after) (hc : s = left ∨ s = right) :
    (after.add s).worlds = b.worlds := by
  cases stepped_of hs with
  | split linear marked unused expand =>
    have hworld : s.world ∈ after.worlds := by
      rw [marked.worlds_eq, Signed.world_of_alternative (Signed.expansion?_of_expand expand) hc]
      exact ht.world_mem _ (signed_mem marked.mem_entries)
    rw [← marked.worlds_eq]
    unfold add
    split
    · rfl
    · exact Ascending.insert_of_mem hworld

end Branch

namespace Tableau

open Branch (Path Next Reachable)

variable {limits : Limits} {seed : List Signed} {b b' : Branch} {n k : Nat} {t : Tableau}
  {root : Signed} {maxIterations maxWorlds : Nat} {p : Pending}

/-- The branch is kept at one of the ends of the tableau. -/
def Keeps (t : Tableau) (b : Branch) : Prop := ∃ s ∈ t.labels, s.branch = some b

theorem keeps_node {s : Segment} {ts : List Tableau} :
    Keeps (.node s ts) b ↔ s.branch = some b ∨ ∃ t ∈ ts, t.Keeps b := by
  simp only [Keeps, Tree.labels, List.mem_map, Tree.mem_subtrees_node]
  constructor
  · rintro ⟨_, ⟨u, rfl | ⟨t, ht, hu⟩, rfl⟩, hb⟩
    · exact .inl hb
    · exact .inr ⟨t, ht, _, ⟨u, hu, rfl⟩, hb⟩
  · rintro (hb | ⟨t, ht, _, ⟨u, hu, rfl⟩, hb⟩)
    · exact ⟨s, ⟨_, .inl rfl, rfl⟩, hb⟩
    · exact ⟨_, ⟨u, .inr ⟨t, ht, hu⟩, rfl⟩, hb⟩

theorem keeps_ending {status : Status} : Keeps (ending seed status b) b' ↔ b' = b := by
  simp [ending, Tree.leaf, keeps_node, eq_comm]

theorem keeps_prepend {inferences : List Inference} :
    Keeps (t.mapLabel (·.prepend inferences)) b ↔ t.Keeps b := by
  obtain ⟨s, ts⟩ := t
  rw [Tree.mapLabel, keeps_node, keeps_node, Segment.prepend]

namespace Grown

theorem exists_kept (h : Grown limits seed b n t) :
    ∃ k c, Path limits.blocking k b c ∧ t.Keeps c := by
  induction h with
  | @closed _ b => exact ⟨0, b, .refl b, keeps_ending.mpr rfl⟩
  | @saturated _ b => exact ⟨0, b, .refl b, keeps_ending.mpr rfl⟩
  | split unclosed step _ _ ihl =>
    obtain ⟨k, c, hp, hc⟩ := ihl
    exact ⟨k + 1, c, .head unclosed (.choice step (.inl rfl)) hp,
      keeps_node.mpr (.inr ⟨_, by simp, hc⟩)⟩
  | extended unclosed step _ _ ih =>
    obtain ⟨k, c, hp, hc⟩ := ih
    exact ⟨k + 1, c, .head unclosed (.extended step) hp, keeps_prepend.mpr hc⟩

/-- A branch that is kept has been come to without a step behind a contradiction. -/
theorem path_of_kept {c : Branch} (h : Grown limits seed b n t) (hc : t.Keeps c) :
    ∃ k, Path limits.blocking k b c := by
  induction h with
  | closed =>
    obtain rfl := keeps_ending.mp hc
    exact ⟨0, .refl c⟩
  | saturated =>
    obtain rfl := keeps_ending.mp hc
    exact ⟨0, .refl c⟩
  | split unclosed step _ _ ihl ihr =>
    obtain heq | ⟨t, ht, hkept⟩ := keeps_node.mp hc
    · simp at heq
    · simp only [List.mem_cons, List.not_mem_nil, or_false] at ht
      rcases ht with rfl | rfl
      · obtain ⟨k, hp⟩ := ihl hkept
        exact ⟨k + 1, .head unclosed (.choice step (.inl rfl)) hp⟩
      · obtain ⟨k, hp⟩ := ihr hkept
        exact ⟨k + 1, .head unclosed (.choice step (.inr rfl)) hp⟩
  | extended unclosed step _ _ ih =>
    obtain ⟨k, hp⟩ := ih (keeps_prepend.mp hc)
    exact ⟨k + 1, .head unclosed (.extended step) hp⟩

/-- What has grown from an outcome of a step belongs to what has grown from the branch. -/
theorem next (h : Grown limits seed b n t) (ht : b.Tidy) (unclosed : b.clash = none)
    (hn : Next limits.blocking b b') : ∃ m seed' t', n = m + 1 ∧ Grown limits seed' b' m t' ∧
      (∀ c, t'.Keeps c → t.Keeps c) ∧
      (b.worlds.size ≤ limits.maxWorlds → b'.worlds.size ≤ limits.maxWorlds) := by
  cases h with
  | closed hc => simp [hc] at unclosed
  | saturated _ step => cases hn <;> simp_all
  | @split _ _ m rule premise left right after leftTree rightTree _ step atLeft atRight =>
    cases hn with
    | extended step' => simp [step] at step'
    | choice step' chosen =>
      rw [step] at step'
      cases step'
      rw [Branch.worlds_of_choice ht step chosen]
      rcases chosen with rfl | rfl
      · exact ⟨m, _, leftTree, rfl, atLeft, fun c hc => keeps_node.mpr (.inr ⟨_, by simp, hc⟩), id⟩
      · exact ⟨m, _, rightTree, rfl, atRight, fun c hc => keeps_node.mpr (.inr ⟨_, by simp, hc⟩), id⟩
  | @extended _ _ m inferences after t _ step worlds rest =>
    obtain rfl := hn.eq_of_extended step
    exact ⟨m, _, t, rfl, rest, fun c hc => keeps_prepend.mpr hc, fun _ => worlds⟩

/-- Every path belongs to a branch of the tableau. -/
theorem exists_kept_of_path (h : Grown limits seed b n t) (hb : Reachable p b)
    (hp : Path limits.blocking k b b') :
    ∃ m c, Path limits.blocking m b c ∧ t.Keeps c ∧ k ≤ m ∧ b'.Grows c := by
  induction hp generalizing seed n t with
  | refl b =>
    obtain ⟨m, c, hp, hc⟩ := h.exists_kept
    exact ⟨m, c, hp, hc, Nat.zero_le m, hp.run.grows⟩
  | head unclosed first _ ih =>
    obtain ⟨_, _, t', -, h', hkeeps, -⟩ := h.next hb.tidy unclosed first
    obtain ⟨m, c, hp, hc, hle, hg⟩ := ih h' (hb.next first)
    exact ⟨m + 1, c, .head unclosed first hp, hkeeps c hc, Nat.succ_le_succ hle, hg⟩

theorem path_le (h : Grown limits seed b n t) (hb : Reachable p b)
    (hw : b.worlds.size ≤ limits.maxWorlds) (hp : Path limits.blocking k b b') :
    b'.worlds.size ≤ limits.maxWorlds ∧ (b'.clash = none → k < n) := by
  induction hp generalizing seed n t with
  | refl b =>
    refine ⟨hw, fun hu => ?_⟩
    cases h with
    | closed hc => simp [hc] at hu
    | _ => exact Nat.succ_pos _
  | head unclosed first _ ih =>
    obtain ⟨m, _, t', rfl, h', -, hworlds⟩ := h.next hb.tidy unclosed first
    obtain ⟨hsize, hlt⟩ := ih h' (hb.next first) (hworlds hw)
    exact ⟨hsize, fun hu => Nat.succ_lt_succ (hlt hu)⟩

/-- With too many worlds already, a tableau has come to an end by splits alone. -/
theorem of_crowded (h : Grown ⟨maxIterations, maxWorlds, false⟩ seed b n t)
    (hw : maxWorlds < b.worlds.size) : Grown ⟨maxIterations, maxWorlds, true⟩ seed b n t := by
  induction h with
  | closed hc => exact .closed hc
  | saturated unclosed step => exact .saturated unclosed (Branch.step_of_not_extended step (by simp))
  | @split _ b n rule premise left right after _ _ unclosed step _ _ ihl ihr =>
    have hstep := Branch.step_of_not_extended step (by simp)
    have hsize : ∀ s, s = left ∨ s = right → maxWorlds < (after.add s).worlds.size := fun s hs =>
      Nat.lt_of_lt_of_le hw (Next.choice step hs).grows.worlds_size_le
    exact .split unclosed hstep (ihl (hsize left (.inl rfl))) (ihr (hsize right (.inr rfl)))
  | extended unclosed step worlds =>
    have hsize := Nat.lt_of_lt_of_le hw (Next.extended step).grows.worlds_size_le
    exact absurd worlds (Nat.not_le.mpr hsize)

end Grown

/-- A fault with blocking would be one without: the path that passes a ceiling lies inside a path that
does. -/
theorem not_overruns {fault : Fault} (h : build ⟨maxIterations, maxWorlds, false⟩ root = .ok t)
    (hw : (Branch.ofRoot root).worlds.size ≤ maxWorlds) :
    ¬ Overruns ⟨maxIterations, maxWorlds, true⟩ (.ofRoot root) maxIterations fault := by
  have hkept := fun {k b} (hp : Path false k (.ofRoot root) b) =>
    (grown_of_grow h).path_le (.ofRoot root) hw hp
  intro ho
  cases ho with
  | iterations run unclosed =>
    obtain ⟨n, c, hp, hle, -, hclash⟩ :=
      Branch.exists_unblocked_path (run.path (.ofRoot root) unclosed)
    exact absurd hle (Nat.not_le.mpr ((hkept hp).2 (hclash unclosed)))
  | worlds run room unclosed step past =>
    have hp := (run.path (.ofRoot root) unclosed).trans (.head unclosed (.extended step) (.refl _))
    obtain ⟨n, c, hp', -, hle, -⟩ := Branch.exists_unblocked_path hp
    exact absurd (hkept hp').1 (Nat.not_le.mpr (Nat.lt_of_lt_of_le past hle))

theorem build_of_unblocked (h : build ⟨maxIterations, maxWorlds, false⟩ root = .ok t) :
    ∃ t', build ⟨maxIterations, maxWorlds, true⟩ root = .ok t' := by
  rcases Nat.lt_or_ge maxWorlds (Branch.ofRoot root).worlds.size with hw | hw
  · exact ⟨t, grow_of_grown ((grown_of_grow h).of_crowded hw)⟩
  · cases hb : build ⟨maxIterations, maxWorlds, true⟩ root with
    | ok t' => exact ⟨t', rfl⟩
    | error fault => exact absurd (overruns_of_grow hb) (not_overruns h hw)

/-- A path with blocking has no more steps and no more worlds than some branch of the tableau
without. -/
theorem exists_kept_of_blocked (h : build ⟨maxIterations, maxWorlds, false⟩ root = .ok t)
    (hp : Path true k (.ofRoot root) b) : ∃ n c, t.Keeps c ∧ Path false n (.ofRoot root) c ∧
      k ≤ n ∧ b.worlds.size ≤ c.worlds.size := by
  obtain ⟨n, c, hp', hsteps, hworlds, -⟩ := Branch.exists_unblocked_path hp
  obtain ⟨m, c', hpath, hkept, hle, hgrows⟩ :=
    (grown_of_grow h).exists_kept_of_path (.ofRoot root) hp'
  exact ⟨m, c', hkept, hpath, Nat.le_trans hsteps hle, Nat.le_trans hworlds hgrows.worlds_size_le⟩

end Tableau

-- ---------------------------------------------------------------------------
-- Ledgers
-- ---------------------------------------------------------------------------

namespace Ledger

open Branch (Path)
open Tableau (keeps_node keeps_ending keeps_prepend)

variable {l : Ledger} {limits : Limits} {seed : List Signed} {n k : Nat} {t : Tableau} {root : Signed}
  {b : Branch} {maxIterations maxWorlds : Nat}

/-- A tableau in which the last number is not in use has grown as if there were no last number. -/
theorem grown_of_inRange (h : l.Sound) (hg : Tableau.grow limits seed l n = .ok t)
    (hr : ∀ b, t.Keeps b → b.InRange) :
    l.branch.InRange ∧ Tableau.Grown limits seed l.branch n t := by
  induction n generalizing l seed t with
  | zero =>
    rw [Tableau.grow] at hg
    split at hg
    next clash hc =>
      obtain rfl := Except.ok.inj hg
      exact ⟨hr _ (keeps_ending.mpr rfl), .closed hc⟩
    next => simp at hg
  | succ n ih =>
    rw [Tableau.grow] at hg
    split at hg
    next clash hc =>
      obtain rfl := Except.ok.inj hg
      exact ⟨hr _ (keeps_ending.mpr rfl), .closed hc⟩
    next hc =>
      split at hg
      next hs =>
        obtain rfl := Except.ok.inj hg
        have hrange : l.branch.InRange := hr _ (keeps_ending.mpr rfl)
        exact ⟨hrange, .saturated hc (step_saturated h hrange hs)⟩
      next rule premise left right after hs =>
        obtain ⟨leftTree, hleft, hg⟩ := bind_ok.mp hg
        obtain ⟨rightTree, hright, hg⟩ := bind_ok.mp hg
        obtain rfl := Except.ok.inj hg
        have hkept {tree : Tableau} (ht : tree ∈ [leftTree, rightTree]) :
            ∀ b, tree.Keeps b → b.InRange :=
          fun b hb => hr b (keeps_node.mpr (.inr ⟨tree, ht, hb⟩))
        have hsound := (Later.split hs).sound h
        have hchoice (s : Signed) := (Later.choice hs s).sound h
        obtain ⟨hrangeLeft, hgrownLeft⟩ := ih (hchoice left) hleft (hkept (by simp))
        obtain ⟨-, hgrownRight⟩ := ih (hchoice right) hright (hkept (by simp))
        have hrange := (Later.choice hs left).inRange hrangeLeft
        exact ⟨hrange, .split hc (step_split h hrange hs) (branch_add hsound left ▸ hgrownLeft)
          (branch_add hsound right ▸ hgrownRight)⟩
      next inferences after hs =>
        split at hg
        next => simp at hg
        next hw =>
          obtain ⟨t', ht, rfl⟩ := map_ok.mp hg
          obtain ⟨hrangeAfter, hgrown⟩ := ih ((Later.extended hs).sound h) ht fun b hb =>
            hr b (keeps_prepend.mpr hb)
          have hrange := (Later.extended hs).inRange hrangeAfter
          exact ⟨hrange, .extended hc (step_extended h hrange hs) (Nat.le_of_not_lt hw) hgrown⟩

theorem build_of_inRange (h : build limits root = .ok t) (hr : ∀ b, t.Keeps b → b.InRange) :
    Tableau.build limits root = .ok t := by
  have hgrown := (grown_of_inRange (.ofRoot root) h hr).2
  rw [ofRoot_eq] at hgrown
  exact Tableau.grow_of_grown hgrown

/-- Where the last number is not in use without blocking it is not in use with it: worlds are numbered
without gaps, and blocking makes no more of them. -/
theorem inRange_of_blocked (h : Tableau.build ⟨maxIterations, maxWorlds, false⟩ root = .ok t)
    (hr : ∀ b, t.Keeps b → b.InRange) (hp : Path true k (.ofRoot root) b) : b.InRange := by
  obtain ⟨n, c, hkept, hp', -, hsize⟩ := Tableau.exists_kept_of_blocked h hp
  have hsprouted {blocking n b} (hp : Path blocking n (.ofRoot root) b) :=
    (Branch.sprouted_ofRoot root).run (Branch.rooted_ofRoot root) hp.run
  obtain ⟨_, -, hb⟩ := hsprouted hp
  obtain ⟨_, -, hc⟩ := hsprouted hp'
  exact fun w hw => hr c hkept w (hb.worlds_subset hc hsize w hw)

theorem build_of_unblocked (h : build ⟨maxIterations, maxWorlds, false⟩ root = .ok t)
    (hr : ∀ b, t.Keeps b → b.InRange) :
    ∃ t', build ⟨maxIterations, maxWorlds, true⟩ root = .ok t' ∧
      Tableau.build ⟨maxIterations, maxWorlds, true⟩ root = .ok t' := by
  have hbranch := build_of_inRange h hr
  obtain ⟨t', ht'⟩ := Tableau.build_of_unblocked hbranch
  refine ⟨t', ?_, ht'⟩
  rw [build, grow_eq (.ofRoot root), ofRoot_eq]
  · exact ht'
  · intro k b _ hp
    rw [ofRoot_eq] at hp
    exact inRange_of_blocked hbranch hr hp

theorem build_ok_iff : build limits root = .ok t ↔
    ∃ d, Draft.ofLedger limits root = .ok d ∧ d.tableau? = some t :=
  ok_iff_of_map (Draft.ofLedger_map_tableau? limits root)

/-- A choice is possible, and possible again at every successor. -/
def againChoice : Signed :=
  let choice := .diamond (.or (.atom "p") (.atom "q"))
  ⟨1, .T, .and choice (.box choice)⟩

/-- The root has the last number, so the worlds after it begin again at `0`. -/
def atLastWorld : Signed :=
  let p := .atom "p"
  ⟨World.last, .F, .implies (.and p (.diamond p)) (.box (.box (.diamond p)))⟩

end Ledger
end ModalTableau
