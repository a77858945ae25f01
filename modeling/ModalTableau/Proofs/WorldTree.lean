import Mathlib.Logic.ExistsUnique
import ModalTableau.Proofs.Ranks
import ModalTableau.Proofs.TruthLemma

/-!
# The tree of worlds

Apart from the edges to reused worlds, the worlds of a branch that was grown from a root form a tree
(`WorldTree`). New worlds are numbered one after the other, each has the world that asked for it as its
only parent, and whatever is said at a world nests boxes and diamonds less deep than something said at
its parent. Reused edges may lead anywhere, back to larger modal depths too; but nothing new travels
along them, so a formula that arrives at a world has come from its parent.
-/

namespace ModalTableau.Branch

/-- `v` came up as a new successor of `u`. -/
def Bears (b : Branch) (u v : World) : Prop := ⟨u, v⟩ ∈ b.edges ∧ ⟨u, v⟩ ∉ b.reused

/-- The ancestors of a world, its parent first and `origin` last. -/
inductive Lineage (b : Branch) (origin : World) : World → List World → Prop
  | origin : Lineage b origin origin []
  | child {u v path} (parent : Lineage b origin u path) (bears : b.Bears u v) :
      Lineage b origin v (u :: path)

def depthAt (b : Branch) (w : World) : Nat :=
  ((b.label w).map (·.formula.modalDepth)).foldl max 0

variable {b b' after : Branch} {root s : Signed} {e e' : Entry} {u v w : World} {origin count : Nat}
  {blocking : Bool} {path path' : List World} {sign : Sign} {f : Formula}

theorem le_depthAt (hs : s ∈ b) : s.formula.modalDepth ≤ b.depthAt s.world := by
  refine (le_foldl_max _ 0).2 _ (List.mem_map.mpr ⟨s, ?_, rfl⟩)
  exact List.mem_filter.mpr ⟨hs, by simp⟩

-- ---------------------------------------------------------------------------
-- New worlds
-- ---------------------------------------------------------------------------

/-- A new world becomes a successor of `u` and gets its first formula. -/
def sprout (b : Branch) (u : World) (sign : Sign) (f : Formula) : Branch :=
  (b.addEdge ⟨u, b.nextWorld⟩).add ⟨b.nextWorld, sign, f⟩

theorem mem_sprout : s ∈ b.sprout u sign f ↔ s = ⟨b.nextWorld, sign, f⟩ ∨ s ∈ b := mem_add

theorem mem_edges_sprout {d : Edge} :
    d ∈ (b.sprout u sign f).edges ↔ d = ⟨u, b.nextWorld⟩ ∨ d ∈ b.edges := by
  rw [sprout, edges_add, mem_edges_addEdge]

theorem reused_sprout : (b.sprout u sign f).reused = b.reused := reused_add

theorem mem_worlds_sprout (hu : u ∈ b.worlds) :
    w ∈ (b.sprout u sign f).worlds ↔ w = b.nextWorld ∨ w ∈ b.worlds := by
  constructor
  · intro hw
    rcases mem_worlds_add hw with hw | hw
    · exact .inl hw
    · rcases mem_worlds_addEdge.mp hw with hw | rfl | hw
      · exact .inl hw
      · exact .inr hu
      · exact .inr hw
  · intro hw
    exact (grows_add _ _).worlds w (mem_worlds_addEdge.mpr (hw.imp_right .inr))

theorem clash_sprout_eq_none (ht : b.Tidy) :
    (b.sprout u sign f).clash = none ↔ b.clash = none := by
  have hnew : ∀ s : Signed, s.world = b.nextWorld → s ∉ b.addEdge ⟨u, b.nextWorld⟩ := fun s hw hs =>
    nextWorld_not_mem (hw ▸ ht.world_mem s hs)
  rw [sprout, clash_add_eq_none (hnew _ rfl)]
  exact and_iff_left (hnew _ rfl)

theorem bears_sprout (ht : b.Tidy) :
    (b.sprout u sign f).Bears v w ↔ v = u ∧ w = b.nextWorld ∨ b.Bears v w := by
  have hunused : ⟨u, b.nextWorld⟩ ∉ b.reused := fun hd =>
    nextWorld_not_mem (ht.target_mem _ (ht.reused_mem _ hd))
  rw [Bears, mem_edges_sprout, reused_sprout, Edge.mk.injEq, Bears]
  constructor
  · rintro ⟨hvw | hd, hn⟩
    · exact .inl hvw
    · exact .inr ⟨hd, hn⟩
  · rintro (⟨rfl, rfl⟩ | ⟨hd, hn⟩)
    · exact ⟨.inl ⟨rfl, rfl⟩, hunused⟩
    · exact ⟨.inr hd, hn⟩

-- ---------------------------------------------------------------------------
-- What a step preserves
-- ---------------------------------------------------------------------------

/-- `count` new worlds have come up since the root at `origin`. -/
structure Sprouted (origin count : Nat) (b : Branch) : Prop where
  worlds : ∀ w : Nat, w ∈ b.worlds ↔ w = 0 ∨ w = origin ∨ origin < w ∧ w ≤ origin + count
  formulas : ∀ s ∈ b, origin ≤ s.world
  parent : ∀ v : Nat, origin < v → v ≤ origin + count → ∃ u : Nat, origin ≤ u ∧ b.Bears u v
  bears : ∀ u v : Nat, b.Bears u v → u < v ∧ origin < v
  unique : ∀ u u' v, b.Bears u v → b.Bears u' v → u = u'
  depth : ∀ u v, b.Bears u v → ∀ s ∈ b, s.world = v →
    ∃ p ∈ b, p.world = u ∧ s.formula.modalDepth < p.formula.modalDepth

theorem sprouted_ofRoot (root : Signed) : Sprouted root.world 0 (ofRoot root) := by
  have hroot : root ∉ empty := by simp [mem_iff_formulas, formulas, empty]
  have hbears : ∀ u v, ¬ (ofRoot root).Bears u v := by simp [Bears, ofRoot, empty]
  refine ⟨fun w => ?_, fun s hs => ?_, fun v hlt hle => ?_, fun u v h => absurd h (hbears u v),
    fun u u' v h => absurd h (hbears u v), fun u v h => absurd h (hbears u v)⟩
  · have hworlds : w ∈ (ofRoot root).worlds ↔ w = root.world ∨ w = 0 := by
      rw [ofRoot, add_of_not_mem hroot]
      simp [empty]
    grind
  · rcases mem_add.mp hs with rfl | hs
    · exact Nat.le_refl _
    · simp [mem_iff_formulas, formulas, empty] at hs
  · exact absurd hle (Nat.not_le.mpr hlt)

namespace Sprouted

theorem foldl_add {l : List Signed} (h : Sprouted origin count b) (hm : Marked b e e' b')
    (hl : ∀ s ∈ l, s.world ∈ b.worlds ∧ origin ≤ s.world ∧ ∀ u, b.Bears u s.world →
      ∃ p ∈ b, p.world = u ∧ s.formula.modalDepth < p.formula.modalDepth) :
    Sprouted origin count (l.foldl Branch.add b') := by
  have hworlds : ∀ w, w ∈ (l.foldl Branch.add b').worlds ↔ w ∈ b.worlds := by
    intro w
    rw [← hm.worlds_eq]
    refine ⟨fun hw => ?_, (grows_foldl_add b' l).worlds w⟩
    rcases mem_worlds_foldl_add hw with hw | ⟨s, hs, rfl⟩
    · exact hw
    · exact hm.worlds_eq ▸ (hl s hs).1
  have hmem : ∀ s, s ∈ l.foldl Branch.add b' ↔ s ∈ l ∨ s ∈ b := fun s => by
    rw [mem_foldl_add, hm.mem_iff]
  have hbears : ∀ u v, (l.foldl Branch.add b').Bears u v ↔ b.Bears u v := fun u v => by
    rw [Bears, edges_foldl_add, reused_foldl_add, hm.edges_eq, hm.reused_eq, Bears]
  refine ⟨fun w => (hworlds w).trans (h.worlds w), fun s hs => ?_, ?_, ?_, ?_, ?_⟩
  · exact ((hmem s).mp hs).elim (fun hs => (hl s hs).2.1) (h.formulas s)
  · simpa only [hbears] using h.parent
  · simpa only [hbears] using h.bears
  · simpa only [hbears] using h.unique
  · rintro u v huv s hs rfl
    rw [hbears] at huv
    have hp : ∃ p ∈ b, p.world = u ∧ s.formula.modalDepth < p.formula.modalDepth :=
      ((hmem s).mp hs).elim (fun hs => (hl s hs).2.2 u huv) fun hs => h.depth u _ huv s hs rfl
    obtain ⟨p, hp, hlt⟩ := hp
    exact ⟨p, (hmem p).mpr (.inr hp), hlt⟩

theorem marked (h : Sprouted origin count b) (hm : Marked b e e' b') : Sprouted origin count b' :=
  h.foldl_add hm (l := []) (by simp)

theorem reuse (h : Sprouted origin count b) (hu : u ∈ b.worlds) (hv : v ∈ b.worlds) :
    Sprouted origin count (b.reuse ⟨u, v⟩) := by
  have hworlds : ∀ w, w ∈ (b.reuse ⟨u, v⟩).worlds ↔ w ∈ b.worlds := by
    intro w
    rw [worlds_reuse, mem_worlds_addEdge]
    refine ⟨?_, fun hw => .inr (.inr hw)⟩
    rintro (rfl | rfl | hw)
    · exact hv
    · exact hu
    · exact hw
  have hbears : ∀ x y, (b.reuse ⟨u, v⟩).Bears x y ↔ b.Bears x y := by
    intro x y
    rw [Bears, edges_reuse, mem_edges_addEdge, mem_reused_reuse, Bears]
    grind
  refine ⟨fun w => (hworlds w).trans (h.worlds w), fun s hs => h.formulas s (mem_reuse.mp hs),
    ?_, ?_, ?_, ?_⟩
  · simpa only [hbears] using h.parent
  · simpa only [hbears] using h.bears
  · simpa only [hbears] using h.unique
  · simpa only [hbears, mem_reuse] using h.depth

theorem nextWorld_eq (h : Sprouted origin count b) : b.nextWorld = origin + count + 1 := by
  refine nextWorld_unique (fun w hw => ?_) ⟨origin + count, (h.worlds _).mpr (by grind), rfl⟩
  have hw := (h.worlds w).mp hw
  grind

/-- The new world is a child of the world that asked for it. -/
theorem sprout {p : Signed} (h : Sprouted origin count b) (ht : b.Tidy) (hp : p ∈ b)
    (hf : f.modalDepth < p.formula.modalDepth) :
    Sprouted origin (count + 1) (b.sprout p.world sign f) := by
  have hnew : b.nextWorld ∉ b.worlds := nextWorld_not_mem
  have hnext := h.nextWorld_eq
  have hworld := ht.world_mem p hp
  have hold : ∀ u v, b.Bears u v → v ≠ b.nextWorld := fun u v huv heq =>
    hnew (heq ▸ ht.target_mem _ huv.1)
  constructor
  case worlds =>
    intro w
    rw [mem_worlds_sprout hworld, h.worlds, hnext]
    grind
  case formulas =>
    intro s hs
    rcases mem_sprout.mp hs with rfl | hs
    · grind
    · exact h.formulas s hs
  case parent =>
    intro v hlt hle
    by_cases hv : v ≤ origin + count
    · obtain ⟨u, hu, huv⟩ := h.parent v hlt hv
      exact ⟨u, hu, (bears_sprout ht).mpr (.inr huv)⟩
    · exact ⟨p.world, h.formulas p hp, (bears_sprout ht).mpr (.inl ⟨rfl, by grind⟩)⟩
  case bears =>
    intro u v huv
    rcases (bears_sprout ht).mp huv with ⟨rfl, rfl⟩ | huv
    · exact ⟨lt_nextWorld hworld, by grind⟩
    · exact h.bears u v huv
  case unique =>
    intro u u' v huv huv'
    rcases (bears_sprout ht).mp huv with ⟨rfl, rfl⟩ | huv <;>
      rcases (bears_sprout ht).mp huv' with ⟨rfl, hv⟩ | huv'
    · rfl
    · exact absurd rfl (hold _ _ huv')
    · exact absurd hv (hold _ _ huv)
    · exact h.unique u u' v huv huv'
  case depth =>
    rintro u v huv s hs rfl
    rcases mem_sprout.mp hs with rfl | hs
    · rcases (bears_sprout ht).mp huv with ⟨rfl, -⟩ | huv
      · exact ⟨p, mem_sprout.mpr (.inr hp), rfl, hf⟩
      · exact absurd rfl (hold _ _ huv)
    · rcases (bears_sprout ht).mp huv with ⟨rfl, hv⟩ | huv
      · exact absurd (hv ▸ ht.world_mem s hs) hnew
      · obtain ⟨q, hq, hlt⟩ := h.depth u _ huv s hs rfl
        exact ⟨q, mem_sprout.mpr (.inr hq), hlt⟩

/-- A conclusion at the world of its premise is no deeper than that, which is less deep than something
at the parent. -/
theorem local_add {l : List Signed} (h : Sprouted origin count b) (ht : b.Tidy)
    (hm : Marked b e e' b')
    (hl : ∀ s ∈ l, s.world = e.signed.world ∧ s.formula ∈ e.signed.formula.children) :
    Sprouted origin count (l.foldl Branch.add b') := by
  have hmem := signed_mem hm.mem_entries
  refine h.foldl_add hm fun s hs => ?_
  obtain ⟨hw, hchild⟩ := hl s hs
  rw [hw]
  refine ⟨ht.world_mem _ hmem, h.formulas _ hmem, fun u hu => ?_⟩
  obtain ⟨p, hp, hpu, hlt⟩ := h.depth u _ hu _ hmem rfl
  exact ⟨p, hp, hpu, Nat.lt_of_le_of_lt (Formula.modalDepth_le_of_mem_children hchild) hlt⟩

/-- What arrives at a world and was not there before has come from its only parent. -/
theorem spread_add {active : World → Prop} (h : Sprouted origin count b) (ht : b.Tidy)
    (hq : b.Quiet active) (hm : Marked b e e' b')
    (hx : e.signed.expansion? = some (.everySuccessor sign f)) :
    Sprouted origin count (((b.unreached e).map (⟨·, sign, f⟩)).foldl Branch.add b') := by
  have hmem := signed_mem hm.mem_entries
  refine h.foldl_add hm fun s hs => ?_
  obtain ⟨v, hv, rfl⟩ := List.mem_map.mp hs
  have hd := (mem_unreached.mp hv).1
  refine ⟨ht.target_mem _ hd, ?_⟩
  rcases hq.travels hmem hx hd with hold | ⟨hn, -⟩
  · exact ⟨h.formulas _ hold, fun u hu => h.depth u v hu _ hold rfl⟩
  · have hparent : b.Bears e.signed.world v := ⟨hd, hn⟩
    refine ⟨Nat.le_of_lt (h.bears _ _ hparent).2, fun u hu => ?_⟩
    obtain rfl := h.unique _ _ _ hu hparent
    exact ⟨e.signed, hmem, rfl, (Signed.everySuccessor_payload hx).2⟩

theorem next (h : Sprouted origin count b) (ht : b.Tidy) (hq : ∃ active, b.Quiet active)
    (hn : Next blocking b b') : ∃ count' ≤ count + 1, Sprouted origin count' b' := by
  cases hn with
  | extended step =>
    cases stepped_of step with
    | alpha marked unused expand =>
      refine ⟨count, Nat.le_succ count, ?_⟩
      rw [addAll_fst]
      exact h.local_add ht marked fun s hs =>
        Signed.alpha_conclusion (Signed.expansion?_of_expand expand) hs
    | spread marked unused expand waiting =>
      obtain ⟨active, hq⟩ := hq
      refine ⟨count, Nat.le_succ count, ?_⟩
      rw [addAll_fst]
      exact h.spread_add ht hq marked (Signed.expansion?_of_expand expand)
    | reuse linear choice marked unused expand block blocker =>
      have ht' := marked.tidy ht
      exact ⟨count, Nat.le_succ count, (h.marked marked).reuse
        (ht'.world_mem _ marked.premise_mem) (ht'.world_mem _ (blocker?_eq_some blocker).1)⟩
    | fresh linear choice marked unused expand unblocked =>
      exact ⟨count + 1, Nat.le_refl _, (h.marked marked).sprout (marked.tidy ht) marked.premise_mem
        (Signed.someSuccessor_payload (Signed.expansion?_of_expand expand)).2⟩
  | choice step chosen =>
    cases stepped_of step with
    | split linear marked unused expand =>
      obtain ⟨hleft, hright⟩ := Signed.beta_alternatives (Signed.expansion?_of_expand expand)
      refine ⟨count, Nat.le_succ count, h.local_add (l := [_]) ht marked fun s hs => ?_⟩
      obtain rfl := List.mem_singleton.mp hs
      rcases chosen with rfl | rfl
      · exact hleft
      · exact hright

end Sprouted

def Rooted (root : Signed) (b : Branch) : Prop :=
  ∃ rank count, Ranked root.formula rank b ∧ rank root.world = root.formula.modalDepth ∧
    Sprouted root.world count b

theorem rooted_ofRoot (root : Signed) : Rooted root (ofRoot root) :=
  ⟨_, 0, ranked_ofRoot root, rfl, sprouted_ofRoot root⟩

theorem Rooted.reachable (h : Rooted root b) : Reachable [] b := by
  obtain ⟨_, _, hr, -⟩ := h
  exact hr.reachable

theorem Rooted.next (h : Rooted root b) (hn : Next blocking b b') : Rooted root b' := by
  obtain ⟨rank, count, hr, hrank, hs⟩ := h
  obtain ⟨rank', hr', hold⟩ := hr.next hn
  obtain ⟨count', -, hs'⟩ := hs.next hr.reachable.tidy hr.quiet hn
  have hworld : root.world ∈ b.worlds := (hs.worlds _).mpr (.inr (.inl rfl))
  exact ⟨rank', count', hr', (hold _ hworld).trans hrank, hs'⟩

theorem Rooted.run {n : Nat} (h : Rooted root b) (hr : Run blocking n b b') : Rooted root b' := by
  induction hr with
  | refl => exact h
  | head first _ ih => exact ih (h.next first)

theorem Rooted.quiet (h : Rooted root b) : ∃ active, b.Quiet active := by
  obtain ⟨_, _, hr, -⟩ := h
  exact hr.quiet

theorem Sprouted.run {n : Nat} (h : Sprouted origin count b) (hb : Rooted root b)
    (hr : Run blocking n b b') : ∃ count' ≤ count + n, Sprouted origin count' b' := by
  induction hr generalizing count with
  | refl => exact ⟨count, Nat.le_refl count, h⟩
  | head first _ ih =>
    obtain ⟨count₁, hle₁, h₁⟩ := h.next hb.reachable.tidy hb.quiet first
    obtain ⟨count₂, hle₂, h₂⟩ := ih h₁ (hb.next first)
    exact ⟨count₂, by omega, h₂⟩

-- ---------------------------------------------------------------------------
-- Lineages
-- ---------------------------------------------------------------------------

theorem Sprouted.exists_lineage (h : Sprouted origin count b) (v : Nat) (hv : v ∈ b.worlds)
    (ho : origin ≤ v) : ∃ path, Lineage b origin v path := by
  induction v using Nat.strongRecOn with
  | ind v ih =>
    rcases Nat.eq_or_lt_of_le ho with rfl | hlt
    · exact ⟨[], .origin⟩
    · have hle : v ≤ origin + count := by
        have := (h.worlds v).mp hv
        grind
      obtain ⟨u, hu, huv⟩ := h.parent v hlt hle
      have huv' := h.bears u v huv
      obtain ⟨path, hpath⟩ := ih u huv'.1 ((h.worlds u).mpr (by grind)) hu
      exact ⟨u :: path, .child hpath huv⟩

theorem Sprouted.lineage_unique (h : Sprouted origin count b) (hp : Lineage b origin v path)
    (hp' : Lineage b origin v path') : path = path' := by
  induction hp generalizing path' with
  | origin =>
    cases hp' with
    | origin => rfl
    | child _ bears => exact absurd (h.bears _ _ bears).2 (Nat.lt_irrefl _)
  | child parent bears ih =>
    cases hp' with
    | origin => exact absurd (h.bears _ _ bears).2 (Nat.lt_irrefl _)
    | child parent' bears' =>
      obtain rfl := h.unique _ _ _ bears bears'
      rw [ih parent']

theorem Interprets.rank_lineage {φ : Formula} {rank : World → Nat}
    (h : Interprets (rankTarget φ) rank b) (hp : Lineage b origin v path) :
    rank v + path.length = rank origin := by
  induction hp with
  | origin => rfl
  | @child u v path parent bears ih =>
    have hstep : rank u = rank v + 1 := h.edges _ bears.1 bears.2
    rw [List.length_cons, ← ih, hstep, Nat.add_right_comm, Nat.add_assoc]

-- ---------------------------------------------------------------------------
-- The tree
-- ---------------------------------------------------------------------------

structure WorldTree (root : Signed) (b : Branch) : Prop where
  subformulas : ∀ s ∈ b, s.formula ∈ root.formula.subformulas
  /-- Besides the worlds 0 and that of the root there are the next ones after it. -/
  worlds : ∃ count, ∀ w, w ∈ b.worlds ↔
    w = 0 ∨ w = root.world ∨ root.world < w ∧ w ≤ root.world + count
  parent : ∀ v ∈ b.worlds, root.world < v → ∃! u, b.Bears u v
  bears : ∀ u v, b.Bears u v → u < v ∧ root.world < v ∧ v ∈ b.worlds
  lineage : ∀ v ∈ b.worlds, root.world ≤ v → ∃! path, Lineage b root.world v path
  depth : ∀ u v, b.Bears u v → ∀ s ∈ b, s.world = v → s.formula.modalDepth < b.depthAt u
  height : ∀ v path, Lineage b root.world v path → path.length ≤ root.formula.modalDepth

theorem Sprouted.worldTree {rank : World → Nat} (h : Sprouted root.world count b) (ht : b.Tidy)
    (hi : Interprets (rankTarget root.formula) rank b)
    (hrank : rank root.world = root.formula.modalDepth) : WorldTree root b where
  subformulas := fun s hs => (hi.formulas s hs).1
  worlds := ⟨count, h.worlds⟩
  parent := by
    intro v hv hlt
    have hle : v ≤ root.world + count := by
      have := (h.worlds v).mp hv
      grind
    obtain ⟨u, -, huv⟩ := h.parent v hlt hle
    exact ⟨u, huv, fun u' huv' => h.unique _ _ _ huv' huv⟩
  bears := fun u v huv =>
    ⟨(h.bears u v huv).1, (h.bears u v huv).2, ht.target_mem _ huv.1⟩
  lineage := by
    intro v hv hle
    obtain ⟨path, hpath⟩ := h.exists_lineage v hv hle
    exact ⟨path, hpath, fun path' hpath' => h.lineage_unique hpath' hpath⟩
  depth := by
    intro u v huv s hs hv
    obtain ⟨p, hp, rfl, hlt⟩ := h.depth u v huv s hs hv
    exact Nat.lt_of_lt_of_le hlt (le_depthAt hp)
  height := by
    intro v path hpath
    have hsum := hi.rank_lineage hpath
    exact Nat.le_trans (Nat.le_add_left _ _) (Nat.le_of_eq (hsum.trans hrank))

/-- The branches that come up while a tableau is grown from a root: those that steps lead to, and
those that a split leaves before one of its alternatives is added. -/
inductive Arises (blocking : Bool) (root : Signed) : Branch → Prop
  | run {n b} (run : Run blocking n (.ofRoot root) b) : Arises blocking root b
  | fork {n b rule premise left right after} (run : Run blocking n (.ofRoot root) b)
      (step : b.step blocking = .split rule premise left right after) : Arises blocking root after

theorem Next.reused_eq (hn : Next false b b') : b'.reused = b.reused := by
  cases hn with
  | extended step =>
    cases stepped_of step with
    | alpha marked => rw [addAll_fst, reused_foldl_add, marked.reused_eq]
    | spread marked => rw [addAll_fst, reused_foldl_add, marked.reused_eq]
    | reuse _ _ _ _ _ block => cases block
    | fresh _ _ marked => exact reused_add.trans marked.reused_eq
  | choice step chosen =>
    cases stepped_of step with
    | split _ marked => rw [reused_add, marked.reused_eq]

theorem Run.reused_eq {n : Nat} (hr : Run false n b b') : b'.reused = b.reused := by
  induction hr with
  | refl => rfl
  | head first _ ih => rw [ih, first.reused_eq]

theorem Arises.reused_eq (h : Arises false root b) : b.reused = .empty := by
  have hroot : (ofRoot root).reused = .empty := reused_add
  cases h with
  | run run => rw [run.reused_eq, hroot]
  | fork run step =>
    cases stepped_of step with
    | split _ marked => rw [marked.reused_eq, run.reused_eq, hroot]

/-- The worlds of every branch that comes up form a tree along the edges to new worlds. Without
blocking there are no other edges, and the model read off the branch has this tree as its relation. -/
theorem worldTree_of_arises (h : Arises blocking root b) :
    WorldTree root b ∧ (blocking = false → b.reused = .empty ∧
      ∀ m, Model.ofBranch? b = some m → ∀ u v, ⟨u, v⟩ ∈ m.relation ↔ b.Bears u v) := by
  constructor
  · cases h with
    | run run =>
      obtain ⟨rank, count, hr, hrank, hs⟩ := (rooted_ofRoot root).run run
      exact hs.worldTree hr.reachable.tidy hr.interprets hrank
    | fork run step =>
      obtain ⟨rank, count, hr, hrank, hs⟩ := (rooted_ofRoot root).run run
      cases stepped_of step with
      | split _ marked =>
        exact (hs.marked marked).worldTree (marked.tidy hr.reachable.tidy)
          (hr.interprets.marked marked) hrank
  · rintro rfl
    refine ⟨h.reused_eq, fun m hm u v => ?_⟩
    rw [Model.mem_relation_ofBranch? hm, Bears, h.reused_eq]
    simp

def againPossible : Signed :=
  ⟨2, .T, .and (.diamond (.atom "p")) (.box (.diamond (.atom "p")))⟩

/-- With blocking a world becomes its own successor, without it there is one world more. -/
theorem worldTree_of_arises_againPossible :
    (∃ b, Arises true againPossible b ∧ b.worlds.toList = [0, 2, 3] ∧ b.reused.toList = [⟨3, 3⟩] ∧
      WorldTree againPossible b) ∧
    ∃ b m, Arises false againPossible b ∧ Model.ofBranch? b = some m ∧
      m.relation.toList = [⟨2, 3⟩, ⟨3, 4⟩] ∧ WorldTree againPossible b ∧
      ∀ u v, ⟨u, v⟩ ∈ m.relation ↔ b.Bears u v := by
  have blocked : Run true 4 (.ofRoot againPossible) _ :=
    .head (.extended rfl) (.head (.extended rfl) (.head (.extended rfl) (.head (.extended rfl) (.refl _))))
  have free : Run false 4 (.ofRoot againPossible) _ :=
    .head (.extended rfl) (.head (.extended rfl) (.head (.extended rfl) (.head (.extended rfl) (.refl _))))
  obtain ⟨htree, hfree⟩ := worldTree_of_arises (.run free)
  exact ⟨⟨_, .run blocked, rfl, rfl, (worldTree_of_arises (.run blocked)).1⟩,
    _, _, .run free, rfl, rfl, htree, (hfree rfl).2 _ rfl⟩

end ModalTableau.Branch
