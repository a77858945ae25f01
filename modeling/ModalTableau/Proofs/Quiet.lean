import ModalTableau.Proofs.Records

/-!
# Worlds that are finished with

A successor is asked for only when nothing more can be said about the worlds that are there. From
then on these worlds are quiet: every rule that could add to them has been applied, and what flows
along an edge between two of them has arrived. `Quiet active b` says so of all worlds outside
`active`; a step keeps it (`Quiet.next`) and wakes no world up again. So whatever a run adds after a
successor was asked for, it adds at worlds that came later (`label_fixed_after_access`), and nothing
new ever flows along an edge to a reused world.
-/

namespace ModalTableau.Branch

variable {b b' after : Branch} {active : World → Prop} {e e' : Entry}
  {s premise left right : Signed} {p : Pending} {blocking : Bool} {rule : Rule}
  {inferences : List Inference} {sign : Sign} {f : Formula}
  {v w : World}

structure Quiet (active : World → Prop) (b : Branch) : Prop where
  alpha : ∀ e ∈ b.entries, ¬ active e.signed.world →
    ∀ cs, e.signed.expansion? = some (.alpha cs) → e.used = true
  beta : ∀ e ∈ b.entries, ¬ active e.signed.world →
    ∀ l r, e.signed.expansion? = some (.beta l r) → e.used = true
  spread : ∀ s ∈ b, ∀ sign f, s.expansion? = some (.everySuccessor sign f) →
    ∀ v, ⟨s.world, v⟩ ∈ b.edges → ¬ active s.world → ¬ active v → ⟨v, sign, f⟩ ∈ b
  edges : ∀ d ∈ b.edges, active d.source → active d.target
  reused : ∀ d ∈ b.reused, ¬ active d.source ∧ ¬ active d.target

theorem quiet_ofParts (formulas : List Signed) (edges : List Edge) :
    (ofParts formulas edges).Quiet fun _ => True := by
  have hreused : (ofParts formulas edges).reused = .empty :=
    ofParts_induction (P := (·.reused = .empty)) rfl (fun _ _ h => reused_add.trans h)
      (fun _ _ h => h) formulas edges
  constructor <;> simp [hreused]

/-- Where no rule that adds or splits is waiting, all worlds are quiet. -/
theorem quiet_of_done (hb : b.Backed p) (linear : b.LinearDone) (choice : b.ChoiceDone) :
    b.Quiet fun _ => False := by
  refine ⟨fun e he _ cs hx => linear.alpha he hx, fun e he _ l r hx => choice.beta he hx, ?_, by simp,
    by simp⟩
  intro s hs sign f hx v hv _ _
  obtain ⟨e, he, rfl⟩ := mem_iff_entry.mp hs
  have hback := hb e he
  exact hback.spread sign f hx v (linear.every he (hback.unused sign f hx) hx hv)

theorem Quiet.active_of_conclusion {cs : List Signed} (h : b.Quiet active) (he : e ∈ b.entries)
    (hu : e.used = false) (hx : e.signed.expansion? = some (.alpha cs)) (hs : s ∈ cs) :
    active s.world := by
  rw [(Signed.alpha_conclusion hx hs).1]
  exact Classical.byContradiction fun hna => by simp [h.alpha e he hna cs hx] at hu

theorem Quiet.active_of_alternative (h : b.Quiet active) (he : e ∈ b.entries) (hu : e.used = false)
    (hx : e.signed.expansion? = some (.beta left right)) (hs : s = left ∨ s = right) :
    active s.world := by
  rw [Signed.world_of_alternative hx hs]
  exact Classical.byContradiction fun hna => by simp [h.beta e he hna left right hx] at hu

theorem Quiet.marked (h : b.Quiet active) (hm : Marked b e e' b')
    (hu : e.used = true → e'.used = true) {l : List Signed}
    (hl : ∀ s ∈ l, s ∈ b ∨ active s.world) : (l.foldl add b').Quiet active := by
  have hused : ∀ x ∈ (l.foldl add b').entries, ¬ active x.signed.world →
      ∃ y ∈ b.entries, y.signed = x.signed ∧ (y.used = true → x.used = true) := by
    intro x hx hna
    rcases entry_of_mem_foldl_add hx with hx | ⟨s, hs, hn, rfl⟩
    · rcases hm.entry_of_mem hx with rfl | hx
      · exact ⟨e, hm.mem_entries, hm.signed_eq.symm, hu⟩
      · exact ⟨x, hx, rfl, id⟩
    · exact ((hl s hs).elim (fun h => hn (hm.mem_iff.mpr h)) hna).elim
  have hedges : (l.foldl add b').edges = b.edges := by rw [edges_foldl_add, hm.edges_eq]
  constructor
  · intro x hx hna cs hxp
    obtain ⟨y, hy, hsigned, hyx⟩ := hused x hx hna
    exact hyx (h.alpha y hy (hsigned ▸ hna) cs (hsigned ▸ hxp))
  · intro x hx hna l r hxp
    obtain ⟨y, hy, hsigned, hyx⟩ := hused x hx hna
    exact hyx (h.beta y hy (hsigned ▸ hna) l r (hsigned ▸ hxp))
  · intro s hs sign f hx v hv hna hnv
    rw [hedges] at hv
    have hsb : s ∈ b := by
      rcases mem_foldl_add.mp hs with hs | hs
      · exact (hl s hs).resolve_right hna
      · exact hm.mem_iff.mp hs
    exact mem_foldl_add.mpr (.inr (hm.mem_iff.mpr (h.spread s hsb sign f hx v hv hna hnv)))
  · exact hedges ▸ h.edges
  · rw [reused_foldl_add, hm.reused_eq]
    exact h.reused

/-- What a rule about every successor says is known already, or it travels along an edge that is not
a reused one to an active world. -/
theorem Quiet.travels (h : b.Quiet active) (hs : s ∈ b)
    (hx : s.expansion? = some (.everySuccessor sign f)) (hv : ⟨s.world, v⟩ ∈ b.edges) :
    ⟨v, sign, f⟩ ∈ b ∨ ⟨s.world, v⟩ ∉ b.reused ∧ active v := by
  by_cases hav : active v
  · exact .inr ⟨fun hr => (h.reused _ hr).2 hav, hav⟩
  · have has : ¬ active s.world := fun has => hav (h.edges _ hv has)
    exact .inl (h.spread s hs sign f hx v hv has hav)

theorem Quiet.mem_or_active_of_unreached (h : b.Quiet active) (he : e ∈ b.entries)
    (hx : e.signed.expansion? = some (.everySuccessor sign f))
    (hs : s ∈ (b.unreached e).map (⟨·, sign, f⟩)) : s ∈ b ∨ active s.world := by
  obtain ⟨v, hv, rfl⟩ := List.mem_map.mp hs
  exact (h.travels (signed_mem he) hx (mem_unreached.mp hv).1).imp_right And.right

theorem Quiet.reuse (h : b.Quiet fun _ => False) (hb : b.blocker? w sign f = some v) :
    (b.reuse ⟨w, v⟩).Quiet fun _ => False := by
  refine ⟨by simpa using h.alpha, by simpa using h.beta, ?_, by simp, by simp⟩
  intro s hs sign' g hx v' hv' hns hnv
  rw [mem_reuse] at hs ⊢
  rw [edges_reuse] at hv'
  rcases mem_edges_addEdge.mp hv' with heq | hold
  · obtain ⟨hw, rfl⟩ : s.world = w ∧ v' = v := by simpa using heq
    exact (blocker?_eq_some hb).2 s hs hw sign' g hx
  · exact h.spread s hs sign' g hx v' hold hns hnv

/-- A new world is the only active one, and no edge leaves it. -/
theorem Quiet.fresh (h : b.Quiet fun _ => False) (ht : b.Tidy) :
    ((b.addEdge ⟨w, b.nextWorld⟩).add ⟨b.nextWorld, sign, f⟩).Quiet (· = b.nextWorld) := by
  have hne : ∀ u ∈ b.worlds, u ≠ b.nextWorld := fun u hu heq => nextWorld_not_mem (heq ▸ hu)
  have hentry : ∀ x ∈ ((b.addEdge ⟨w, b.nextWorld⟩).add ⟨b.nextWorld, sign, f⟩).entries,
      x.signed.world ≠ b.nextWorld → x ∈ b.entries := by
    intro x hx hna
    rcases entry_of_mem_add hx with hx | ⟨-, rfl⟩
    · exact hx
    · exact absurd rfl hna
  refine ⟨fun x hx hna => h.alpha x (hentry x hx hna) id, fun x hx hna => h.beta x (hentry x hx hna) id,
    ?_, ?_, ?_⟩
  · intro s hs sign' g hx v hv hns hnv
    rw [edges_add, mem_edges_addEdge] at hv
    have hsb : s ∈ b := (mem_add.mp hs).resolve_left (by rintro rfl; exact hns rfl)
    have hvb : ⟨s.world, v⟩ ∈ b.edges := hv.resolve_left fun heq => hnv (congrArg Edge.target heq)
    exact mem_add.mpr (.inr (h.spread s hsb sign' g hx v hvb id id))
  · intro d hd hsource
    rw [edges_add, mem_edges_addEdge] at hd
    rcases hd with rfl | hd
    · rfl
    · exact absurd hsource (hne _ (ht.source_mem d hd))
  · intro d hd
    rw [reused_add] at hd
    have hd := ht.reused_mem d hd
    exact ⟨hne _ (ht.source_mem d hd), hne _ (ht.target_mem d hd)⟩

-- ---------------------------------------------------------------------------
-- Steps
-- ---------------------------------------------------------------------------

theorem Quiet.extended (h : b.Quiet active) (ht : b.Tidy) (hb : b.Backed p)
    (hs : b.step blocking = .extended inferences after) :
    ∃ active', after.Quiet active' ∧ ∀ w ∈ b.worlds, active' w → active w := by
  cases stepped_of hs with
  | alpha marked unused expand =>
    have hx := Signed.expansion?_of_expand expand
    refine ⟨active, ?_, fun _ _ => id⟩
    rw [addAll_fst]
    exact h.marked marked (fun _ => rfl) fun c hc =>
      .inr (h.active_of_conclusion marked.mem_entries unused hx hc)
  | spread marked unused expand waiting =>
    have hx := Signed.expansion?_of_expand expand
    refine ⟨active, ?_, fun _ _ => id⟩
    rw [addAll_fst]
    exact h.marked marked id fun c hc => h.mem_or_active_of_unreached marked.mem_entries hx hc
  | reuse linear choice marked unused expand block blocker =>
    have hq := (quiet_of_done hb linear choice).marked marked (fun _ => rfl) (l := []) (by simp)
    exact ⟨_, hq.reuse blocker, fun _ _ => False.elim⟩
  | fresh linear choice marked unused expand unblocked =>
    have hq := (quiet_of_done hb linear choice).marked marked (fun _ => rfl) (l := []) (by simp)
    refine ⟨_, hq.fresh (marked.tidy ht), fun u hu heq => ?_⟩
    exact absurd (marked.worlds_eq ▸ hu) (heq ▸ nextWorld_not_mem)

theorem Quiet.choice (h : b.Quiet active)
    (hs : b.step blocking = .split rule premise left right after)
    (hc : s = left ∨ s = right) : (after.add s).Quiet active := by
  cases stepped_of hs with
  | split linear marked unused expand =>
    have hx := Signed.expansion?_of_expand expand
    refine h.marked marked (fun _ => rfl) (l := [s]) fun c hcs => .inr ?_
    obtain rfl := List.mem_singleton.mp hcs
    exact h.active_of_alternative marked.mem_entries unused hx hc

theorem Quiet.next (h : b.Quiet active) (hr : Reachable p b) (hn : Next blocking b b') :
    ∃ active', b'.Quiet active' ∧ ∀ w ∈ b.worlds, active' w → active w := by
  cases hn with
  | extended step => exact h.extended hr.tidy hr.backed step
  | choice step chosen => exact ⟨active, h.choice step chosen, fun _ _ => id⟩

-- ---------------------------------------------------------------------------
-- Runs
-- ---------------------------------------------------------------------------

theorem Quiet.mem_of_next (h : b.Quiet active) (hn : Next blocking b b') (hs : s ∈ b')
    (hw : s.world ∈ b.worlds) (hna : ¬ active s.world) : s ∈ b := by
  cases hn with
  | extended step =>
    cases stepped_of step with
    | alpha marked unused expand =>
      rw [addAll_fst, mem_foldl_add, marked.mem_iff] at hs
      have hx := Signed.expansion?_of_expand expand
      exact hs.resolve_left fun hc =>
        hna (h.active_of_conclusion marked.mem_entries unused hx hc)
    | spread marked unused expand waiting =>
      rw [addAll_fst, mem_foldl_add, marked.mem_iff] at hs
      have hx := Signed.expansion?_of_expand expand
      rcases hs with hs | hs
      · exact (h.mem_or_active_of_unreached marked.mem_entries hx hs).resolve_right hna
      · exact hs
    | reuse linear choice marked unused expand block blocker =>
      exact marked.mem_iff.mp (mem_reuse.mp hs)
    | fresh linear choice marked unused expand unblocked =>
      rcases mem_add.mp hs with rfl | hs
      · exact absurd (marked.worlds_eq ▸ hw) nextWorld_not_mem
      · exact marked.mem_iff.mp hs
  | choice step chosen =>
    cases stepped_of step with
    | split linear marked unused expand =>
      have hx := Signed.expansion?_of_expand expand
      rw [mem_add, marked.mem_iff] at hs
      refine hs.resolve_left fun heq => hna ?_
      exact h.active_of_alternative marked.mem_entries unused hx (heq ▸ chosen)

theorem Quiet.run {n : Nat} (h : b.Quiet active) (hr : Reachable p b)
    (hrun : Run blocking n b b') :
    (∃ active', b'.Quiet active') ∧
      ∀ s ∈ b', s.world ∈ b.worlds → ¬ active s.world → s ∈ b := by
  induction hrun generalizing active with
  | refl => exact ⟨⟨active, h⟩, fun s hs _ _ => hs⟩
  | head first _ ih =>
    obtain ⟨active', hq, hle⟩ := h.next hr first
    obtain ⟨hend, hold⟩ := ih hq (hr.next first)
    refine ⟨hend, fun s hs hw hna => h.mem_of_next first ?_ hw hna⟩
    exact hold s hs (first.grows.worlds _ hw) fun ha => hna (hle _ hw ha)

/-- Only a rule that asks for a successor makes an edge, and it waits for all others. -/
theorem quiet_of_access {d : Edge} {reused : Bool} (hb : b.Backed p)
    (hs : b.step blocking = .extended inferences after)
    (ha : .access d rule premise reused ∈ inferences) : b.Quiet fun _ => False := by
  cases stepped_of hs with
  | alpha => simp at ha
  | spread => simp at ha
  | reuse linear choice => exact quiet_of_done hb linear choice
  | fresh linear choice => exact quiet_of_done hb linear choice

theorem label_eq_of_grows (hg : b.Grows b') (ht : b'.Tidy) (h : ∀ s ∈ b', s.world = w → s ∈ b) :
    b'.label w = b.label w := by
  obtain ⟨new, hnew⟩ := hg.formulas
  have hnodup := List.nodup_append.mp (hnew ▸ ht.nodup)
  have hnone : new.filter (·.world = w) = [] := by
    refine List.filter_eq_nil_iff.mpr fun s hs hw => ?_
    have hs' : s ∈ b'.formulas := hnew ▸ List.mem_append_right _ hs
    exact hnodup.2.2 s (h s hs' (by simpa using hw)) s hs rfl
  rw [label, label, ← hnew, List.filter_append, hnone, List.append_nil]

/-- A conclusion about every successor that is recorded as new has not come along a reused edge. -/
theorem Quiet.not_reused_of_derived {c : Signed} (h : b.Quiet active)
    (hs : b.step blocking = .extended inferences after) (hd : .derived c rule premise ∈ inferences)
    (hx : premise.expansion? = some (.everySuccessor sign f)) :
    ⟨premise.world, c.world⟩ ∉ b.reused := by
  cases stepped_of hs with
  | alpha marked unused expand =>
    obtain ⟨-, -, -, -, rfl⟩ := List.mem_map.mp hd
    simp [Signed.expansion?_of_expand expand] at hx
  | spread marked unused expand waiting =>
    rename_i e b' rule' sign' g
    obtain ⟨c', hc', heq⟩ := List.mem_map.mp hd
    obtain ⟨rfl, rfl, rfl⟩ : c' = c ∧ rule' = rule ∧ e.signed = premise := by simpa using heq
    obtain ⟨hmem, hnew⟩ := mem_addAll_snd hc'
    obtain ⟨v, hv, rfl⟩ := List.mem_map.mp hmem
    have hx' := Signed.expansion?_of_expand expand
    rcases h.travels (signed_mem marked.mem_entries) hx' (mem_unreached.mp hv).1 with hold | ⟨hn, -⟩
    · exact absurd (marked.mem_iff.mpr hold) hnew
    · exact hn
  | reuse => simp at hd
  | fresh linear choice marked unused expand unblocked =>
    obtain ⟨-, -, rfl⟩ : _ ∧ _ ∧ premise = _ := by simpa using hd
    simp [Signed.expansion?_of_expand expand] at hx

theorem label_fixed_after_access {start : Branch} {m n : Nat} {d : Edge} {reused : Bool}
    (hstart : (∃ root, start = .ofRoot root) ∨ ∃ formulas edges, start = .ofParts formulas edges)
    (before : Run blocking m start b) (step : b.step blocking = .extended inferences after)
    (asks : .access d rule premise reused ∈ inferences) (later : Run blocking n after b') :
    (∀ w ∈ b.worlds, b'.label w = b.label w) ∧
      (∀ s ∈ b', ∀ sign f, s.expansion? = some (.everySuccessor sign f) →
        ∀ v, ⟨s.world, v⟩ ∈ b'.reused → b'.add ⟨v, sign, f⟩ = b') ∧
      ∀ news after' c rule s sign f, b'.step blocking = .extended news after' →
        .derived c rule s ∈ news → s.expansion? = some (.everySuccessor sign f) →
        ⟨s.world, c.world⟩ ∉ b'.reused := by
  have hreach : Reachable [] start := by
    rcases hstart with ⟨root, rfl⟩ | ⟨formulas, edges, rfl⟩
    · exact .ofRoot root
    · exact .ofParts formulas edges
  have hr : Reachable [] b := hreach.run before
  have hrun : Run blocking (n + 1) b b' := .head (.extended step) later
  obtain ⟨⟨active', hq'⟩, hold⟩ := (quiet_of_access hr.backed step asks).run hr hrun
  have ht' : b'.Tidy := (hr.run hrun).tidy
  refine ⟨?_, ?_, ?_⟩
  · intro w hw
    exact label_eq_of_grows hrun.grows ht' fun s hs hsw => hold s hs (hsw ▸ hw) id
  · intro s hs sign f hx v hv
    refine add_of_mem ((hq'.travels hs hx (ht'.reused_mem _ hv)).resolve_right ?_)
    exact fun hfresh => hfresh.1 hv
  · intro news after' c rule s sign f hs hd hx
    exact hq'.not_reused_of_derived hs hd hx

/-- World 3 will be its own successor, and what its box says goes round the circle. -/
def circling : Branch :=
  .ofParts [⟨0, .T, .diamond (.atom "p")⟩,
    ⟨0, .T, .box (.and (.diamond (.atom "p")) (.box (.atom "p")))⟩,
    ⟨0, .T, .or (.atom "p") (.atom "q")⟩] [⟨2, 0⟩]

theorem label_fixed_after_access_of_circling :
    ∃ b after b' last, Run true 1 circling b ∧
      b.step true = .extended [
        .access ⟨0, 3⟩ ⟨.T, .diamond⟩ ⟨0, .T, .diamond (.atom "p")⟩ false,
        .derived ⟨3, .T, .atom "p"⟩ ⟨.T, .diamond⟩ ⟨0, .T, .diamond (.atom "p")⟩] after ∧
      Run true 3 after b' ∧ b.worlds.toList = [0, 2] ∧ b'.reused.toList = [⟨3, 3⟩] ∧
      (∀ w ∈ b.worlds, b'.label w = b.label w) ∧
      b'.step true = .extended [] last ∧ b'.add ⟨3, .T, .atom "p"⟩ = b' := by
  have before : Run true 1 circling _ := .head (.choice rfl (.inr rfl)) (.refl _)
  obtain ⟨hlabel, hadd, -⟩ := label_fixed_after_access (.inr ⟨_, _, rfl⟩) before rfl (.head _)
    (.head (.extended rfl) (.head (.extended rfl) (.head (.extended rfl) (.refl _))))
  exact ⟨_, _, _, _, before, rfl,
    .head (.extended rfl) (.head (.extended rfl) (.head (.extended rfl) (.refl _))), rfl, rfl, hlabel,
    rfl, hadd ⟨3, .T, .box (.atom "p")⟩ (contains_iff.mp rfl) .T (.atom "p") rfl 3 (by decide)⟩

end ModalTableau.Branch
