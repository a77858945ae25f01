import ModalTableau.Proofs.Mirrors
import ModalTableau.Proofs.Termination

/-!
# Growing with and without blocking

A path with blocking is followed by one without. On the left, worlds are reused; on the right, every
request gets a new world, and where one was reused its copy is unfolded by the choices that were made
at the reused world (`Mirrors.settle`). The two sides are in one of two phases. In `Resting` nothing
is left to be said, and the right side grants the requests of copies until the next request is the
same on both sides (`Resting.catch_up`). If that one is granted by a new world on the left too, `Unfolding`
begins: what is said at the new world is said at its original, step for step (`Unfolding.next`). Since
marks on the left have marks over them on the right, the right side is the longer one
(`exists_unblocked_path`).
-/

namespace ModalTableau.Branch

variable {W : Entry → Entry → Prop} {up down : World → World} {b b' c c' : Branch} {root s : Signed}
  {e e' : Entry} {a v w x : World} {l : List Signed} {sign : Sign} {f : Formula} {n : Nat}

structure Grounded (root : Signed) (b : Branch) : Prop where
  rooted : Rooted root b
  confined : b.Confined

theorem grounded_ofRoot (root : Signed) : Grounded root (ofRoot root) :=
  ⟨rooted_ofRoot root, confined_ofRoot root⟩

namespace Grounded

theorem tidy (h : Grounded root b) : b.Tidy := h.rooted.reachable.tidy

theorem backed (h : Grounded root b) : b.Backed [] := h.rooted.reachable.backed

theorem next {blocking : Bool} (h : Grounded root b) (hn : Next blocking b b') : Grounded root b' :=
  ⟨h.rooted.next hn, h.confined.next h.tidy hn⟩

theorem run {blocking : Bool} (h : Grounded root b) (hr : Run blocking n b b') :
    Grounded root b' := by
  induction hr with
  | refl => exact h
  | head first _ ih => exact ih (h.next first)

theorem exists_bound (h : Grounded root b) : ∃ N, ∀ n b', Run false n b b' → n < N := by
  obtain ⟨_, _, hr, -⟩ := h.rooted
  obtain ⟨N, hN⟩ := hr.exists_bound false
  exact ⟨N, fun n b' hrun => (hN n b' hrun).1⟩

end Grounded

-- ---------------------------------------------------------------------------
-- Finishing what has been begun over finished worlds
-- ---------------------------------------------------------------------------

theorem Quiet.alpha_mem {cs : List Signed} (hq : b.Quiet fun _ => False) (hb : b.Backed [])
    (hs : s ∈ b) (hx : s.expansion? = some (.alpha cs)) : ∀ t ∈ cs, t ∈ b := by
  obtain ⟨e, he, rfl⟩ := mem_iff_entry.mp hs
  exact (hb e he).alpha cs hx (hq.alpha e he id cs hx)

theorem Quiet.beta_mem {left right : Signed} (hq : b.Quiet fun _ => False) (hb : b.Backed [])
    (hs : s ∈ b) (hx : s.expansion? = some (.beta left right)) : left ∈ b ∨ right ∈ b := by
  obtain ⟨e, he, rfl⟩ := mem_iff_entry.mp hs
  exact ((hb e he).beta left right hx (hq.beta e he id left right hx)).resolve_left (by simp)

/-- What has a twin on a quiet branch has been used if there is something to be said. -/
theorem Twin.not_alpha {rule : Rule} {cs : List Signed} (h : Twin W up down e e')
    (hq : b.Quiet fun _ => False) (he : e ∈ b.entries) (unused : e'.used = false) :
    e'.signed.expand ≠ some (rule, .alpha cs) := by
  intro hx
  rw [h.signed] at hx
  obtain ⟨cs', hx'⟩ := Signed.alpha_of_moved hx
  have hused := hq.alpha e he id cs' (Signed.expansion?_of_expand hx')
  simp [← h.used, unused] at hused

theorem Twin.not_beta {rule : Rule} {left right : Signed} (h : Twin W up down e e')
    (hq : b.Quiet fun _ => False) (he : e ∈ b.entries) (unused : e'.used = false) :
    e'.signed.expand ≠ some (rule, .beta left right) := by
  intro hx
  rw [h.signed] at hx
  obtain ⟨left', right', hx', -⟩ := Signed.beta_of_moved hx
  have hused := hq.beta e he id left' right' (Signed.expansion?_of_expand hx')
  simp [← h.used, unused] at hused

namespace Mirrors

section

variable {rule : Rule} {left right : Signed} {cs : List Signed} (h : Mirrors W up down b c)
  (hb : Grounded root b) (hq : b.Quiet fun _ => False) (hs : s ∈ c)

include h hb hq hs

theorem alpha_image (hx : s.expand = some (rule, .alpha cs)) : ∀ t ∈ cs, t.moved down ∈ b := by
  have hx' : (s.moved down).expansion? = some (.alpha (cs.map (·.moved down))) := by
    rw [Signed.expansion?_moved, Signed.expansion?_of_expand hx]
    rfl
  intro t ht
  exact hq.alpha_mem hb.backed (h.images s hs) hx' _ (List.mem_map_of_mem ht)

theorem beta_image (hx : s.expand = some (rule, .beta left right)) :
    ∃ t, (t = left ∨ t = right) ∧ t.moved down ∈ b := by
  have hx' : (s.moved down).expansion? = some (.beta (left.moved down) (right.moved down)) := by
    rw [Signed.expansion?_moved, Signed.expansion?_of_expand hx]
    rfl
  rcases hq.beta_mem hb.backed (h.images s hs) hx' with hl | hr
  · exact ⟨left, .inl rfl, hl⟩
  · exact ⟨right, .inr rfl, hr⟩

omit hb in
theorem spread_image (hx : s.expand = some (rule, .everySuccessor sign f))
    (hd : ⟨s.world, x⟩ ∈ c.edges) : (⟨x, sign, f⟩ : Signed).moved down ∈ b :=
  hq.spread _ (h.images s hs) sign f
    (Signed.expansion?_of_expand (Signed.everySuccessor_moved.mpr hx)) _ (h.edges _ hd) id id

end

/-- A rule that waits on the right is applied. Of alternatives, the one is chosen that was chosen at
the world below. -/
theorem follow (h : Mirrors (fun _ _ => True) up down b c) (hb : Grounded root b)
    (hq : b.Quiet fun _ => False) : c.LinearDone ∧ c.ChoiceDone ∨
      ∃ c', Next false c c' ∧ Mirrors (fun _ _ => True) up down b c' := by
  cases hstep : c.step false with
  | extended inferences after =>
    have hn : Next false c after := .extended hstep
    cases stepped_of hstep with
    | alpha marked unused expand =>
      have hcopies := h.alpha_image hb hq (signed_mem marked.mem_entries) expand
      refine .inr ⟨_, hn, ?_⟩
      rw [addAll_fst]
      refine (h.mark_right marked fun y hy htwin => ?_).foldl_add_copy hb.tidy hcopies
      exact absurd expand (htwin.not_alpha hq hy unused)
    | spread marked unused expand waiting =>
      refine .inr ⟨_, hn, ?_⟩
      rw [addAll_fst]
      refine (h.mark_right marked fun y hy htwin => ?_).foldl_add_copy hb.tidy fun t ht => ?_
      · refine ⟨htwin.signed, htwin.used, fun v hv => ?_, trivial⟩
        obtain ⟨x, hx, heq⟩ := htwin.reached v hv
        exact ⟨x, Ascending.mem_insertMany.mpr (.inr hx), heq⟩
      · obtain ⟨x, hx, rfl⟩ := List.mem_map.mp ht
        exact h.spread_image hq (signed_mem marked.mem_entries) expand (mem_unreached.mp hx).1
    | reuse _ _ _ _ _ block => cases block
    | fresh linear choice => exact .inl ⟨linear, choice⟩
  | split rule premise left right after =>
    cases stepped_of hstep with
    | split linear marked unused expand =>
      obtain ⟨s, hs, hmem⟩ := h.beta_image hb hq (signed_mem marked.mem_entries) expand
      refine .inr ⟨_, .choice hstep hs, ?_⟩
      refine (h.mark_right marked fun y hy htwin => ?_).add_copy hb.tidy hmem
      exact absurd expand (htwin.not_beta hq hy unused)
  | saturated =>
    cases stepped_of hstep with
    | saturated linear choice => exact .inl ⟨linear, choice⟩

end Mirrors

/-- Nothing more can be said about the worlds that are there, on either side. On the left a rule about
every successor may still have to note that it has reached one. -/
structure Resting (up down : World → World) (b c : Branch) : Prop where
  mirrors : Mirrors (fun _ _ => True) up down b c
  quiet : b.Quiet fun _ => False
  linear : c.LinearDone
  choice : c.ChoiceDone

theorem Mirrors.settle (h : Mirrors (fun _ _ => True) up down b c) (hb : Grounded root b)
    (hq : b.Quiet fun _ => False) (hc : Grounded root c) :
    ∃ n c', Run false n c c' ∧ Resting up down b c' := by
  obtain ⟨N, hN⟩ := hc.exists_bound
  induction N generalizing c with
  | zero => exact absurd (hN 0 c (.refl c)) (Nat.not_lt_zero 0)
  | succ N ih =>
    rcases h.follow hb hq with ⟨linear, choice⟩ | ⟨c₁, hn, h₁⟩
    · exact ⟨0, c, .refl c, h, hq, linear, choice⟩
    · obtain ⟨n, c', hr, h'⟩ := ih h₁ (hc.next hn) fun n c' hr =>
        Nat.lt_of_succ_lt_succ (hN (n + 1) c' (.head hn hr))
      exact ⟨n + 1, c', .head hn hr, h'⟩

-- ---------------------------------------------------------------------------
-- Requests that come up again
-- ---------------------------------------------------------------------------

theorem Twin.isOriginal (h : Twin W up down e e') (hm : Mirrors W up down b c)
    (hw : e.signed.world ∈ b.worlds) : isOriginal up down e' := by
  refine decide_eq_true ?_
  rw [h.signed, Signed.world_moved, (hm.home _ hw).2]

theorem Twin.demand?_eq_none (h : Twin W up down e e') : demand? e' = none ↔ demand? e = none := by
  simp only [demand?, h.used, h.signed, Signed.expand_moved]
  cases e.signed.expand with
  | none => simp
  | some x =>
    obtain ⟨rule, x⟩ := x
    cases x <;> simp [Expansion.moved]

theorem Twin.alternatives?_eq_none (h : Twin W up down e e') :
    alternatives? e' = none ↔ alternatives? e = none := by
  simp only [alternatives?, h.used, h.signed, Signed.expand_moved]
  cases e.signed.expand with
  | none => simp
  | some x =>
    obtain ⟨rule, x⟩ := x
    cases x <;> simp [Expansion.moved]

theorem Mirrors.herald {k₁ k₂ : List Entry} (h : Mirrors W up down b c) (ht : b.Tidy) (ht' : c.Tidy)
    (hc : c.entries = k₁ ++ e' :: k₂) (ho : isOriginal up down e' = false) :
    ∃ x ∈ b.entries, ∃ y ∈ k₁, Twin W up down x y ∧ x.signed = e'.signed.moved down := by
  have he' : e' ∈ c.entries := by simp [hc]
  have hbelow : down e'.signed.world ∈ b.worlds := h.below _ (ht'.world_mem _ (signed_mem he'))
  have hformulas : c.formulas = k₁.map (·.signed) ++ e'.signed :: k₂.map (·.signed) := by
    simp [formulas, hc]
  have hbefore : e'.signed.moved (up ∘ down) ∈ k₁.map (·.signed) := by
    rcases List.mem_append.mp (h.heralded _ _ _ hformulas) with hmem | hself
    · exact hmem
    · have hworld := congrArg Signed.world (List.mem_singleton.mp hself)
      exact absurd hworld (of_decide_eq_false ho)
  obtain ⟨y, hy, hsigned⟩ := List.mem_map.mp hbefore
  have hoy : isOriginal up down y := by
    refine decide_eq_true ?_
    rw [hsigned]
    exact congrArg up (h.home _ hbelow).2
  obtain ⟨x, hx, htwin⟩ := h.twin_left (by simp [hc, hy]) hoy
  refine ⟨x, hx, y, hy, htwin, ?_⟩
  have hup : x.signed.moved up = (e'.signed.moved down).moved up := by
    rw [← htwin.signed, hsigned]
    rfl
  have hdown := congrArg (Signed.moved down) hup
  rwa [Signed.moved_moved, Signed.moved_moved, Signed.moved_eq_self,
    Signed.moved_eq_self (s := e'.signed.moved down)] at hdown
  · exact (h.home _ hbelow).2
  · exact (h.home _ (ht.world_mem _ (signed_mem hx))).2

theorem sprout_of_demand {k₁ k₂ : List Entry} {rule : Rule} {premise : Signed} (linear : c.LinearDone)
    (choice : c.ChoiceDone) (entries : c.entries = k₁ ++ e :: k₂) (first : ∀ x ∈ k₁, demand? x = none)
    (due : demand? e = some ((rule, premise, sign, f), e')) :
    Next false c (({ c with entries := k₁ ++ e' :: k₂ } : Branch).sprout premise.world sign f) := by
  obtain ⟨inferences, hs⟩ := step_of_demand linear choice entries first due
  exact .extended hs

/-- A request that is no original repeats one that was granted on the left. It gets a copy of the same
world. -/
theorem Resting.grant_copy {k₁ k₂ : List Entry} {rule : Rule} {premise : Signed} {marked : Entry}
    (h : Resting up down b c) (hb : Grounded root b) (hc : Grounded root c)
    (entries : c.entries = k₁ ++ e' :: k₂) (first : ∀ x ∈ k₁, demand? x = none)
    (due : demand? e' = some ((rule, premise, sign, f), marked))
    (ho : isOriginal up down e' = false) :
    ∃ n c' down', Run false (n + 1) c c' ∧ Resting up down' b c' := by
  have hn := sprout_of_demand h.linear h.choice entries first due
  obtain ⟨-, rfl, expand, rfl⟩ := demand?_eq_some due
  obtain ⟨x, hx, y, hy, htwin, hsigned⟩ := h.mirrors.herald hb.tidy hc.tidy entries ho
  have hexp : x.signed.expansion? = some (.someSuccessor sign f) := by
    rw [hsigned]
    exact Signed.expansion?_of_expand (Signed.someSuccessor_moved.mpr expand)
  have hused : x.used = true := by
    obtain ⟨rule', hx'⟩ := Signed.exists_expand hexp
    simpa [demand?, hx'] using htwin.demand?_eq_none.mp (first y hy)
  obtain ⟨v, hedge, hv⟩ := (hb.backed x hx).demand sign f hexp hused
  rw [hsigned] at hedge
  have hm : Marked c e' { e' with used := true } _ := .intro k₁ k₂ entries rfl
  have ht := hm.tidy hc.tidy
  have hmirrors := h.mirrors.mark_right hm fun z hz htwin => by
    have hoz := htwin.isOriginal h.mirrors (hb.tidy.world_mem _ (signed_mem hz))
    simp [ho] at hoz
  have hcopy := hmirrors.copy hb.tidy ht (hc.confined.used hm) (ht.world_mem _ hm.premise_mem) hv
    (.inl hedge) rfl (fun _ => .rfl) fun d => (or_iff_right_of_imp fun heq => heq ▸ hedge).symm
  obtain ⟨n, c', hr, h'⟩ := hcopy.settle hb h.quiet (hc.next hn)
  exact ⟨n, c', _, .head hn hr, h'⟩

/-- The right side grants the requests of copies until one comes up that waits on the left too. -/
theorem Resting.catch_up (h : Resting up down b c) (hb : Grounded root b) (hc : Grounded root c)
    (hd : ¬ b.DemandDone) :
    ∃ n c' down', Run false n c c' ∧ Resting up down' b c' ∧ ∃ k₁ e' found marked k₂,
      c'.entries = k₁ ++ e' :: k₂ ∧ (∀ x ∈ k₁, demand? x = none) ∧
      demand? e' = some (found, marked) ∧ isOriginal up down' e' := by
  obtain ⟨N, hN⟩ := hc.exists_bound
  induction N generalizing c down with
  | zero => exact absurd (hN 0 c (.refl c)) (Nat.not_lt_zero 0)
  | succ N ih =>
    cases hfirst : updateFirst demand? c.entries with
    | none =>
      refine absurd (fun e he => ?_) hd
      obtain ⟨e', he', -, htwin⟩ := h.mirrors.twin_right he
      exact htwin.demand?_eq_none.mp (updateFirst_eq_none hfirst e' he')
    | some found =>
      obtain ⟨⟨rule, premise, sign, f⟩, _⟩ := found
      obtain ⟨k₁, e', marked, k₂, entries, first, due, -⟩ := updateFirst_eq_some.mp hfirst
      cases ho : isOriginal up down e' with
      | true => exact ⟨0, c, down, .refl c, h, k₁, e', _, marked, k₂, entries, first, due, ho⟩
      | false =>
        obtain ⟨n, c₁, down₁, hr, h₁⟩ := h.grant_copy hb hc entries first due ho
        obtain ⟨m, c', down', hr', h'⟩ := ih h₁ (hc.run hr) fun m c' hr' => by
          have hlt := hN _ c' (hr.trans hr')
          omega
        exact ⟨_, c', down', hr.trans hr', h'⟩

-- ---------------------------------------------------------------------------
-- Side by side
-- ---------------------------------------------------------------------------

/-- A rule about every successor has been at `a` on both sides or on none. -/
def Abreast (a : World) (up : World → World) (e e' : Entry) : Prop :=
  a ∈ e.reached ↔ up a ∈ e'.reached

/-- All that is left to be said is about the world `a` on the left and its original on the right,
where both sides take the same steps. -/
structure Unfolding (a : World) (up down : World → World) (b c : Branch) : Prop where
  mirrors : Mirrors (Abreast a up) up down b c
  member : a ∈ b.worlds
  parent : ∀ d ∈ c.edges, down d.target = a → d.target = up a ∧ up (down d.source) = d.source
  left : Frontier a b
  right : Frontier (up a) c

/-- A rule that adds to the branch waits for both entries or for neither, and it says the same of `a`
and of its original. -/
inductive Lockstep (a : World) (up down : World → World) (b c : Branch) (e e' : Entry) : Prop
  | neither (left : b.linear? e = none) (right : c.linear? e' = none)
  | both (rule : Rule) (cs : List Signed) {marked marked'}
      (left : b.linear? e = some ((rule, e.signed, cs), marked))
      (right : c.linear? e' = some ((rule, e'.signed, cs.map (·.moved up)), marked'))
      (twin : Twin (Abreast a up) up down marked marked') (signed : marked.signed = e.signed)
      (signed' : marked'.signed = e'.signed) (worlds : ∀ s ∈ cs, s.world = a)

/-- The right side has kept up with the left one. -/
def Matched (up down : World → World) (b c : Branch) : Prop :=
  Resting up down b c ∨ ∃ a, Unfolding a up down b c

theorem Mirrors.unfolding (h : Mirrors (fun _ _ => True) up down b c) (ht : b.Tidy) (ht' : c.Tidy)
    (hb : b.Confined) (hc : c.Confined) (hw : w ∈ b.worlds)
    (left : Frontier b.nextWorld (b.sprout w sign f))
    (right : Frontier c.nextWorld (c.sprout (up w) sign f)) :
    Unfolding b.nextWorld (Function.update up b.nextWorld c.nextWorld)
      (Function.update down c.nextWorld b.nextWorld) (b.sprout w sign f)
      (c.sprout (up w) sign f) := by
  have hw' : up w ∈ c.worlds := (h.home w hw).1
  have hdown : ∀ y ∈ c.worlds, Function.update down c.nextWorld b.nextWorld y = down y :=
    fun y hy => Function.update_of_ne (fun heq => nextWorld_not_mem (heq ▸ hy)) _ _
  refine ⟨h.sprout ht ht' hc hw (fun e he e' he' _ => ?_) ?_, (mem_worlds_sprout hw).mpr (.inl rfl),
    fun d hd htarget => ?_, left, by rwa [Function.update_self]⟩
  · rw [Abreast, Function.update_self]
    exact iff_of_false (fun hr => nextWorld_not_mem (hb e he _ hr))
      fun hr => nextWorld_not_mem (hc e' he' _ hr)
  · simp [Abreast, Entry.ofSigned]
  · rcases mem_edges_sprout.mp hd with rfl | hd
    · rw [Function.update_self, hdown _ hw', (h.home w hw).2]
      exact ⟨rfl, Function.update_of_ne (fun heq => nextWorld_not_mem (heq ▸ hw)) _ _⟩
    · rw [hdown _ (ht'.target_mem d hd)] at htarget
      exact absurd (htarget ▸ h.below _ (ht'.target_mem d hd)) nextWorld_not_mem

theorem Mirrors.reuse (h : Mirrors W up down b c) (ht : b.Tidy) (ht' : c.Tidy) (hc : c.Confined)
    (hw : w ∈ b.worlds) (blocker : b.blocker? w sign f = some v) :
    Mirrors W up (Function.update down c.nextWorld v) (b.reuse ⟨w, v⟩)
      (c.sprout (up w) sign f) := by
  obtain ⟨hup, hdown⟩ := h.home w hw
  have hv := (blocker?_eq_some blocker).1
  refine h.copy ht ht' hc hup hv (.inr (by rw [hdown])) (entries_reuse _ _) (fun u => ?_) fun d => ?_
  · rw [worlds_reuse, mem_worlds_addEdge]
    refine ⟨?_, fun hu => .inr (.inr hu)⟩
    rintro (rfl | rfl | hu)
    · exact ht.world_mem _ hv
    · exact hw
    · exact hu
  · rw [edges_reuse, mem_edges_addEdge, hdown]

/-- The same request is granted on both sides: on the left by any world, on the right by a new one.
-/
theorem Resting.grant {b₁ c₁ : Branch} {rule : Rule} (h : Resting up down b c) (hb : Grounded root b)
    (hc : Grounded root c) (linear : b.LinearDone) (choice : b.ChoiceDone)
    (hm : Marked b e { e with used := true } b₁) (hm' : Marked c e' { e' with used := true } c₁)
    (hworld : e'.signed.world = up e.signed.world)
    (expand : e.signed.expand = some (rule, .someSuccessor sign f))
    (expand' : e'.signed.expand = some (rule, .someSuccessor sign f))
    (hmirrors : Mirrors (fun _ _ => True) up down b₁ c₁)
    (hn : Next true b (b₁.grant true rule e.signed sign f).2)
    (hn' : Next false c (c₁.sprout e'.signed.world sign f)) :
    ∃ n c' up' down', Run false n c c' ∧
      Matched up' down' (b₁.grant true rule e.signed sign f).2 c' ∧
      (b.clash = none → (b₁.grant true rule e.signed sign f).2.clash = none) := by
  have ht₁ := hm.tidy hb.tidy
  have hw := ht₁.world_mem _ hm.premise_mem
  have hb' := hb.next hn
  rw [hworld] at hn'
  unfold Branch.grant at hb' ⊢
  cases hblock : b₁.blocker? e.signed.world sign f with
  | some v =>
    simp only [↓reduceIte, hblock] at hb' ⊢
    have hq := (quiet_of_done hb.backed linear choice).marked hm (fun _ => rfl) (l := []) (by simp)
    have hcopy := hmirrors.reuse ht₁ (hm'.tidy hc.tidy) (hc.confined.used hm') hw hblock
    obtain ⟨n, c', hr, h'⟩ := hcopy.settle hb' (hq.reuse hblock) (hc.next hn')
    refine ⟨n + 1, c', up, _, .head hn' hr, .inl h', fun hu => ?_⟩
    rw [clash_reuse, hm.clash_eq, hu]
  | none =>
    simp only [↓reduceIte]
    have left := frontier_of_fresh hb.tidy hb.backed linear choice hm expand
    have right := frontier_of_fresh hc.tidy hc.backed h.linear h.choice hm' expand'
    rw [hworld] at right
    have hnew := hmirrors.unfolding ht₁ (hm'.tidy hc.tidy) (hb.confined.used hm)
      (hc.confined.used hm') hw left right
    refine ⟨1, _, _, _, .head hn' (.refl _), .inr ⟨_, hnew⟩, fun hu => ?_⟩
    exact (clash_sprout_eq_none ht₁).mpr (hm.clash_eq.trans hu)

/-- Once the right side has caught up, the first request is the same on both sides. -/
theorem Resting.demand (h : Resting up down b c) (hb : Grounded root b) (hc : Grounded root c)
    (linear : b.LinearDone) (choice : b.ChoiceDone) (hd : ¬ b.DemandDone)
    (hn : Next true b b') : ∃ n c' up' down', Run false n c c' ∧ Matched up' down' b' c' ∧
      (b.clash = none → b'.clash = none) := by
  obtain ⟨n, c₁, down₁, hr, h₁, k₁, e', ⟨rule, premise, sign, f⟩, marked, k₂, he', first, due, ho⟩ :=
    h.catch_up hb hc hd
  have hn' := sprout_of_demand h₁.linear h₁.choice he' first due
  obtain ⟨unused, rfl, expand', rfl⟩ := demand?_eq_some due
  obtain ⟨l₁, e, l₂, he, hl₁, htwin, hl₂⟩ := h₁.mirrors.split_original he' ho
  have hfirst : ∀ x ∈ l₁, demand? x = none := by
    intro x hx
    obtain ⟨y, hy, hxy⟩ := exists_right_of_forall₂ hl₁ hx
    exact hxy.demand?_eq_none.mp (first y (List.mem_filter.mp hy).1)
  have expand : e.signed.expand = some (rule, .someSuccessor sign f) := by
    rwa [htwin.signed, Signed.someSuccessor_moved] at expand'
  have hdue : demand? e = some ((rule, e.signed, sign, f), { e with used := true }) := by
    simp [demand?, ← htwin.used, unused, expand]
  obtain ⟨inferences, hs⟩ : ∃ inferences, b.step true = .extended inferences _ :=
    step_of_demand linear choice he hfirst hdue
  obtain rfl := hn.eq_of_extended hs
  have hmarked : Twin (fun _ _ => True) up down₁ { e with used := true } { e' with used := true } :=
    ⟨htwin.signed, rfl, htwin.reached, trivial⟩
  obtain ⟨m, c', up', down', hr', hend⟩ := h₁.grant hb (hc.run hr) linear choice
    (.intro l₁ l₂ he rfl) (.intro k₁ k₂ he' rfl) (congrArg Signed.world htwin.signed) expand expand'
    (h₁.mirrors.mark_both he he' ho hl₁ hl₂ hmarked rfl rfl) hn hn'
  exact ⟨n + m, c', up', down', hr.trans hr', hend⟩

theorem not_demandDone {rule : Rule} (he : e ∈ b.entries) (unused : e.used = false)
    (expand : e.signed.expand = some (rule, .someSuccessor sign f)) : ¬ b.DemandDone := by
  intro hd
  have hused := hd.some he (Signed.expansion?_of_expand expand)
  simp [unused] at hused

theorem Resting.reached {rule : Rule} (h : Resting up down b c) (he' : e' ∈ c.entries)
    (htwin : Twin W up down e e') (unused : e.used = false)
    (expand : e.signed.expand = some (rule, .everySuccessor sign f))
    (hd : ⟨e.signed.world, v⟩ ∈ b.edges) : ∃ x ∈ e'.reached, down x = v := by
  obtain ⟨x, hedge, hdown⟩ := h.mirrors.links _ hd
  have hx : e'.signed.expansion? = some (.everySuccessor sign f) := by
    rw [htwin.signed]
    exact Signed.expansion?_of_expand (Signed.everySuccessor_moved.mpr expand)
  have hworld : e'.signed.world = up e.signed.world := congrArg Signed.world htwin.signed
  exact ⟨x, h.linear.every he' (htwin.used.trans unused) hx (hworld ▸ hedge), hdown⟩

theorem Resting.next (h : Resting up down b c) (hb : Grounded root b) (hc : Grounded root c)
    (hn : Next true b b') :
    ∃ n c' up' down', Run false n c c' ∧ Matched up' down' b' c' ∧
      (b.clash = none → b'.clash = none) := by
  have hn' := hn
  cases hn with
  | extended step =>
    cases stepped_of step with
    | alpha marked unused expand =>
      have hused := h.quiet.alpha _ marked.mem_entries id _ (Signed.expansion?_of_expand expand)
      simp [unused] at hused
    | spread marked unused expand waiting =>
      rename_i e b₁ rule sign f
      have hx := Signed.expansion?_of_expand expand
      have hknown : ∀ s ∈ (b.unreached e).map (⟨·, sign, f⟩), s ∈ b₁ := fun s hs =>
        marked.mem_iff.mpr ((h.quiet.mem_or_active_of_unreached marked.mem_entries hx hs).elim id
          False.elim)
      have hq := h.quiet.marked marked id (l := []) (by simp)
      rw [addAll_fst, foldl_add_of_mem hknown]
      refine ⟨0, c, up, down, .refl c, .inl ⟨?_, hq, h.linear, h.choice⟩, marked.clash_eq.trans⟩
      refine h.mirrors.mark_left marked fun y hy htwin => ?_
      refine ⟨htwin.signed, htwin.used, fun v hv => ?_, trivial⟩
      rcases Ascending.mem_insertMany.mp hv with hv | hv
      · exact h.reached hy htwin unused expand (mem_unreached.mp hv).1
      · exact htwin.reached v hv
    | reuse linear choice marked unused expand =>
      exact h.demand hb hc linear choice (not_demandDone marked.mem_entries unused expand) hn'
    | fresh linear choice marked unused expand =>
      exact h.demand hb hc linear choice (not_demandDone marked.mem_entries unused expand) hn'
  | choice step chosen =>
    cases stepped_of step with
    | split linear marked unused expand =>
      have hused := h.quiet.beta _ marked.mem_entries id _ _ (Signed.expansion?_of_expand expand)
      simp [unused] at hused

namespace Unfolding

theorem down_up (h : Unfolding a up down b c) : down (up a) = a := (h.mirrors.home a h.member).2

theorem edge_iff (h : Unfolding a up down b c) (hw : w ∈ b.worlds) :
    ⟨up w, up a⟩ ∈ c.edges ↔ ⟨w, a⟩ ∈ b.edges := by
  constructor
  · intro hd
    simpa [h.down_up, (h.mirrors.home w hw).2] using h.mirrors.edges _ hd
  · intro hd
    obtain ⟨x, hx, hdown⟩ := h.mirrors.links _ hd
    obtain ⟨rfl, -⟩ := h.parent _ hx hdown
    exact hx

theorem isOriginal_of_linear {rule : Rule} {premise : Signed} {cs : List Signed}
    (h : Unfolding a up down b c) (he : e ∈ c.entries)
    (due : c.linear? e = some ((rule, premise, cs), e')) : isOriginal up down e := by
  obtain ⟨unused, -, ⟨expand, -⟩ | ⟨sign, f, expand, waiting, -⟩⟩ := linear?_eq_some due
  · have hworld := h.right.alpha e he unused cs (Signed.expansion?_of_expand expand)
    simp [isOriginal, hworld, h.down_up]
  · obtain ⟨v, hv⟩ := List.exists_mem_of_ne_nil _ waiting
    have hx := Signed.expansion?_of_expand expand
    obtain rfl := h.right.spread e he sign f hx v hv
    exact decide_eq_true (h.parent _ (mem_unreached.mp hv).1 h.down_up).2

theorem isOriginal_of_choice {rule : Rule} {premise left right : Signed}
    (h : Unfolding a up down b c) (he : e ∈ c.entries)
    (due : alternatives? e = some ((rule, premise, left, right), e')) : isOriginal up down e := by
  obtain ⟨unused, -, expand, -⟩ := alternatives?_eq_some due
  have hworld := h.right.beta e he unused _ _ (Signed.expansion?_of_expand expand)
  simp [isOriginal, hworld, h.down_up]

theorem mem_unreached_iff (h : Unfolding a up down b c) (hw : e.signed.world ∈ b.worlds)
    (htwin : Twin (Abreast a up) up down e e') :
    up a ∈ c.unreached e' ↔ a ∈ b.unreached e := by
  have hreached : a ∈ e.reached ↔ up a ∈ e'.reached := htwin.waits
  rw [mem_unreached, mem_unreached, htwin.signed, Signed.world_moved, h.edge_iff hw, hreached]

/-- A rule about every successor has one world to go to on each side. -/
theorem lockstep_of_spread {rule : Rule} (h : Unfolding a up down b c) (ht : b.Tidy)
    (he : e ∈ b.entries) (he' : e' ∈ c.entries) (htwin : Twin (Abreast a up) up down e e')
    (unused : e.used = false) (expand : e.signed.expand = some (rule, .everySuccessor sign f)) :
    Lockstep a up down b c e e' := by
  have expand' : e'.signed.expand = some (rule, .everySuccessor sign f) := by
    rw [htwin.signed]
    exact Signed.everySuccessor_moved.mpr expand
  have unused' := htwin.used.trans unused
  have hl := h.left.unreached_eq he (Signed.expansion?_of_expand expand)
  have hr := h.right.unreached_eq he' (Signed.expansion?_of_expand expand')
  have hiff := h.mem_unreached_iff (ht.world_mem _ (signed_mem he)) htwin
  by_cases hw : a ∈ b.unreached e
  · rw [if_pos hw] at hl
    rw [if_pos (hiff.mpr hw)] at hr
    have htwin' : Twin (Abreast a up) up down { e with reached := e.reached.insertMany [a] }
        { e' with reached := e'.reached.insertMany [up a] } := by
      refine ⟨htwin.signed, htwin.used, fun v hv => ?_, by simp [Abreast, Ascending.mem_insertMany]⟩
      rcases Ascending.mem_insertMany.mp hv with hv | hv
      · obtain rfl := List.mem_singleton.mp hv
        exact ⟨up v, Ascending.mem_insertMany.mpr (.inl (by simp)), h.down_up⟩
      · obtain ⟨x, hx, hdown⟩ := htwin.reached v hv
        exact ⟨x, Ascending.mem_insertMany.mpr (.inr hx), hdown⟩
    refine .both rule [⟨a, sign, f⟩] ?_ ?_ htwin' rfl rfl (by simp)
    · simp [linear?, unused, expand, hl]
    · simp [linear?, unused', expand', hr, Signed.moved]
  · rw [if_neg hw] at hl
    rw [if_neg (hiff.not.mpr hw)] at hr
    exact .neither (by simp [linear?, expand, hl]) (by simp [linear?, expand', hr])

theorem lockstep (h : Unfolding a up down b c) (ht : b.Tidy) (he : e ∈ b.entries)
    (he' : e' ∈ c.entries) (htwin : Twin (Abreast a up) up down e e') :
    Lockstep a up down b c e e' := by
  have expand' : e'.signed.expand = e.signed.expand.map fun x => (x.1, x.2.moved up) := by
    rw [htwin.signed, Signed.expand_moved]
  cases unused : e.used with
  | true => exact .neither (by simp [linear?, unused]) (by simp [linear?, htwin.used, unused])
  | false =>
    cases expand : e.signed.expand with
    | none => exact .neither (by simp [linear?, expand]) (by simp [linear?, expand', expand])
    | some x =>
      rw [expand] at expand'
      obtain ⟨rule, x⟩ := x
      cases x with
      | alpha cs =>
        have htwin' : Twin (Abreast a up) up down { e with used := true } { e' with used := true } :=
          ⟨htwin.signed, rfl, htwin.reached, htwin.waits⟩
        refine .both rule cs ?_ ?_ htwin' rfl rfl fun s hs => ?_
        · simp [linear?, unused, expand]
        · simp [linear?, htwin.used, unused, expand', Expansion.moved]
        · have hx := Signed.expansion?_of_expand expand
          rw [(Signed.alpha_conclusion hx hs).1]
          exact h.left.alpha e he unused cs hx
      | everySuccessor sign f => exact h.lockstep_of_spread ht he he' htwin unused expand
      | _ =>
        exact .neither (by simp [linear?, expand]) (by simp [linear?, expand', Expansion.moved])

theorem foldl_add {e₁ e₁' : Entry} {l₁ l₂ k₁ k₂ : List Entry} (h : Unfolding a up down b c)
    (hb : b.entries = l₁ ++ e :: l₂) (hc : c.entries = k₁ ++ e' :: k₂)
    (ho : isOriginal up down e')
    (h₁ : List.Forall₂ (Twin (Abreast a up) up down) l₁ (k₁.filter (isOriginal up down)))
    (h₂ : List.Forall₂ (Twin (Abreast a up) up down) l₂ (k₂.filter (isOriginal up down)))
    (htwin : Twin (Abreast a up) up down e₁ e₁') (hs : e₁.signed = e.signed)
    (hs' : e₁'.signed = e'.signed) (hl : ∀ s ∈ l, s.world = a)
    (left : Frontier a (l.foldl add { b with entries := l₁ ++ e₁ :: l₂ }))
    (right : Frontier (up a)
      ((l.map (·.moved up)).foldl add { c with entries := k₁ ++ e₁' :: k₂ })) :
    Unfolding a up down (l.foldl add { b with entries := l₁ ++ e₁ :: l₂ })
      ((l.map (·.moved up)).foldl add { c with entries := k₁ ++ e₁' :: k₂ }) := by
  refine ⟨?_, (grows_foldl_add _ l).worlds a h.member, ?_, left, right⟩
  · refine (h.mirrors.mark_both hb hc ho h₁ h₂ htwin hs hs').foldl_add fun s hs => ⟨?_, ?_⟩
    · exact hl s hs ▸ h.member
    · simp [Abreast, Entry.ofSigned]
  · rw [edges_foldl_add]
    exact h.parent

theorem linearDone (h : Unfolding a up down b c) (ht : b.Tidy) (hc : c.LinearDone) :
    b.LinearDone := by
  intro e he
  obtain ⟨e', he', -, htwin⟩ := h.mirrors.twin_right he
  cases h.lockstep ht he he' htwin with
  | neither left => exact left
  | both _ _ left right => simp [hc e' he'] at right

theorem choiceDone (h : Unfolding a up down b c) (hc : c.ChoiceDone) : b.ChoiceDone := by
  intro e he
  obtain ⟨e', he', -, htwin⟩ := h.mirrors.twin_right he
  exact htwin.alternatives?_eq_none.mp (hc e' he')

theorem next_of_linear {k₁ k₂ : List Entry} {rule : Rule} {premise : Signed} {cs : List Signed}
    {marked : Entry} (h : Unfolding a up down b c) (ht : b.Tidy)
    (entries : c.entries = k₁ ++ e' :: k₂) (first : ∀ x ∈ k₁, c.linear? x = none)
    (due : c.linear? e' = some ((rule, premise, cs), marked)) (hn : Next true b b') :
    ∃ c', Next false c c' ∧ Unfolding a up down b' c' := by
  have he' : e' ∈ c.entries := by simp [entries]
  have ho := h.isOriginal_of_linear he' due
  obtain ⟨l₁, e, l₂, he, h₁, htwin, h₂⟩ := h.mirrors.split_original entries ho
  have hmem : e ∈ b.entries := by simp [he]
  have hfirst : ∀ x ∈ l₁, b.linear? x = none := by
    intro x hx
    obtain ⟨y, hy, hxy⟩ := exists_right_of_forall₂ h₁ hx
    have hy := (List.mem_filter.mp hy).1
    cases h.lockstep ht (by simp [he, hx]) (by simp [entries, hy]) hxy with
    | neither left => exact left
    | both _ _ left right => simp [first y hy] at right
  cases h.lockstep ht hmem he' htwin with
  | neither left right => simp [due] at right
  | both rule cs left right twin signed signed' worlds =>
    obtain ⟨inferences, hstep⟩ : ∃ inferences, b.step true = .extended inferences _ :=
      step_of_linear he hfirst left
    obtain ⟨inferences', hstep'⟩ : ∃ inferences, c.step false = .extended inferences _ :=
      step_of_linear entries first right
    obtain rfl := hn.eq_of_extended hstep
    refine ⟨_, .extended hstep', h.foldl_add he entries ho h₁ h₂ twin signed signed' worlds ?_ ?_⟩
    · exact (h.left.extended hstep).resolve_right fun done => by simp [done.1 e hmem] at left
    · exact (h.right.extended hstep').resolve_right fun done => by simp [done.1 e' he'] at right

/-- Of two alternatives the right side takes the one that the left side took. -/
theorem next_of_choice {k₁ k₂ : List Entry} {rule : Rule} {premise left right : Signed}
    {marked : Entry} (h : Unfolding a up down b c) (ht : b.Tidy) (linear : c.LinearDone)
    (entries : c.entries = k₁ ++ e' :: k₂) (first : ∀ x ∈ k₁, alternatives? x = none)
    (due : alternatives? e' = some ((rule, premise, left, right), marked))
    (hn : Next true b b') : ∃ c', Next false c c' ∧ Unfolding a up down b' c' := by
  have he' : e' ∈ c.entries := by simp [entries]
  have ho := h.isOriginal_of_choice he' due
  have hstep' : c.step false = _ := step_of_choice linear entries first due
  obtain ⟨unused, rfl, expand, rfl⟩ := alternatives?_eq_some due
  obtain ⟨l₁, e, l₂, he, h₁, htwin, h₂⟩ := h.mirrors.split_original entries ho
  have hmem : e ∈ b.entries := by simp [he]
  have hfirst : ∀ x ∈ l₁, alternatives? x = none := by
    intro x hx
    obtain ⟨y, hy, hxy⟩ := exists_right_of_forall₂ h₁ hx
    exact hxy.alternatives?_eq_none.mp (first y (List.mem_filter.mp hy).1)
  rw [htwin.signed] at expand
  obtain ⟨left, right, hx, rfl, rfl⟩ := Signed.beta_of_moved expand
  have hunused : e.used = false := htwin.used.symm.trans unused
  have hstep : b.step true = _ := step_of_choice (h.linearDone ht linear) he hfirst
    (show alternatives? e = some ((rule, e.signed, left, right), { e with used := true }) by
      simp [alternatives?, hunused, hx])
  cases hn with
  | extended step => simp [hstep] at step
  | @choice _ _ left' right' after s step chosen =>
    rw [hstep] at step
    cases step
    have hexp := Signed.expansion?_of_expand hx
    have hchosen : s.moved up = left.moved up ∨ s.moved up = right.moved up :=
      chosen.imp (congrArg _) (congrArg _)
    have hworld : s.world = a := by
      rw [Signed.world_of_alternative hexp chosen]
      exact h.left.beta e hmem hunused _ _ hexp
    have hmarked : Twin (Abreast a up) up down { e with used := true } { e' with used := true } :=
      ⟨htwin.signed, rfl, htwin.reached, htwin.waits⟩
    exact ⟨_, .choice hstep' hchosen, h.foldl_add (l := [s]) he entries ho h₁ h₂ hmarked rfl rfl
      (by simpa using hworld) (h.left.choice hstep chosen) (h.right.choice hstep' hchosen)⟩

theorem next (h : Unfolding a up down b c) (ht : b.Tidy) (hb : b.Backed []) (hn : Next true b b') :
    Resting up down b c ∨ ∃ c', Next false c c' ∧ Unfolding a up down b' c' := by
  cases c.due with
  | linear entries first due => exact .inr (h.next_of_linear ht entries first due hn)
  | choice linear entries first due => exact .inr (h.next_of_choice ht linear entries first due hn)
  | rest linear choice =>
    have hq := quiet_of_done hb (h.linearDone ht linear) (h.choiceDone choice)
    exact .inl ⟨h.mirrors.weaken, hq, linear, choice⟩

end Unfolding

-- ---------------------------------------------------------------------------
-- Paths
-- ---------------------------------------------------------------------------

/-- A run down a tableau: no step is made on a closed branch. -/
inductive Path (blocking : Bool) : Nat → Branch → Branch → Prop
  | refl (b : Branch) : Path blocking 0 b b
  | head {n b b' b''} (unclosed : b.clash = none) (first : Next blocking b b')
      (rest : Path blocking n b' b'') : Path blocking (n + 1) b b''

section

variable {blocking : Bool} {k m : Nat} {b'' : Branch} {p : Pending}

theorem Path.trans (h : Path blocking m b b') (h' : Path blocking n b' b'') :
    Path blocking (m + n) b b'' := by
  induction h with
  | refl => rwa [Nat.zero_add]
  | head unclosed first _ ih =>
    rw [Nat.add_right_comm]
    exact .head unclosed first (ih h')

theorem Path.run (h : Path blocking n b b') : Run blocking n b b' := by
  induction h with
  | refl b => exact .refl b
  | head _ first _ ih => exact .head first ih

theorem Grows.unclosed (hg : b.Grows b') (ht : b.Tidy) (ht' : b'.Tidy) (h : b'.clash = none) :
    b.clash = none := by
  cases hc : b.clash with
  | none => rfl
  | some s =>
    obtain ⟨hs, hs'⟩ := ht.clashing s hc
    exact absurd (hg.mem hs') (ht'.consistent h s (hg.mem hs))

theorem Run.path (hr : Run blocking n b b') (hb : Reachable p b) (h : b'.clash = none) :
    Path blocking n b b' := by
  induction hr with
  | refl b => exact .refl b
  | head first rest ih =>
    have hnext := hb.next first
    have hu := (first.grows.trans rest.grows).unclosed hb.tidy (hnext.run rest).tidy h
    exact .head hu first (ih hnext h)

end

-- ---------------------------------------------------------------------------
-- Whole paths
-- ---------------------------------------------------------------------------

theorem Mirrors.refl (hW : ∀ e ∈ b.entries, W e e) : Mirrors W id id b b := by
  have hsame : b.entries.filter (isOriginal id id) = b.entries := by simp [isOriginal]
  refine ⟨fun w hw => ⟨hw, rfl⟩, fun x hx => hx, fun s hs => hs, fun d hd => hd,
    fun d hd => ⟨d.target, hd, rfl⟩, ?_, fun l₁ s l₂ _ => ?_⟩
  · rw [hsame, List.forall₂_same]
    exact fun e he => ⟨rfl, rfl, fun v hv => ⟨v, hv, rfl⟩, hW e he⟩
  · exact List.mem_append_right _ (List.mem_singleton_self s)

theorem matched_ofRoot (root : Signed) : Matched id id (ofRoot root) (ofRoot root) := by
  refine .inr ⟨root.world, .refl fun e _ => .rfl, ?_, fun d hd => ?_, frontier_ofRoot root,
    frontier_ofRoot root⟩
  · exact (Reachable.ofRoot root).tidy.world_mem root mem_add_self
  · simp [ofRoot, empty] at hd

namespace Matched

theorem mirrors (h : Matched up down b c) : Mirrors (fun _ _ => True) up down b c := by
  rcases h with h | ⟨a, h⟩
  · exact h.mirrors
  · exact h.mirrors.weaken

/-- A step on the left that closes the branch is made on both sides at once; so on the right nothing
goes on behind a contradiction. -/
theorem next (h : Matched up down b c) (hb : Grounded root b) (hc : Grounded root c)
    (hu : b.clash = none) (hn : Next true b b') :
    ∃ n c' up' down', Path false n c c' ∧ Matched up' down' b' c' := by
  have hrest : ∀ {down}, Resting up down b c →
      ∃ n c' up' down', Path false n c c' ∧ Matched up' down' b' c' := by
    intro down h
    obtain ⟨n, c', up', down', hr, h', hu'⟩ := h.next hb hc hn
    have hclash := h'.mirrors.clash_eq_none (hb.next hn).tidy (hc.run hr).tidy (hu' hu)
    exact ⟨n, c', up', down', hr.path hc.rooted.reachable hclash, h'⟩
  rcases h with h | ⟨a, h⟩
  · exact hrest h
  · rcases h.next hb.tidy hb.backed hn with h' | ⟨c', hn', h'⟩
    · exact hrest h'
    · have hclash := h.mirrors.clash_eq_none hb.tidy hc.tidy hu
      exact ⟨1, c', up, down, .head hclash hn' (.refl c'), .inr ⟨a, h'⟩⟩

theorem path {k : Nat} (h : Matched up down b c) (hb : Grounded root b) (hc : Grounded root c)
    (hp : Path true k b b') :
    ∃ n c' up' down', Path false n c c' ∧ Matched up' down' b' c' := by
  induction hp generalizing c up down with
  | refl => exact ⟨0, c, up, down, .refl c, h⟩
  | head unclosed first _ ih =>
    obtain ⟨m, c₁, up₁, down₁, hp₁, h₁⟩ := h.next hb hc unclosed first
    obtain ⟨n, c', up', down', hp', h'⟩ :=
      ih h₁ (hb.next first) (hc.run hp₁.run)
    exact ⟨m + n, c', up', down', hp₁.trans hp', h'⟩

end Matched

/-- For every path with blocking there is one without that has as many steps and as many worlds, and
ends without a contradiction if the first does. -/
theorem exists_unblocked_path {k : Nat} (hp : Path true k (ofRoot root) b) :
    ∃ n c, Path false n (ofRoot root) c ∧ k ≤ n ∧ b.worlds.size ≤ c.worlds.size ∧
      (b.clash = none → c.clash = none) := by
  obtain ⟨n, c, up, down, hp', h⟩ := (matched_ofRoot root).path (grounded_ofRoot root)
    (grounded_ofRoot root) hp
  have hmirrors := h.mirrors
  have ht := ((Reachable.ofRoot root).run hp.run).tidy
  have ht' := ((Reachable.ofRoot root).run hp'.run).tidy
  refine ⟨n, c, hp', ?_, hmirrors.worlds_size_le, hmirrors.clash_eq_none ht ht'⟩
  calc k ≤ (ofRoot root).marks + k := Nat.le_add_left _ _
    _ ≤ b.marks := le_marks_of_run hp.run
    _ ≤ c.marks := hmirrors.marks_le
    _ ≤ n := marks_le_of_run hp'.run

end ModalTableau.Branch
