import Mathlib.Algebra.Order.BigOperators.Group.Finset
import Mathlib.Data.Finset.Prod
import Mathlib.Data.Prod.Lex
import ModalTableau.Proofs.Ranks
import ModalTableau.Proofs.TableauLaws

/-!
# Growth comes to an end

Every step uses up a rule at some world or takes a rule about every successor to one that it had not
reached. A rule that is used up may bring a new world, but one of lower rank. So a sum over the
worlds, in which a world of higher rank weighs more than all the rules of a lower one together, goes
down with every rule that is used up (`potential`), and while it stays the worlds stay too and fewer
successors are left to be reached (`backlog`). Hence all runs from a root are bounded together, and
with ceilings above the bound every tableau is finished.
-/

namespace ModalTableau

/-- The subformulas with either sign: the most that can be said at one world. -/
def Formula.slots (φ : Formula) : Finset (Sign × Formula) := {.T, .F} ×ˢ φ.subformulas.toFinset

@[simp] theorem Formula.mem_slots {φ f : Formula} {sign : Sign} :
    (sign, f) ∈ φ.slots ↔ f ∈ φ.subformulas := by
  cases sign <;> simp [slots]

namespace Branch

variable {φ f : Formula} {rank rank' : World → Nat} {b b' after : Branch} {blocking : Bool}
  {s : Signed}
  {e e' : Entry} {v w : World}

-- ---------------------------------------------------------------------------
-- Records only advance
-- ---------------------------------------------------------------------------

def Used (b : Branch) (s : Signed) : Prop := ∃ e ∈ b.entries, e.signed = s ∧ e.used = true

def Reached (b : Branch) (s : Signed) (v : World) : Prop :=
  ∃ e ∈ b.entries, e.signed = s ∧ v ∈ e.reached

instance : Decidable (b.Used s) :=
  inferInstanceAs (Decidable (∃ e ∈ b.entries, e.signed = s ∧ e.used = true))

instance : Decidable (b.Reached s v) :=
  inferInstanceAs (Decidable (∃ e ∈ b.entries, e.signed = s ∧ v ∈ e.reached))

/-- What has been done on `b` has been done on `b'`. -/
structure Advances (b b' : Branch) : Prop where
  used : ∀ s, b.Used s → b'.Used s
  reached : ∀ s v, b.Reached s v → b'.Reached s v

theorem Advances.trans (h : b.Advances b') (h' : b'.Advances after) : b.Advances after :=
  ⟨fun s hs => h'.used s (h.used s hs), fun s v hs => h'.reached s v (h.reached s v hs)⟩

theorem advances_of_entries (h : ∀ e ∈ b.entries, e ∈ b'.entries) : b.Advances b' :=
  ⟨fun _ ⟨e, he, hs⟩ => ⟨e, h e he, hs⟩, fun _ _ ⟨e, he, hs⟩ => ⟨e, h e he, hs⟩⟩

theorem Marked.advances (h : Marked b e e' b') (hu : e.used = true → e'.used = true)
    (hr : ∀ v ∈ e.reached, v ∈ e'.reached) : b.Advances b' := by
  constructor
  · rintro s ⟨x, hx, hs, hxu⟩
    rcases h.mem_or_eq hx with rfl | hx
    · exact ⟨e', h.mem_entries_new, h.signed_eq.trans hs, hu hxu⟩
    · exact ⟨x, hx, hs, hxu⟩
  · rintro s v ⟨x, hx, hs, hxv⟩
    rcases h.mem_or_eq hx with rfl | hx
    · exact ⟨e', h.mem_entries_new, h.signed_eq.trans hs, hr v hxv⟩
    · exact ⟨x, hx, hs, hxv⟩

theorem Tidy.entry_unique (h : b.Tidy) (he : e ∈ b.entries) (he' : e' ∈ b.entries)
    (hs : e.signed = e'.signed) : e = e' :=
  List.inj_on_of_nodup_map h.nodup he he' hs

theorem Tidy.not_used (h : b.Tidy) (he : e ∈ b.entries) (hu : e.used = false) :
    ¬ b.Used e.signed := by
  rintro ⟨x, hx, hs, hxu⟩
  obtain rfl := h.entry_unique hx he hs
  simp [hu] at hxu

theorem Tidy.not_reached (h : b.Tidy) (he : e ∈ b.entries) (hv : v ∉ e.reached) :
    ¬ b.Reached e.signed v := by
  rintro ⟨x, hx, hs, hxv⟩
  obtain rfl := h.entry_unique hx he hs
  exact hv hxv

-- ---------------------------------------------------------------------------
-- Potential and backlog
-- ---------------------------------------------------------------------------

def worldSet (b : Branch) : Finset World := b.worlds.toList.toFinset

@[simp] theorem mem_worldSet : w ∈ b.worldSet ↔ w ∈ b.worlds := List.mem_toFinset

/-- How many rules may still be used up at a world. -/
def idle (φ : Formula) (b : Branch) (w : World) : Nat :=
  (φ.slots.filter fun k => ¬ b.Used ⟨w, k.1, k.2⟩).card

def potential (φ : Formula) (rank : World → Nat) (b : Branch) : Nat :=
  ∑ w ∈ b.worldSet, b.idle φ w * (φ.slots.card + 1) ^ rank w

/-- How many times a rule may still reach a successor if no world is added. -/
def backlog (φ : Formula) (b : Branch) : Nat :=
  ((b.worldSet ×ˢ φ.slots ×ˢ b.worldSet).filter fun x =>
    ¬ b.Reached ⟨x.1, x.2.1.1, x.2.1.2⟩ x.2.2).card

theorem Advances.idle_le (h : b.Advances b') (φ : Formula) (w : World) : b'.idle φ w ≤ b.idle φ w :=
  Finset.card_le_card (Finset.monotone_filter_right _ fun _ _ hn hu => hn (h.used _ hu))

structure Consumes (b b' : Branch) (s : Signed) : Prop where
  advances : b.Advances b'
  mem : s ∈ b
  unused : ¬ b.Used s
  used : b'.Used s

theorem Marked.consumes (h : Marked b e { e with used := true } b') (ht : b.Tidy)
    (hu : e.used = false) (he : ∀ x ∈ b'.entries, x ∈ after.entries) :
    b.Consumes after e.signed where
  advances := (h.advances (fun _ => rfl) fun _ => id).trans (advances_of_entries he)
  mem := signed_mem h.mem_entries
  unused := ht.not_used h.mem_entries hu
  used := ⟨_, he _ h.mem_entries_new, rfl, rfl⟩

theorem Consumes.idle_lt (h : b.Consumes b' s) (hs : s.formula ∈ φ.subformulas) :
    b'.idle φ s.world < b.idle φ s.world := by
  refine Finset.card_lt_card (Finset.ssubset_iff_of_subset ?_ |>.mpr ⟨(s.sign, s.formula), ?_, ?_⟩)
  · exact Finset.monotone_filter_right _ fun _ _ hn hu => hn (h.advances.used _ hu)
  · exact Finset.mem_filter.mpr ⟨Formula.mem_slots.mpr hs, h.unused⟩
  · exact fun hm => (Finset.mem_filter.mp hm).2 h.used

/-- Using up a rule at a world takes away the weight of that world. -/
theorem Consumes.sum_idle_le (h : b.Consumes b' s) (hs : s.formula ∈ φ.subformulas)
    {W : Finset World} (hw : s.world ∈ W) (g : World → Nat) :
    ∑ w ∈ W, b'.idle φ w * g w + g s.world ≤ ∑ w ∈ W, b.idle φ w * g w := by
  rw [← Finset.add_sum_erase W _ hw, ← Finset.add_sum_erase W (fun w => b.idle φ w * g w) hw]
  have hlt : (b'.idle φ s.world + 1) * g s.world ≤ b.idle φ s.world * g s.world :=
    Nat.mul_le_mul_right _ (h.idle_lt hs)
  have hrest : ∑ w ∈ W.erase s.world, b'.idle φ w * g w ≤ ∑ w ∈ W.erase s.world, b.idle φ w * g w :=
    Finset.sum_le_sum fun w _ => Nat.mul_le_mul_right _ (h.advances.idle_le φ w)
  rw [Nat.succ_mul] at hlt
  omega

theorem sum_congr_rank (b' : Branch) (hold : ∀ w ∈ b.worlds, rank' w = rank w) :
    ∑ w ∈ b.worldSet, b'.idle φ w * (φ.slots.card + 1) ^ rank' w =
      ∑ w ∈ b.worldSet, b'.idle φ w * (φ.slots.card + 1) ^ rank w :=
  Finset.sum_congr rfl fun w hw => by rw [hold w (mem_worldSet.mp hw)]

theorem Consumes.potential_lt (h : b.Consumes b' s) (hr : Ranked φ rank b)
    (hworlds : b'.worldSet = b.worldSet) (hold : ∀ w ∈ b.worlds, rank' w = rank w) :
    b'.potential φ rank' < b.potential φ rank := by
  have hw : s.world ∈ b.worldSet := mem_worldSet.mpr (hr.reachable.tidy.world_mem s h.mem)
  have hle := h.sum_idle_le (hr.mem_subformulas h.mem) hw fun w => (φ.slots.card + 1) ^ rank w
  have hpos : 0 < (φ.slots.card + 1) ^ rank s.world := Nat.pow_pos (Nat.succ_pos _)
  unfold potential
  rw [hworlds, sum_congr_rank b' hold]
  omega

/-- The new world weighs less than what made room for it, however much is said there. -/
theorem Consumes.potential_lt_of_fresh (h : b.Consumes b' s) (hr : Ranked φ rank b)
    (hw : w ∉ b.worlds) (hworlds : b'.worldSet = insert w b.worldSet)
    (hold : ∀ w ∈ b.worlds, rank' w = rank w) (hrank : rank s.world = rank' w + 1) :
    b'.potential φ rank' < b.potential φ rank := by
  have hs : s.world ∈ b.worldSet := mem_worldSet.mpr (hr.reachable.tidy.world_mem s h.mem)
  have hle := h.sum_idle_le (hr.mem_subformulas h.mem) hs fun w => (φ.slots.card + 1) ^ rank w
  have hidle : b'.idle φ w < φ.slots.card + 1 := Nat.lt_succ_of_le (Finset.card_filter_le _ _)
  have hnew : b'.idle φ w * (φ.slots.card + 1) ^ rank' w < (φ.slots.card + 1) ^ rank s.world := by
    rw [hrank, Nat.pow_succ']
    exact Nat.mul_lt_mul_of_pos_right hidle (Nat.pow_pos (Nat.succ_pos _))
  unfold potential
  rw [hworlds, Finset.sum_insert (by simpa using hw), sum_congr_rank b' hold]
  omega

-- ---------------------------------------------------------------------------
-- Steps
-- ---------------------------------------------------------------------------

theorem worldSet_foldl_add {l : List Signed} (h : ∀ s ∈ l, s.world ∈ b.worlds) :
    (l.foldl add b).worldSet = b.worldSet := by
  ext w
  rw [mem_worldSet, mem_worldSet]
  refine ⟨fun hw => ?_, (grows_foldl_add b l).worlds w⟩
  rcases mem_worlds_foldl_add hw with hw | ⟨s, hs, rfl⟩
  · exact hw
  · exact h s hs

theorem Marked.worldSet_eq (h : Marked b e e' b') : b'.worldSet = b.worldSet := by
  rw [worldSet, h.worlds_eq, worldSet]

/-- The pair that goes down with every step. -/
def remaining (φ : Formula) (rank : World → Nat) (b : Branch) : Nat ×ₗ Nat :=
  toLex (b.potential φ rank, b.backlog φ)

theorem remaining_lt_of_potential (h : b'.potential φ rank' < b.potential φ rank) :
    b'.remaining φ rank' < b.remaining φ rank :=
  Prod.Lex.toLex_lt_toLex.mpr (.inl h)

theorem remaining_lt_of_backlog (h : b'.potential φ rank' ≤ b.potential φ rank)
    (h' : b'.backlog φ < b.backlog φ) : b'.remaining φ rank' < b.remaining φ rank := by
  rcases Nat.lt_or_eq_of_le h with h | h
  · exact remaining_lt_of_potential h
  · exact Prod.Lex.toLex_lt_toLex.mpr (.inr ⟨h, h'⟩)

theorem Advances.potential_le (h : b.Advances b') (hworlds : b'.worldSet = b.worldSet)
    (hold : ∀ w ∈ b.worlds, rank' w = rank w) : b'.potential φ rank' ≤ b.potential φ rank := by
  unfold potential
  rw [hworlds, sum_congr_rank b' hold]
  exact Finset.sum_le_sum fun w _ => Nat.mul_le_mul_right _ (h.idle_le φ w)

theorem Advances.backlog_lt (h : b.Advances b') (hworlds : b'.worldSet = b.worldSet)
    (hs : s.formula ∈ φ.subformulas) (hw : s.world ∈ b.worlds) (hv : v ∈ b.worlds)
    (hn : ¬ b.Reached s v) (hr : b'.Reached s v) : b'.backlog φ < b.backlog φ := by
  unfold backlog
  rw [hworlds]
  refine Finset.card_lt_card (Finset.ssubset_iff_of_subset ?_ |>.mpr
    ⟨(s.world, (s.sign, s.formula), v), ?_, ?_⟩)
  · exact Finset.monotone_filter_right _ fun _ _ hn hr => hn (h.reached _ _ hr)
  · simp only [Finset.mem_filter, Finset.mem_product, mem_worldSet, Formula.mem_slots]
    exact ⟨⟨hw, hs, hv⟩, hn⟩
  · exact fun hm => (Finset.mem_filter.mp hm).2 hr

theorem Ranked.spread_lt {sign : Sign} (h : Ranked φ rank b)
    (hold : ∀ w ∈ b.worlds, rank' w = rank w)
    (hm : Marked b e { e with reached := e.reached.insertMany (b.unreached e) } b')
    (hw : b.unreached e ≠ []) :
    (((b.unreached e).map (⟨·, sign, f⟩)).foldl add b').remaining φ rank' < b.remaining φ rank := by
  have ht := h.reachable.tidy
  have hmem := signed_mem hm.mem_entries
  have hentries : ∀ x ∈ b'.entries,
      x ∈ (((b.unreached e).map (⟨·, sign, f⟩)).foldl add b').entries :=
    fun x hx => mem_entries_foldl_add hx
  have hadv : b.Advances (((b.unreached e).map (⟨·, sign, f⟩)).foldl add b') :=
    (hm.advances id fun v hv => Ascending.mem_insertMany.mpr (.inr hv)).trans
      (advances_of_entries hentries)
  have htarget : ∀ v ∈ b.unreached e, v ∈ b.worlds := fun v hv =>
    ht.target_mem _ (mem_unreached.mp hv).1
  have hworlds : (((b.unreached e).map (⟨·, sign, f⟩)).foldl add b').worldSet = b.worldSet := by
    refine (worldSet_foldl_add fun s hs => ?_).trans hm.worldSet_eq
    obtain ⟨v, hv, rfl⟩ := List.mem_map.mp hs
    exact hm.worlds_eq ▸ htarget v hv
  obtain ⟨v, hv⟩ := List.exists_mem_of_ne_nil _ hw
  refine remaining_lt_of_backlog (hadv.potential_le hworlds hold)
    (hadv.backlog_lt hworlds (h.mem_subformulas hmem) (ht.world_mem _ hmem) (htarget v hv) ?_ ?_)
  · exact ht.not_reached hm.mem_entries (mem_unreached.mp hv).2
  · exact ⟨_, hentries _ hm.mem_entries_new, rfl, Ascending.mem_insertMany.mpr (.inl hv)⟩

theorem Ranked.local_lt {l : List Signed} (h : Ranked φ rank b)
    (hold : ∀ w ∈ b.worlds, rank' w = rank w) (hm : Marked b e { e with used := true } b')
    (hu : e.used = false) (hl : ∀ s ∈ l, s.world = e.signed.world) :
    (l.foldl add b').remaining φ rank' < b.remaining φ rank := by
  have ht := h.reachable.tidy
  have hc : b.Consumes (l.foldl add b') e.signed :=
    hm.consumes ht hu fun x hx => mem_entries_foldl_add hx
  refine remaining_lt_of_potential (hc.potential_lt h ?_ hold)
  refine (worldSet_foldl_add fun s hs => ?_).trans hm.worldSet_eq
  rw [hl s hs, hm.worlds_eq]
  exact ht.world_mem _ hc.mem

theorem worldSet_addEdge {d : Edge} (hs : d.source ∈ b.worlds) :
    (b.addEdge d).worldSet = insert d.target b.worldSet := by
  ext w
  rw [mem_worldSet, mem_worlds_addEdge, Finset.mem_insert, mem_worldSet]
  constructor
  · rintro (rfl | rfl | hw)
    · exact .inl rfl
    · exact .inr hs
    · exact .inr hw
  · rintro (rfl | hw)
    · exact .inl rfl
    · exact .inr (.inr hw)

theorem Ranked.reuse_lt (h : Ranked φ rank b) (hold : ∀ w ∈ b.worlds, rank' w = rank w)
    (hm : Marked b e { e with used := true } b') (hu : e.used = false) (hv : v ∈ b'.worlds) :
    (b'.reuse ⟨e.signed.world, v⟩).remaining φ rank' < b.remaining φ rank := by
  have ht := h.reachable.tidy
  have hc : b.Consumes (b'.reuse ⟨e.signed.world, v⟩) e.signed :=
    hm.consumes ht hu fun x hx => by rwa [entries_reuse]
  refine remaining_lt_of_potential (hc.potential_lt h ?_ hold)
  have hsource := hm.worlds_eq ▸ ht.world_mem _ hc.mem
  rw [worldSet, worlds_reuse, ← worldSet, worldSet_addEdge hsource, ← hm.worldSet_eq]
  exact Finset.insert_eq_self.mpr (mem_worldSet.mpr hv)

theorem Ranked.fresh_lt {sign : Sign} (h : Ranked φ rank b)
    (hold : ∀ w ∈ b.worlds, rank' w = rank w)
    (hm : Marked b e { e with used := true } b') (hu : e.used = false)
    (hr : Ranked φ rank'
      ((b'.addEdge ⟨e.signed.world, b'.nextWorld⟩).add ⟨b'.nextWorld, sign, f⟩)) :
    ((b'.addEdge ⟨e.signed.world, b'.nextWorld⟩).add ⟨b'.nextWorld, sign, f⟩).remaining φ rank' <
      b.remaining φ rank := by
  have ht := h.reachable.tidy
  have hc : b.Consumes ((b'.addEdge ⟨e.signed.world, b'.nextWorld⟩).add ⟨b'.nextWorld, sign, f⟩)
      e.signed := hm.consumes ht hu fun x hx => mem_entries_add hx
  have hworld := ht.world_mem _ hc.mem
  have hsource : e.signed.world ∈ b'.worlds := hm.worlds_eq ▸ hworld
  have hnew : b'.nextWorld ∉ b.worlds := hm.worlds_eq ▸ nextWorld_not_mem
  -- The edge to the new world is not a reused one, so the ranks at its ends differ by one.
  have hrank : rank' e.signed.world = rank' b'.nextWorld + 1 := by
    refine hr.interprets.edges ⟨e.signed.world, b'.nextWorld⟩ (by simp) fun hd => ?_
    rw [reused_add] at hd
    exact nextWorld_not_mem ((hm.tidy ht).target_mem _ ((hm.tidy ht).reused_mem _ hd))
  rw [hold _ hworld] at hrank
  refine remaining_lt_of_potential (hc.potential_lt_of_fresh h hnew ?_ hold hrank)
  refine (worldSet_foldl_add (l := [_]) fun s hs => ?_).trans ?_
  · obtain rfl := List.mem_singleton.mp hs
    exact mem_worlds_addEdge.mpr (.inl rfl)
  · rw [worldSet_addEdge hsource, hm.worldSet_eq]

theorem Ranked.decreases (h : Ranked φ rank b) (hn : Next blocking b after)
    (hr : Ranked φ rank' after) (hold : ∀ w ∈ b.worlds, rank' w = rank w) :
    after.remaining φ rank' < b.remaining φ rank := by
  have ht := h.reachable.tidy
  cases hn with
  | extended step =>
    cases stepped_of step with
    | alpha marked unused expand =>
      rw [addAll_fst]
      exact h.local_lt hold marked unused fun c hc =>
        (Signed.alpha_conclusion (Signed.expansion?_of_expand expand) hc).1
    | spread marked unused expand waiting =>
      rw [addAll_fst]
      exact h.spread_lt hold marked waiting
    | reuse linear choice marked unused expand block blocker =>
      exact h.reuse_lt hold marked unused
        ((marked.tidy ht).world_mem _ (blocker?_eq_some blocker).1)
    | fresh linear choice marked unused expand unblocked => exact h.fresh_lt hold marked unused hr
  | choice step chosen =>
    cases stepped_of step with
    | split linear marked unused expand =>
      refine h.local_lt (l := [_]) hold marked unused fun c hc => ?_
      obtain rfl := List.mem_singleton.mp hc
      exact Signed.world_of_alternative (Signed.expansion?_of_expand expand) chosen

-- ---------------------------------------------------------------------------
-- Bounds
-- ---------------------------------------------------------------------------

/-- No run from `b` takes `N` steps or meets a branch with more than `N` worlds. -/
def Bounded (blocking : Bool) (b : Branch) (N : Nat) : Prop :=
  ∀ n b', Run blocking n b b' → n < N ∧ b'.worlds.size ≤ N

theorem Bounded.mono {M N : Nat} (h : Bounded blocking b M) (hMN : M ≤ N) : Bounded blocking b N :=
  fun n b' hr => ⟨Nat.lt_of_lt_of_le (h n b' hr).1 hMN, Nat.le_trans (h n b' hr).2 hMN⟩

/-- A step has at most two outcomes, so bounds for all of them give a common one. -/
theorem exists_bound_next (h : ∀ b', Next blocking b b' → ∃ N, Bounded blocking b' N) :
    ∃ N, ∀ b', Next blocking b b' → Bounded blocking b' N := by
  cases hs : b.step blocking with
  | extended inferences after =>
    obtain ⟨N, hN⟩ := h after (.extended hs)
    refine ⟨N, fun b' hn => ?_⟩
    cases hn with
    | extended step =>
      obtain ⟨-, rfl⟩ : inferences = _ ∧ after = b' := by simpa [hs] using step
      exact hN
    | choice step => simp [hs] at step
  | split rule premise left right after =>
    obtain ⟨M, hM⟩ := h _ (.choice hs (.inl rfl))
    obtain ⟨N, hN⟩ := h _ (.choice hs (.inr rfl))
    refine ⟨max M N, fun b' hn => ?_⟩
    cases hn with
    | extended step => simp [hs] at step
    | choice step chosen =>
      obtain ⟨-, -, rfl, rfl, rfl⟩ := by simpa [hs] using step
      rcases chosen with rfl | rfl
      · exact hM.mono (Nat.le_max_left M N)
      · exact hN.mono (Nat.le_max_right M N)
  | saturated =>
    refine ⟨0, fun b' hn => ?_⟩
    cases hn with
    | extended step => simp [hs] at step
    | choice step => simp [hs] at step

theorem Ranked.exists_bound (blocking : Bool) {rank : World → Nat} {b : Branch}
    (h : Ranked φ rank b) : ∃ N, Bounded blocking b N := by
  have hnext : ∀ b', Next blocking b b' → ∃ N, Bounded blocking b' N := by
    intro b' hn
    obtain ⟨rank', hr, hold⟩ := h.next hn
    have hlt := h.decreases hn hr hold
    exact hr.exists_bound blocking
  obtain ⟨N, hN⟩ := exists_bound_next hnext
  refine ⟨max (N + 1) b.worlds.size, fun n b' hr => ?_⟩
  cases hr with
  | refl => omega
  | head first rest =>
    obtain ⟨hsteps, hworlds⟩ := hN _ first _ _ rest
    omega
termination_by b.remaining φ rank
decreasing_by exact hlt

end Branch

namespace Tableau

open Branch (Run Bounded)

theorem grow_ok_of_bounded {limits : Limits} {seed : List Signed} {b : Branch} {n : Nat}
    (h : ∀ k b', Run limits.blocking k b b' → k < n ∧ b'.worlds.size ≤ limits.maxWorlds) :
    ∃ t, grow limits seed b n = .ok t := by
  induction n generalizing seed b with
  | zero => exact absurd (h 0 b (.refl b)).1 (Nat.not_lt_zero 0)
  | succ n ih =>
    rw [grow, Branch.growable_clash?, Branch.growable_step]
    cases hc : b.clash with
    | some clash => exact ⟨_, rfl⟩
    | none =>
      have hnext : ∀ {b₁}, Branch.Next limits.blocking b b₁ → ∀ k b',
          Run limits.blocking k b₁ b' → k < n ∧ b'.worlds.size ≤ limits.maxWorlds := by
        intro b₁ hn k b' hr
        obtain ⟨hk, hw⟩ := h (k + 1) b' (.head hn hr)
        exact ⟨Nat.lt_of_succ_lt_succ hk, hw⟩
      cases hs : b.step limits.blocking with
      | saturated => exact ⟨_, rfl⟩
      | split rule premise left right after =>
        obtain ⟨leftTree, hl⟩ : ∃ t, grow limits [left] (after.add left) n = .ok t :=
          ih (hnext (.choice hs (.inl rfl)))
        obtain ⟨rightTree, hr⟩ : ∃ t, grow limits [right] (after.add right) n = .ok t :=
          ih (hnext (.choice hs (.inr rfl)))
        exact ⟨_, bind_ok.mpr ⟨leftTree, hl, bind_ok.mpr ⟨rightTree, hr, rfl⟩⟩⟩
      | extended inferences after =>
        have hw := (h 1 after (.head (.extended hs) (.refl after))).2
        obtain ⟨t, ht⟩ : ∃ t, grow limits seed after n = .ok t := ih (hnext (.extended hs))
        simp only [Branch.growable_worldCount, Nat.not_lt.mpr hw, ↓reduceIte]
        exact ⟨_, map_ok.mpr ⟨t, ht, rfl⟩⟩

/-- From some number on the ceilings do not matter: all runs are shorter and have fewer worlds. -/
theorem growth_ends (root : Signed) (blocking : Bool) :
    ∃ N, (∀ n b, Run blocking n (.ofRoot root) b → n < N ∧ b.worlds.size ≤ N) ∧
      ∀ maxIterations ≥ N, ∀ maxWorlds ≥ N,
        ∃ t, build ⟨maxIterations, maxWorlds, blocking⟩ root = .ok t := by
  obtain ⟨N, hN⟩ := (Branch.ranked_ofRoot root).exists_bound blocking
  refine ⟨N, hN, fun maxIterations hi maxWorlds hw => grow_ok_of_bounded fun k b' hr => ?_⟩
  obtain ⟨hk, hb⟩ := hN k b' hr
  exact ⟨Nat.lt_of_lt_of_le hk hi, Nat.le_trans hb hw⟩

end Tableau
end ModalTableau
