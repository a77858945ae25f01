import Mathlib.Data.List.Perm.Subperm
import ModalTableau.Proofs.AscendingLaws
import ModalTableau.Proofs.Simulation
import ModalTableau.Verdict

/-!
# Ledgers follow branches

The index of a ledger, the positions of its contradiction and its count of worlds are right (`Sound`),
and every operation keeps them so (`Later`). What an operation does to a ledger is therefore what it
does to the branch in it (`branch_add`, `step_eq`), with one exception: behind the last number the
count starts again. While that number is not in use a tableau grows from a ledger as it does from a
branch (`grow_eq`), and with a root that leaves enough numbers it is never in use (`build_eq`), so in no
check (`Check.run_eq`).
-/

namespace ModalTableau

namespace Branch

variable {b b' : Branch} {blocking : Bool}

/-- The last number is not in use. -/
def InRange (b : Branch) : Prop := ∀ w ∈ b.worlds, w < World.last

instance (b : Branch) : Decidable b.InRange :=
  inferInstanceAs (Decidable (∀ w ∈ b.worlds.toList, w < World.last))

theorem addWorld_addEdge (b : Branch) (w : World) :
    b.addWorld.addEdge ⟨w, b.nextWorld⟩ = b.addEdge ⟨w, b.nextWorld⟩ := by
  have hworlds : (b.addWorld.addEdge ⟨w, b.nextWorld⟩).worlds =
      (b.addEdge ⟨w, b.nextWorld⟩).worlds := by
    refine Ascending.eq_of_mem_iff fun v => ?_
    simp only [mem_worlds_addEdge, addWorld, Ascending.mem_insert]
    tauto
  exact congrArg (fun worlds => { b.addEdge ⟨w, b.nextWorld⟩ with worlds }) hworlds

namespace Sprouted

variable {origin m n : Nat} {c : Branch}

theorem inRange (h : Sprouted origin m b) (hlast : origin + m < World.last) : b.InRange := by
  intro w hw
  rcases (h.worlds w).mp hw with rfl | rfl | ⟨-, hle⟩
  · exact Nat.lt_of_le_of_lt (Nat.zero_le _) hlast
  · exact Nat.lt_of_le_of_lt (Nat.le_add_right _ _) hlast
  · exact Nat.lt_of_le_of_lt hle hlast

/-- Worlds are numbered without gaps, so of two branches with one root the one with fewer worlds has no
world that the other has not. -/
theorem worlds_subset (h : Sprouted origin m b) (h' : Sprouted origin n c)
    (hsize : b.worlds.size ≤ c.worlds.size) : ∀ w ∈ b.worlds, w ∈ c.worlds := by
  rcases Nat.le_total m n with hle | hle
  · intro w hw
    exact (h'.worlds w).mpr (((h.worlds w).mp hw).imp id (.imp id (.imp id (by omega))))
  · -- With more new worlds on `b` the inclusion goes the other way, and the sizes make it an equality.
    have hsub : ∀ w ∈ c.worlds, w ∈ b.worlds := fun w hw =>
      (h.worlds w).mpr (((h'.worlds w).mp hw).imp id (.imp id (.imp id (by omega))))
    have hperm := (List.subperm_of_subset c.worlds.nodup hsub).perm_of_length_le hsize
    exact fun w hw => hperm.mem_iff.mpr hw

end Sprouted

end Branch

namespace Ledger

variable {l l' l'' : Ledger} {s x : Signed} {n : Nat} {blocking : Bool}

theorem signed?_eq (l : Ledger) (n : Nat) : l.signed? n = l.branch.formulas[n]? :=
  List.getElem?_map.symm

theorem exists_signed?_iff : (∃ n, l.signed? n = some s) ↔ s ∈ l.branch := by
  simp only [signed?_eq, Branch.mem_iff_formulas, List.mem_iff_getElem?]

theorem branch_clash (l : Ledger) : l.branch.clash = l.clash?.map (·.1) := rfl

theorem clash?_eq {p : Nat × Nat} {t f : Signed} (hc : l.clash = some p) (ht : l.signed? p.1 = some t)
    (hf : l.signed? p.2 = some f) : l.clash? = some (t, f) := by
  simp [clash?, hc, ht, hf]

theorem clash?_eq_none (hc : l.clash = none) : l.clash? = none := by simp [clash?, hc]

-- ---------------------------------------------------------------------------
-- Soundness
-- ---------------------------------------------------------------------------

structure Sound (l : Ledger) : Prop where
  position : ∀ s n, l.position? s = some n ↔ l.signed? n = some s
  sides : ∀ p, l.clash = some p →
    ∃ c, c.sign = .T ∧ l.signed? p.1 = some c ∧ l.signed? p.2 = some c.conjugate
  world_mem : ∀ s ∈ l.branch, s.world ∈ l.worlds
  /-- The count goes on from the largest number in use, unless that is the last. -/
  count : l.branch.InRange →
    (∀ w ∈ l.worlds, w < l.nextWorld) ∧ ∃ w ∈ l.worlds, l.nextWorld = w + 1

namespace Sound

theorem contains_eq (h : l.Sound) (s : Signed) : l.contains s = l.branch.contains s := by
  rw [Bool.eq_iff_iff, contains, Option.isSome_iff_exists, Branch.contains_iff, ← exists_signed?_iff]
  exact exists_congr fun n => h.position s n

theorem nextWorld_eq (h : l.Sound) (hr : l.branch.InRange) : l.nextWorld = l.branch.nextWorld :=
  (Branch.nextWorld_unique (h.count hr).1 (h.count hr).2).symm

theorem empty : Ledger.empty.Sound := by
  refine ⟨fun s n => ?_, fun p hp => ?_, fun s hs => ?_, fun _ => ⟨fun w hw => ?_, 0, ?_, rfl⟩⟩
  · simp [Ledger.empty, position?, signed?]
  · simp [Ledger.empty] at hp
  · simp [Ledger.empty, Branch.mem_iff_entry, branch] at hs
  · obtain rfl := Ascending.mem_singleton.mp hw
    exact Nat.one_pos
  · exact Ascending.mem_singleton.mpr rfl

end Sound

/-- `l'` has come out of `l` by operations that keep a ledger sound. -/
structure Later (l l' : Ledger) : Prop where
  worlds : ∀ w ∈ l.worlds, w ∈ l'.worlds
  sound : l.Sound → l'.Sound

namespace Later

theorem refl (l : Ledger) : l.Later l := ⟨fun _ h => h, id⟩

theorem trans (h : l.Later l') (h' : l'.Later l'') : l.Later l'' :=
  ⟨fun w hw => h'.worlds w (h.worlds w hw), fun hl => h'.sound (h.sound hl)⟩

theorem inRange (h : l.Later l') (hr : l'.branch.InRange) : l.branch.InRange :=
  fun w hw => hr w (h.worlds w hw)

theorem register (l : Ledger) (w : World) : l.Later (l.register w) := by
  refine ⟨fun v hv => Ascending.mem_insert.mpr (.inr hv), fun h => ⟨h.position, h.sides,
    fun s hs => Ascending.mem_insert.mpr (.inr (h.world_mem s hs)), fun hr => ?_⟩⟩
  have hw : w < World.last := hr w (Ascending.mem_insert.mpr (.inl rfl))
  obtain ⟨below, top, htop, heq⟩ := h.count fun v hv => hr v (Ascending.mem_insert.mpr (.inr hv))
  simp only [Ledger.register, Ascending.mem_insert, forall_eq_or_imp]
  split
  next hle =>
    rw [World.next, if_neg (Nat.ne_of_lt hw)]
    exact ⟨⟨Nat.lt_succ_self w, fun v hv =>
      Nat.lt_succ_of_lt (Nat.lt_of_lt_of_le (below v hv) hle)⟩, w, .inl rfl, rfl⟩
  next hlt => exact ⟨⟨Nat.lt_of_not_le hlt, below⟩, top, .inr htop, heq⟩

end Later

-- ---------------------------------------------------------------------------
-- Adding formulas
-- ---------------------------------------------------------------------------

theorem signed?_add_of_new (hs : l.contains s = false) (n : Nat) :
    (l.add s).2.signed? n = if n = l.entries.length then some s else l.signed? n := by
  have hentries : (l.add s).2.entries = l.entries ++ [.ofSigned s] := by simp [add, hs]
  rw [signed?, hentries]
  split
  next hn => simp [hn, Entry.ofSigned]
  next hn => rw [getElem?_concat_of_ne hn, signed?]

/-- Formulas keep their positions. -/
theorem signed?_add_of_some (hs : l.contains s = false) (h : l.signed? n = some x) :
    (l.add s).2.signed? n = some x := by
  rw [signed?_add_of_new hs, if_neg, h]
  rintro rfl
  simp [signed?] at h

/-- Of the two sides of a contradiction that `s` completes one is new. -/
theorem signed?_sides (hs : l.contains s = false) (h : l.signed? n = some s.conjugate) :
    (l.add s).2.signed? (sides s l.entries.length n).1 = some { s with sign := .T } ∧
      (l.add s).2.signed? (sides s l.entries.length n).2 = some { s with sign := .F } := by
  have hold := signed?_add_of_some hs h
  have hnew : (l.add s).2.signed? l.entries.length = some s := by
    rw [signed?_add_of_new hs, if_pos rfl]
  obtain ⟨w, sign, f⟩ := s
  cases sign
  · exact ⟨hnew, hold⟩
  · exact ⟨hold, hnew⟩

theorem clash_add_of_some {p : Nat × Nat} (hs : l.contains s = false) (hc : l.clash = some p) :
    (l.add s).2.clash = some p := by
  simp [add, hs, hc]

theorem clash_add_of_none (hs : l.contains s = false) (hc : l.clash = none) :
    (l.add s).2.clash = (l.position? s.conjugate).map (sides s l.entries.length) := by
  simp [add, hs, hc]

namespace Sound

theorem position_add (h : l.Sound) (hs : l.contains s = false) (x : Signed) (n : Nat) :
    (l.add s).2.position? x = some n ↔ (l.add s).2.signed? n = some x := by
  have hindex : (l.add s).2.index = (s, l.entries.length) :: l.index := by simp [add, hs]
  have habsent : ∀ n, l.signed? n ≠ some s := fun n hn => by
    simp [contains, (h.position s n).mpr hn] at hs
  have hlength : l.signed? l.entries.length = none := by simp [signed?]
  rw [signed?_add_of_new hs, position?, hindex, List.lookup_cons]
  -- Only `s` is new, and it stands behind all others.
  by_cases hx : x = s
  · subst hx
    grind
  · have hold := h.position x n
    grind [position?]

theorem sides_add (h : l.Sound) (hs : l.contains s = false) {p : Nat × Nat}
    (hp : (l.add s).2.clash = some p) : ∃ c, c.sign = .T ∧
      (l.add s).2.signed? p.1 = some c ∧ (l.add s).2.signed? p.2 = some c.conjugate := by
  cases hc : l.clash with
  | some q =>
    obtain ⟨c, hsign, ht, hf⟩ := h.sides q hc
    obtain rfl := Option.some.inj ((clash_add_of_some hs hc).symm.trans hp)
    exact ⟨c, hsign, signed?_add_of_some hs ht, signed?_add_of_some hs hf⟩
  | none =>
    rw [clash_add_of_none hs hc] at hp
    obtain ⟨n, hn, rfl⟩ := Option.map_eq_some_iff.mp hp
    obtain ⟨ht, hf⟩ := signed?_sides hs ((h.position _ n).mp hn)
    exact ⟨_, rfl, ht, hf⟩

/-- The contradiction is the one that the branch records. -/
theorem clash_branch_add (h : l.Sound) (hs : l.contains s = false) :
    (l.add s).2.branch.clash = (l.branch.clash <|> l.branch.clashWith? s) := by
  rw [branch_clash, branch_clash]
  cases hc : l.clash with
  | some p =>
    obtain ⟨c, -, ht, hf⟩ := h.sides p hc
    rw [clash?_eq hc ht hf, clash?_eq (clash_add_of_some hs hc) (signed?_add_of_some hs ht)
      (signed?_add_of_some hs hf)]
    rfl
  | none =>
    have hnew := clash_add_of_none hs hc
    rw [clash?_eq_none hc, Branch.clashWith?, ← h.contains_eq, contains]
    cases hpos : l.position? s.conjugate with
    | none =>
      rw [clash?_eq_none (by rw [hnew, hpos]; rfl)]
      rfl
    | some n =>
      obtain ⟨ht, hf⟩ := signed?_sides hs ((h.position _ n).mp hpos)
      rw [clash?_eq (by rw [hnew, hpos]; rfl) ht hf]
      rfl

end Sound

theorem Later.add (l : Ledger) (s : Signed) : l.Later (l.add s).2 := by
  cases hs : l.contains s with
  | true =>
    have hsame : (l.add s).2 = l := by simp [Ledger.add, hs]
    rw [hsame]
    exact .refl l
  | false =>
    have hr := Later.register l s.world
    have hworlds : (l.add s).2.worlds = (l.register s.world).worlds := by simp [Ledger.add, hs]
    have hnext : (l.add s).2.nextWorld = (l.register s.world).nextWorld := by simp [Ledger.add, hs]
    refine ⟨fun w hw => hworlds ▸ hr.worlds w hw, fun h => ⟨h.position_add hs,
      fun p => h.sides_add hs, fun x hx => ?_, fun hrange => ?_⟩⟩
    · rw [hworlds]
      obtain ⟨n, hn⟩ := exists_signed?_iff.mpr hx
      rw [signed?_add_of_new hs] at hn
      split at hn
      next =>
        obtain rfl := Option.some.inj hn
        exact Ascending.mem_insert.mpr (.inl rfl)
      next => exact hr.worlds _ (h.world_mem x (exists_signed?_iff.mp ⟨n, hn⟩))
    · rw [hworlds, hnext]
      refine (hr.sound h).count fun w hw => hrange w ?_
      rwa [branch, hworlds]

theorem fst_add (h : l.Sound) (s : Signed) : (l.add s).1 = !l.branch.contains s := by
  rw [← h.contains_eq, add]
  cases l.contains s <;> rfl

theorem branch_add (h : l.Sound) (s : Signed) : (l.add s).2.branch = l.branch.add s := by
  have hcontains := h.contains_eq s
  cases hs : l.contains s with
  | true => rw [Branch.add, ← hcontains, hs, add, hs]; rfl
  | false =>
    have hclash := h.clash_branch_add hs
    rw [Branch.add, ← hcontains, hs, ← hclash]
    simp [add, hs, branch, register]

theorem addAll_eq (h : l.Sound) (ss : List Signed) :
    Prod.map branch id (l.addAll ss) = l.branch.addAll ss := by
  induction ss generalizing l with
  | nil => rfl
  | cons s rest ih =>
    rw [addAll, Branch.addAll, ← branch_add h, ← ih ((Later.add l s).sound h)]
    simp only [Prod.map, fst_add h]
    cases l.branch.contains s <;> rfl

theorem Later.addAll (l : Ledger) (ss : List Signed) : l.Later (l.addAll ss).1 := by
  induction ss generalizing l with
  | nil => exact .refl l
  | cons s rest ih => exact (Later.add l s).trans (ih _)

-- ---------------------------------------------------------------------------
-- Adding edges and worlds
-- ---------------------------------------------------------------------------

theorem fst_addEdge (l : Ledger) (e : Edge) : (l.addEdge e).1 = decide (e ∉ l.branch.edges) := rfl

theorem branch_addEdge (l : Ledger) (e : Edge) : (l.addEdge e).2.branch = l.branch.addEdge e := rfl

theorem Later.addEdge (l : Ledger) (e : Edge) : l.Later (l.addEdge e).2 := by
  have hr := (Later.register l e.source).trans (.register _ e.target)
  exact ⟨hr.worlds, fun h => ⟨h.position, h.sides, (hr.sound h).world_mem, (hr.sound h).count⟩⟩

theorem branch_freshWorld (h : l.Sound) (hr : l.branch.InRange) :
    l.freshWorld.1 = l.branch.nextWorld ∧ l.freshWorld.2.branch = l.branch.addWorld := by
  have hnext := h.nextWorld_eq hr
  refine ⟨hnext, ?_⟩
  rw [Branch.addWorld, ← hnext]
  rfl

theorem blocker?_eq (h : l.Sound) (source : World) (sign : Sign) (f : Formula) :
    l.blocker? source sign f = l.branch.blocker? source sign f := by
  have hholders : (l.branch.holders sign f).toList =
      l.worlds.toList.filter fun w => l.branch.contains ⟨w, sign, f⟩ := by
    refine Ascending.eq_of_pairwise (fun a b hlt hgt => ?_) (Ascending.ascending _)
      ((Ascending.ascending _).filter _) fun w => ?_
    · simp [Std.OrientedCmp.gt_of_lt hlt] at hgt
    · rw [List.mem_filter, Branch.contains_iff]
      exact Branch.mem_holders.trans ⟨fun hw => ⟨h.world_mem _ hw, hw⟩, And.right⟩
  rw [blocker?, Branch.blocker?, hholders, List.find?_filter]
  simp only [List.all_cons, h.contains_eq, Bool.decide_and, Bool.decide_eq_true]

theorem Later.grant (l : Ledger) (rule : Rule) (premise : Signed) (sign : Sign) (f : Formula) :
    l.Later (l.grant blocking rule premise sign f).2 := by
  unfold Ledger.grant
  split
  next target _ =>
    have hedge := Later.addEdge l ⟨premise.world, target⟩
    simp only
    split
    · -- Soundness is not about which edges count as reused.
      exact ⟨hedge.worlds, fun h => ⟨(hedge.sound h).position, (hedge.sound h).sides,
        (hedge.sound h).world_mem, (hedge.sound h).count⟩⟩
    · exact hedge
  next => exact ((Later.register l _).trans (.addEdge _ _)).trans (.add _ _)

theorem grant_eq (h : l.Sound) (hr : l.branch.InRange) (rule : Rule) (premise : Signed) (sign : Sign)
    (f : Formula) : Prod.map id branch (l.grant blocking rule premise sign f) =
      l.branch.grant blocking rule premise sign f := by
  rw [grant, Branch.grant, blocker?_eq h]
  cases if blocking then l.branch.blocker? premise.world sign f else none with
  | some target =>
    simp only [Prod.map, id, Branch.reuse, Prod.mk.injEq, true_and, fst_addEdge, decide_not,
      Bool.not_eq_true', decide_eq_false_iff_not]
    split
    next he => rfl
    next he => rw [if_pos (Decidable.not_not.mp he)]; rfl
  | none =>
    obtain ⟨hnext, hbranch⟩ := branch_freshWorld h hr
    have hsound : (l.freshWorld.2.addEdge ⟨premise.world, l.branch.nextWorld⟩).2.Sound :=
      (Later.addEdge _ _).sound ((Later.register l l.nextWorld).sound h)
    have hedge : (l.freshWorld.2.addEdge ⟨premise.world, l.branch.nextWorld⟩).2.branch =
        l.branch.addEdge ⟨premise.world, l.branch.nextWorld⟩ := by
      rw [branch_addEdge, hbranch, Branch.addWorld_addEdge]
    simp only [Prod.map, id, hnext, branch_add hsound, ← hedge]

-- ---------------------------------------------------------------------------
-- Steps
-- ---------------------------------------------------------------------------

section

variable {α : Type} {f : Entry → Option (α × Entry)} {c : α} {entries : List Entry}

theorem map_signed_updateFirst (hf : ∀ e c e', f e = some (c, e') → e'.signed = e.signed)
    (h : updateFirst f l.entries = some (c, entries)) :
    entries.map (·.signed) = l.entries.map (·.signed) := by
  obtain ⟨l₁, e, e', l₂, he, -, hdue, rfl⟩ := updateFirst_eq_some.mp h
  simp [he, hf e c e' hdue]

theorem signed?_mark (h : entries.map (·.signed) = l.entries.map (·.signed)) (n : Nat) :
    ({ l with entries } : Ledger).signed? n = l.signed? n := by
  rw [signed?, ← List.getElem?_map, h, List.getElem?_map, signed?]

theorem Later.mark (h : entries.map (·.signed) = l.entries.map (·.signed)) :
    l.Later { l with entries } := by
  have hsigned := signed?_mark h
  refine ⟨fun _ hw => hw, fun hl => ⟨fun s n => ?_, fun p hp => ?_, fun s hs => ?_, hl.count⟩⟩
  · rw [hsigned]
    exact hl.position s n
  · rw [hsigned, hsigned]
    exact hl.sides p hp
  · refine hl.world_mem s (exists_signed?_iff.mp ?_)
    simpa only [hsigned] using exists_signed?_iff.mpr hs

theorem branch_mark (h : entries.map (·.signed) = l.entries.map (·.signed)) :
    ({ l with entries } : Ledger).branch = { l.branch with entries } := by
  have hclash : ({ l with entries } : Ledger).clash? = l.clash? := by
    simp only [clash?, signed?_mark h]
  simp only [branch, hclash]

end

/-- A step keeps a ledger sound, and while there is a next number it is the step on the branch. -/
theorem later_step_and_eq (l : Ledger) (blocking : Bool) :
    l.Later ((l.step blocking).branch l) ∧ (l.Sound → l.branch.InRange →
      (l.step blocking).map branch = l.branch.step blocking) := by
  have hentries : l.branch.entries = l.entries := rfl
  rw [step, Branch.step, hentries]
  -- Both sides search the same entries; what is found rewrites one record and moves no formula.
  cases hl : updateFirst l.branch.linear? l.entries with
  | some found =>
    obtain ⟨⟨rule, premise, conclusions⟩, entries⟩ := found
    have hsigned := map_signed_updateFirst (fun e c e' he => by
      obtain ⟨-, -, ⟨-, rfl⟩ | ⟨_, _, -, -, -, rfl⟩⟩ := Branch.linear?_eq_some he <;> rfl) hl
    have hmark := Later.mark hsigned
    refine ⟨hmark.trans (.addAll _ _), fun h _ => ?_⟩
    simp only [← branch_mark hsigned, ← addAll_eq (hmark.sound h)]
    rfl
  | none =>
    cases ha : updateFirst Branch.alternatives? l.entries with
    | some found =>
      obtain ⟨⟨rule, premise, left, right⟩, entries⟩ := found
      have hsigned := map_signed_updateFirst (fun e c e' he => by
        obtain ⟨-, -, -, rfl⟩ := Branch.alternatives?_eq_some he
        rfl) ha
      refine ⟨.mark hsigned, fun _ _ => ?_⟩
      simp only [← branch_mark hsigned]
      rfl
    | none =>
      cases hd : updateFirst Branch.demand? l.entries with
      | some found =>
        obtain ⟨⟨rule, premise, sign, f⟩, entries⟩ := found
        have hsigned := map_signed_updateFirst (fun e c e' he => by
          obtain ⟨-, -, -, rfl⟩ := Branch.demand?_eq_some he
          rfl) hd
        have hmark := Later.mark hsigned
        refine ⟨hmark.trans (.grant _ _ _ _ _), fun h hr => ?_⟩
        simp only [← branch_mark hsigned, ← grant_eq (hmark.sound h) hr]
        rfl
      | none => exact ⟨.refl l, fun _ _ => rfl⟩

theorem step_eq (h : l.Sound) (hr : l.branch.InRange) :
    (l.step blocking).map branch = l.branch.step blocking :=
  (later_step_and_eq l blocking).2 h hr

section

variable {inferences : List Inference} {after : Ledger} {rule : Rule} {premise left right : Signed}

theorem Later.extended (hs : l.step blocking = .extended inferences after) : l.Later after := by
  have hlater := (later_step_and_eq l blocking).1
  rwa [hs] at hlater

theorem Later.split (hs : l.step blocking = .split rule premise left right after) :
    l.Later after := by
  have hlater := (later_step_and_eq l blocking).1
  rwa [hs] at hlater

theorem Later.choice (hs : l.step blocking = .split rule premise left right after) (s : Signed) :
    l.Later (after.add s).2 :=
  (Later.split hs).trans (.add after s)

theorem step_saturated (h : l.Sound) (hr : l.branch.InRange) (hs : l.step blocking = .saturated) :
    l.branch.step blocking = .saturated := by
  rw [← step_eq h hr, hs]
  rfl

theorem step_extended (h : l.Sound) (hr : l.branch.InRange)
    (hs : l.step blocking = .extended inferences after) :
    l.branch.step blocking = .extended inferences after.branch := by
  rw [← step_eq h hr, hs]
  rfl

theorem step_split (h : l.Sound) (hr : l.branch.InRange)
    (hs : l.step blocking = .split rule premise left right after) :
    l.branch.step blocking = .split rule premise left right after.branch := by
  rw [← step_eq h hr, hs]
  rfl

end

-- ---------------------------------------------------------------------------
-- Whole ledgers
-- ---------------------------------------------------------------------------

theorem ofRoot_eq (root : Signed) : (ofRoot root).branch = .ofRoot root := branch_add .empty root

theorem Sound.ofRoot (root : Signed) : (Ledger.ofRoot root).Sound := (Later.add _ root).sound .empty

theorem foldl_add_eq (h : l.Sound) (formulas : List Signed) :
    (formulas.foldl (fun l s => (l.add s).2) l).branch = formulas.foldl Branch.add l.branch := by
  induction formulas generalizing l with
  | nil => rfl
  | cons s rest ih =>
    rw [List.foldl_cons, List.foldl_cons, ih ((Later.add l s).sound h), branch_add h]

theorem foldl_addEdge_eq (l : Ledger) (edges : List Edge) :
    (edges.foldl (fun l e => (l.addEdge e).2) l).branch = edges.foldl Branch.addEdge l.branch := by
  induction edges generalizing l with
  | nil => rfl
  | cons e rest ih => exact ih (l.addEdge e).2

theorem ofParts_eq (formulas : List Signed) (edges : List Edge) :
    (ofParts formulas edges).branch = .ofParts formulas edges := by
  rw [ofParts, foldl_addEdge_eq, foldl_add_eq .empty]
  rfl

theorem Sound.ofParts (formulas : List Signed) (edges : List Edge) :
    (Ledger.ofParts formulas edges).Sound := by
  have hformulas : (formulas.foldl (fun l s => (l.add s).2) Ledger.empty).Sound :=
    List.foldlRecOn formulas _ .empty fun l h s _ => (Later.add l s).sound h
  exact List.foldlRecOn edges _ hformulas fun l h e _ => (Later.addEdge l e).sound h

-- ---------------------------------------------------------------------------
-- Growth
-- ---------------------------------------------------------------------------

open Branch (Path)

variable {limits : Limits} {seed : List Signed}

/-- A tableau grows from a ledger as from its branch, if no step is made where the last number is in
use. -/
theorem grow_eq (h : l.Sound)
    (hr : ∀ k b, k < n → Path limits.blocking k l.branch b → b.InRange) :
    Tableau.grow limits seed l n = Tableau.grow limits seed l.branch n := by
  induction n generalizing l seed with
  | zero =>
    rw [Tableau.grow, Tableau.grow]
    rfl
  | succ n ih =>
    rw [Tableau.grow, Tableau.grow]
    simp only [growable_clash?, growable_step, growable_add, growable_worldCount, growable_toBranch,
      Branch.growable_clash?, Branch.growable_step, Branch.growable_add, Branch.growable_worldCount,
      Branch.growable_toBranch]
    cases hc : l.branch.clash with
    | some clash => rfl
    | none =>
      have hrange := hr 0 _ (Nat.succ_pos n) (.refl _)
      -- A path from an outcome of the step is one step longer from here.
      have hnext {l' : Ledger} (seed : List Signed) (hlater : l.Later l')
          (hn : Branch.Next limits.blocking l.branch l'.branch) :
          Tableau.grow limits seed l' n = Tableau.grow limits seed l'.branch n :=
        ih (hlater.sound h) fun k b hk hp => hr (k + 1) b (Nat.succ_lt_succ hk) (.head hc hn hp)
      cases hs : l.step limits.blocking with
      | saturated => rw [step_saturated h hrange hs]
      | split rule premise left right after =>
        have hstep := step_split h hrange hs
        have hadd {s : Signed} (hs' : s = left ∨ s = right) :
            Tableau.grow limits [s] (after.add s).2 n =
              Tableau.grow limits [s] (after.branch.add s) n := by
          have hbranch := branch_add ((Later.split hs).sound h) s
          rw [hnext [s] (.choice hs s) (hbranch ▸ .choice hstep hs'), hbranch]
        simp only [hstep, hadd (.inl rfl), hadd (.inr rfl)]
      | extended inferences after =>
        have hstep := step_extended h hrange hs
        simp only [hstep, hnext seed (.extended hs) (.extended hstep)]

theorem build_eq {root : Signed} (h : root.world + limits.maxIterations ≤ World.last) :
    build limits root = Tableau.build limits root := by
  rw [build, Tableau.build, ← ofRoot_eq]
  refine grow_eq (.ofRoot root) fun k b hk hp => ?_
  rw [ofRoot_eq] at hp
  obtain ⟨count, hle, hs⟩ :=
    (Branch.sprouted_ofRoot root).run (Branch.rooted_ofRoot root) hp.run
  have hlt : count < limits.maxIterations := by omega
  exact hs.inRange (Nat.lt_of_lt_of_le (Nat.add_lt_add_left hlt _) h)

end Ledger

/-- A check makes no use of the last number if its ceiling for steps has 64 bits. -/
theorem Check.run_eq (c : Check) {limits : Limits} (h : limits.maxIterations ≤ World.last)
    (f : Formula) : c.run limits f = (Ledger.build limits ⟨0, c.sign, f⟩).map c.judge := by
  rw [run, Ledger.build_eq]
  exact Nat.le_trans (Nat.le_of_eq (Nat.zero_add _)) h

end ModalTableau
