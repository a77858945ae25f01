import ModalTableau.Proofs.DraftLaws
import ModalTableau.Proofs.Frontier
import ModalTableau.Verdict

/-!
# A formula and its negation

To ask whether a formula can be false is to ask whether its negation can be true. The tableau of the
negation makes one step more, which takes the negation away, and from then on carries it along in
front of everything else. An entry that has been dealt with and whose formula is larger than all
others on the branch (`Dormant`) takes no part in any step, so the two tableaux go on alike to their
ends (`build_not`), and the models read off them are equal.
-/

namespace ModalTableau

variable {e : Entry} {b b' : Branch} {s : Signed} {sign : Sign} {f : Formula} {w : World}
  {blocking : Bool}

theorem updateFirst_cons_of_none {α β : Type} {g : α → Option (β × α)} {a : α} (l : List α)
    (h : g a = none) :
    updateFirst g (a :: l) = (updateFirst g l).map fun found => (found.1, a :: found.2) := by
  rw [updateFirst, h]

-- ---------------------------------------------------------------------------
-- What a step brings up
-- ---------------------------------------------------------------------------

namespace Branch

theorem conclusion_of_linear? {x x' : Entry} {rule : Rule} {premise c : Signed}
    {conclusions : List Signed} (h : b.linear? x = some ((rule, premise, conclusions), x'))
    (hc : c ∈ conclusions) : c.formula ∈ x.signed.formula.children := by
  obtain ⟨-, -, ⟨hx, -⟩ | ⟨sign, f, hx, -, rfl, -⟩⟩ := linear?_eq_some h
  · exact (Signed.alpha_conclusion (Signed.expansion?_of_expand hx) hc).2
  · obtain ⟨v, -, rfl⟩ := List.mem_map.mp hc
    exact (Signed.everySuccessor_payload (Signed.expansion?_of_expand hx)).1

theorem Next.mem_or_child (h : Next blocking b b') (hs : s ∈ b') :
    s ∈ b ∨ ∃ p ∈ b, s.formula ∈ p.formula.children := by
  cases h with
  | extended step =>
    cases stepped_of step with
    | alpha marked _ expand =>
      rw [addAll_fst, mem_foldl_add] at hs
      rcases hs with hs | hs
      · exact .inr ⟨_, signed_mem marked.mem_entries,
          (Signed.alpha_conclusion (Signed.expansion?_of_expand expand) hs).2⟩
      · exact .inl (marked.mem_iff.mp hs)
    | spread marked _ expand =>
      rw [addAll_fst, mem_foldl_add] at hs
      rcases hs with hs | hs
      · obtain ⟨v, -, rfl⟩ := List.mem_map.mp hs
        exact .inr ⟨_, signed_mem marked.mem_entries,
          (Signed.everySuccessor_payload (Signed.expansion?_of_expand expand)).1⟩
      · exact .inl (marked.mem_iff.mp hs)
    | reuse _ _ marked => exact .inl (marked.mem_iff.mp (mem_reuse.mp hs))
    | fresh _ _ marked _ expand =>
      rcases mem_add.mp hs with rfl | hs
      · exact .inr ⟨_, signed_mem marked.mem_entries,
          (Signed.someSuccessor_payload (Signed.expansion?_of_expand expand)).1⟩
      · exact .inl (marked.mem_iff.mp (mem_addEdge.mp hs))
  | choice step chosen =>
    cases stepped_of step with
    | split _ marked _ expand =>
      obtain ⟨⟨-, hl⟩, -, hr⟩ := Signed.beta_alternatives (Signed.expansion?_of_expand expand)
      rcases mem_add.mp hs with rfl | hs
      · refine .inr ⟨_, signed_mem marked.mem_entries, ?_⟩
        rcases chosen with rfl | rfl
        · exact hl
        · exact hr
      · exact .inl (marked.mem_iff.mp hs)

-- ---------------------------------------------------------------------------
-- An entry in front
-- ---------------------------------------------------------------------------

/-- The branch with one more entry in front of the others. -/
def behind (e : Entry) (b : Branch) : Branch := { b with entries := e :: b.entries }

@[simp] theorem formulas_behind : (b.behind e).formulas = e.signed :: b.formulas := rfl

@[simp] theorem worlds_behind : (b.behind e).worlds = b.worlds := rfl

@[simp] theorem edges_behind : (b.behind e).edges = b.edges := rfl

@[simp] theorem clash_behind : (b.behind e).clash = b.clash := rfl

theorem contains_behind (hs : s.formula ≠ e.signed.formula) :
    (b.behind e).contains s = b.contains s := by
  have hne : e.signed ≠ s := fun h => hs (h ▸ rfl)
  simp [contains, behind, hne]

theorem add_behind (hs : s.formula ≠ e.signed.formula) :
    (b.behind e).add s = (b.add s).behind e := by
  have hconjugate : s.conjugate.formula ≠ e.signed.formula := hs
  simp only [add, clashWith?, contains_behind hs, contains_behind hconjugate]
  split <;> rfl

theorem addAll_behind {l : List Signed} (hl : ∀ s ∈ l, s.formula ≠ e.signed.formula) :
    (b.behind e).addAll l = ((b.addAll l).1.behind e, (b.addAll l).2) := by
  induction l generalizing b with
  | nil => rfl
  | cons s rest ih =>
    obtain ⟨hs, hrest⟩ := List.forall_mem_cons.mp hl
    simp only [addAll, add_behind hs, ih hrest, contains_behind hs]

theorem addEdge_behind (d : Edge) : (b.behind e).addEdge d = (b.addEdge d).behind e := rfl

theorem reuse_behind (d : Edge) : (b.behind e).reuse d = (b.reuse d).behind e := by
  by_cases hd : d ∈ b.edges
  · simp only [reuse, behind, hd, if_true]
    rfl
  · simp only [reuse, behind, hd, if_false]
    rfl

theorem holders_behind (hf : f ≠ e.signed.formula) :
    (b.behind e).holders sign f = b.holders sign f := by
  rw [holders, formulas_behind, List.filter_cons_of_neg (by simp [Ne.symm hf]), holders]

theorem expansion?_of_spread? (h : spread? s = some (sign, f)) :
    s.expansion? = some (.everySuccessor sign f) := by
  unfold spread? at h
  split at h
  next hx =>
    obtain ⟨rfl, rfl⟩ := Prod.mk.inj (Option.some.inj h)
    exact hx
  next => cases h

/-- Whatever is said on the branch is smaller than the formula of `e`, about which nothing is left
to be done. -/
structure Dormant (e : Entry) (b : Branch) : Prop where
  used : e.used = true
  silent : spread? e.signed = none
  smaller : ∀ s ∈ b, s.formula.size < e.signed.formula.size

namespace Dormant

theorem ne_of_mem (h : Dormant e b) (hs : s ∈ b) : s.formula ≠ e.signed.formula := fun heq =>
  Nat.lt_irrefl _ (heq ▸ h.smaller s hs)

theorem ne_of_child (h : Dormant e b) (hs : s ∈ b) (hf : f ∈ s.formula.children) :
    f ≠ e.signed.formula := by
  rintro rfl
  exact Nat.lt_asymm (h.smaller s hs) (Formula.size_lt_of_mem_children hf)

theorem marked {x x' : Entry} (h : Dormant e b) (hm : Marked b x x' b') : Dormant e b' :=
  ⟨h.used, h.silent, fun s hs => h.smaller s (hm.mem_iff.mp hs)⟩

theorem next (h : Dormant e b) (hn : Next blocking b b') : Dormant e b' := by
  refine ⟨h.used, h.silent, fun s hs => ?_⟩
  rcases hn.mem_or_child hs with hs | ⟨p, hp, hchild⟩
  · exact h.smaller s hs
  · exact Nat.lt_trans (Formula.size_lt_of_mem_children hchild) (h.smaller p hp)

/-- What is asked of a successor is about immediate subformulas, never about the formula of `e`. -/
theorem contains_ask (h : Dormant e b) {ask : Sign × Formula} {v : World}
    (hask : ask ∈ (b.label w).filterMap spread?) :
    (b.behind e).contains ⟨v, ask.1, ask.2⟩ = b.contains ⟨v, ask.1, ask.2⟩ := by
  obtain ⟨s, hs, hspread⟩ := List.mem_filterMap.mp hask
  have hchild := (Signed.everySuccessor_payload (expansion?_of_spread? hspread)).1
  exact contains_behind (h.ne_of_child (List.mem_filter.mp hs).1 hchild)

theorem blocker?_behind (h : Dormant e b) (hf : f ≠ e.signed.formula) :
    (b.behind e).blocker? w sign f = b.blocker? w sign f := by
  have hmore : ((b.behind e).label w).filterMap spread? = (b.label w).filterMap spread? := by
    simp only [label, formulas_behind, List.filter_cons]
    split
    · rw [List.filterMap_cons, h.silent]
    · rfl
  simp only [blocker?, holders_behind hf, hmore]
  refine congrArg (List.find? · _) (funext fun v => ?_)
  exact all_congr_of_mem fun ask hask => h.contains_ask hask

theorem grant_behind (h : Dormant e b) (hf : f ≠ e.signed.formula) (blocking : Bool) (rule : Rule)
    (premise : Signed) (sign : Sign) :
    (b.behind e).grant blocking rule premise sign f =
      ((b.grant blocking rule premise sign f).1,
        (b.grant blocking rule premise sign f).2.behind e) := by
  have hnext : (b.behind e).nextWorld = b.nextWorld := rfl
  simp only [grant, h.blocker?_behind hf, reuse_behind, addEdge_behind, hnext]
  split
  · rfl
  · rw [add_behind hf]

end Dormant
end Branch

namespace Branch.Dormant

theorem linear_behind (h : Dormant e b) :
    updateFirst (b.behind e).linear? (b.behind e).entries =
      (updateFirst b.linear? b.entries).map fun found => (found.1, e :: found.2) :=
  updateFirst_cons_of_none b.entries (by rw [linear?, h.used, if_pos rfl])

theorem choice_behind (h : Dormant e b) : updateFirst alternatives? (b.behind e).entries =
    (updateFirst alternatives? b.entries).map fun found => (found.1, e :: found.2) :=
  updateFirst_cons_of_none b.entries (by rw [alternatives?, h.used, if_pos rfl])

theorem demand_behind (h : Dormant e b) : updateFirst demand? (b.behind e).entries =
    (updateFirst demand? b.entries).map fun found => (found.1, e :: found.2) :=
  updateFirst_cons_of_none b.entries (by rw [demand?, h.used, if_pos rfl])

theorem step_behind (h : Dormant e b) (blocking : Bool) :
    (b.behind e).step blocking = (b.step blocking).map (behind e) := by
  unfold step
  rw [h.linear_behind, h.choice_behind, h.demand_behind]
  cases hl : updateFirst b.linear? b.entries with
  | some found =>
    obtain ⟨⟨rule, premise, conclusions⟩, entries⟩ := found
    obtain ⟨l₁, x, x', l₂, hx, -, hf, rfl⟩ := updateFirst_eq_some.mp hl
    have hmem : x.signed ∈ b := signed_mem (hx ▸ by simp)
    have hadd := addAll_behind (b := { b with entries := l₁ ++ x' :: l₂ })
      fun c hc => h.ne_of_child hmem (conclusion_of_linear? hf hc)
    exact congrArg (fun added : Branch × List Signed =>
      Step.extended (added.2.map (.derived · rule premise)) added.1) hadd
  | none =>
    cases ha : updateFirst alternatives? b.entries with
    | some found => rfl
    | none =>
      cases hd : updateFirst demand? b.entries with
      | some found =>
        obtain ⟨⟨rule, premise, sign, f⟩, entries⟩ := found
        obtain ⟨l₁, x, x', l₂, hx, -, hf, rfl⟩ := updateFirst_eq_some.mp hd
        obtain ⟨-, -, hexpand, rfl⟩ := demand?_eq_some hf
        have marked : Marked b x { x with used := true } _ := .intro l₁ l₂ hx rfl
        have hchild := (Signed.someSuccessor_payload (Signed.expansion?_of_expand hexpand)).1
        have hgrant := (h.marked marked).grant_behind
          (h.ne_of_child (signed_mem marked.mem_entries) hchild) blocking rule premise sign
        exact congrArg (fun granted : List Inference × Branch =>
          Step.extended granted.1 granted.2) hgrant
      | none => rfl

end Branch.Dormant

theorem Formula.not_ne (f : Formula) : f.not ≠ f := fun h =>
  Nat.succ_ne_self f.size (congrArg size h)

theorem Branch.step_ofRoot_not (w : World) (sign : Sign) (f : Formula) (blocking : Bool) :
    (ofRoot ⟨w, sign, .not f⟩).step blocking =
      .extended [.derived ⟨w, sign.flip, f⟩ ⟨sign, .not⟩ ⟨w, sign, .not f⟩]
        ((ofRoot ⟨w, sign.flip, f⟩).behind ⟨⟨w, sign, .not f⟩, true, .empty⟩) := by
  have hroot : (ofRoot ⟨w, sign, .not f⟩).entries = [] ++ .ofSigned ⟨w, sign, .not f⟩ :: [] := rfl
  have hdue : (ofRoot ⟨w, sign, .not f⟩).linear? (.ofSigned ⟨w, sign, .not f⟩) =
      some ((⟨sign, .not⟩, ⟨w, sign, .not f⟩, [⟨w, sign.flip, f⟩]),
        ⟨⟨w, sign, .not f⟩, true, .empty⟩) := rfl
  have hworlds : ((Ascending.singleton 0).insert w).insert w = (Ascending.singleton 0).insert w :=
    Ascending.insert_of_mem (Ascending.mem_insert.mpr (.inl rfl))
  have hne := f.not_ne
  rw [step, hroot, updateFirst_append (by simp) hdue]
  simp [addAll, ofRoot, add, contains, clashWith?, behind, empty, hne, hworlds, Signed.conjugate]

-- ---------------------------------------------------------------------------
-- Tableaux
-- ---------------------------------------------------------------------------

def Segment.behind (e : Entry) (s : Segment) : Segment :=
  { s with branch := s.branch.map (Branch.behind e) }

namespace Tableau

open Branch (Dormant)

variable {limits limits' : Limits} {seed : List Signed} {n : Nat} {t : Tableau}

theorem map_behind_prepend (inferences : List Inference) (t : Tableau) :
    (t.mapLabel (·.prepend inferences)).map (Segment.behind e) =
      (t.map (Segment.behind e)).mapLabel (·.prepend inferences) := by
  cases t
  rfl

theorem grow_behind (blocking : limits'.blocking = limits.blocking)
    (worlds : limits'.maxWorlds = limits.maxWorlds) (h : Dormant e b) :
    (grow limits' seed (b.behind e) n).toOption =
      (grow limits seed b n).toOption.map (Tree.map (Segment.behind e)) := by
  induction n generalizing seed b with
  | zero =>
    rw [grow, grow, Branch.growable_clash?, Branch.growable_clash?, Branch.clash_behind]
    cases b.clash <;> rfl
  | succ n ih =>
    simp only [grow, Branch.growable_clash?, Branch.growable_step, Branch.clash_behind]
    cases b.clash with
    | some clash => rfl
    | none =>
      simp only [blocking, h.step_behind]
      cases hs : b.step limits.blocking with
      | saturated => rfl
      | split rule premise left right after =>
        have hleft := h.next (.choice hs (.inl rfl))
        have hright := h.next (.choice hs (.inr rfl))
        have haddl := Branch.add_behind (b := after) (hleft.ne_of_mem Branch.mem_add_self)
        have haddr := Branch.add_behind (b := after) (hright.ne_of_mem Branch.mem_add_self)
        simp only [Step.map, Branch.growable_add, toOption_bind, haddl, haddr, ih hleft, ih hright]
        cases (grow limits [left] (after.add left) n).toOption <;>
          cases (grow limits [right] (after.add right) n).toOption <;> rfl
      | extended inferences after =>
        have hafter := h.next (.extended hs)
        simp only [Step.map, Branch.growable_worldCount, worlds, Branch.worlds_behind]
        by_cases hw : limits.maxWorlds < after.worlds.size
        · simp only [hw, if_true]
          rfl
        · simp only [hw, if_false, toOption_map, ih hafter, Option.map_map]
          refine congrArg (Option.map · _) (funext fun t => ?_)
          exact (map_behind_prepend inferences t).symm

/-- What a segment starts with is shown on it and has no effect on its growth. -/
theorem grow_seed (limits : Limits) (seed seed' : List Signed) (b : Branch) (n : Nat) :
    grow limits seed' b n =
      (grow limits seed b n).map (·.mapLabel fun s => { s with seed := seed' }) := by
  induction n generalizing b with
  | zero =>
    rw [grow, grow, Branch.growable_clash?]
    cases b.clash <;> rfl
  | succ n ih =>
    rw [grow, grow, Branch.growable_clash?, Branch.growable_step]
    cases b.clash with
    | some clash => rfl
    | none =>
      cases b.step limits.blocking with
      | saturated => rfl
      | split rule premise left right after =>
        simp only [Branch.growable_add]
        cases grow limits [left] (after.add left) n <;>
          cases grow limits [right] (after.add right) n <;> rfl
      | extended inferences after =>
        simp only [Branch.growable_worldCount]
        by_cases hw : limits.maxWorlds < after.worlds.size
        · simp only [hw, if_true]
          rfl
        · simp only [hw, if_false, ih after]
          cases grow limits seed after n with
          | error => rfl
          | ok t =>
            cases t
            rfl

/-- The tableau that goes on like `t` after a first inference from `root`, which stays in front on
every branch. -/
def following (root : Signed) (first : Inference) (t : Tableau) : Tableau :=
  (t.map (Segment.behind ⟨root, true, .empty⟩)).mapLabel fun s =>
    { s with seed := [root], inferences := first :: s.inferences }

/-- With one more step to make, the tableau of a negation is that of the formula itself. -/
theorem build_not (maxIterations maxWorlds : Nat) (blocking : Bool) (w : World) (sign : Sign)
    (f : Formula) (worlds : (Branch.ofRoot ⟨w, sign.flip, f⟩).worlds.size ≤ maxWorlds) :
    (build ⟨maxIterations + 1, maxWorlds, blocking⟩ ⟨w, sign, .not f⟩).toOption =
      (build ⟨maxIterations, maxWorlds, blocking⟩ ⟨w, sign.flip, f⟩).toOption.map
        (following ⟨w, sign, .not f⟩
          (.derived ⟨w, sign.flip, f⟩ ⟨sign, .not⟩ ⟨w, sign, .not f⟩)) := by
  have hdormant : Dormant ⟨⟨w, sign, .not f⟩, true, .empty⟩ (.ofRoot ⟨w, sign.flip, f⟩) := by
    refine ⟨rfl, rfl, fun s hs => ?_⟩
    rcases Branch.mem_add.mp hs with rfl | hs
    · exact Nat.lt_succ_self _
    · exact absurd hs List.not_mem_nil
  have hgrow : (grow ⟨maxIterations + 1, maxWorlds, blocking⟩ [⟨w, sign.flip, f⟩]
      ((Branch.ofRoot ⟨w, sign.flip, f⟩).behind ⟨⟨w, sign, .not f⟩, true, .empty⟩)
      maxIterations).toOption =
        (build ⟨maxIterations, maxWorlds, blocking⟩ ⟨w, sign.flip, f⟩).toOption.map
          (Tree.map (Segment.behind ⟨⟨w, sign, .not f⟩, true, .empty⟩)) :=
    grow_behind rfl rfl hdormant
  have hclash : (Branch.ofRoot ⟨w, sign, .not f⟩).clash = none := rfl
  rw [build, grow, Branch.growable_clash?, hclash, Branch.growable_step, Branch.step_ofRoot_not]
  simp only [Branch.growable_worldCount, Branch.worlds_behind, Nat.not_lt_of_le worlds, if_false]
  rw [grow_seed _ [⟨w, sign.flip, f⟩], toOption_map, toOption_map, hgrow, Option.map_map,
    Option.map_map]
  refine congrArg (Option.map · _) (funext fun t => ?_)
  cases t
  rfl

theorem build_not_eq_ok (maxIterations maxWorlds : Nat) (blocking : Bool) (w : World) (sign : Sign)
    (f : Formula) (worlds : (Branch.ofRoot ⟨w, sign.flip, f⟩).worlds.size ≤ maxWorlds)
    (t' : Tableau) :
    build ⟨maxIterations + 1, maxWorlds, blocking⟩ ⟨w, sign, .not f⟩ = .ok t' ↔
      ∃ t, build ⟨maxIterations, maxWorlds, blocking⟩ ⟨w, sign.flip, f⟩ = .ok t ∧
        t.following ⟨w, sign, .not f⟩
          (.derived ⟨w, sign.flip, f⟩ ⟨sign, .not⟩ ⟨w, sign, .not f⟩) = t' := by
  rw [← toOption_eq_some, build_not _ _ _ _ _ _ worlds, Option.map_eq_some_iff]
  simp only [toOption_eq_some]

theorem isClosed_map {g : Segment → Segment} (status : ∀ s, (g s).status = s.status) (t : Tableau) :
    isClosed (t.map g) = t.isClosed := by
  match t with
  | .node s ts =>
    have ih : ∀ t ∈ ts, isClosed (t.map g) = isClosed t := fun t _ => isClosed_map status t
    have hall : ts.all (isClosed ∘ Tree.map g) = ts.all isClosed := all_congr_of_mem ih
    rw [Tree.map, Tree.mapAll_eq, isClosed_node, isClosed_node, status, List.isEmpty_map,
      List.all_map, hall]

theorem isClosed_mapLabel {g : Segment → Segment} (status : ∀ s, (g s).status = s.status)
    (t : Tableau) : isClosed (t.mapLabel g) = t.isClosed := by
  obtain ⟨s, ts⟩ := t
  rw [Tree.mapLabel, isClosed_node, isClosed_node, status]

theorem firstOpenBranch?_mapLabel {g : Segment → Segment} (status : ∀ s, (g s).status = s.status)
    (branch : ∀ s, (g s).branch = s.branch) (t : Tableau) :
    firstOpenBranch? (t.mapLabel g) = t.firstOpenBranch? := by
  obtain ⟨s, ts⟩ := t
  have hopen : (g s).isOpen = s.isOpen := by rw [Segment.isOpen, status, Segment.isOpen]
  simp only [firstOpenBranch?, Tree.mapLabel, openSegments_node, List.filter_cons, hopen]
  split
  · simp [branch]
  · rfl

theorem firstOpenBranch?_behind (e : Entry) (t : Tableau) :
    firstOpenBranch? (t.map (Segment.behind e)) = t.firstOpenBranch?.map (Branch.behind e) := by
  have hopen : Segment.isOpen ∘ Segment.behind e = Segment.isOpen := rfl
  rw [firstOpenBranch?, openSegments, Tree.labels_map, List.filter_map, hopen, List.head?_map,
    firstOpenBranch?, openSegments]
  cases (t.labels.filter Segment.isOpen).head? <;> rfl

theorem isClosed_following (root : Signed) (first : Inference) (t : Tableau) :
    isClosed (following root first t) = t.isClosed := by
  rw [following, isClosed_mapLabel, isClosed_map]
  · exact fun _ => rfl
  · exact fun _ => rfl

theorem firstOpenBranch?_following (root : Signed) (first : Inference) (t : Tableau) :
    firstOpenBranch? (following root first t) =
      t.firstOpenBranch?.map (Branch.behind ⟨root, true, .empty⟩) := by
  rw [following, firstOpenBranch?_mapLabel, firstOpenBranch?_behind]
  · exact fun _ => rfl
  · exact fun _ => rfl

end Tableau

theorem Model.ofBranch?_behind {g : Formula} (he : e.signed.formula = .not g) :
    ofBranch? (b.behind e) = ofBranch? b := by
  have hrecord : ∀ m : Model, m.record e.signed = m := fun m => by rw [record, he]
  have hfold : (b.behind e).formulas.foldl record (ofParts b.worlds.toList b.edges.toList) =
      b.formulas.foldl record (ofParts b.worlds.toList b.edges.toList) := by
    rw [Branch.formulas_behind, List.foldl_cons, hrecord]
  rw [ofBranch?, Branch.worlds_behind, Branch.edges_behind, hfold]
  rfl

namespace Check

variable {c : Check} {t : Tableau}

theorem verdict_judge : (c.judge t).verdict = c.whenClosed ↔ t.isClosed = true := by
  cases hc : t.isClosed <;> cases c <;> simp [judge, hc, whenClosed, whenOpen]

/-- What is read off the tableau of a negation is what is read off that of the formula. -/
theorem model_judge_following {root : Signed} {first : Inference} {g : Formula}
    (hroot : root.formula = .not g) (c' : Check) :
    (c'.judge (t.following root first)).model = (c.judge t).model := by
  have hmodel : (t.firstOpenBranch?.map (Branch.behind ⟨root, true, .empty⟩)).bind Model.ofBranch? =
      t.firstOpenBranch?.bind Model.ofBranch? := by
    cases t.firstOpenBranch? with
    | none => rfl
    | some b => exact Model.ofBranch?_behind hroot
  rw [judge, judge, Tableau.isClosed_following]
  cases t.isClosed with
  | true => rfl
  | false => exact (Tableau.firstOpenBranch?_following root first t).symm ▸ hmodel

end Check

/-- Validity of a formula and satisfiability of its negation are one computation. With one more step
allowed for the negation, one has an answer exactly if the other has; then the formula is found
valid exactly if its negation is found unsatisfiable, and the two models are equal. -/
theorem validity_as_unsatisfiability (f : Formula) (blocking : Bool) (maxIterations maxWorlds : Nat)
    (worlds : 1 ≤ maxWorlds) :
    ((∃ o, Check.validity.run ⟨maxIterations, maxWorlds, blocking⟩ f = .ok o) ↔
      ∃ o, Check.satisfiability.run ⟨maxIterations + 1, maxWorlds, blocking⟩ (.not f) = .ok o) ∧
    ∀ o o', Check.validity.run ⟨maxIterations, maxWorlds, blocking⟩ f = .ok o →
      Check.satisfiability.run ⟨maxIterations + 1, maxWorlds, blocking⟩ (.not f) = .ok o' →
      (o.verdict = .valid ↔ o'.verdict = .unsatisfiable) ∧ o.model = o'.model := by
  have hbuild := Tableau.build_not_eq_ok maxIterations maxWorlds blocking 0 .T f worlds
  refine ⟨⟨?_, ?_⟩, ?_⟩
  · rintro ⟨o, ho⟩
    obtain ⟨t, ht, -⟩ := map_ok.mp ho
    exact ⟨_, map_ok.mpr ⟨_, (hbuild _).mpr ⟨t, ht, rfl⟩, rfl⟩⟩
  · rintro ⟨o', ho'⟩
    obtain ⟨t', ht', -⟩ := map_ok.mp ho'
    obtain ⟨t, ht, -⟩ := (hbuild _).mp ht'
    exact ⟨_, map_ok.mpr ⟨t, ht, rfl⟩⟩
  · intro o o' ho ho'
    obtain ⟨t, ht, rfl⟩ := map_ok.mp ho
    obtain ⟨t', ht', rfl⟩ := map_ok.mp ho'
    obtain ⟨t₁, ht₁, rfl⟩ := (hbuild _).mp ht'
    obtain rfl : t₁ = t := Except.ok.inj (ht₁.symm.trans ht)
    refine ⟨?_, (Check.model_judge_following rfl _).symm⟩
    exact Check.verdict_judge.trans
      (Check.verdict_judge.trans (by rw [Tableau.isClosed_following])).symm

def Formula.further : Formula :=
  .implies (.diamond (.atom "p")) (.diamond (.diamond (.atom "p")))

/-- Four steps and two worlds give a countermodel, five steps give it as a model of the negation. -/
theorem validity_as_unsatisfiability_of_further : ∃ o o',
    Check.validity.run ⟨4, 2, true⟩ .further = .ok o ∧
      Check.satisfiability.run ⟨5, 2, true⟩ (.not .further) = .ok o' ∧ o.verdict = .invalid ∧
      o'.verdict ≠ .unsatisfiable ∧ o.model = some ((Model.ofParts [0] [⟨0, 1⟩]).set 1 "p" true) ∧
      o.model = o'.model := by
  obtain ⟨hiff, hsame⟩ := validity_as_unsatisfiability .further true 4 2 (by decide)
  obtain ⟨o, ho, hfound⟩ := ok_of_toOption (show
    (Check.validity.run ⟨4, 2, true⟩ .further).toOption.map (fun o => (o.verdict, o.model)) =
      some (.invalid, some ((Model.ofParts [0] [⟨0, 1⟩]).set 1 "p" true)) by decide +kernel)
  obtain ⟨hverdict, hmodel⟩ := Prod.mk.inj hfound
  obtain ⟨o', ho'⟩ := hiff.mp ⟨o, ho⟩
  obtain ⟨hanswer, hequal⟩ := hsame o o' ho ho'
  refine ⟨o, o', ho, ho', hverdict, fun hunsat => ?_, hmodel, hequal⟩
  simp [hanswer.mpr hunsat] at hverdict

end ModalTableau
