import Mathlib.Data.List.Perm.Subperm
import ModalTableau.Proofs.DraftLaws
import ModalTableau.Tableau.Worklist

/-!
# Growing a tableau with a stack

Working on the task on top of the stack until nothing is left of it puts a whole tableau below the
segment of that task and leaves all other segments alone (`Planted`), whatever else is on the stack.
That tableau is the one that `Tableau.grow` gives (`worked`). So both ways of building come to the
same tableau or to the same fault, and a draft grown with the stack holds no segment outside its
tableau.
-/

namespace ModalTableau.Draft

def below (d : Draft) (n : Nat) : Tableau :=
  (d.numbersBelow n).map fun m => (d.get? m).getD (.ofSeed [])

theorem tableau?_eq (d : Draft) : d.tableau? = d.root.map d.below := rfl

theorem below_eq {d : Draft} {n : Nat} {s : Segment} (h : d.get? n = some s) :
    d.below n = .node s ((d.children n).map d.below) := by
  rw [below, numbersBelow_eq, Tree.map, Tree.mapAll_eq, h, List.map_map]
  rfl

-- ---------------------------------------------------------------------------
-- Planting
-- ---------------------------------------------------------------------------

structure Alike (d e : Draft) (n : Nat) : Prop where
  get?_eq : d.get? n = e.get? n
  children_eq : d.children n = e.children n

theorem Alike.trans {d e e' : Draft} {n : Nat} (h : Alike d e n) (h' : Alike e e' n) :
    Alike d e' n :=
  ⟨h.get?_eq.trans h'.get?_eq, h.children_eq.trans h'.children_eq⟩

/-- The numbers that a tableau takes when it is put in place of segment `n` and `d` grows to `d'`. -/
def Taken (d : Draft) (n : Nat) (d' : Draft) (m : Nat) : Prop := m = n ∨ d.size ≤ m ∧ m < d'.size

def Keeps (e : Draft) (d : Draft) (n : Nat) (d' : Draft) : Prop :=
  ∀ m, Taken d n d' m → Alike e d' m

theorem keeps_self (d : Draft) (n : Nat) (d' : Draft) : d'.Keeps d n d' := fun _ _ => ⟨rfl, rfl⟩

/-- `d'` comes from `d` by putting `t` in place of segment `n`. Any later draft that keeps what was put
in has `t` there, and all the numbers taken are among those of `t`. -/
structure Planted (d : Draft) (n : Nat) (t : Tableau) (d' : Draft) : Prop where
  size_eq : d'.size + 1 = d.size + t.size
  root_eq : d'.root = d.root
  frame : ∀ m < d.size, m ≠ n → Alike d' d m
  below_eq : ∀ e : Draft, e.Keeps d n d' → e.below n = t
  reached : ∀ e : Draft, e.Keeps d n d' → ∀ m, Taken d n d' m → m ∈ (e.numbersBelow n).labels

variable {d d₁ d₂ d₃ : Draft} {n : Nat} {s : Segment} {seed : List Signed}
  {inferences : List Inference} {status : Status} {kept : Option Branch}
  {t leftTree rightTree : Tableau} {left right : Signed}

theorem Planted.size_le (h : Planted d n t d₁) : d.size ≤ d₁.size := by
  have := h.size_eq
  have := t.size_pos
  omega

theorem size_finish : (d.finish n inferences status kept).size = d.size := by
  simp [finish]

theorem get?_finish (h : d.get? n = some (.ofSeed seed)) :
    (d.finish n inferences status kept).get? n = some ⟨seed, inferences, status, kept⟩ := by
  simp [finish, get?_modify, h, Segment.ofSeed]

theorem children_finish {m : Nat} :
    (d.finish n inferences status kept).children m = d.children m := by
  simp [finish]

theorem alike_finish {m : Nat} (h : m ≠ n) : Alike (d.finish n inferences status kept) d m :=
  ⟨by simp [finish, get?_modify, h], children_finish⟩

theorem planted_finish (h : d.get? n = some (.ofSeed seed)) (hc : d.children n = []) :
    Planted d n (.leaf ⟨seed, inferences, status, kept⟩)
      (d.finish n inferences status kept) where
  size_eq := by rw [size_finish]; rfl
  root_eq := rfl
  frame := fun m _ hm => alike_finish hm
  below_eq := by
    intro e he
    have hn := he n (.inl rfl)
    rw [Draft.below_eq (hn.get?_eq.trans (get?_finish h)), hn.children_eq, children_finish, hc]
    rfl
  reached := by
    intro e he m hm
    obtain rfl | hm := hm
    · rw [numbersBelow_eq, Tree.labels_node]
      exact List.mem_cons_self
    · rw [size_finish] at hm
      omega

-- ---------------------------------------------------------------------------
-- Splits
-- ---------------------------------------------------------------------------

theorem size_fork : (d.fork n left right).size = d.size + 2 := by
  simp [fork]

theorem get?_fork {m : Nat} : (d.fork n left right).get? m =
    if m = d.size + 1 then some (.ofSeed [right])
    else if m = d.size then some (.ofSeed [left]) else d.get? m := by
  simp only [fork, get?_insert, size_insert]

theorem children_fork {m : Nat} (hn : n < d.size) : (d.fork n left right).children m =
    if m = n then d.children m ++ [d.size, d.size + 1] else d.children m := by
  rw [fork, children_insert (by simp; omega), children_insert hn, size_insert]
  split
  · simp
  · rfl

/-- `d₁` comes from `d` by turning segment `n` into `s` and putting two fresh segments below it. -/
structure Forked (d : Draft) (n : Nat) (s : Segment) (left right : Signed) (d₁ : Draft) : Prop where
  size_eq : d₁.size = d.size + 2
  root_eq : d₁.root = d.root
  old : n < d.size
  get?_eq : d₁.get? n = some s
  children_eq : d₁.children n = [d.size, d.size + 1]
  frame : ∀ m < d.size, m ≠ n → Alike d₁ d m
  left_get? : d₁.get? d.size = some (.ofSeed [left])
  left_children : d₁.children d.size = []
  right_get? : d₁.get? (d.size + 1) = some (.ofSeed [right])
  right_children : d₁.children (d.size + 1) = []

theorem forked_finish (h : d.get? n = some (.ofSeed seed)) (hc : d.children n = []) :
    Forked d n ⟨seed, inferences, status, kept⟩ left right
      ((d.fork n left right).finish n inferences status kept) := by
  have hn : n < d.size := lt_size_of_get? h
  have hfork : (d.fork n left right).get? n = some (.ofSeed seed) := by
    rw [get?_fork, if_neg (by omega), if_neg (by omega), h]
  refine ⟨?_, rfl, hn, get?_finish hfork, ?_, ?_, ?_, ?_, ?_, ?_⟩
  · rw [size_finish, size_fork]
  · rw [children_finish, children_fork hn, if_pos rfl, hc]
    rfl
  · intro m hm hne
    refine (alike_finish hne).trans ⟨?_, ?_⟩
    · rw [get?_fork, if_neg (by omega), if_neg (by omega)]
    · rw [children_fork hn, if_neg hne]
  · rw [(alike_finish (by omega)).get?_eq, get?_fork, if_neg (by omega), if_pos rfl]
  · rw [children_finish, children_fork hn, if_neg (by omega), children_eq_nil (by omega)]
  · rw [(alike_finish (by omega)).get?_eq, get?_fork, if_pos rfl]
  · rw [children_finish, children_fork hn, if_neg (by omega), children_eq_nil (by omega)]

/-- The two subtrees take numbers of their own, so that neither disturbs the other. -/
theorem Forked.planted (h : Forked d n s left right d₁) (hl : Planted d₁ d.size leftTree d₂)
    (hr : Planted d₂ (d.size + 1) rightTree d₃) :
    Planted d n (.node s [leftTree, rightTree]) d₃ := by
  have hold := h.old
  have hsize := h.size_eq
  have hsizel := hl.size_le
  have hsizer := hr.size_le
  have hfork : ∀ m < d.size, Alike d₃ d₁ m := fun m hm =>
    (hr.frame m (by omega) (by omega)).trans (hl.frame m (by omega) (by omega))
  -- a draft that keeps the whole tableau keeps either subtree, as it was when just put in
  have hleft : ∀ e : Draft, e.Keeps d n d₃ → e.Keeps d₁ d.size d₂ := by
    intro e he m hm
    simp only [Taken] at hm
    exact (he m (by simp only [Taken]; omega)).trans (hr.frame m (by omega) (by omega))
  have hright : ∀ e : Draft, e.Keeps d n d₃ → e.Keeps d₂ (d.size + 1) d₃ := by
    intro e he m hm
    simp only [Taken] at hm
    exact he m (by simp only [Taken]; omega)
  have hroot : ∀ e : Draft, e.Keeps d n d₃ → Alike e d₁ n := fun e he =>
    (he n (.inl rfl)).trans (hfork n hold)
  constructor
  case size_eq =>
    have := hl.size_eq
    have := hr.size_eq
    rw [Tree.size_pair]
    omega
  case root_eq => rw [hr.root_eq, hl.root_eq, h.root_eq]
  case frame => exact fun m hm hne => (hfork m hm).trans (h.frame m hm hne)
  case below_eq =>
    intro e he
    rw [Draft.below_eq ((hroot e he).get?_eq.trans h.get?_eq), (hroot e he).children_eq,
      h.children_eq]
    simp [hl.below_eq e (hleft e he), hr.below_eq e (hright e he)]
  case reached =>
    intro e he m hm
    rw [numbersBelow_eq, (hroot e he).children_eq, h.children_eq, Tree.labels_node]
    simp only [List.map_cons, List.map_nil, List.flatMap_cons, List.flatMap_nil, List.append_nil,
      List.mem_cons, List.mem_append]
    by_cases hn : m = n
    · exact .inl hn
    · by_cases hm' : Taken d₁ d.size d₂ m
      · exact .inr (.inl (hl.reached e (hleft e he) m hm'))
      · refine .inr (.inr (hr.reached e (hright e he) m ?_))
        simp only [Taken] at hm hm' ⊢
        omega

-- ---------------------------------------------------------------------------
-- Work
-- ---------------------------------------------------------------------------

/-- What becomes of the task on top of the stack, whatever is below it. -/
inductive Worked {β : Type} [Growable β] (limits : Limits) (d : Draft) (task : Task β) :
    Except Fault Tableau → Prop
  | failed {fault} (eq : ∀ pending, work limits d (task :: pending) = .error fault) :
      Worked limits d task (.error fault)
  | planted {t d'} (planted : Planted d task.node (t.mapLabel (·.prepend task.inferences)) d')
      (eq : ∀ pending, work limits d (task :: pending) = work limits d' pending) :
      Worked limits d task (.ok t)

theorem prepend_prepend (t : Tableau) (earlier later : List Inference) :
    (t.mapLabel (·.prepend later)).mapLabel (·.prepend earlier) =
      t.mapLabel (·.prepend (earlier ++ later)) := by
  obtain ⟨s, ts⟩ := t
  simp [Tree.mapLabel, Segment.prepend]

theorem prepend_nil (t : Tableau) : t.mapLabel (·.prepend []) = t := by
  obtain ⟨s, ts⟩ := t
  rfl

variable {β : Type} [Growable β] {limits : Limits} {b : β} {remaining : Nat}

theorem worked_finish (h : d.get? n = some (.ofSeed seed)) (hc : d.children n = [])
    (eq : ∀ pending, work limits d (⟨b, n, inferences, remaining⟩ :: pending) =
      work limits (d.finish n inferences status (some (Growable.toBranch b))) pending) :
    Worked limits d ⟨b, n, inferences, remaining⟩
      (.ok (Tableau.ending seed status (Growable.toBranch b))) := by
  refine .planted ?_ eq
  simpa [Tableau.ending, Tree.leaf, Tree.mapLabel, Segment.prepend] using planted_finish h hc

theorem Worked.extended {task task' : Task β} {applied : List Inference}
    {outcome : Except Fault Tableau} (h : Worked limits d task' outcome)
    (hnode : task'.node = task.node) (hinferences : task'.inferences = task.inferences ++ applied)
    (eq : ∀ pending, work limits d (task :: pending) = work limits d (task' :: pending)) :
    Worked limits d task (outcome.map (·.mapLabel (·.prepend applied))) := by
  cases h with
  | failed eq' => exact .failed fun pending => (eq pending).trans (eq' pending)
  | planted hp eq' =>
    rw [hnode, hinferences, ← prepend_prepend] at hp
    exact .planted hp fun pending => (eq pending).trans (eq' pending)

/-- The right alternative waits until the left one is done, and is then still untouched. -/
theorem Forked.worked {task : Task β} {leftBranch rightBranch : β}
    {leftGrowth rightGrowth : Except Fault Tableau}
    (h : Forked d task.node (s.prepend task.inferences) left right d₁)
    (eq : ∀ pending, work limits d (task :: pending) =
      work limits d₁ (⟨leftBranch, d.size, [], remaining⟩ ::
        ⟨rightBranch, d.size + 1, [], remaining⟩ :: pending))
    (atLeft : Worked limits d₁ ⟨leftBranch, d.size, [], remaining⟩ leftGrowth)
    (atRight : ∀ d₂ : Draft, d₂.get? (d.size + 1) = some (.ofSeed [right]) →
      d₂.children (d.size + 1) = [] →
      Worked limits d₂ ⟨rightBranch, d.size + 1, [], remaining⟩ rightGrowth) :
    Worked limits d task (do return .node s [← leftGrowth, ← rightGrowth]) := by
  cases atLeft with
  | failed eql => exact .failed fun pending => (eq pending).trans (eql _)
  | @planted leftTree d₂ hl eql =>
    rw [prepend_nil] at hl
    have hframe : Alike d₂ d₁ (d.size + 1) := hl.frame _ (by rw [h.size_eq]; omega) (by simp)
    cases atRight d₂ (hframe.get?_eq.trans h.right_get?)
      (hframe.children_eq.trans h.right_children) with
    | failed eqr => exact .failed fun pending => ((eq pending).trans (eql _)).trans (eqr _)
    | planted hr eqr =>
      rw [prepend_nil] at hr
      exact .planted (h.planted hl hr) fun pending => ((eq pending).trans (eql _)).trans (eqr _)

/-- The induction is on the steps that the branch may still take, as in the growth it follows. -/
theorem worked (h : d.get? n = some (.ofSeed seed)) (hc : d.children n = []) :
    Worked limits d ⟨b, n, inferences, remaining⟩ (Tableau.grow limits seed b remaining) := by
  induction remaining generalizing d n seed b inferences with
  | zero =>
    rw [Tableau.grow]
    split
    next clash hclash => exact worked_finish h hc fun pending => by simp [work, hclash]
    next hclash => exact .failed fun pending => by simp [work, hclash]
  | succ remaining ih =>
    rw [Tableau.grow]
    split
    next clash hclash => exact worked_finish h hc fun pending => by simp [work, hclash]
    next hclash =>
      split
      next hstep => exact worked_finish h hc fun pending => by simp [work, hclash, hstep]
      next rule premise left right after hstep =>
        have hfork : Forked d n (.prepend inferences ⟨seed, [], .split rule premise, none⟩) left right
            ((d.fork n left right).finish n inferences (.split rule premise) none) := by
          simpa [Segment.prepend] using forked_finish h hc
        exact hfork.worked (fun pending => by simp [work, hclash, hstep])
          (ih hfork.left_get? hfork.left_children) fun d₂ hget hchildren => ih hget hchildren
      next applied after hstep =>
        split
        next hworlds => exact .failed fun pending => by simp [work, hclash, hstep, hworlds]
        next hworlds =>
          have hnext : Worked limits d ⟨after, n, inferences ++ applied, remaining⟩ _ := ih h hc
          exact hnext.extended rfl rfl fun pending => by simp [work, hclash, hstep, hworlds]

-- ---------------------------------------------------------------------------
-- Whole drafts
-- ---------------------------------------------------------------------------

variable {root : Signed}

theorem Planted.below_root (h : Planted (.ofRoot root) 0 t d) : d.below 0 = t :=
  h.below_eq d (keeps_self _ _ _)

theorem Planted.tableau?_eq (h : Planted (.ofRoot root) 0 t d) : d.tableau? = some t := by
  rw [Draft.tableau?_eq, h.root_eq]
  exact congrArg some h.below_root

theorem Planted.size_numbersBelow (h : Planted (.ofRoot root) 0 t d) :
    (d.numbersBelow 0).size = d.size := by
  have hroot : (ofRoot root).size = 1 := rfl
  have hsize := h.size_eq
  rw [← h.below_root, below, Tree.size_map] at hsize
  omega

theorem Planted.order_eq (h : Planted (.ofRoot root) 0 t d) :
    d.order = (d.numbersBelow 0).labels :=
  order_eq_labels h.root_eq (Nat.le_of_eq h.size_numbersBelow)

/-- Nothing is left outside the tableau: the walk from the root meets every segment once. -/
theorem Planted.order_perm (h : Planted (.ofRoot root) 0 t d) :
    d.order.Perm (List.range d.size) := by
  have hroot : (ofRoot root).size = 1 := rfl
  have hmem : List.range d.size ⊆ (d.numbersBelow 0).labels := by
    intro m hm
    rw [List.mem_range] at hm
    refine h.reached d (keeps_self _ _ _) m ?_
    simp only [Taken]
    omega
  rw [h.order_eq]
  have hlength : (d.numbersBelow 0).labels.length = (List.range d.size).length := by
    rw [Tree.length_labels, h.size_numbersBelow, List.length_range]
  exact ((List.subperm_of_subset List.nodup_range hmem).perm_of_length_le
    (Nat.le_of_eq hlength)).symm

theorem Planted.filterMap_order (h : Planted (.ofRoot root) 0 t d) :
    d.order.filterMap d.get? = t.labels := by
  have hlabels : t.labels = d.order.map fun m => (d.get? m).getD (.ofSeed []) := by
    rw [h.order_eq, ← Tree.labels_map]
    exact congrArg Tree.labels h.below_root.symm
  rw [hlabels, ← List.filterMap_eq_map]
  refine List.filterMap_congr fun m hm => ?_
  obtain ⟨s, hs⟩ := exists_get? (List.mem_range.mp (h.order_perm.mem_iff.mp hm))
  simp [hs]

theorem exists_planted (h : build limits root = .ok d) :
    ∃ t, Tableau.build limits root = .ok t ∧ Planted (.ofRoot root) 0 t d := by
  have hw : Worked limits (.ofRoot root) ⟨Branch.ofRoot root, 0, [], limits.maxIterations⟩
      (Tableau.build limits root) := worked rfl rfl
  generalize Tableau.build limits root = growth at hw
  cases hw with
  | failed eq =>
    rw [build, eq] at h
    cases h
  | planted hp eq =>
    rw [build, eq, work] at h
    obtain rfl := Except.ok.inj h
    rw [prepend_nil] at hp
    exact ⟨_, rfl, hp⟩

/-- Both ways of building come to the same tableau or to the same fault. -/
theorem work_map_tableau? (limits : Limits) (root : Signed) (b : β) (remaining : Nat) :
    (work limits (.ofRoot root) [⟨b, 0, [], remaining⟩]).map tableau? =
      (Tableau.grow limits [root] b remaining).map some := by
  have hw : Worked limits (.ofRoot root) ⟨b, 0, [], remaining⟩
      (Tableau.grow limits [root] b remaining) := worked rfl rfl
  generalize Tableau.grow limits [root] b remaining = growth at hw
  cases hw with
  | failed eq => rw [eq]; rfl
  | planted hp eq =>
    rw [prepend_nil] at hp
    rw [eq, work]
    exact congrArg Except.ok hp.tableau?_eq

theorem build_map_tableau? (limits : Limits) (root : Signed) :
    (build limits root).map tableau? = (Tableau.build limits root).map some :=
  work_map_tableau? ..

theorem ofLedger_map_tableau? (limits : Limits) (root : Signed) :
    (ofLedger limits root).map tableau? = (Ledger.build limits root).map some :=
  work_map_tableau? ..

end ModalTableau.Draft
