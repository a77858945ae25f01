import Mathlib.Data.List.Induction
import Mathlib.Data.List.Nodup
import Mathlib.Data.List.Perm.Subperm
import Mathlib.Logic.Relation
import ModalTableau.Proofs.DraftLaws
import ModalTableau.Report.Json

/-!
# Ways of walking a draft

A draft is walked with a stack, written as JSON and printed as an outline, and its depth and leaves
are read off. All of these pass the same segments in the same order: those that hang from the root,
each once and before what hangs from it (`Draft.traversals_agree`). What makes this so is that a
segment hangs directly from at most one other and that this one was put in before it.
-/

namespace ModalTableau

-- ---------------------------------------------------------------------------
-- Trees
-- ---------------------------------------------------------------------------

namespace Tree

variable {α β : Type}

theorem leaves_node (a : α) (ts : List (Tree α)) :
    leaves (.node a ts) = if ts = [] then [.node a ts] else ts.flatMap leaves := by
  cases ts with
  | nil => rfl
  | cons t ts =>
    simp only [leaves, subtrees, subtreesAll_eq, List.filter_cons, List.filter_flatMap]
    rfl

theorem leaves_map (f : α → β) (t : Tree α) : (t.map f).leaves = t.leaves.map (map f) := by
  match t with
  | .node a ts =>
    have ih : ∀ t ∈ ts, (t.map f).leaves = t.leaves.map (map f) := fun t _ => leaves_map f t
    simp only [map, mapAll_eq, leaves_node, List.map_eq_nil_iff, List.flatMap_map]
    split
    · simp [map, mapAll_eq]
    · rw [List.map_flatMap, List.flatMap_def, List.flatMap_def, List.map_congr_left ih]

theorem label_map (f : α → β) (t : Tree α) : (t.map f).label = f t.label := by
  obtain ⟨a, ts⟩ := t
  rfl

theorem depth_le_depthAll {t : Tree α} {ts : List (Tree α)} (h : t ∈ ts) :
    t.depth ≤ depthAll ts := by
  induction h with
  | head ts => exact Nat.le_max_left ..
  | tail t _ ih => exact Nat.le_trans ih (Nat.le_max_right ..)

theorem exists_depth_eq_depthAll {ts : List (Tree α)} (h : ts ≠ []) :
    ∃ t ∈ ts, t.depth = depthAll ts := by
  induction ts with
  | nil => exact absurd rfl h
  | cons t ts ih =>
    by_cases hts : ts = []
    · exact ⟨t, by simp [hts, depthAll]⟩
    · obtain ⟨u, hu, hdepth⟩ := ih hts
      rcases Nat.le_total t.depth (depthAll ts) with hle | hle
      · exact ⟨u, .tail _ hu, by simp [depthAll, hdepth, hle]⟩
      · exact ⟨t, .head _, by simp [depthAll, hle]⟩

mutual
theorem depth_map (f : α → β) : ∀ t : Tree α, (t.map f).depth = t.depth
  | .node _ ts => congrArg (· + 1) (depthAll_mapAll f ts)

theorem depthAll_mapAll (f : α → β) : ∀ ts : List (Tree α), depthAll (mapAll f ts) = depthAll ts
  | [] => rfl
  | t :: ts => congrArg₂ max (depth_map f t) (depthAll_mapAll f ts)
end

end Tree

-- ---------------------------------------------------------------------------
-- What is written and printed
-- ---------------------------------------------------------------------------

mutual
/-- The records of a tree kept as JSON, each without its children and before them. -/
def Json.records : Json → List (List (String × Json))
  | obj fields => fields.filter (·.1 ≠ "children") :: recordsBelow fields
  | arr items => recordsAll items
  | _ => []

def Json.recordsAll : List Json → List (List (String × Json))
  | [] => []
  | j :: rest => j.records ++ recordsAll rest

def Json.recordsBelow : List (String × Json) → List (List (String × Json))
  | [] => []
  | (key, j) :: rest => (if key = "children" then j.records else []) ++ recordsBelow rest
end

namespace Segment

def fields (s : Segment) : List (String × Json) :=
  [("seed", .ofList Signed.toJson s.seed), ("inferences", .ofList Inference.toJson s.inferences),
    ("status", s.status.toJson)]

def printed (n : Notation) (s : Segment) : List String :=
  s.text n :: s.inferences.map (·.render n)

end Segment

namespace Tableau

mutual
theorem records_toJson : ∀ t : Tableau, (toJson t).records = t.labels.map Segment.fields
  | .node s ts => by
    simp [toJson, Json.records, Json.recordsBelow, Tree.labels_node, recordsAll_toJsonAll ts,
      Segment.fields]

theorem recordsAll_toJsonAll : ∀ ts : List Tableau,
    Json.recordsAll (toJsonAll ts) = (ts.flatMap Tree.labels).map Segment.fields
  | [] => rfl
  | t :: ts => by
    simp [toJsonAll, Json.recordsAll, records_toJson t, recordsAll_toJsonAll ts]
end

mutual
theorem labels_outline (n : Notation) : ∀ t : Tableau,
    (outline n t).labels = t.labels.flatMap (Segment.printed n)
  | .node s ts => by
    have hleaves : (s.inferences.map (Tree.leaf <| ·.render n)).flatMap Tree.labels =
        s.inferences.map (·.render n) := by
      rw [List.flatMap_map, List.map_eq_flatMap]
      rfl
    simp [outline, Tree.labels_node, labels_outlines n ts, Segment.printed, hleaves]

theorem labels_outlines (n : Notation) : ∀ ts : List Tableau,
    (outlines n ts).flatMap Tree.labels = (ts.flatMap Tree.labels).flatMap (Segment.printed n)
  | [] => rfl
  | t :: ts => by
    simp [outlines, labels_outline n t, labels_outlines n ts]
end

end Tableau

namespace Draft

variable {d : Draft} {n m k r : Nat}

-- ---------------------------------------------------------------------------
-- What hangs from a segment
-- ---------------------------------------------------------------------------

/-- Directly or through others; every segment hangs from itself. -/
def HangsFrom (d : Draft) : Nat → Nat → Prop :=
  Relation.ReflTransGen fun m n => m ∈ d.children n

theorem mem_children : m ∈ d.children n ↔ n < m ∧ m < d.size ∧ d.parent? m = some n := by
  simp only [children_eq, List.mem_filter, List.mem_range, decide_eq_true_eq]
  tauto

theorem children_unique : Relator.RightUnique fun m n => m ∈ d.children n := by
  intro m n k hn hk
  exact Option.some.inj ((mem_children.mp hn).2.2.symm.trans (mem_children.mp hk).2.2)

theorem nodup_children : (d.children n).Nodup := d.children_eq n ▸ List.nodup_range.filter _

namespace HangsFrom

theorem le (h : d.HangsFrom m n) : n ≤ m := by
  induction h with
  | refl => exact Nat.le_refl _
  | tail _ hchild ih => exact Nat.le_trans (Nat.le_of_lt (mem_children.mp hchild).1) ih

theorem lt_size (h : d.HangsFrom m n) (hn : n < d.size) : m < d.size := by
  cases h using Relation.ReflTransGen.head_induction_on with
  | refl => exact hn
  | head hchild => exact (mem_children.mp hchild).2.1

theorem eq_or_child (h : d.HangsFrom m n) : m = n ∨ ∃ k ∈ d.children n, d.HangsFrom m k := by
  cases h with
  | refl => exact .inl rfl
  | tail hrest hchild => exact .inr ⟨_, hchild, hrest⟩

theorem eq_of_siblings (h : d.HangsFrom m k) (hm : m ∈ d.children r) (hk : k ∈ d.children r) :
    m = k := by
  cases h using Relation.ReflTransGen.head_induction_on with
  | refl => rfl
  | head hchild hrest =>
    -- Otherwise `r`, the only one above `m`, would hang from `k`, which came after it.
    obtain rfl := children_unique hchild hm
    exact absurd (le hrest) (Nat.not_le_of_lt (mem_children.mp hk).1)

/-- Two segments that hang directly from the same one share nothing: of two segments above a third
one hangs from the other. -/
theorem eq_of_children (hnm : d.HangsFrom n m) (hnk : d.HangsFrom n k) (hm : m ∈ d.children r)
    (hk : k ∈ d.children r) : m = k := by
  rcases Relation.ReflTransGen.total_of_right_unique children_unique hnm hnk with h | h
  · exact eq_of_siblings h hm hk
  · exact (eq_of_siblings h hk hm).symm

end HangsFrom

theorem labels_numbersBelow (d : Draft) (n : Nat) : (d.numbersBelow n).labels =
    n :: (d.children n).flatMap fun m => (d.numbersBelow m).labels := by
  rw [numbersBelow_eq, Tree.labels_node, List.flatMap_map]

-- Numbers grow on the way down and stay below the size, which is what the recursions here and
-- further on descend by.
theorem mem_labels_numbersBelow (d : Draft) (n m : Nat) :
    m ∈ (d.numbersBelow n).labels ↔ d.HangsFrom m n := by
  rw [labels_numbersBelow]
  constructor
  · intro h
    rcases List.mem_cons.mp h with rfl | h
    · exact .refl
    · obtain ⟨k, hk, hm⟩ := List.mem_flatMap.mp h
      exact .tail ((mem_labels_numbersBelow d k m).mp hm) hk
  · intro h
    rcases h.eq_or_child with rfl | ⟨k, hk, hm⟩
    · exact .head _
    · exact .tail _ (List.mem_flatMap.mpr ⟨k, hk, (mem_labels_numbersBelow d k m).mpr hm⟩)
termination_by d.size - n
decreasing_by all_goals exact lt_of_mem_children hk

theorem nodup_labels_numbersBelow (d : Draft) (n : Nat) : (d.numbersBelow n).labels.Nodup := by
  rw [labels_numbersBelow, List.nodup_cons, List.nodup_flatMap]
  refine ⟨?_, fun m hm => nodup_labels_numbersBelow d m, ?_⟩
  · intro h
    obtain ⟨m, hm, hn⟩ := List.mem_flatMap.mp h
    have hle := ((mem_labels_numbersBelow d m n).mp hn).le
    exact Nat.not_lt_of_le hle (mem_children.mp hm).1
  · refine nodup_children.imp_of_mem ?_
    intro m k hm hk hne a ham hak
    have ham := (mem_labels_numbersBelow d m a).mp ham
    have hak := (mem_labels_numbersBelow d k a).mp hak
    exact hne (ham.eq_of_children hak hm hk)
termination_by d.size - n
decreasing_by exact lt_of_mem_children hm

/-- The bound on the steps of a walk is never felt. -/
theorem size_numbersBelow_le (hn : n < d.size) : (d.numbersBelow n).size ≤ d.size := by
  have hsub : (d.numbersBelow n).labels ⊆ List.range d.size := fun m hm =>
    List.mem_range.mpr (((mem_labels_numbersBelow d n m).mp hm).lt_size hn)
  simpa [Tree.length_labels] using
    ((nodup_labels_numbersBelow d n).subperm hsub).length_le

-- ---------------------------------------------------------------------------
-- The walk from the root
-- ---------------------------------------------------------------------------

/-- The root has been put in. Nothing else can be missing: what is below a segment is there. -/
def Rooted (d : Draft) : Prop := ∀ r, d.root = some r → r < d.size

namespace Rooted

theorem order_eq_flatMap (h : d.Rooted) :
    d.order = d.root.toList.flatMap fun r => (d.numbersBelow r).labels := by
  cases hr : d.root with
  | none => simp [order, walk_eq_take, hr]
  | some r => simp [order_eq_labels hr (size_numbersBelow_le (h r hr))]

theorem mem_order (h : d.Rooted) : n ∈ d.order ↔ ∃ r, d.root = some r ∧ d.HangsFrom n r := by
  simp [h.order_eq_flatMap, mem_labels_numbersBelow]

theorem nodup_order (h : d.Rooted) : d.order.Nodup := by
  rw [h.order_eq_flatMap]
  cases d.root with
  | none => exact List.nodup_nil
  | some r => simpa using nodup_labels_numbersBelow d r

theorem lt_size_of_mem_order (h : d.Rooted) (hn : n ∈ d.order) : n < d.size := by
  obtain ⟨r, hr, hn⟩ := h.mem_order.mp hn
  exact hn.lt_size (h r hr)

theorem size_eq_order_add (h : d.Rooted) :
    d.size = d.order.length + ((List.range d.size).filter (· ∉ d.order)).length := by
  have hperm : ((List.range d.size).filter (· ∈ d.order)).Perm d.order := by
    rw [List.perm_ext_iff_of_nodup (List.nodup_range.filter _) h.nodup_order]
    intro n
    simpa using h.lt_size_of_mem_order
  have hsplit := List.length_eq_length_filter_add (l := List.range d.size) (· ∈ d.order)
  simpa [hperm.length_eq] using hsplit

end Rooted

-- ---------------------------------------------------------------------------
-- Iteration
-- ---------------------------------------------------------------------------

/-- One call of the iteration: it takes the top of the stack, which has to be there, and puts what
is directly below it in its place. -/
def next? (d : Draft) : List Nat → Option ((Nat × Segment) × List Nat)
  | [] => none
  | n :: pending => (d.get? n).map fun s => ((n, s), d.children n ++ pending)

/-- The iteration comes to an end, and this is what it gave until then. -/
inductive Yields (d : Draft) : List Nat → List (Nat × Segment) → Prop
  | stop {stack} (next : d.next? stack = none) : Yields d stack []
  | item {stack x stack' xs} (next : d.next? stack = some (x, stack'))
      (rest : Yields d stack' xs) : Yields d stack (x :: xs)

def segment (d : Draft) (n : Nat) : Segment := (d.get? n).getD (.ofSeed [])

theorem get?_eq_segment (h : n < d.size) : d.get? n = some (d.segment n) := by
  obtain ⟨s, hs⟩ := exists_get? h
  simp [segment, hs]

theorem Yields.unique {stack : List Nat} {xs ys : List (Nat × Segment)} (hx : d.Yields stack xs)
    (hy : d.Yields stack ys) : xs = ys := by
  induction hx generalizing ys with
  | stop next =>
    cases hy with
    | stop => rfl
    | item next' => cases next.symm.trans next'
  | item next _ ih =>
    cases hy with
    | stop next' => cases next.symm.trans next'
    | item next' rest' =>
      cases next.symm.trans next'
      rw [ih rest']

/-- A segment on top of the stack is followed by all that hangs from it, and only then by the rest
of the stack. -/
theorem yields_cons (d : Draft) (n : Nat) {pending : List Nat} {xs : List (Nat × Segment)}
    (hn : n < d.size) (h : d.Yields pending xs) : d.Yields (n :: pending)
      ((d.numbersBelow n).labels.map (fun m => (m, d.segment m)) ++ xs) := by
  have below : ∀ ms ⊆ d.children n, d.Yields (ms ++ pending)
      ((ms.flatMap fun m => (d.numbersBelow m).labels).map (fun m => (m, d.segment m)) ++ xs) := by
    intro ms hms
    induction ms with
    | nil => exact h
    | cons m ms ih =>
      obtain ⟨hm, hms⟩ := List.cons_subset.mp hms
      rw [List.flatMap_cons, List.map_append, List.append_assoc]
      exact yields_cons d m (mem_children.mp hm).2.1 (ih hms)
  rw [labels_numbersBelow]
  exact .item (by simp [next?, get?_eq_segment hn]) (below _ (List.Subset.refl _))
termination_by d.size - n
decreasing_by exact lt_of_mem_children hm

theorem Rooted.yields_iff (h : d.Rooted) (xs : List (Nat × Segment)) :
    d.Yields d.root.toList xs ↔ xs = d.order.map fun n => (n, d.segment n) := by
  have hyields : d.Yields d.root.toList (d.order.map fun n => (n, d.segment n)) := by
    rw [h.order_eq_flatMap]
    cases hr : d.root with
    | none => exact .stop rfl
    | some r => simpa using yields_cons d r (h r hr) (.stop rfl)
  constructor
  · intro hxs
    exact hxs.unique hyields
  · rintro rfl
    exact hyields

-- ---------------------------------------------------------------------------
-- Depth and leaves
-- ---------------------------------------------------------------------------

inductive Descent (d : Draft) : Nat → List Nat → Prop
  | leaf {n : Nat} (childless : d.children n = []) : Descent d n [n]
  | down {n m : Nat} {path : List Nat} (child : m ∈ d.children n) (rest : Descent d m path) :
      Descent d n (n :: path)

theorem depth_numbersBelow (d : Draft) (n : Nat) :
    (d.numbersBelow n).depth = Tree.depthAll ((d.children n).map d.numbersBelow) + 1 := by
  rw [numbersBelow_eq, Tree.depth]

theorem Descent.length_le {path : List Nat} (h : d.Descent n path) :
    path.length ≤ (d.numbersBelow n).depth := by
  induction h with
  | leaf => simp [depth_numbersBelow]
  | down child _ ih =>
    rw [depth_numbersBelow]
    exact Nat.succ_le_succ (Nat.le_trans ih (Tree.depth_le_depthAll (List.mem_map_of_mem child)))

theorem exists_descent (d : Draft) (n : Nat) :
    ∃ path, d.Descent n path ∧ path.length = (d.numbersBelow n).depth := by
  rw [depth_numbersBelow]
  by_cases hc : d.children n = []
  · exact ⟨[n], .leaf hc, by simp [hc, Tree.depthAll]⟩
  · have hbelow : (d.children n).map d.numbersBelow ≠ [] := mt List.map_eq_nil_iff.mp hc
    obtain ⟨t, ht, hdepth⟩ := Tree.exists_depth_eq_depthAll hbelow
    obtain ⟨m, hm, rfl⟩ := List.mem_map.mp ht
    obtain ⟨path, hpath, hlength⟩ := exists_descent d m
    exact ⟨n :: path, .down hm hpath, by simp [hlength, hdepth]⟩
termination_by d.size - n
decreasing_by exact lt_of_mem_children hm

def fringe (d : Draft) (n : Nat) : List Nat := (d.numbersBelow n).leaves.map Tree.label

theorem fringe_eq (d : Draft) (n : Nat) :
    d.fringe n = if d.children n = [] then [n] else (d.children n).flatMap d.fringe := by
  rw [fringe, numbersBelow_eq, Tree.leaves_node]
  by_cases hc : d.children n = []
  · simp [hc, Tree.label]
  · simp only [List.map_eq_nil_iff, hc, if_false, List.map_flatMap, List.flatMap_map]
    rfl

theorem filter_labels_numbersBelow (d : Draft) (n : Nat) :
    (d.numbersBelow n).labels.filter (fun m => (d.children m).isEmpty) = d.fringe n := by
  rw [labels_numbersBelow, fringe_eq]
  have ih : ∀ m ∈ d.children n,
      (d.numbersBelow m).labels.filter (fun m => (d.children m).isEmpty) = d.fringe m :=
    fun m hm => filter_labels_numbersBelow d m
  by_cases hc : d.children n = []
  · simp [hc]
  · simp only [List.filter_cons, List.isEmpty_iff, hc, List.filter_flatMap, if_false]
    rw [List.flatMap_def, List.flatMap_def, List.map_congr_left ih]
termination_by d.size - n
decreasing_by exact lt_of_mem_children hm

theorem Rooted.leaves_eq_flatMap (h : d.Rooted) : d.leaves = d.root.toList.flatMap d.fringe := by
  rw [leaves, h.order_eq_flatMap, List.filter_flatMap]
  simp only [filter_labels_numbersBelow]

-- ---------------------------------------------------------------------------
-- The tableau, its JSON and its outline
-- ---------------------------------------------------------------------------

namespace Rooted

theorem labels_tableau? (h : d.Rooted) :
    d.tableau?.toList.flatMap Tree.labels = d.order.map d.segment := by
  rw [h.order_eq_flatMap, tableau?]
  cases d.root with
  | none => rfl
  | some r => simp [Tree.labels_map, segment]

theorem records_toJson (h : d.Rooted) :
    d.toJson.records = d.order.map fun n => (d.segment n).fields := by
  have hlabels := congrArg (List.map Segment.fields) h.labels_tableau?
  rw [List.map_map] at hlabels
  refine Eq.trans ?_ hlabels
  rw [toJson]
  cases d.tableau? with
  | none => rfl
  | some t => simp [Json.ofOption, Tableau.records_toJson]

theorem labels_outline (h : d.Rooted) (n : Notation) : (d.outline n).labels =
    if d.root = none then ["Empty tree"] else d.order.flatMap fun m => (d.segment m).printed n := by
  have hlabels := congrArg (List.flatMap (Segment.printed n)) h.labels_tableau?
  rw [List.flatMap_map] at hlabels
  rw [← hlabels, outline, tableau?]
  cases d.root with
  | none => rfl
  | some r => simp [Tableau.labels_outline]

theorem leaves_tableau? (h : d.Rooted) :
    (d.tableau?.elim [] Tree.leaves).map Tree.label = d.leaves.map d.segment := by
  rw [h.leaves_eq_flatMap, tableau?]
  cases d.root with
  | none => rfl
  | some r => simp [Tree.leaves_map, fringe, Tree.label_map, segment]

end Rooted

theorem depth_tableau? (hr : d.root = some r) :
    d.tableau?.elim 0 Tree.depth = (d.numbersBelow r).depth := by
  simp [tableau?, hr, Tree.depth_map]

-- ---------------------------------------------------------------------------
-- Drafts put together by insertions
-- ---------------------------------------------------------------------------

def ofInsertions (insertions : List (Segment × Option Nat)) : Draft :=
  insertions.foldl (fun d i => d.insert i.1 i.2) .empty

theorem ofInsertions_concat (insertions : List (Segment × Option Nat)) (i : Segment × Option Nat) :
    ofInsertions (insertions ++ [i]) = (ofInsertions insertions).insert i.1 i.2 := by
  simp [ofInsertions]

theorem size_ofInsertions (insertions : List (Segment × Option Nat)) :
    (ofInsertions insertions).size = insertions.length := by
  induction insertions using List.reverseRec with
  | nil => rfl
  | append_singleton insertions i ih => simp [ofInsertions_concat, ih]

theorem get?_ofInsertions (insertions : List (Segment × Option Nat)) (n : Nat) :
    (ofInsertions insertions).get? n = insertions[n]?.map (·.1) := by
  induction insertions using List.reverseRec with
  | nil => rfl
  | append_singleton insertions i ih =>
    rw [ofInsertions_concat, get?_insert, size_ofInsertions, ih]
    split
    next hn => simp [hn]
    next hn => rw [getElem?_concat_of_ne hn]

theorem parent?_ofInsertions (insertions : List (Segment × Option Nat)) (n : Nat) :
    (ofInsertions insertions).parent? n = insertions[n]?.bind (·.2) := by
  induction insertions using List.reverseRec with
  | nil => rfl
  | append_singleton insertions i ih =>
    rw [ofInsertions_concat, parent?_insert, size_ofInsertions, ih]
    split
    next hn => simp [hn]
    next hn => rw [getElem?_concat_of_ne hn]

theorem children_ofInsertions (insertions : List (Segment × Option Nat)) (n : Nat) :
    (ofInsertions insertions).children n = (List.range insertions.length).filter
      fun m => n < m ∧ insertions[m]?.bind (·.2) = some n := by
  rw [children_eq, size_ofInsertions]
  simp only [parent?_ofInsertions]

theorem root_ofInsertions (insertions : List (Segment × Option Nat)) (r : Nat) :
    (ofInsertions insertions).root = some r ↔ (∃ s, insertions[r]? = some (s, none)) ∧
      ∀ m s, insertions[m]? = some (s, none) → m ≤ r := by
  induction insertions using List.reverseRec with
  | nil => simp [ofInsertions, empty]
  | append_singleton insertions i ih =>
    have hlt : ∀ (m : Nat) (s : Segment), insertions[m]? = some (s, none) →
        m < insertions.length := fun m s h => (List.getElem?_eq_some_iff.mp h).1
    simp only [getElem?_concat_eq_some, ofInsertions_concat, insert, size_ofInsertions]
    obtain ⟨s, _ | p⟩ := i
    · simp only [Option.isNone_none, if_true, Option.some.injEq]
      constructor
      · rintro rfl
        refine ⟨⟨s, .inr ⟨rfl, rfl⟩⟩, ?_⟩
        rintro m s' (h | ⟨rfl, -⟩)
        · exact Nat.le_of_lt (hlt m s' h)
        · exact Nat.le_refl _
      · rintro ⟨⟨s', h | ⟨rfl, -⟩⟩, hlast⟩
        · exact absurd (hlast _ s (.inr ⟨rfl, rfl⟩)) (Nat.not_le_of_lt (hlt r s' h))
        · rfl
    · simpa using ih

theorem rooted_ofInsertions (insertions : List (Segment × Option Nat)) :
    (ofInsertions insertions).Rooted := by
  intro r hr
  obtain ⟨⟨s, hs⟩, -⟩ := (root_ofInsertions insertions r).mp hr
  exact size_ofInsertions insertions ▸ (List.getElem?_eq_some_iff.mp hs).1

/-- However a draft was put together, all ways of walking it pass the same segments, in the same
order. -/
theorem traversals_agree (insertions : List (Segment × Option Nat)) (style : Notation) :
    let d := ofInsertions insertions
    -- What the insertions leave: the segments, what they name as above them, what is directly below
    -- each of them, and the root.
    ((∀ n, d.get? n = insertions[n]?.map (·.1)) ∧ (∀ n, d.parent? n = insertions[n]?.bind (·.2)) ∧
      (∀ n, d.children n = (List.range insertions.length).filter
        fun m => n < m ∧ insertions[m]?.bind (·.2) = some n) ∧
      ∀ r, d.root = some r ↔ (∃ s, insertions[r]? = some (s, none)) ∧
        ∀ m s, insertions[m]? = some (s, none) → m ≤ r) ∧
    -- The iteration ends, and has then given what hangs from the root, each segment once.
    ((∀ xs, d.Yields d.root.toList xs ↔ xs = d.order.map fun n => (n, d.segment n)) ∧
      (∀ n ∈ d.order, d.get? n = some (d.segment n)) ∧ d.order.Nodup ∧
      (∀ n, n ∈ d.order ↔ ∃ r, d.root = some r ∧ d.HangsFrom n r) ∧
      ∃ pre : Nat → List Nat, (∀ n, pre n = n :: (d.children n).flatMap pre) ∧
        d.order = d.root.toList.flatMap pre) ∧
    -- The JSON and the outline show the same segments in the same order.
    (d.toJson.records = d.order.map (fun n => (d.segment n).fields) ∧
      (d.outline style).labels = if d.root = none then ["Empty tree"] else
        d.order.flatMap fun n => (d.segment n).printed style) ∧
    -- The depth is the length of a longest way down from the root.
    ((d.root = none → d.tableau?.elim 0 Tree.depth = 0) ∧
      ∀ r, d.root = some r →
        (∃ path, d.Descent r path ∧ path.length = d.tableau?.elim 0 Tree.depth) ∧
        ∀ path, d.Descent r path → path.length ≤ d.tableau?.elim 0 Tree.depth) ∧
    -- The leaves are what has nothing below it, from left to right.
    ((∀ n, n ∈ d.leaves ↔ n ∈ d.order ∧ d.children n = []) ∧ d.leaves.Sublist d.order ∧
      (∃ fringe : Nat → List Nat,
        (∀ n, fringe n = if d.children n = [] then [n] else (d.children n).flatMap fringe) ∧
        d.leaves = d.root.toList.flatMap fringe) ∧
      (d.tableau?.elim [] Tree.leaves).map Tree.label = d.leaves.map d.segment) ∧
    -- The size counts every insertion, also what does not hang from the root.
    d.size = insertions.length ∧
      d.size = d.order.length + ((List.range d.size).filter (· ∉ d.order)).length := by
  intro d
  have h : d.Rooted := rooted_ofInsertions insertions
  refine ⟨⟨get?_ofInsertions insertions, parent?_ofInsertions insertions,
    children_ofInsertions insertions, root_ofInsertions insertions⟩,
    ⟨h.yields_iff, ?_, h.nodup_order, fun n => h.mem_order, ?_⟩,
    ⟨h.records_toJson, h.labels_outline style⟩, ⟨?_, ?_⟩, ⟨?_, List.filter_sublist, ?_,
    h.leaves_tableau?⟩, size_ofInsertions insertions, h.size_eq_order_add⟩
  · intro n hn
    exact get?_eq_segment (h.lt_size_of_mem_order hn)
  · exact ⟨fun n => (d.numbersBelow n).labels, d.labels_numbersBelow, h.order_eq_flatMap⟩
  · intro hr
    simp [tableau?, hr]
  · intro r hr
    rw [depth_tableau? hr]
    exact ⟨d.exists_descent r, fun path hpath => hpath.length_le⟩
  · intro n
    simp [leaves]
  · exact ⟨d.fringe, d.fringe_eq, h.leaves_eq_flatMap⟩

/-- A root put in place of another, and a segment below a number not given out. -/
example : let s := Segment.ofSeed []
    let d := ofInsertions [(s, none), (s, some 0), (s, none), (s, some 2), (s, some 9), (s, some 2),
      (s, some 3)]
    (d.size, d.order, d.leaves) = (7, [2, 3, 6, 5], [6, 5]) := by
  decide

end Draft
end ModalTableau
