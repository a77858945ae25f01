import ModalTableau.Proofs.TableauLaws
import ModalTableau.Tableau.Draft

/-!
# Laws of drafts

What putting a segment in and rewriting one do to the segments and to what is below them, and how the
walk with a stack relates to the trees it passes: it lists their labels one tree after the other, cut
off when its steps are used up (`walk_eq_take`).
-/

namespace ModalTableau

namespace Tree

variable {α β : Type}

theorem mapAll_eq (f : α → β) (ts : List (Tree α)) : mapAll f ts = ts.map (map f) := by
  induction ts with
  | nil => rfl
  | cons t ts ih => simp [mapAll, ih]

theorem labels_node (a : α) (ts : List (Tree α)) : labels (.node a ts) = a :: ts.flatMap labels := by
  simp only [labels, subtrees, subtreesAll_eq, List.map_cons, List.map_flatMap, label]
  rfl

theorem length_labels (t : Tree α) : t.labels.length = t.size := by
  simp [labels, size]

theorem size_pair (a : α) (t u : Tree α) : size (.node a [t, u]) = t.size + u.size + 1 := by
  simp [size, subtrees, subtreesAll]

theorem size_pos (t : Tree α) : 0 < t.size := by
  obtain ⟨a, ts⟩ := t
  simp [size, subtrees]

theorem labels_map (f : α → β) (t : Tree α) : (t.map f).labels = t.labels.map f := by
  match t with
  | .node a ts =>
    have ih : ∀ t ∈ ts, (t.map f).labels = t.labels.map f := fun t _ => labels_map f t
    simp only [map, mapAll_eq, labels_node, List.map_cons, List.flatMap_map, List.map_flatMap]
    rw [List.flatMap_def, List.flatMap_def, List.map_congr_left ih]

theorem size_map (f : α → β) (t : Tree α) : (t.map f).size = t.size := by
  rw [← length_labels, labels_map, List.length_map, length_labels]

end Tree

namespace Draft

variable {d : Draft} {s : Segment} {p : Option Nat} {f : Segment → Segment} {n m : Nat}

-- ---------------------------------------------------------------------------
-- Putting in and rewriting
-- ---------------------------------------------------------------------------

@[simp]
theorem size_insert : (d.insert s p).size = d.size + 1 := by
  simp [insert, size]

theorem segment_link (nodes : Array Node) (p : Option Nat) (m : Nat) :
    (Node.link nodes p)[m]?.map Node.segment = nodes[m]?.map Node.segment := by
  cases p with
  | none => rfl
  | some p =>
    simp only [Node.link, Array.getElem?_modify]
    split <;> cases nodes[m]? <;> rfl

theorem get?_insert : (d.insert s p).get? m = if m = d.size then some s else d.get? m := by
  have hpush : (d.insert s p).get? m =
      ((Node.link d.nodes p).push ⟨s, p, []⟩)[m]?.map Node.segment := rfl
  rw [hpush, Array.getElem?_push, Node.size_link, get?, ← segment_link d.nodes p]
  exact apply_ite (Option.map Node.segment) ..

theorem parent?_insert : (d.insert s p).parent? m = if m = d.size then p else d.parent? m := by
  have hpush : (d.insert s p).parent? m =
      Node.parentIn ((Node.link d.nodes p).push ⟨s, p, []⟩) m := rfl
  rw [hpush, Node.parentIn_push, Node.size_link, Node.parentIn_link]
  rfl

theorem children_eq_nil (h : d.size ≤ n) : d.children n = [] := by
  rw [children, Node.childrenIn, Array.getElem?_eq_none h]
  rfl

theorem children_insert (hn : n < d.size) :
    (d.insert s (some n)).children m =
      if m = n then d.children m ++ [d.size] else d.children m := by
  have hpush : (d.insert s (some n)).children m =
      Node.childrenIn ((Node.link d.nodes (some n)).push ⟨s, some n, []⟩) m := rfl
  rw [hpush, Node.childrenIn_push, Node.size_link, Node.childrenIn_link]
  by_cases hm : m = d.nodes.size
  · have hne : m ≠ n := fun h => Nat.ne_of_lt hn (h.symm.trans hm)
    rw [if_pos hm, if_neg hne, children_eq_nil (Nat.le_of_eq hm.symm)]
  · rw [if_neg hm]
    by_cases hmn : m = n
    · subst hmn
      rw [if_pos ⟨hn, rfl⟩, if_pos rfl]
      rfl
    · rw [if_neg (fun h => hmn (Option.some.inj h.2).symm), if_neg hmn, List.append_nil]
      rfl

theorem lt_size_of_get? (h : d.get? n = some s) : n < d.size := by
  obtain ⟨node, hnode, -⟩ := Option.map_eq_some_iff.mp h
  exact (Array.getElem?_eq_some_iff.mp hnode).1

theorem exists_get? (h : n < d.size) : ∃ s, d.get? n = some s :=
  ⟨_, Option.map_eq_some_iff.mpr ⟨_, Array.getElem?_eq_getElem h, rfl⟩⟩

@[simp]
theorem size_modify : (d.modify n f).size = d.size := by
  simp [modify, size]

theorem get?_modify : (d.modify n f).get? m = if m = n then (d.get? m).map f else d.get? m := by
  simp only [modify, get?, Array.getElem?_modify]
  by_cases h : n = m
  · simp only [h, if_true, Option.map_map]
    rfl
  · simp [h, Ne.symm h]

@[simp]
theorem parent?_modify : (d.modify n f).parent? m = d.parent? m := by
  simp only [modify, parent?, Node.parentIn, Array.getElem?_modify]
  split <;> cases d.nodes[m]? <;> rfl

@[simp]
theorem children_modify : (d.modify n f).children m = d.children m := by
  simp [children_eq]

-- ---------------------------------------------------------------------------
-- Trees
-- ---------------------------------------------------------------------------

theorem numbersBelow_eq (d : Draft) (n : Nat) :
    d.numbersBelow n = .node n ((d.children n).map d.numbersBelow) := by
  rw [numbersBelow]
  simp

/-- The induction is on the steps: one step replaces the tree on top of the stack by those below its
root. -/
theorem walk_eq_take (d : Draft) (steps : Nat) (ns : List Nat) :
    d.walk steps ns = (ns.flatMap fun n => (d.numbersBelow n).labels).take steps := by
  induction steps generalizing ns with
  | zero => simp [walk]
  | succ steps ih =>
    cases ns with
    | nil => simp [walk]
    | cons n pending =>
      rw [walk, ih, List.flatMap_cons, numbersBelow_eq, Tree.labels_node]
      simp [List.flatMap_map]

theorem order_eq_labels (hr : d.root = some n) (hn : (d.numbersBelow n).size ≤ d.size) :
    d.order = (d.numbersBelow n).labels := by
  rw [order, walk_eq_take, hr]
  simp only [Option.toList_some, List.flatMap_cons, List.flatMap_nil, List.append_nil]
  exact List.take_of_length_le (Tree.length_labels _ ▸ hn)

end Draft
end ModalTableau
