import ModalTableau.Ascending.Map

/-!
# Ascending sets and maps

How insertion changes the size of a set, and why sets with the same members and maps with the same
entries are equal: of lists in which every pair stands in a strict order there is only one for each
collection of members (`eq_of_pairwise`).
-/

namespace ModalTableau.Ascending

-- ---------------------------------------------------------------------------
-- Sizes
-- ---------------------------------------------------------------------------

section

open Std (TransOrd LawfulEqOrd OrientedCmp)

variable {α : Type} [Ord α] [TransOrd α] [LawfulEqOrd α] {s : Ascending α} {a : α} {l : List α}

omit [LawfulEqOrd α] in
theorem nodup (s : Ascending α) : s.toList.Nodup := by
  refine s.ascending.imp fun {a b} hlt heq => ?_
  simp [heq] at hlt

theorem place_of_mem (hl : l.Pairwise (compare · · = .lt)) (h : a ∈ l) : place a l = l := by
  induction l with
  | nil => simp at h
  | cons b rest ih =>
    obtain ⟨hb, hrest⟩ := List.pairwise_cons.mp hl
    rw [place]
    split
    next hlt =>
      rcases List.mem_cons.mp h with rfl | h
      · simp at hlt
      · simp [OrientedCmp.gt_of_lt (hb a h)] at hlt
    next => rfl
    next hgt =>
      rcases List.mem_cons.mp h with rfl | h
      · simp at hgt
      · rw [ih hrest h]

omit [TransOrd α] in
theorem length_place_of_not_mem (h : a ∉ l) : (place a l).length = l.length + 1 := by
  induction l with
  | nil => rfl
  | cons b rest ih =>
    rw [List.mem_cons, not_or] at h
    obtain ⟨hab, hrest⟩ := h
    rw [place]
    split
    next => rfl
    next heq => exact absurd (Std.LawfulEqCmp.eq_of_compare heq) hab
    next => simp [ih hrest]

theorem insert_of_mem (h : a ∈ s) : s.insert a = s := by
  obtain ⟨l, hl⟩ := s
  simp only [insert, place_of_mem hl h]

theorem size_insert_of_not_mem (h : a ∉ s) : (s.insert a).size = s.size + 1 :=
  length_place_of_not_mem h

theorem size_le_insert (s : Ascending α) (a : α) : s.size ≤ (s.insert a).size := by
  by_cases h : a ∈ s
  · exact Nat.le_of_eq (by rw [insert_of_mem h])
  · rw [size_insert_of_not_mem h]
    exact Nat.le_succ _

theorem size_insert_le (s : Ascending α) (a : α) : (s.insert a).size ≤ s.size + 1 := by
  by_cases h : a ∈ s
  · rw [insert_of_mem h]
    exact Nat.le_succ _
  · exact Nat.le_of_eq (size_insert_of_not_mem h)

theorem size_le_insertMany (s : Ascending α) (l : List α) : s.size ≤ (s.insertMany l).size := by
  induction l generalizing s with
  | nil => exact Nat.le_refl _
  | cons a rest ih => exact Nat.le_trans (size_le_insert s a) (ih (s.insert a))

theorem size_lt_insertMany (h : a ∈ l) (ha : ∀ x ∈ l, x ∉ s) : s.size < (s.insertMany l).size := by
  cases l with
  | nil => simp at h
  | cons b rest =>
    have hb := size_insert_of_not_mem (ha b (by simp))
    have hrest := size_le_insertMany (s.insert b) rest
    exact Nat.lt_of_lt_of_le (Nat.lt_of_lt_of_eq (Nat.lt_succ_self _) hb.symm) hrest

end

-- ---------------------------------------------------------------------------
-- Extensionality
-- ---------------------------------------------------------------------------

theorem eq_of_pairwise {α : Type} {r : α → α → Prop} (asymm : ∀ a b, r a b → ¬ r b a)
    {l l' : List α} (hl : l.Pairwise r) (hl' : l'.Pairwise r) (h : ∀ a, a ∈ l ↔ a ∈ l') :
    l = l' := by
  have hnodup {l : List α} (hl : l.Pairwise r) : l.Nodup := by
    refine hl.imp fun {a b} hr heq => ?_
    subst heq
    exact asymm a a hr hr
  have hperm := (List.perm_ext_iff_of_nodup (hnodup hl) (hnodup hl')).mpr h
  exact hperm.eq_of_pairwise (fun a b _ _ hr hr' => (asymm a b hr hr').elim) hl hl'

theorem eq_of_mem_iff {α : Type} [Ord α] [Std.TransOrd α] {s t : Ascending α}
    (h : ∀ a, a ∈ s ↔ a ∈ t) : s = t := by
  obtain ⟨l, hl⟩ := s
  obtain ⟨l', hl'⟩ := t
  have hlists : l = l' :=
    eq_of_pairwise (fun a b hlt hgt => by simp [Std.OrientedCmp.gt_of_lt hlt] at hgt) hl hl' h
  subst hlists
  rfl

namespace Map

variable {κ β : Type} [Ord κ] [DecidableEq κ] [Std.TransOrd κ] {s t : Map κ β}

theorem get?_eq_some_iff {k : κ} {b : β} : s.get? k = some b ↔ (k, b) ∈ s.toList := by
  rw [get?, List.lookup_eq_some_iff]
  constructor
  · rintro ⟨l, l', hl, -⟩
    simp [hl]
  · intro h
    obtain ⟨l, l', hl⟩ := List.append_of_mem h
    refine ⟨l, l', hl, fun p hp => ?_⟩
    -- The keys before this one are smaller.
    have hlt : compare p.1 k = .lt :=
      (List.pairwise_append.mp (hl ▸ s.ascending)).2.2 p hp (k, b) (by simp)
    rw [bne_iff_ne]
    rintro rfl
    simp at hlt

theorem eq_of_get? (h : ∀ k, s.get? k = t.get? k) : s = t := by
  have hmem : ∀ e, e ∈ s.toList ↔ e ∈ t.toList := by
    rintro ⟨k, b⟩
    rw [← get?_eq_some_iff, ← get?_eq_some_iff, h]
  obtain ⟨l, hl⟩ := s
  obtain ⟨l', hl'⟩ := t
  have hlists : l = l' :=
    eq_of_pairwise (fun a b hlt hgt => by simp [Std.OrientedCmp.gt_of_lt hlt] at hgt) hl hl' hmem
  subst hlists
  rfl

end Map
end ModalTableau.Ascending
