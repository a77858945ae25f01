/-!
Finite sets as strictly ascending lists. Each set has one representation, so sets with the same
members are equal, and listing a set gives its members in order.
-/

namespace ModalTableau

open Std (TransOrd LawfulEqOrd OrientedCmp TransCmp)

structure Ascending (α : Type) [Ord α] where
  toList : List α
  ascending : toList.Pairwise (compare · · = .lt)

namespace Ascending

variable {α : Type} [Ord α]

instance [DecidableEq α] : DecidableEq (Ascending α) := fun s t =>
  decidable_of_iff (s.toList = t.toList) ⟨fun h => by cases s; cases t; cases h; rfl, fun h => h ▸ rfl⟩

instance : Membership α (Ascending α) := ⟨fun s a => a ∈ s.toList⟩

theorem mem_def {a : α} {s : Ascending α} : a ∈ s ↔ a ∈ s.toList := Iff.rfl

instance [DecidableEq α] (a : α) (s : Ascending α) : Decidable (a ∈ s) :=
  inferInstanceAs (Decidable (a ∈ s.toList))

def empty : Ascending α := ⟨[], .nil⟩

def singleton (a : α) : Ascending α := ⟨[a], List.pairwise_singleton _ _⟩

def size (s : Ascending α) : Nat := s.toList.length

/-- Put `a` at its place; a member that compares equal stays as it is. -/
def place (a : α) : List α → List α
  | [] => [a]
  | b :: rest =>
    match compare a b with
    | .lt => a :: b :: rest
    | .eq => b :: rest
    | .gt => b :: place a rest

theorem mem_of_mem_place {a x : α} {l : List α} (h : x ∈ place a l) : x = a ∨ x ∈ l := by
  induction l with
  | nil => simpa [place] using h
  | cons b rest ih =>
    rw [place] at h
    split at h
    · simpa using h
    · exact .inr h
    · rcases List.mem_cons.mp h with rfl | h
      · simp
      · rcases ih h with h | h <;> simp [h]

theorem place_ascending [TransOrd α] (a : α) {l : List α} (hl : l.Pairwise (compare · · = .lt)) :
    (place a l).Pairwise (compare · · = .lt) := by
  induction l with
  | nil => exact List.pairwise_singleton _ _
  | cons b rest ih =>
    have hb := List.pairwise_cons.mp hl
    rw [place]
    split
    next h =>
      refine List.pairwise_cons.mpr ⟨fun x hx => ?_, hl⟩
      rcases List.mem_cons.mp hx with rfl | hx
      · exact h
      · exact TransCmp.lt_trans h (hb.1 x hx)
    next => exact hl
    next h =>
      refine List.pairwise_cons.mpr ⟨fun x hx => ?_, ih hb.2⟩
      rcases mem_of_mem_place hx with rfl | hx
      · exact OrientedCmp.gt_iff_lt.mp h
      · exact hb.1 x hx

def insert [TransOrd α] (s : Ascending α) (a : α) : Ascending α :=
  ⟨place a s.toList, place_ascending a s.ascending⟩

def insertMany [TransOrd α] (s : Ascending α) (l : List α) : Ascending α :=
  l.foldl insert s

def ofList [TransOrd α] (l : List α) : Ascending α :=
  empty.insertMany l

theorem mem_place [LawfulEqOrd α] {a x : α} {l : List α} : x ∈ place a l ↔ x = a ∨ x ∈ l := by
  induction l with
  | nil => simp [place]
  | cons b rest ih =>
    rw [place]
    split
    next => simp
    next h =>
      have : a = b := Std.LawfulEqCmp.eq_of_compare h
      simp [this]
    next => simp only [List.mem_cons, ih]; grind

@[simp] theorem mem_insert [TransOrd α] [LawfulEqOrd α] {s : Ascending α} {a x : α} :
    x ∈ s.insert a ↔ x = a ∨ x ∈ s :=
  mem_place

@[simp] theorem not_mem_empty {a : α} : ¬ a ∈ (empty : Ascending α) := List.not_mem_nil

@[simp] theorem mem_singleton {a x : α} : x ∈ singleton a ↔ x = a := List.mem_singleton

theorem mem_insertMany [TransOrd α] [LawfulEqOrd α] {l : List α} {s : Ascending α} {x : α} :
    x ∈ s.insertMany l ↔ x ∈ l ∨ x ∈ s := by
  induction l generalizing s with
  | nil => simp [insertMany]
  | cons a rest ih =>
    rw [insertMany, List.foldl_cons, ← insertMany, ih, mem_insert, List.mem_cons]
    grind

@[simp] theorem mem_ofList [TransOrd α] [LawfulEqOrd α] {l : List α} {x : α} :
    x ∈ ofList l ↔ x ∈ l := by
  simp [ofList, mem_insertMany]

end Ascending
end ModalTableau
