import ModalTableau.Ascending

/-!
Finite maps as lists of entries in strictly ascending order of their keys. As with sets, maps that
hold the same entries are equal.
-/

namespace ModalTableau.Ascending

open Std (TransOrd LawfulEqOrd OrientedCmp TransCmp)

structure Map (κ β : Type) [Ord κ] where
  toList : List (κ × β)
  ascending : toList.Pairwise (compare ·.1 ·.1 = .lt)

namespace Map

variable {κ β : Type} [Ord κ]

instance [DecidableEq κ] [DecidableEq β] : DecidableEq (Map κ β) := fun s t =>
  decidable_of_iff (s.toList = t.toList) ⟨fun h => by cases s; cases t; cases h; rfl, fun h => h ▸ rfl⟩

def empty : Map κ β := ⟨[], .nil⟩

/-- Put the entry at its place; an entry whose key compares equal is replaced. -/
def place (k : κ) (b : β) : List (κ × β) → List (κ × β)
  | [] => [(k, b)]
  | e :: rest =>
    match compare k e.1 with
    | .lt => (k, b) :: e :: rest
    | .eq => (e.1, b) :: rest
    | .gt => e :: place k b rest

theorem key_of_mem_place {k : κ} {b : β} {x : κ × β} {l : List (κ × β)} (h : x ∈ place k b l) :
    x.1 = k ∨ ∃ e ∈ l, e.1 = x.1 := by
  induction l with
  | nil => simp_all [place]
  | cons e rest ih =>
    rw [place] at h
    split at h <;> rcases List.mem_cons.mp h with rfl | h
    · exact .inl rfl
    · exact .inr ⟨x, h, rfl⟩
    · exact .inr ⟨e, by simp, rfl⟩
    · exact .inr ⟨x, by simp [h], rfl⟩
    · exact .inr ⟨x, by simp, rfl⟩
    · rcases ih h with h | ⟨y, hy, h⟩
      · exact .inl h
      · exact .inr ⟨y, by simp [hy], h⟩

theorem place_ascending [TransOrd κ] (k : κ) (b : β) {l : List (κ × β)}
    (hl : l.Pairwise (compare ·.1 ·.1 = .lt)) :
    (place k b l).Pairwise (compare ·.1 ·.1 = .lt) := by
  induction l with
  | nil => exact List.pairwise_singleton _ _
  | cons e rest ih =>
    have he := List.pairwise_cons.mp hl
    rw [place]
    split
    next h =>
      refine List.pairwise_cons.mpr ⟨fun x hx => ?_, hl⟩
      rcases List.mem_cons.mp hx with rfl | hx
      · exact h
      · exact TransCmp.lt_trans h (he.1 x hx)
    next => exact List.pairwise_cons.mpr ⟨he.1, he.2⟩
    next h =>
      refine List.pairwise_cons.mpr ⟨fun x hx => ?_, ih he.2⟩
      rcases key_of_mem_place hx with hx | ⟨y, hy, hx⟩
      · exact hx ▸ OrientedCmp.gt_iff_lt.mp h
      · exact hx ▸ he.1 y hy

def insert [TransOrd κ] (m : Map κ β) (k : κ) (b : β) : Map κ β :=
  ⟨place k b m.toList, place_ascending k b m.ascending⟩

def get? [DecidableEq κ] (m : Map κ β) (k : κ) : Option β :=
  m.toList.lookup k

theorem lookup_place [DecidableEq κ] [LawfulEqOrd κ] (k k' : κ) (b : β) (l : List (κ × β)) :
    (place k b l).lookup k' = if k' = k then some b else l.lookup k' := by
  induction l with
  | nil => simp only [place, List.lookup_cons, List.lookup_nil]; grind
  | cons e rest ih =>
    obtain ⟨key, old⟩ := e
    rw [place]
    split
    next => simp only [List.lookup_cons]; grind
    next h =>
      have : k = key := Std.LawfulEqCmp.eq_of_compare h
      simp only [List.lookup_cons]; grind
    next h =>
      have : k ≠ key := fun hne => by simp [hne] at h
      simp only [List.lookup_cons, ih]; grind

@[simp] theorem get?_insert [DecidableEq κ] [TransOrd κ] [LawfulEqOrd κ] (m : Map κ β) (k k' : κ)
    (b : β) : (m.insert k b).get? k' = if k' = k then some b else m.get? k' :=
  lookup_place k k' b m.toList

end Map
end ModalTableau.Ascending
