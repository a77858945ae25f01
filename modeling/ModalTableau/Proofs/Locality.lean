import ModalTableau.Proofs.Kripke
import ModalTableau.Proofs.RuleLaws

/-!
# Truth at a world is local

Whether a formula is true at a world depends on its own atoms only, and only on the worlds that are
as many steps away as its boxes and diamonds are nested. The induction is on the formula: a box or a
diamond goes one step away and leaves one step less to go (`AgreesNear.next`).
-/

namespace ModalTableau

namespace Model

variable {m m' : Model} {atoms atoms' : Ascending String} {n n' k : Nat} {u v w : World}

inductive Reaches (m : Model) : Nat → World → World → Prop
  | here (u : World) : Reaches m 0 u u
  | step {k : Nat} {u v w : World} (first : ⟨u, v⟩ ∈ m.relation) (rest : Reaches m k v w) :
      Reaches m (k + 1) u w

/-- Up to `n` steps from `u`, the models give the atoms the same values, and fewer steps away the
worlds have the same successors. -/
def AgreesNear (m m' : Model) (atoms : Ascending String) (n : Nat) (u : World) : Prop :=
  ∀ k v, k ≤ n → m.Reaches k u v →
    (∀ a ∈ atoms, m.value v a = m'.value v a) ∧
    (k < n → ∀ w, w ∈ m.successors v ↔ w ∈ m'.successors v)

namespace AgreesNear

theorem mono (h : m.AgreesNear m' atoms n u) (hatoms : ∀ a ∈ atoms', a ∈ atoms) (hn : n' ≤ n) :
    m.AgreesNear m' atoms' n' u := by
  intro k v hk hv
  obtain ⟨values, successors⟩ := h k v (Nat.le_trans hk hn) hv
  exact ⟨fun a ha => values a (hatoms a ha), fun hk' => successors (Nat.lt_of_lt_of_le hk' hn)⟩

theorem child {f g : Formula} (h : m.AgreesNear m' f.atoms f.modalDepth u) (hg : g ∈ f.children) :
    m.AgreesNear m' g.atoms g.modalDepth u :=
  h.mono (fun _ => Formula.mem_atoms_of_child hg) (Formula.modalDepth_le_of_mem_children hg)

theorem next (h : m.AgreesNear m' atoms (n + 1) u) (hv : v ∈ m.successors u) :
    m.AgreesNear m' atoms n v := by
  intro k w hk hw
  obtain ⟨values, successors⟩ :=
    h (k + 1) w (Nat.succ_le_succ hk) (.step (mem_successors.mp hv) hw)
  exact ⟨values, fun hk' => successors (Nat.succ_lt_succ hk')⟩

theorem successors_iff (h : m.AgreesNear m' atoms (n + 1) u) :
    v ∈ m.successors u ↔ v ∈ m'.successors u :=
  (h 0 u (Nat.zero_le _) (.here u)).2 (Nat.succ_pos n) v

end AgreesNear

theorem satisfies_congr (f : Formula) (u : World) (h : m.AgreesNear m' f.atoms f.modalDepth u) :
    m.satisfies f u = m'.satisfies f u := by
  induction f generalizing u with
  | atom name =>
    apply (h 0 u (Nat.zero_le _) (.here u)).1
    simp [Formula.atoms, Formula.collectAtoms]
  | not f ih => simp only [satisfies, ih u (h.child (by simp [Formula.children]))]
  | and f g ihf ihg | or f g ihf ihg | implies f g ihf ihg =>
    have hf := ihf u (h.child (by simp [Formula.children]))
    have hg := ihg u (h.child (by simp [Formula.children]))
    simp only [satisfies, hf, hg]
  | box f ih =>
    have hnext v (hv : v ∈ m.successors u) : m.satisfies f v = m'.satisfies f v :=
      ih v (h.next hv)
    rw [satisfies, satisfies, Bool.eq_iff_iff, List.all_eq_true, List.all_eq_true]
    constructor
    · intro hall v hv
      have hv := h.successors_iff.mpr hv
      exact hnext v hv ▸ hall v hv
    · intro hall v hv
      exact hnext v hv ▸ hall v (h.successors_iff.mp hv)
  | diamond f ih =>
    have hnext v (hv : v ∈ m.successors u) : m.satisfies f v = m'.satisfies f v :=
      ih v (h.next hv)
    rw [satisfies, satisfies, Bool.eq_iff_iff, List.any_eq_true, List.any_eq_true]
    constructor
    · rintro ⟨v, hv, hf⟩
      exact ⟨v, h.successors_iff.mp hv, hnext v hv ▸ hf⟩
    · rintro ⟨v, hv, hf⟩
      have hv := h.successors_iff.mpr hv
      exact ⟨v, hv, hnext v hv ▸ hf⟩

theorem value_set (m : Model) (w v : World) (a a' : String) (b : Bool) :
    (m.set w a b).value v a' = if v = w ∧ a' = a then b else m.value v a' := by
  simp only [value, set, Ascending.Map.get?_insert, Spot.mk.injEq]
  split <;> rfl

/-- A value is out of sight if it is for another atom or too far away. -/
theorem agreesNear_set {a : String} (b : Bool)
    (h : a ∉ atoms ∨ ∀ k, k ≤ n → ¬ m.Reaches k u w) : m.AgreesNear (m.set w a b) atoms n u := by
  intro k v hk hv
  refine ⟨fun a' ha => ?_, fun _ _ => Iff.rfl⟩
  rw [value_set, if_neg]
  rintro ⟨rfl, rfl⟩
  rcases h with h | h
  · exact h ha
  · exact h k hk hv

theorem satisfies_local (f : Formula) (u : World) :
    (∀ m m' : Model, m.AgreesNear m' f.atoms f.modalDepth u →
      m.satisfies f u = m'.satisfies f u) ∧
    ∀ (m : Model) (w : World) (a : String) (b : Bool),
      (a ∉ f.atoms ∨ ∀ k, k ≤ f.modalDepth → ¬ m.Reaches k u w) →
        (m.set w a b).satisfies f u = m.satisfies f u := by
  refine ⟨fun m m' => satisfies_congr f u, fun m w a b h => ?_⟩
  exact (satisfies_congr f u (agreesNear_set b h)).symm

def circle : Model := (ofParts [] [⟨0, 1⟩, ⟨1, 0⟩]).set 0 "p" true

def detour : Model := ((ofParts [] [⟨0, 1⟩, ⟨1, 2⟩]).set 0 "p" true).set 1 "p" false

theorem near_of_reaches (only : m.successors 0 = [1]) (hk : k ≤ 1) (hv : m.Reaches k 0 v) :
    k = 0 ∧ v = 0 ∨ k = 1 ∧ v = 1 := by
  cases hv with
  | here => exact .inl ⟨rfl, rfl⟩
  | step first rest =>
    obtain rfl := List.mem_singleton.mp (only ▸ mem_successors.mpr first)
    cases rest with
    | here => exact .inr ⟨rfl, rfl⟩
    | step => omega

theorem satisfies_local_detour :
    circle.AgreesNear detour (Formula.diamond (.not (.atom "p"))).atoms 1 0 ∧
    circle.satisfies (.diamond (.not (.atom "p"))) 0 =
      detour.satisfies (.diamond (.not (.atom "p"))) 0 ∧
    (∀ k, k ≤ 1 → ¬ detour.Reaches k 0 2) ∧
    (detour.set 2 "p" true).satisfies (.diamond (.not (.atom "p"))) 0 =
      detour.satisfies (.diamond (.not (.atom "p"))) 0 := by
  obtain ⟨agreeing, setting⟩ := satisfies_local (.diamond (.not (.atom "p"))) 0
  have hnear : circle.AgreesNear detour (Formula.diamond (.not (.atom "p"))).atoms 1 0 := by
    intro k v hk hv
    refine ⟨fun a ha => ?_, fun hk w => ?_⟩
    · obtain rfl : a = "p" := by simpa [Formula.atoms, Formula.collectAtoms] using ha
      rcases near_of_reaches rfl hk hv with ⟨-, rfl⟩ | ⟨-, rfl⟩ <;> rfl
    · rcases near_of_reaches rfl (Nat.le_of_lt hk) hv with ⟨-, rfl⟩ | ⟨rfl, -⟩
      · exact Iff.rfl
      · omega
  have hfar : ∀ k, k ≤ 1 → ¬ detour.Reaches k 0 2 := by
    intro k hk hv
    rcases near_of_reaches rfl hk hv with ⟨-, h⟩ | ⟨-, h⟩ <;> cases h
  exact ⟨hnear, agreeing circle detour hnear, hfar, setting detour 2 "p" true (.inr hfar)⟩

end Model
end ModalTableau
