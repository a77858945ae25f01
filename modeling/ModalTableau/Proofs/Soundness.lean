import ModalTableau.Proofs.Interpretation
import ModalTableau.Proofs.Kripke
import ModalTableau.Proofs.TableauLaws
import ModalTableau.Verdict

/-!
# A closed tableau excludes all models

A point of a Kripke model at which the root is right gives an interpretation of the first branch.
Growth carries it on: a step that extends the branch keeps it, and of the alternatives of a split one
is right. So it arrives at the end of some branch, which can have no contradiction, and the tableau
is not closed.
-/

namespace ModalTableau

universe u

variable {W : Type u} {K : Kripke W}

def Kripke.target (K : Kripke W) : Target W where
  access := K.access
  holds := K.Agrees
  alpha hx h := (agrees_iff_meets hx K _).mp h
  demand hx h := (agrees_iff_meets hx K _).mp h
  spread hx h := (agrees_iff_meets hx K _).mp h _

namespace Branch

variable {b after : Branch} {place : World → W} {rule : Rule} {premise left right : Signed}
  {blocking : Bool}

theorem Interprets.clash_eq_none (h : Interprets K.target place b) (ht : b.Tidy) :
    b.clash = none := by
  cases hc : b.clash with
  | none => rfl
  | some c =>
    obtain ⟨hmem, hmem'⟩ := ht.clashing c hc
    exact absurd (h.formulas _ hmem') (Kripke.not_agrees_flip (h.formulas c hmem))

theorem Interprets.alternative (h : Interprets K.target place b)
    (hs : b.step blocking = .split rule premise left right after) :
    Interprets K.target place (after.add left) ∨ Interprets K.target place (after.add right) := by
  obtain ⟨hafter, hmem, hx⟩ := h.split hs
  obtain ⟨⟨hl, -⟩, hr, -⟩ := Signed.beta_alternatives hx
  rcases (Kripke.agrees_iff_meets hx K _).mp (h.formulas premise hmem) with hleft | hright
  · exact .inl (hafter.add (hl ▸ hleft))
  · exact .inr (hafter.add (hr ▸ hright))

end Branch

namespace Tableau

variable {limits : Limits} {seed : List Signed} {b : Branch} {n : Nat} {t : Tableau}
  {place : World → W} {active : World → Prop}

open Branch (Interprets Quiet Reachable)

theorem Grown.not_isClosed (h : Grown limits seed b n t) (hr : Reachable [] b)
    (hq : b.Quiet active) (hi : Interprets K.target place b) : t.isClosed = false := by
  induction h generalizing active place with
  | closed hc => simp [hi.clash_eq_none hr.tidy] at hc
  | saturated => simp [ending, Tree.leaf, isClosed_node, Status.isClosed]
  | split hc hs _ _ ihl ihr =>
    rw [isClosed_node]
    rcases hi.alternative hs with hi | hi
    · simp [ihl (hr.next (.choice hs (.inl rfl))) (hq.choice hs (.inl rfl)) hi]
    · simp [ihr (hr.next (.choice hs (.inr rfl))) (hq.choice hs (.inr rfl)) hi]
  | extended hc hs _ _ ih =>
    obtain ⟨active', hq', -⟩ := hq.extended hr.tidy hr.backed hs
    obtain ⟨place', hi', -⟩ := hi.extended hr.tidy hq hs
    rw [isClosed_prepend]
    exact ih (hr.next (.extended hs)) hq' hi'

theorem not_agrees_of_closed {root : Signed} (hb : build limits root = .ok t)
    (hc : t.isClosed = true) (K : Kripke W) (x : W) : ¬ K.Agrees x root.sign root.formula := by
  intro h
  have hi : Interprets K.target (fun _ => x) (.ofRoot root) := Branch.interprets_ofRoot h
  have hopen := (grown_of_grow hb).not_isClosed (.ofRoot root) (Branch.quiet_ofParts [root] []) hi
  simp [hc] at hopen

end Tableau

theorem Check.closed_of_whenClosed {c : Check} {limits : Limits} {f : Formula} {o : Outcome}
    (h : c.run limits f = .ok o) (hv : o.verdict = c.whenClosed) :
    ∃ t, Tableau.build limits ⟨0, c.sign, f⟩ = .ok t ∧ t.isClosed = true := by
  obtain ⟨t, ht, rfl⟩ := map_ok.mp h
  refine ⟨t, ht, ?_⟩
  unfold judge at hv
  split at hv
  next hc => exact hc
  next => cases c <;> simp [whenOpen, whenClosed] at hv

theorem closed_excludes_models (limits : Limits) :
    (∀ w sign f t, Tableau.build limits ⟨w, sign, f⟩ = .ok t → t.isClosed = true →
      ∀ (W : Type u) (K : Kripke W) (x : W), ¬ (K.Forces x f ↔ sign.holds = true)) ∧
    (∀ f o, Check.validity.run limits f = .ok o → o.verdict = .valid →
      ∀ (W : Type u) (K : Kripke W) (x : W), K.Forces x f) ∧
    (∀ f o, Check.satisfiability.run limits f = .ok o → o.verdict = .unsatisfiable →
      ∀ (W : Type u) (K : Kripke W) (x : W), ¬ K.Forces x f) := by
  refine ⟨fun w sign f t hb hc W K x => Tableau.not_agrees_of_closed hb hc K x, ?_, ?_⟩
  · intro f o h hv W K x
    obtain ⟨t, hb, hc⟩ := Check.closed_of_whenClosed h hv
    simpa [Check.sign] using Tableau.not_agrees_of_closed hb hc K x
  · intro f o h hv W K x
    obtain ⟨t, hb, hc⟩ := Check.closed_of_whenClosed h hv
    simpa [Check.sign] using Tableau.not_agrees_of_closed hb hc K x

/-- World 1 serves as its own successor before the contradiction turns up below it. -/
def Formula.circle : Formula :=
  .diamond (.and (.and (.and (.diamond (.atom "q")) (.diamond (.and (.atom "r") (.not (.atom "r")))))
    (.box (.atom "q"))) (.atom "q"))

theorem closed_excludes_models_of_circle :
    (∃ t, Tableau.build ⟨12, 4, true⟩ ⟨5, .T, .circle⟩ = .ok t ∧ t.isClosed = true ∧
      ∀ (W : Type) (K : Kripke W) (x : W), ¬ (K.Forces x .circle ↔ Sign.T.holds = true)) ∧
    (∃ o, Check.validity.run ⟨12, 3, true⟩ (.not .circle) = .ok o ∧ o.verdict = .valid ∧
      ∀ (W : Type) (K : Kripke W) (x : W), K.Forces x (.not .circle)) ∧
    ∃ o, Check.satisfiability.run ⟨12, 3, true⟩ .circle = .ok o ∧ o.verdict = .unsatisfiable ∧
      ∀ (W : Type) (K : Kripke W) (x : W), ¬ K.Forces x .circle := by
  refine ⟨?_, ?_, ?_⟩
  · obtain ⟨t, hb, hc⟩ := ok_of_toOption (show
      (Tableau.build ⟨12, 4, true⟩ ⟨5, .T, .circle⟩).toOption.map Tableau.isClosed = some true by
        decide +kernel)
    exact ⟨t, hb, hc, (closed_excludes_models _).1 _ _ _ t hb hc⟩
  · obtain ⟨o, hr, hv⟩ := ok_of_toOption (show
      (Check.validity.run ⟨12, 3, true⟩ (.not .circle)).toOption.map (·.verdict) = some .valid by
        decide +kernel)
    exact ⟨o, hr, hv, (closed_excludes_models _).2.1 _ o hr hv⟩
  · obtain ⟨o, hr, hv⟩ := ok_of_toOption (show
      (Check.satisfiability.run ⟨12, 3, true⟩ .circle).toOption.map (·.verdict) =
        some .unsatisfiable by decide +kernel)
    exact ⟨o, hr, hv, (closed_excludes_models _).2.2 _ o hr hv⟩

end ModalTableau
