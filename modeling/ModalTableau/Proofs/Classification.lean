import ModalTableau.Proofs.Countermodel
import ModalTableau.Proofs.Soundness
import ModalTableau.Report

/-!
# The classification is the semantic one

A check finds its tableau closed exactly if no model has a point of the kind that it looks for
(`Check.whenClosed_iff`): a closed tableau excludes all models, and an open one comes with a model.
So the two verdicts of a report, and the classification made from them, say what is true of the
formula in all models. Ceilings and blocking decide whether there is an answer, never which one, and
it does not matter whether the two checks run at the same time.
-/

namespace ModalTableau

universe u

namespace Kripke

variable {W : Type}

def lift (K : Kripke W) : Kripke (ULift.{u} W) where
  access x y := K.access x.down y.down
  value x := K.value x.down

theorem forces_lift (K : Kripke W) (f : Formula) (x : ULift.{u} W) :
    K.lift.Forces x f ↔ K.Forces x.down f := by
  induction f generalizing x with
  | atom name => rfl
  | not f ih => simp only [Forces, ih]
  | and f g ihf ihg => simp only [Forces, ihf, ihg]
  | or f g ihf ihg => simp only [Forces, ihf, ihg]
  | implies f g ihf ihg => simp only [Forces, ihf, ihg]
  | box f ih =>
    simp only [Forces, ih]
    exact ⟨fun h y hy => h ⟨y⟩ hy, fun h y hy => h y.down hy⟩
  | diamond f ih =>
    simp only [Forces, ih]
    constructor
    · rintro ⟨y, hy, h⟩
      exact ⟨y.down, hy, h⟩
    · rintro ⟨y, hy, h⟩
      exact ⟨⟨y⟩, hy, h⟩

end Kripke

namespace Formula

def TrueEverywhere (f : Formula) : Prop :=
  ∀ (W : Type u) (K : Kripke W) (x : W), K.Forces x f

def FalseEverywhere (f : Formula) : Prop :=
  ∀ (W : Type u) (K : Kripke W) (x : W), ¬ K.Forces x f

theorem not_falseEverywhere {f : Formula} (h : TrueEverywhere.{u} f) : ¬ FalseEverywhere.{u} f := by
  intro h'
  let point : Kripke PUnit := ⟨fun _ _ => False, fun _ _ => False⟩
  exact h' PUnit point .unit (h PUnit point .unit)

end Formula

-- ---------------------------------------------------------------------------
-- Checks
-- ---------------------------------------------------------------------------

namespace Check

variable {c : Check} {limits : Limits} {f : Formula} {o : Outcome}

theorem whenClosed_iff (h : c.run limits f = .ok o) :
    o.verdict = c.whenClosed ↔
      ∀ (W : Type u) (K : Kripke W) (x : W), ¬ K.Agrees x c.sign f := by
  constructor
  · intro hv W K x
    obtain ⟨t, hb, hc⟩ := closed_of_whenClosed h hv
    exact Tableau.not_agrees_of_closed hb hc K x
  · intro hnone
    rcases judged h with ⟨-, m, -, hm⟩ | ⟨hv, -⟩
    · refine absurd ?_ (hnone _ m.toKripke.lift ⟨0⟩)
      rw [Kripke.Agrees, Kripke.forces_lift, Model.forces_toKripke, hm]
    · exact hv

theorem verdict_cases (h : c.run limits f = .ok o) :
    o.verdict = c.whenClosed ∨ o.verdict = c.whenOpen := by
  rcases judged h with ⟨hv, -⟩ | ⟨hv, -⟩
  · exact .inr hv
  · exact .inl hv

theorem valid_iff (h : validity.run limits f = .ok o) :
    o.verdict = .valid ↔ Formula.TrueEverywhere.{u} f := by
  simpa [sign, whenClosed, Formula.TrueEverywhere] using whenClosed_iff.{u} h

theorem unsatisfiable_iff (h : satisfiability.run limits f = .ok o) :
    o.verdict = .unsatisfiable ↔ Formula.FalseEverywhere.{u} f := by
  simpa [sign, whenClosed, Formula.FalseEverywhere] using whenClosed_iff.{u} h

end Check

-- ---------------------------------------------------------------------------
-- Reports
-- ---------------------------------------------------------------------------

namespace Report

variable {service service' : Service} {text : String} {r r' : Report}

/-- A report answers both questions about the formula that the text stands for. -/
theorem solve_ok (h : solve service text = .ok r) : Formula.parse text = .ok r.formula ∧
    Check.validity.run service.limits r.formula = .ok r.validity ∧
      Check.satisfiability.run service.limits r.formula = .ok r.satisfiability := by
  obtain ⟨f, hf, h⟩ := bind_ok.mp h
  have h := mapError_ok.mp h
  rw [ofFormula, Service.both_eq] at h
  obtain ⟨v, hv, h⟩ := bind_ok.mp h
  obtain ⟨s, hs, h⟩ := bind_ok.mp h
  obtain rfl := Except.ok.inj h
  exact ⟨mapError_ok.mp hf, hv, hs⟩

theorem not_valid_and_unsatisfiable (h : solve service text = .ok r) :
    ¬ (r.validity.verdict = .valid ∧ r.satisfiability.verdict = .unsatisfiable) := by
  obtain ⟨-, hv, hs⟩ := solve_ok h
  rw [Check.valid_iff.{0} hv, Check.unsatisfiable_iff.{0} hs]
  rintro ⟨ht, hf⟩
  exact Formula.not_falseEverywhere ht hf

theorem tautology_iff_valid : r.classification = .tautology ↔ r.validity.verdict = .valid := by
  cases hv : r.validity.verdict <;> cases hs : r.satisfiability.verdict <;>
    simp [classification, Classification.ofVerdicts, hv, hs]

/-- The first verdict goes before the second, which matters only if both tableaux were closed. -/
theorem contradiction_iff_unsatisfiable (h : solve service text = .ok r) :
    r.classification = .contradiction ↔ r.satisfiability.verdict = .unsatisfiable := by
  have hboth := not_valid_and_unsatisfiable h
  cases hv : r.validity.verdict <;> cases hs : r.satisfiability.verdict <;>
    simp_all [classification, Classification.ofVerdicts]

theorem contingent_iff :
    r.classification = .contingent ↔
      r.classification ≠ .tautology ∧ r.classification ≠ .contradiction := by
  cases r.classification <;> simp

theorem verdicts_agree (h : solve service text = .ok r) (h' : solve service' text = .ok r') :
    r.validity.verdict = r'.validity.verdict ∧
      r.satisfiability.verdict = r'.satisfiability.verdict := by
  obtain ⟨hf, hv, hs⟩ := solve_ok h
  obtain ⟨hf', hv', hs'⟩ := solve_ok h'
  have hformula : r.formula = r'.formula := Except.ok.inj (hf.symm.trans hf')
  have hvalid := Check.valid_iff.{0} hv
  have hunsat := Check.unsatisfiable_iff.{0} hs
  rw [hformula, ← Check.valid_iff hv'] at hvalid
  rw [hformula, ← Check.unsatisfiable_iff hs'] at hunsat
  constructor
  · rcases Check.verdict_cases hv with e | e <;> rcases Check.verdict_cases hv' with e' | e' <;>
      simp_all [Check.whenClosed, Check.whenOpen]
  · rcases Check.verdict_cases hs with e | e <;> rcases Check.verdict_cases hs' with e' | e' <;>
      simp_all [Check.whenClosed, Check.whenOpen]

end Report

theorem classification_semantic (service : Service) (text : String) (r : Report)
    (h : Report.solve service text = .ok r) :
    Formula.parse text = .ok r.formula ∧
      (r.classification = .tautology ↔ Formula.TrueEverywhere.{u} r.formula) ∧
      (r.classification = .contradiction ↔ Formula.FalseEverywhere.{u} r.formula) ∧
      (r.classification = .contingent ↔
        ¬ Formula.TrueEverywhere.{u} r.formula ∧ ¬ Formula.FalseEverywhere.{u} r.formula) ∧
      ¬ (r.validity.verdict = .valid ∧ r.satisfiability.verdict = .unsatisfiable) ∧
      ∀ (service' : Service) (r' : Report), Report.solve service' text = .ok r' →
        r'.validity.verdict = r.validity.verdict ∧
          r'.satisfiability.verdict = r.satisfiability.verdict ∧
          r'.classification = r.classification := by
  obtain ⟨hf, hv, hs⟩ := Report.solve_ok h
  have htautology := Report.tautology_iff_valid.trans (Check.valid_iff hv)
  have hcontradiction :=
    (Report.contradiction_iff_unsatisfiable h).trans (Check.unsatisfiable_iff hs)
  refine ⟨hf, htautology, hcontradiction, ?_, Report.not_valid_and_unsatisfiable h, ?_⟩
  · rw [Report.contingent_iff, ne_eq, ne_eq, htautology, hcontradiction]
  · intro service' r' h'
    obtain ⟨ev, es⟩ := Report.verdicts_agree h' h
    exact ⟨ev, es, by rw [Report.classification, Report.classification, ev, es]⟩

-- With blocking a second world is enough; without it a third is needed.
theorem classification_semantic_of_recurrence :
    ∃ r r', Report.solve ⟨⟨8, 2, true⟩, true, .tasks⟩ "<>p & []<>p" = .ok r ∧
      Report.solve ⟨⟨9, 3, false⟩, false, .tasks⟩ "<>p & []<>p" = .ok r' ∧
      r.classification = .contingent ∧
      (¬ Formula.TrueEverywhere.{u} r.formula ∧ ¬ Formula.FalseEverywhere.{u} r.formula) ∧
      r'.validity.verdict = r.validity.verdict ∧
      r'.satisfiability.verdict = r.satisfiability.verdict ∧
      r'.classification = .contingent := by
  obtain ⟨r, h, hc⟩ := ok_of_toOption (show
    (Report.solve ⟨⟨8, 2, true⟩, true, .tasks⟩ "<>p & []<>p").toOption.map
      (·.classification) = some .contingent by decide +kernel)
  obtain ⟨r', h', -⟩ := ok_of_toOption (show
    (Report.solve ⟨⟨9, 3, false⟩, false, .tasks⟩ "<>p & []<>p").toOption.map
      (·.formula) = some .recurrence by decide +kernel)
  obtain ⟨-, -, -, hcontingent, -, hsame⟩ := classification_semantic _ _ r h
  obtain ⟨hv, hs, hclass⟩ := hsame _ r' h'
  exact ⟨r, r', h, h', hc, hcontingent.mp hc, hv, hs, hclass.trans hc⟩

end ModalTableau
