import ModalTableau.Proofs.TableauLaws
import ModalTableau.Proofs.TruthLemma
import ModalTableau.Verdict

/-!
# An open tableau comes with a model

If a finished tableau is not closed, its first open segment keeps a saturated branch without a
contradiction. The root is on that branch, so the model read off it gives the formula of a check the
truth value that the check looked for.
-/

namespace ModalTableau

variable {limits : Limits} {t : Tableau} {root : Signed}

theorem Tableau.exists_firstOpenBranch? (hb : build limits root = .ok t) (ho : t.isClosed = false) :
    ∃ b, t.firstOpenBranch? = some b ∧ Branch.Reachable [] b ∧ root ∈ b ∧ b.clash = none ∧
      b.step limits.blocking = .saturated := by
  have hg := grown_of_grow hb
  cases hs : t.openSegments with
  | nil => simp [hg.isClosed_of_openSegments hs] at ho
  | cons s rest =>
    obtain ⟨k, b, hbranch, hrun, hend⟩ := hg.branch_of_mem_openSegments (s := s) (by simp [hs])
    refine ⟨b, by simp [firstOpenBranch?, hs, hbranch], (Branch.Reachable.ofRoot root).run hrun, ?_,
      hend⟩
    exact hrun.grows.mem Branch.mem_add_self

theorem Tableau.exists_model (hb : build limits root = .ok t) (ho : t.isClosed = false) :
    ∃ m, t.firstOpenBranch?.bind Model.ofBranch? = some m ∧ m.satisfiesSigned root = true := by
  obtain ⟨b, hfirst, hr, hroot, hc, hsat⟩ := exists_firstOpenBranch? hb ho
  obtain ⟨m, hm⟩ := Model.exists_ofBranch? hc
  refine ⟨m, by rw [hfirst]; exact hm, ?_⟩
  rw [Model.satisfiesSigned_iff]
  exact agrees_of_saturated hr.tidy hr.backed hsat hm root hroot

theorem Check.judged {c : Check} {f : Formula} {o : Outcome} (h : c.run limits f = .ok o) :
    (o.verdict = c.whenOpen ∧ ∃ m, o.model = some m ∧ m.satisfies f 0 = c.sign.holds) ∨
      o.verdict = c.whenClosed ∧ o.model = none := by
  obtain ⟨t, hb, rfl⟩ := map_ok.mp h
  cases hc : t.isClosed with
  | true => exact .inr (by simp [judge, hc])
  | false =>
    obtain ⟨m, hm, hroot⟩ := Tableau.exists_model hb hc
    refine .inl ⟨by simp [judge, hc], m, by simpa [judge, hc] using hm, ?_⟩
    simpa [Model.satisfiesSigned] using hroot

theorem verdict_with_model (limits : Limits) (f : Formula) :
    (∀ o, Check.validity.run limits f = .ok o →
      (o.verdict = .invalid ∧ ∃ m, o.model = some m ∧ m.satisfies f 0 = false) ∨
        o.verdict = .valid ∧ o.model = none) ∧
    (∀ o, Check.satisfiability.run limits f = .ok o →
      (o.verdict = .satisfiable ∧ ∃ m, o.model = some m ∧ m.satisfies f 0 = true) ∨
        o.verdict = .unsatisfiable ∧ o.model = none) :=
  ⟨fun _ h => Check.judged h, fun _ h => Check.judged h⟩

/-- Possible, and possible again wherever one goes: a model has to go round in a circle. -/
def Formula.recurrence : Formula :=
  .and (.diamond (.atom "p")) (.box (.diamond (.atom "p")))

theorem verdict_with_model_of_recurrence :
    (∃ o, Check.validity.run ⟨8, 2, true⟩ .recurrence = .ok o ∧ o.verdict = .invalid ∧
      ∃ m, o.model = some m ∧ m.satisfies .recurrence 0 = false) ∧
    ∃ o, Check.satisfiability.run ⟨8, 2, true⟩ .recurrence = .ok o ∧ o.verdict = .satisfiable ∧
      ∃ m, o.model = some m ∧ m.satisfies .recurrence 0 = true := by
  obtain ⟨o, hr, hv⟩ := ok_of_toOption (show
    (Check.validity.run ⟨8, 2, true⟩ .recurrence).toOption.map (·.verdict) = some .invalid by
      decide +kernel)
  obtain ⟨o', hr', hv'⟩ := ok_of_toOption (show
    (Check.satisfiability.run ⟨8, 2, true⟩ .recurrence).toOption.map (·.verdict) =
      some .satisfiable by decide +kernel)
  have hmodel := (verdict_with_model ⟨8, 2, true⟩ .recurrence).1 o hr
  have hmodel' := (verdict_with_model ⟨8, 2, true⟩ .recurrence).2 o' hr'
  simp only [hv, hv', true_and, reduceCtorEq, false_and, or_false] at hmodel hmodel'
  exact ⟨⟨o, hr, hv, hmodel⟩, o', hr', hv', hmodel'⟩

end ModalTableau
