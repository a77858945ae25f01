import ModalTableau.Proofs.Kripke
import ModalTableau.Proofs.Records

/-!
# An open saturated branch describes a model

On a branch where no rule is waiting, the conclusions of every rule are there (`meets_of_saturated`).
If it has no contradiction either, the model read off it gives every formula on the branch the truth
value that its sign asserts (`agrees_of_saturated`), however the branch came about and whether or not
its edges go round in circles.
-/

namespace ModalTableau

variable {b : Branch} {m : Model} {s : Signed} {p : Pending} {blocking : Bool}

-- ---------------------------------------------------------------------------
-- Saturated branches
-- ---------------------------------------------------------------------------

namespace Branch

def Meets (b : Branch) (w : World) : Expansion → Prop
  | .alpha cs => ∀ c ∈ cs, c ∈ b
  | .beta l r => l ∈ b ∨ r ∈ b
  | .someSuccessor sign f => ∃ v, ⟨w, v⟩ ∈ b.edges ∧ ⟨v, sign, f⟩ ∈ b
  | .everySuccessor sign f => ∀ v, ⟨w, v⟩ ∈ b.edges → ⟨v, sign, f⟩ ∈ b

theorem done_of_saturated (h : b.step blocking = .saturated) :
    b.LinearDone ∧ b.ChoiceDone ∧ b.DemandDone := by
  cases stepped_of h with
  | saturated linear choice demand => exact ⟨linear, choice, demand⟩

theorem meets_of_saturated {x : Expansion} (hb : b.Backed [])
    (hsat : b.step blocking = .saturated) (hs : s ∈ b) (hx : s.expansion? = some x) :
    b.Meets s.world x := by
  obtain ⟨linear, choice, demand⟩ := done_of_saturated hsat
  obtain ⟨e, he, rfl⟩ := mem_iff_entry.mp hs
  have hback := hb e he
  cases x with
  | alpha cs => exact hback.alpha cs hx (linear.alpha he hx)
  | beta l r => exact (hback.beta l r hx (choice.beta he hx)).resolve_left (by simp)
  | someSuccessor sign f => exact hback.demand sign f hx (demand.some he hx)
  | everySuccessor sign f =>
    intro v hv
    exact hback.spread sign f hx v (linear.every he (hback.unused sign f hx) hx hv)

end Branch

-- ---------------------------------------------------------------------------
-- The model of a branch
-- ---------------------------------------------------------------------------

namespace Model

@[simp] theorem relation_foldl_record (m : Model) (l : List Signed) :
    (l.foldl record m).relation = m.relation := by
  induction l generalizing m with
  | nil => rfl
  | cons s rest ih =>
    rw [List.foldl_cons, ih, record]
    split <;> rfl

theorem get?_record (m : Model) (s : Signed) (w : World) (name : String) :
    (m.record s).valuation.get? ⟨w, name⟩ =
      if s.world = w ∧ s.formula = .atom name then some s.sign.holds
      else m.valuation.get? ⟨w, name⟩ := by
  obtain ⟨w', sign, f⟩ := s
  cases f with
  | atom name' =>
    simp only [record, set, Ascending.Map.get?_insert, Spot.mk.injEq, Formula.atom.injEq]
    grind
  | _ => simp [record]

theorem get?_foldl_record (m : Model) (l : List Signed) (w : World) (name : String) :
    (∃ sign, ⟨w, sign, .atom name⟩ ∈ l ∧
        (l.foldl record m).valuation.get? ⟨w, name⟩ = some sign.holds) ∨
      (∀ sign, ⟨w, sign, .atom name⟩ ∉ l) ∧
        (l.foldl record m).valuation.get? ⟨w, name⟩ = m.valuation.get? ⟨w, name⟩ := by
  induction l generalizing m with
  | nil => exact .inr ⟨by simp, rfl⟩
  | cons s rest ih =>
    rw [List.foldl_cons]
    rcases ih (m.record s) with ⟨sign, hm, hv⟩ | ⟨hn, hv⟩
    · exact .inl ⟨sign, List.mem_cons_of_mem _ hm, hv⟩
    · rw [hv, get?_record]
      split
      next h =>
        obtain ⟨w', sign, f⟩ := s
        obtain ⟨rfl, rfl⟩ : w' = w ∧ f = .atom name := h
        exact .inl ⟨sign, by simp, rfl⟩
      next h =>
        refine .inr ⟨fun sign hm => ?_, rfl⟩
        rcases List.mem_cons.mp hm with rfl | hm
        · exact h ⟨rfl, rfl⟩
        · exact hn sign hm

theorem exists_ofBranch? (h : b.clash = none) : ∃ m, ofBranch? b = some m :=
  ⟨_, if_neg (by simp [Branch.isClosed, h])⟩

theorem ofBranch?_eq_none (h : b.clash ≠ none) : ofBranch? b = none :=
  if_pos (Option.isSome_iff_ne_none.mpr h)

theorem ofBranch?_eq_some (h : ofBranch? b = some m) :
    b.clash = none ∧ m = b.formulas.foldl record (ofParts b.worlds.toList b.edges.toList) := by
  unfold ofBranch? at h
  split at h
  next => simp at h
  next hc => exact ⟨by simpa [Branch.isClosed] using hc, by simpa using h.symm⟩

theorem mem_relation_ofBranch? {d : Edge} (h : ofBranch? b = some m) :
    d ∈ m.relation ↔ d ∈ b.edges := by
  obtain ⟨-, rfl⟩ := ofBranch?_eq_some h
  rw [relation_foldl_record]
  exact Ascending.mem_ofList

theorem get?_ofBranch? {w : World} {name : String} {value : Bool} (ht : b.Tidy)
    (h : ofBranch? b = some m) : m.valuation.get? ⟨w, name⟩ = some value ↔
      ∃ sign, ⟨w, sign, .atom name⟩ ∈ b ∧ sign.holds = value := by
  obtain ⟨hc, rfl⟩ := ofBranch?_eq_some h
  rcases get?_foldl_record (ofParts b.worlds.toList b.edges.toList) b.formulas w name with
    ⟨sign, hs, hv⟩ | ⟨hn, hv⟩
  · rw [hv, Option.some.injEq]
    constructor
    · exact fun hvalue => ⟨sign, hs, hvalue⟩
    · rintro ⟨sign', hs', rfl⟩
      have hcon := ht.consistent hc _ hs
      cases sign <;> cases sign' <;> first | rfl | exact absurd hs' hcon
  · rw [hv]
    constructor
    · intro hvalue
      cases hvalue
    · rintro ⟨sign, hs, -⟩
      exact absurd hs (hn sign)

theorem value_ofBranch? {w : World} {sign : Sign} {name : String} (ht : b.Tidy)
    (h : ofBranch? b = some m) (hs : ⟨w, sign, .atom name⟩ ∈ b) : m.value w name = sign.holds := by
  rw [value, (get?_ofBranch? ht h).mpr ⟨sign, hs, rfl⟩, Option.getD_some]

end Model

-- ---------------------------------------------------------------------------
-- Truth
-- ---------------------------------------------------------------------------

/-- The induction is on the size of the formula. The relation need not be well founded: a rule about
successors goes to smaller formulas at whatever worlds they are. -/
theorem agrees_of_saturated (ht : b.Tidy) (hb : b.Backed []) (hsat : b.step blocking = .saturated)
    (hm : Model.ofBranch? b = some m) (s : Signed) (hs : s ∈ b) :
    m.toKripke.Agrees s.world s.sign s.formula := by
  cases hx : s.expansion? with
  | none =>
    obtain ⟨name, hf⟩ := Signed.expansion?_eq_none hx
    have hatom : ⟨s.world, s.sign, .atom name⟩ ∈ b := by rwa [← hf]
    have hv := Model.value_ofBranch? ht hm hatom
    rw [hf, Kripke.Agrees, ← hv]
    rfl
  | some x =>
    have hmeets := Branch.meets_of_saturated hb hsat hs hx
    rw [Kripke.agrees_iff_meets hx]
    cases x with
    | alpha cs =>
      intro c hc
      obtain ⟨hw, hchild⟩ := Signed.alpha_conclusion hx hc
      have hsize := Formula.size_lt_of_mem_children hchild
      exact hw ▸ agrees_of_saturated ht hb hsat hm c (hmeets c hc)
    | beta l r =>
      obtain ⟨⟨hwl, hl⟩, hwr, hr⟩ := Signed.beta_alternatives hx
      have hsizel := Formula.size_lt_of_mem_children hl
      have hsizer := Formula.size_lt_of_mem_children hr
      rcases hmeets with hl | hr
      · exact .inl (hwl ▸ agrees_of_saturated ht hb hsat hm l hl)
      · exact .inr (hwr ▸ agrees_of_saturated ht hb hsat hm r hr)
    | someSuccessor sign f =>
      have hsize := Formula.size_lt_of_mem_children (Signed.someSuccessor_payload hx).1
      obtain ⟨v, hd, hv⟩ := hmeets
      exact ⟨v, (Model.mem_relation_ofBranch? hm).mpr hd, agrees_of_saturated ht hb hsat hm _ hv⟩
    | everySuccessor sign f =>
      have hsize := Formula.size_lt_of_mem_children (Signed.everySuccessor_payload hx).1
      intro v hd
      exact agrees_of_saturated ht hb hsat hm _ (hmeets v ((Model.mem_relation_ofBranch? hm).mp hd))
termination_by s.formula.size

theorem model_of_saturated (hr : Branch.Reachable [] b) (hopen : b.isClosed = false)
    (hsat : b.step blocking = .saturated) :
    ∃ m, Model.ofBranch? b = some m ∧ ∀ s ∈ b.formulas, m.satisfiesSigned s = true := by
  obtain ⟨m, hm⟩ := Model.exists_ofBranch? (by simpa [Branch.isClosed] using hopen)
  refine ⟨m, hm, fun s hs => ?_⟩
  rw [Model.satisfiesSigned_iff]
  exact agrees_of_saturated hr.tidy hr.backed hsat hm s hs

-- The split is answered by its right side, and world 1 ends up as a successor of itself.
theorem model_of_saturated_circle :
    ∃ b, Branch.Reachable [] b ∧ ⟨1, 1⟩ ∈ b.reused ∧ b.isClosed = false ∧
      b.step true = .saturated ∧
      ∃ m, Model.ofBranch? b = some m ∧ ∀ s ∈ b.formulas, m.satisfiesSigned s = true := by
  have h₀ := Branch.Reachable.ofParts [⟨0, .T, .diamond (.atom "p")⟩,
    ⟨0, .T, .box (.diamond (.atom "p"))⟩, ⟨0, .T, .or (.atom "p") (.atom "q")⟩] []
  have h₁ := (h₀.split (show Branch.step true _ = _ from rfl)).answer (.head _) (.inr rfl)
  have h₂ := h₁.extended (show Branch.step true _ = _ from rfl)
  have h₃ := h₂.extended (show Branch.step true _ = _ from rfl)
  have h₄ := h₃.extended (show Branch.step true _ = _ from rfl)
  exact ⟨_, h₄, by decide, rfl, rfl,
    model_of_saturated h₄ rfl (show Branch.step true _ = _ from rfl)⟩

end ModalTableau
