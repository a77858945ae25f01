import ModalTableau.Proofs.AscendingLaws
import ModalTableau.Proofs.TruthLemma

/-!
# The order of assertions does not matter

A branch that is made from parts has what was asserted, whatever came first (`mem_ofParts`,
`mem_worlds_ofParts`, `edges_ofParts`). Which contradiction it records depends on the order, but not
whether there is one. Without one no value of an atom is overwritten by another, and the model read
off the branch depends on nothing but what the branch has (`Model.ofBranch?_congr`).
-/

namespace ModalTableau

-- ---------------------------------------------------------------------------
-- What a branch has
-- ---------------------------------------------------------------------------

namespace Branch

variable {b b' : Branch} {l l' : List Signed} {es es' : List Edge} {s : Signed} {w : World}

theorem formulas_foldl_addEdge : (es.foldl addEdge b).formulas = b.formulas := by
  induction es generalizing b with
  | nil => rfl
  | cons d rest ih => exact ih

theorem edges_foldl_addEdge : (es.foldl addEdge b).edges = b.edges.insertMany es := by
  induction es generalizing b with
  | nil => rfl
  | cons d rest ih => exact ih

theorem mem_worlds_foldl_addEdge (h : w ∈ (es.foldl addEdge b).worlds) :
    w ∈ b.worlds ∨ ∃ d ∈ es, w = d.source ∨ w = d.target := by
  induction es generalizing b with
  | nil => exact .inl h
  | cons d rest ih =>
    rcases ih h with h | ⟨d', hd', hw⟩
    · rcases mem_worlds_addEdge.mp h with rfl | rfl | h
      · exact .inr ⟨d, by simp, .inr rfl⟩
      · exact .inr ⟨d, by simp, .inl rfl⟩
      · exact .inl h
    · exact .inr ⟨d', by simp [hd'], hw⟩

theorem mem_ofParts : s ∈ ofParts l es ↔ s ∈ l := by
  rw [mem_iff_formulas, ofParts, formulas_foldl_addEdge, ← mem_iff_formulas, mem_foldl_add]
  simp [mem_iff_formulas, formulas, empty]

theorem edges_ofParts : (ofParts l es).edges = .ofList es := by
  rw [ofParts, edges_foldl_addEdge, edges_foldl_add]
  rfl

theorem zero_mem_worlds_ofParts (l : List Signed) (es : List Edge) : 0 ∈ (ofParts l es).worlds :=
  ofParts_induction (P := fun b => 0 ∈ b.worlds) (Ascending.mem_singleton.mpr rfl)
    (fun b s h => (grows_add b s).worlds 0 h) (fun b d h => (grows_addEdge b d).worlds 0 h) l es

theorem mem_worlds_ofParts : w ∈ (ofParts l es).worlds ↔
    w = 0 ∨ (∃ s ∈ l, w = s.world) ∨ ∃ d ∈ es, w = d.source ∨ w = d.target := by
  have ht := tidy_ofParts l es
  constructor
  · intro h
    rcases mem_worlds_foldl_addEdge h with h | h
    · rcases mem_worlds_foldl_add h with h | h
      · exact .inl (Ascending.mem_singleton.mp h)
      · exact .inr (.inl h)
    · exact .inr (.inr h)
  · rintro (rfl | ⟨s, hs, rfl⟩ | ⟨d, hd, rfl | rfl⟩)
    · exact zero_mem_worlds_ofParts l es
    · exact ht.world_mem s (mem_ofParts.mpr hs)
    · exact ht.source_mem d (by rwa [edges_ofParts, Ascending.mem_ofList])
    · exact ht.target_mem d (by rwa [edges_ofParts, Ascending.mem_ofList])

/-- The branches have the same formulas, worlds and edges, in whatever order the formulas came. -/
structure SameContent (b b' : Branch) : Prop where
  formulas : ∀ s, s ∈ b ↔ s ∈ b'
  worlds : b.worlds = b'.worlds
  edges : b.edges = b'.edges

theorem sameContent_ofParts (hl : l.Perm l') (he : es.Perm es') :
    (ofParts l es).SameContent (ofParts l' es') where
  formulas s := by rw [mem_ofParts, mem_ofParts, hl.mem_iff]
  worlds := by
    apply Ascending.eq_of_mem_iff
    intro w
    simp only [mem_worlds_ofParts, hl.mem_iff, he.mem_iff]
  edges := by
    apply Ascending.eq_of_mem_iff
    intro d
    simp only [edges_ofParts, Ascending.mem_ofList, he.mem_iff]

namespace SameContent

theorem contains_eq (h : b.SameContent b') (s : Signed) : b.contains s = b'.contains s := by
  rw [Bool.eq_iff_iff, contains_iff, contains_iff, h.formulas]

theorem length_eq (h : b.SameContent b') (ht : b.Tidy) (ht' : b'.Tidy) :
    b.formulas.length = b'.formulas.length := by
  apply List.Perm.length_eq
  exact (List.perm_ext_iff_of_nodup ht.nodup ht'.nodup).mpr h.formulas

theorem clash_eq_none_iff (h : b.SameContent b') (ht : b.Tidy) (ht' : b'.Tidy) :
    b.clash = none ↔ b'.clash = none := by
  simp only [ht.clash_eq_none_iff, ht'.clash_eq_none_iff, h.formulas]

theorem isClosed_eq (h : b.SameContent b') (ht : b.Tidy) (ht' : b'.Tidy) : b.isClosed = b'.isClosed := by
  have hclash := h.clash_eq_none_iff ht ht'
  cases hb : b.clash <;> cases hb' : b'.clash <;> simp_all [isClosed]

theorem nextWorld_eq (h : b.SameContent b') : b.nextWorld = b'.nextWorld := by
  rw [nextWorld, nextWorld, h.worlds]

end SameContent
end Branch

-- ---------------------------------------------------------------------------
-- The model of a branch
-- ---------------------------------------------------------------------------

namespace Model

variable {b b' : Branch} {m m' : Model} {w : World} {name : String}

theorem worlds_record {s : Signed} (h : s.world ∈ m.worlds) : (m.record s).worlds = m.worlds := by
  rw [record]
  split
  · exact Ascending.insert_of_mem h
  · rfl

theorem worlds_foldl_record {l : List Signed} (h : ∀ s ∈ l, s.world ∈ m.worlds) :
    (l.foldl record m).worlds = m.worlds := by
  induction l generalizing m with
  | nil => rfl
  | cons s rest ih =>
    have hs := worlds_record (h s (by simp))
    rw [List.foldl_cons, ih, hs]
    intro s' hs'
    rw [hs]
    exact h s' (by simp [hs'])

theorem worlds_ofBranch? (ht : b.Tidy) (h : ofBranch? b = some m) : m.worlds = b.worlds := by
  obtain ⟨-, rfl⟩ := ofBranch?_eq_some h
  -- The ends of the edges are worlds of the branch already.
  have hparts : (ofParts b.worlds.toList b.edges.toList).worlds = b.worlds := by
    apply Ascending.eq_of_mem_iff
    intro w
    simp only [ofParts, Ascending.mem_insertMany, Ascending.mem_ofList, List.mem_flatMap,
      List.mem_cons, List.not_mem_nil, or_false]
    constructor
    · rintro (⟨d, hd, rfl | rfl⟩ | hw)
      · exact ht.source_mem d hd
      · exact ht.target_mem d hd
      · exact hw
    · exact .inr
  rw [worlds_foldl_record, hparts]
  intro s hs
  rw [hparts]
  exact ht.world_mem s hs

theorem ofBranch?_congr (h : b.SameContent b') (ht : b.Tidy) (ht' : b'.Tidy) :
    ofBranch? b = ofBranch? b' := by
  by_cases hc : b.clash = none
  · obtain ⟨m, hm⟩ := exists_ofBranch? hc
    obtain ⟨m', hm'⟩ := exists_ofBranch? ((h.clash_eq_none_iff ht ht').mp hc)
    have worlds : m.worlds = m'.worlds := by
      rw [worlds_ofBranch? ht hm, worlds_ofBranch? ht' hm', h.worlds]
    have relation : m.relation = m'.relation := by
      apply Ascending.eq_of_mem_iff
      intro d
      rw [mem_relation_ofBranch? hm, mem_relation_ofBranch? hm', h.edges]
    have valuation : m.valuation = m'.valuation := by
      apply Ascending.Map.eq_of_get?
      rintro ⟨w, name⟩
      apply Option.ext
      intro value
      simp only [get?_ofBranch? ht hm, get?_ofBranch? ht' hm', h.formulas]
    rw [hm, hm']
    cases m
    cases m'
    simp_all
  · have hc' := fun h' => hc ((h.clash_eq_none_iff ht ht').mpr h')
    rw [ofBranch?_eq_none hc, ofBranch?_eq_none hc']

theorem value_eq_true_iff : m.value w name = true ↔ m.valuation.get? ⟨w, name⟩ = some true := by
  unfold value
  cases m.valuation.get? ⟨w, name⟩ <;> simp

theorem value_ofBranch?_iff (ht : b.Tidy) (h : ofBranch? b = some m) :
    m.value w name = true ↔ ⟨w, .T, .atom name⟩ ∈ b := by
  rw [value_eq_true_iff, get?_ofBranch? ht h]
  constructor
  · rintro ⟨sign, hs, htrue⟩
    cases sign with
    | T => exact hs
    | F => cases htrue
  · intro hs
    exact ⟨.T, hs, rfl⟩

theorem isConstrained_ofBranch?_iff (ht : b.Tidy) (h : ofBranch? b = some m) :
    m.isConstrained w name = true ↔ ∃ sign, ⟨w, sign, .atom name⟩ ∈ b := by
  rw [isConstrained, Option.isSome_iff_exists]
  simp only [get?_ofBranch? ht h]
  constructor
  · rintro ⟨-, sign, hs, -⟩
    exact ⟨sign, hs⟩
  · rintro ⟨sign, hs⟩
    exact ⟨_, sign, hs, rfl⟩

end Model

namespace Branch

/-- However the same assertions and edges are ordered, the branch has the same formulas, worlds and
edges, is closed or not alike, and goes on with the same new world. It gives the same model, in which
exactly the atoms asserted true are true, and exactly the atoms asserted have a value. -/
theorem ofParts_perm {l l' : List Signed} {es es' : List Edge} (hl : l.Perm l')
    (he : es.Perm es') :
    (∀ s, (ofParts l es).contains s = (ofParts l' es').contains s) ∧
    (ofParts l es).formulas.length = (ofParts l' es').formulas.length ∧
    (ofParts l es).worlds = (ofParts l' es').worlds ∧
    (ofParts l es).edges = (ofParts l' es').edges ∧
    (ofParts l es).isClosed = (ofParts l' es').isClosed ∧
    (ofParts l es).nextWorld = (ofParts l' es').nextWorld ∧
    (ofParts l es).nextWorld ∉ (ofParts l es).worlds ∧
    (∀ w ∈ (ofParts l es).worlds, w < (ofParts l es).nextWorld) ∧
    (∃ w ∈ (ofParts l es).worlds, (ofParts l es).nextWorld = w + 1) ∧
    Model.ofBranch? (ofParts l es) = Model.ofBranch? (ofParts l' es') ∧
    ∀ m, Model.ofBranch? (ofParts l es) = some m → ∀ w p,
      (m.value w p = true ↔ ⟨w, .T, .atom p⟩ ∈ l) ∧
      (m.isConstrained w p = true ↔ ∃ sign, ⟨w, sign, .atom p⟩ ∈ l) := by
  have ht := tidy_ofParts l es
  have ht' := tidy_ofParts l' es'
  have h := sameContent_ofParts hl he
  refine ⟨h.contains_eq, h.length_eq ht ht', h.worlds, h.edges, h.isClosed_eq ht ht', h.nextWorld_eq,
    nextWorld_not_mem, fun w => lt_nextWorld, exists_nextWorld_eq (zero_mem_worlds_ofParts l es),
    Model.ofBranch?_congr h ht ht', ?_⟩
  intro m hm w p
  constructor
  · rw [Model.value_ofBranch?_iff ht hm, mem_ofParts]
  · simp only [Model.isConstrained_ofBranch?_iff ht hm, mem_ofParts]

def repeated : List Signed :=
  [⟨1, .T, .atom "p"⟩, ⟨0, .F, .atom "q"⟩, ⟨1, .T, .atom "p"⟩, ⟨3, .T, .diamond (.atom "q")⟩]

def links : List Edge := [⟨0, 1⟩, ⟨5, 0⟩, ⟨0, 1⟩]

theorem ofParts_perm_repeated :
    repeated.Perm repeated.reverse ∧ links.Perm links.reverse ∧
    (ofParts repeated.reverse links.reverse).formulas.length = 3 ∧
    (ofParts repeated.reverse links.reverse).nextWorld = 6 ∧
    ∃ m, Model.ofBranch? (ofParts repeated links) = some m ∧
      Model.ofBranch? (ofParts repeated.reverse links.reverse) = some m ∧
      m.value 1 "p" = true ∧ m.value 0 "q" = false ∧ m.isConstrained 0 "q" = true := by
  have hl : repeated.Perm repeated.reverse := (List.reverse_perm _).symm
  have he : links.Perm links.reverse := (List.reverse_perm _).symm
  obtain ⟨-, length, -, -, -, nextWorld, -, -, -, model, values⟩ := ofParts_perm hl he
  obtain ⟨m, hm⟩ := Model.exists_ofBranch? (show (ofParts repeated links).clash = none from rfl)
  refine ⟨hl, he, length.symm, nextWorld.symm, m, hm, model.symm.trans hm, ?_, ?_, ?_⟩
  · exact (values m hm 1 "p").1.mpr (by simp [repeated])
  · rw [← Bool.not_eq_true, (values m hm 0 "q").1]
    simp [repeated]
  · exact (values m hm 0 "q").2.mpr ⟨.F, by simp [repeated]⟩

end Branch
end ModalTableau
