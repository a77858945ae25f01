import Mathlib.Logic.Relation
import ModalTableau.Proofs.Records

/-!
# Exact closure

A branch that was made from any parts by any operations in any order is closed exactly if it asserts
some formula both true and false at some world. The contradiction that it records is the first one:
the pair whose later member arrived first (`FirstClash`).
-/

namespace ModalTableau

/-- In the list, `c` is the true side of the pair whose later member comes first. -/
def FirstClash (l : List Signed) (c : Signed) : Prop :=
  ∃ l₁ s l₂, l = l₁ ++ s :: l₂ ∧ s.conjugate ∈ l₁ ∧ (∀ x ∈ l₁, x.conjugate ∉ l₁) ∧
    { s with sign := .T } = c

namespace FirstClash

variable {l l' : List Signed} {c c' s : Signed}

theorem extend (h : FirstClash l c) (hl : l <+: l') : FirstClash l' c := by
  obtain ⟨l₁, s, l₂, rfl, hs, hc, rfl⟩ := h
  obtain ⟨m, rfl⟩ := hl
  exact ⟨l₁, s, l₂ ++ m, by simp, hs, hc, rfl⟩

theorem concat (hl : ∀ x ∈ l, x.conjugate ∉ l) (hs : s.conjugate ∈ l) :
    FirstClash (l ++ [s]) { s with sign := .T } :=
  ⟨l, s, [], rfl, hs, hl, rfl⟩

theorem sign_eq (h : FirstClash l c) : c.sign = .T := by
  obtain ⟨l₁, s, l₂, -, -, -, rfl⟩ := h
  rfl

theorem mem (h : FirstClash l c) : c ∈ l ∧ c.conjugate ∈ l := by
  obtain ⟨l₁, s, l₂, rfl, hs, -, rfl⟩ := h
  rcases s.true_side with ht | ht <;> rw [ht]
  · exact ⟨by simp, by simp [hs]⟩
  · exact ⟨by simp [hs], by simp⟩

theorem unique (h : FirstClash l c) (h' : FirstClash l c') : c = c' := by
  obtain ⟨l₁, s, l₂, rfl, hs, hc, rfl⟩ := h
  obtain ⟨l₁', s', l₂', hl, hs', hc', rfl⟩ := h'
  -- The later member of one pair cannot stand before that of the other, where there is no pair.
  rcases List.append_eq_append_iff.mp hl with ⟨m, rfl, hm⟩ | ⟨m, rfl, hm⟩
  · cases m with
    | nil =>
      obtain ⟨rfl, -⟩ : s = s' ∧ l₂ = l₂' := by simpa using hm
      rfl
    | cons x m =>
      obtain ⟨rfl, -⟩ : s = x ∧ l₂ = m ++ s' :: l₂' := by simpa using hm
      exact absurd (List.mem_append_left _ hs) (hc' s (by simp))
  · cases m with
    | nil =>
      obtain ⟨rfl, -⟩ : s' = s ∧ l₂' = l₂ := by simpa using hm
      rfl
    | cons x m =>
      obtain ⟨rfl, -⟩ : s' = x ∧ l₂' = m ++ s :: l₂ := by simpa using hm
      exact absurd (List.mem_append_left _ hs') (hc s' (by simp))

end FirstClash

namespace Branch

variable {b b' : Branch} {s c : Signed}

inductive Operation (b : Branch) : Branch → Prop
  | add (s : Signed) : Operation b (b.add s)
  | addEdge (d : Edge) : Operation b (b.addEdge d)
  | addWorld : Operation b b.addWorld
  | step (blocking : Bool) : Operation b ((b.step blocking).branch b)

/-- The branches that operations lead to. -/
inductive Built : Branch → Prop
  | ofRoot (root : Signed) : Built (.ofRoot root)
  | ofParts (formulas : List Signed) (edges : List Edge) : Built (.ofParts formulas edges)
  | next {b b' : Branch} (before : Built b) (operation : Operation b b') : Built b'

def Early (b : Branch) : Prop := ∀ c, b.clash = some c → FirstClash b.formulas c

theorem Early.congr (h : b.Early) (formulas : b'.formulas = b.formulas)
    (clash : b'.clash = b.clash) : b'.Early := by
  intro c hc
  rw [formulas]
  exact h c (clash ▸ hc)

theorem Early.add (h : b.Early) (ht : b.Tidy) (s : Signed) : (b.add s).Early := by
  by_cases hs : s ∈ b
  · rwa [add_of_mem hs]
  intro c hc
  rcases (clash_add_eq_some hs).mp hc with hb | ⟨hb, hcon, rfl⟩
  · exact (h c hb).extend (grows_add b s).formulas
  · rw [formulas_add_of_not_mem hs]
    exact .concat (ht.consistent hb) hcon

theorem Early.foldl_add (h : b.Early) (ht : b.Tidy) (l : List Signed) :
    (l.foldl Branch.add b).Early := by
  induction l generalizing b with
  | nil => exact h
  | cons s rest ih => exact ih (h.add ht s) (ht.add s)

theorem Early.marked {e e' : Entry} (h : b.Early) (marked : Marked b e e' b') : b'.Early :=
  h.congr marked.formulas_eq marked.clash_eq

theorem Early.addEdge (h : b.Early) (d : Edge) : (b.addEdge d).Early := h.congr rfl rfl

theorem Early.reuse (h : b.Early) (d : Edge) : (b.reuse d).Early := by
  refine h.congr (by rw [formulas, entries_reuse, formulas]) ?_
  unfold Branch.reuse
  split <;> rfl

theorem Early.step (h : b.Early) (ht : b.Tidy) (blocking : Bool) :
    ((b.step blocking).branch b).Early := by
  have hs := stepped blocking b
  generalize b.step blocking = r at hs
  cases hs with
  | alpha marked | spread marked =>
    rw [Step.branch, addAll_fst]
    exact (h.marked marked).foldl_add (marked.tidy ht) _
  | split _ marked => exact h.marked marked
  | reuse _ _ marked => exact (h.marked marked).reuse _
  | fresh _ _ marked => exact ((h.marked marked).addEdge _).add ((marked.tidy ht).addEdge _) _
  | saturated => exact h

theorem Tidy.step (h : b.Tidy) (blocking : Bool) : ((b.step blocking).branch b).Tidy := by
  cases hs : b.step blocking with
  | extended inferences after => exact h.extended hs
  | split rule premise left right after => exact h.split hs
  | saturated => exact h

theorem grows_step (b : Branch) (blocking : Bool) : b.Grows ((b.step blocking).branch b) := by
  cases hs : b.step blocking with
  | extended inferences after => exact (Next.extended hs).grows
  | split rule premise left right after =>
    cases stepped_of hs with
    | split _ marked => exact marked.grows
  | saturated => exact .refl b

namespace Operation

theorem grows (h : Operation b b') : b.Grows b' := by
  cases h with
  | add s => exact grows_add b s
  | addEdge d => exact grows_addEdge b d
  | addWorld => exact grows_addWorld b
  | step blocking => exact grows_step b blocking

theorem tidy (h : Operation b b') (ht : b.Tidy) : b'.Tidy := by
  cases h with
  | add s => exact ht.add s
  | addEdge d => exact ht.addEdge d
  | addWorld => exact ht.addWorld
  | step blocking => exact ht.step blocking

theorem early (h : Operation b b') (ht : b.Tidy) (he : b.Early) : b'.Early := by
  cases h with
  | add s => exact he.add ht s
  | addEdge d => exact he.addEdge d
  | addWorld => exact he.congr rfl rfl
  | step blocking => exact he.step ht blocking

end Operation

namespace Built

theorem tidy (h : Built b) : b.Tidy := by
  induction h with
  | ofRoot root => exact tidy_empty.add root
  | ofParts formulas edges => exact tidy_ofParts formulas edges
  | next _ operation ih => exact operation.tidy ih

theorem early (h : Built b) : b.Early := by
  have hempty : Early .empty := by simp [Early, empty]
  induction h with
  | ofRoot root => exact hempty.add tidy_empty root
  | ofParts formulas edges =>
    have hf := hempty.foldl_add tidy_empty formulas
    exact List.foldlRecOn edges addEdge hf fun b hb d _ => hb.addEdge d
  | next before operation ih => exact operation.early before.tidy ih

theorem clash_eq_some_iff (h : Built b) : b.clash = some c ↔ FirstClash b.formulas c := by
  constructor
  · exact h.early c
  · intro hc
    cases hb : b.clash with
    | none => exact absurd hc.mem.2 (h.tidy.consistent hb c hc.mem.1)
    | some c' => rw [(h.early c' hb).unique hc]

theorem run (h : Built b) (operations : Relation.ReflTransGen Operation b b') :
    Built b' ∧ b.formulas <+: b'.formulas := by
  induction operations with
  | refl => exact ⟨h, List.prefix_rfl⟩
  | tail _ operation ih => exact ⟨ih.1.next operation, ih.2.trans operation.grows.formulas⟩

theorem isClosed_iff (h : Built b) :
    b.isClosed = true ↔ ∃ w f, ⟨w, .T, f⟩ ∈ b.formulas ∧ ⟨w, .F, f⟩ ∈ b.formulas := by
  rw [isClosed, Option.isSome_iff_exists]
  constructor
  · rintro ⟨⟨w, sign, f⟩, hc⟩
    obtain rfl : sign = .T := h.tidy.clash_sign _ hc
    exact ⟨w, f, h.tidy.clashing _ hc⟩
  · rintro ⟨w, f, ht, hf⟩
    cases hb : b.clash with
    | none => exact absurd hf (h.tidy.consistent hb _ ht)
    | some c => exact ⟨c, rfl⟩

end Built

/-- Whatever was done to a branch, it is closed exactly if it has a contradiction. It has no formula
twice, and tells which formulas it has; each operation only adds formulas at the end. Once there is
a contradiction, the first one stays the recorded one whatever is done next. -/
theorem closure_exact (h : Built b) :
    (b.isClosed = true ↔ ∃ w f, ⟨w, .T, f⟩ ∈ b.formulas ∧ ⟨w, .F, f⟩ ∈ b.formulas) ∧
    b.formulas.Nodup ∧
    (∀ s, b.contains s = true ↔ s ∈ b.formulas) ∧
    (∀ b', Operation b b' → b.formulas <+: b'.formulas) ∧
    (∀ w f, ⟨w, .T, f⟩ ∈ b.formulas → ⟨w, .F, f⟩ ∈ b.formulas →
      ∃ c, c.sign = .T ∧ FirstClash b.formulas c ∧
        ∀ b', Relation.ReflTransGen Operation b b' → b'.clash = some c) := by
  refine ⟨h.isClosed_iff, h.tidy.nodup, fun s => contains_iff, fun b' hb' => hb'.grows.formulas,
    fun w f ht hf => ?_⟩
  obtain ⟨c, hc⟩ := Option.isSome_iff_exists.mp (h.isClosed_iff.mpr ⟨w, f, ht, hf⟩)
  have hfirst := h.early c hc
  refine ⟨c, hfirst.sign_eq, hfirst, fun b' operations => ?_⟩
  obtain ⟨hb', hp⟩ := h.run operations
  exact hb'.clash_eq_some_iff.mpr (hfirst.extend hp)

/-- `p ∧ ¬p` after two steps, which close the branch, and then with a second contradiction. -/
def doublyClosed : Branch :=
  let root : Signed := ⟨0, .T, .and (.atom "p") (.not (.atom "p"))⟩
  let first := (ofRoot root).step true |>.branch (ofRoot root)
  let second := first.step true |>.branch first
  second.add root.conjugate

theorem closure_exact_doublyClosed :
    Built doublyClosed ∧ doublyClosed.isClosed = true ∧
      ∀ b', Relation.ReflTransGen Operation doublyClosed b' →
        b'.clash = some ⟨0, .T, .atom "p"⟩ := by
  have built : Built doublyClosed :=
    .next (.next (.next (.ofRoot _) (.step true)) (.step true)) (.add _)
  obtain ⟨closed, -, -, -, stays⟩ := closure_exact built
  have hT : ⟨0, .T, .atom "p"⟩ ∈ doublyClosed.formulas := by decide +kernel
  have hF : ⟨0, .F, .atom "p"⟩ ∈ doublyClosed.formulas := by decide +kernel
  obtain ⟨c, -, -, hc⟩ := stays 0 (.atom "p") hT hF
  have hfirst : doublyClosed.clash = some ⟨0, .T, .atom "p"⟩ := by decide +kernel
  have hcp : c = ⟨0, .T, .atom "p"⟩ := Option.some.inj ((hc _ .refl).symm.trans hfirst)
  exact ⟨built, closed.mpr ⟨0, .atom "p", hT, hF⟩, fun b' operations => hcp ▸ hc b' operations⟩

end Branch
end ModalTableau
