import ModalTableau.Proofs.Closure
import ModalTableau.Proofs.Finished

/-!
# Saturation

The test for saturation looks at every formula once; a step looks for the first rule of each kind in
turn. On every branch that can come up the two agree: the test succeeds exactly if the step finds
nothing to do, and only then does the step leave the branch as it is. Any other step makes a `Mark`
that was due and had not been made, and no mark is ever lost.
-/

namespace ModalTableau

/-- A note that a rule has been applied, with the place of its formula on the branch. -/
inductive Mark where
  /-- A rule that adds to the branch or splits it. -/
  | applied (place : Nat)
  /-- A rule that asks for a successor. -/
  | fulfilled (place : Nat)
  /-- A rule about every successor, for one of them. -/
  | propagated (place : Nat) (target : World)
deriving DecidableEq

theorem Signed.kind_of_expand {s : Signed} {rule : Rule} {x : Expansion}
    (h : s.expand = some (rule, x)) : rule.kind = x.kind := by
  obtain ⟨hr, hx⟩ := expand_eq_some.mp h
  obtain ⟨w, sign, f⟩ := s
  cases f <;> cases sign <;> simp [rule?, Formula.connective?, expansion?] at hr hx <;>
    subst hr <;> subst hx <;> rfl

namespace Entry

variable {b : Branch} {e e' : Entry}

theorem isKind_of_expand {rule : Rule} {x : Expansion} (h : e.signed.expand = some (rule, x)) :
    e.isKind x.kind = true := by
  simp [isKind, (Signed.expand_eq_some.mp h).1, Signed.kind_of_expand h]

inductive Advanced (b : Branch) (e : Entry) : Entry → Prop
  | applied (unused : e.used = false) (kind : e.isKind .alpha = true ∨ e.isKind .beta = true) :
      Advanced b e { e with used := true }
  | fulfilled (unused : e.used = false) (kind : e.isKind .someSuccessor = true) :
      Advanced b e { e with used := true }
  | propagated (kind : e.isKind .everySuccessor = true) (waiting : b.unreached e ≠ []) :
      Advanced b e { e with reached := e.reached.insertMany (b.unreached e) }

structure Keeps (e e' : Entry) : Prop where
  signed : e'.signed = e.signed
  used : e.used = true → e'.used = true
  reached : ∀ v ∈ e.reached, v ∈ e'.reached

theorem Keeps.refl (e : Entry) : e.Keeps e := ⟨rfl, id, fun _ => id⟩

theorem Advanced.keeps (h : e.Advanced b e') : e.Keeps e' := by
  cases h with
  | applied | fulfilled => exact ⟨rfl, fun _ => rfl, fun _ => id⟩
  | propagated => exact ⟨rfl, id, fun v hv => Ascending.mem_insertMany.mpr (.inr hv)⟩

theorem Keeps.isKind_eq (h : e.Keeps e') (kind : RuleKind) : e'.isKind kind = e.isKind kind := by
  rw [isKind, h.signed, isKind]

end Entry

namespace Branch

variable {b b' after : Branch} {e e' : Entry} {m : Mark} {s : Signed} {n : Nat} {blocking : Bool}

def hasMark (b : Branch) : Mark → Bool
  | .applied n => b.entries[n]?.any Entry.isApplied
  | .fulfilled n => b.entries[n]?.any Entry.isFulfilled
  | .propagated n v => b.entries[n]?.any (v ∈ ·.reached)

/-- Whether there is a rule that the mark would be about. -/
def calledFor (b : Branch) : Mark → Bool
  | .applied n => b.entries[n]?.any fun e => e.isKind .alpha || e.isKind .beta
  | .fulfilled n => b.entries[n]?.any (·.isKind .someSuccessor)
  | .propagated n v =>
    b.entries[n]?.any fun e => e.isKind .everySuccessor && v ∈ b.successors e.signed.world

-- ---------------------------------------------------------------------------
-- The test and the step
-- ---------------------------------------------------------------------------

theorem linear?_of_isSettled (h : b.isSettled e = true) : b.linear? e = none := by
  cases hf : b.linear? e with
  | none => rfl
  | some found =>
    obtain ⟨⟨rule, premise, conclusions⟩, e'⟩ := found
    obtain ⟨hu, -, ⟨hx, -⟩ | ⟨sign, f, hx, hwaiting, -⟩⟩ := linear?_eq_some hf
    · simp [isSettled, Signed.expansion?_of_expand hx, hu] at h
    · simp only [isSettled, Signed.expansion?_of_expand hx, List.all_eq_true] at h
      -- Nothing is unreached if every successor has been reached.
      refine absurd (List.filter_eq_nil_iff.mpr fun v hv => ?_) hwaiting
      simpa using h v hv

theorem alternatives?_of_isSettled (h : b.isSettled e = true) : alternatives? e = none := by
  cases hf : alternatives? e with
  | none => rfl
  | some found =>
    obtain ⟨⟨rule, premise, left, right⟩, e'⟩ := found
    obtain ⟨hu, -, hx, -⟩ := alternatives?_eq_some hf
    simp [isSettled, Signed.expansion?_of_expand hx, hu] at h

theorem demand?_of_isSettled (h : b.isSettled e = true) : demand? e = none := by
  cases hf : demand? e with
  | none => rfl
  | some found =>
    obtain ⟨⟨rule, premise, sign, f⟩, e'⟩ := found
    obtain ⟨hu, -, hx, -⟩ := demand?_eq_some hf
    simp [isSettled, Signed.expansion?_of_expand hx, hu] at h

theorem step_of_isSaturated (h : b.isSaturated = true) (blocking : Bool) :
    b.step blocking = .saturated := by
  have hsettled := List.all_eq_true.mp h
  rw [step, updateFirst_of_none fun e he => linear?_of_isSettled (hsettled e he),
    updateFirst_of_none fun e he => alternatives?_of_isSettled (hsettled e he),
    updateFirst_of_none fun e he => demand?_of_isSettled (hsettled e he)]

/-- Whatever was done to a branch, its records are true of it if the splits that were not answered
are kept in mind. -/
theorem Built.exists_reachable (h : Built b) : ∃ p, Reachable p b := by
  induction h with
  | ofRoot root => exact ⟨[], .ofRoot root⟩
  | ofParts formulas edges => exact ⟨[], .ofParts formulas edges⟩
  | @next b b' _ operation ih =>
    obtain ⟨p, hp⟩ := ih
    cases operation with
    | add s => exact ⟨p, hp.add s⟩
    | addEdge d => exact ⟨p, hp.addEdge d⟩
    | addWorld => exact ⟨p, hp.addWorld⟩
    | step blocking =>
      cases hs : b.step blocking with
      | extended inferences after => exact ⟨p, hp.extended hs⟩
      | split rule premise left right after => exact ⟨_, hp.split hs⟩
      | saturated => exact ⟨p, hp⟩

theorem Built.isSaturated_iff (h : Built b) (blocking : Bool) :
    b.isSaturated = true ↔ b.step blocking = .saturated := by
  obtain ⟨p, hp⟩ := h.exists_reachable
  exact ⟨fun hsat => step_of_isSaturated hsat blocking, isSaturated_of_step hp.backed⟩

-- ---------------------------------------------------------------------------
-- Marks
-- ---------------------------------------------------------------------------

theorem entries_prefix_add (b : Branch) (s : Signed) : b.entries <+: (b.add s).entries := by
  by_cases hs : s ∈ b
  · exact (add_of_mem hs).symm ▸ List.prefix_rfl
  · rw [add_of_not_mem hs]
    exact List.prefix_append _ _

theorem entries_prefix_foldl_add (b : Branch) (l : List Signed) :
    b.entries <+: (l.foldl add b).entries := by
  induction l generalizing b with
  | nil => exact List.prefix_rfl
  | cons s rest ih => exact (entries_prefix_add b s).trans (ih (b.add s))

/-- Every step but the last applies the rule of one entry; after that it only adds entries. -/
theorem exists_advanced (hs : b.step blocking ≠ .saturated) :
    ∃ e e' b', Marked b e e' b' ∧ e.Advanced b e' ∧
      b'.entries <+: ((b.step blocking).branch b).entries := by
  have hstep := stepped blocking b
  generalize b.step blocking = r at hs hstep
  cases hstep with
  | alpha marked unused expand =>
    refine ⟨_, _, _, marked, .applied unused (.inl (Entry.isKind_of_expand expand)), ?_⟩
    rw [Step.branch, addAll_fst]
    exact entries_prefix_foldl_add _ _
  | spread marked unused expand waiting =>
    refine ⟨_, _, _, marked, .propagated (Entry.isKind_of_expand expand) waiting, ?_⟩
    rw [Step.branch, addAll_fst]
    exact entries_prefix_foldl_add _ _
  | split _ marked unused expand =>
    exact ⟨_, _, _, marked, .applied unused (.inr (Entry.isKind_of_expand expand)), List.prefix_rfl⟩
  | reuse _ _ marked unused expand =>
    refine ⟨_, _, _, marked, .fulfilled unused (Entry.isKind_of_expand expand), ?_⟩
    exact (entries_reuse _ _).symm ▸ List.prefix_rfl
  | fresh _ _ marked unused expand =>
    refine ⟨_, _, _, marked, .fulfilled unused (Entry.isKind_of_expand expand), ?_⟩
    exact entries_prefix_add (addEdge _ _) _
  | saturated => exact absurd rfl hs

theorem Marked.exists_place (h : Marked b e e' b') :
    ∃ n : Nat, b.entries[n]? = some e ∧ b'.entries[n]? = some e' ∧
      ∀ k : Nat, k ≠ n → b'.entries[k]? = b.entries[k]? := by
  obtain ⟨l₁, l₂, he, -⟩ := h
  refine ⟨l₁.length, by simp [he], by simp, fun k hk => ?_⟩
  rw [he]
  rcases Nat.lt_or_ge k l₁.length with hlt | hge
  · rw [List.getElem?_append_left hlt, List.getElem?_append_left hlt]
  · have hlt : l₁.length < k := Nat.lt_of_le_of_ne hge (Ne.symm hk)
    obtain ⟨i, hi⟩ := Nat.exists_eq_succ_of_ne_zero (Nat.sub_ne_zero_of_lt hlt)
    rw [List.getElem?_append_right hge, List.getElem?_append_right hge, hi, List.getElem?_cons_succ,
      List.getElem?_cons_succ]

theorem getElem?_extend {l l' : List Entry} (h : l <+: l') (hn : l[n]? = some e) :
    l'[n]? = some e := by
  obtain ⟨m, rfl⟩ := h
  exact List.getElem?_append_left (List.getElem?_eq_some_iff.mp hn).1 ▸ hn

theorem exists_keeps (b : Branch) (blocking : Bool) (hn : b.entries[n]? = some e) :
    ∃ e', ((b.step blocking).branch b).entries[n]? = some e' ∧ e.Keeps e' := by
  by_cases hs : b.step blocking = .saturated
  · exact ⟨e, by rw [hs]; exact hn, .refl e⟩
  obtain ⟨x, x', b', marked, advanced, hkept⟩ := exists_advanced hs
  obtain ⟨k, hk, hk', hother⟩ := marked.exists_place
  by_cases hnk : n = k
  · subst hnk
    obtain rfl := Option.some.inj (hn.symm.trans hk)
    exact ⟨x', getElem?_extend hkept hk', advanced.keeps⟩
  · exact ⟨e, getElem?_extend hkept ((hother n hnk).trans hn), .refl e⟩

theorem any_entry_step {test : Entry → Bool}
    (keep : ∀ e e' : Entry, e.Keeps e' → test e = true → test e' = true)
    (h : b.entries[n]?.any test = true) :
    ((b.step blocking).branch b).entries[n]?.any test = true := by
  obtain ⟨e, hn, he⟩ := (Option.any_eq_true _ _).mp h
  obtain ⟨e', hn', hkeeps⟩ := exists_keeps b blocking hn
  exact (Option.any_eq_true _ _).mpr ⟨e', hn', keep e e' hkeeps he⟩

theorem hasMark_step (b : Branch) (blocking : Bool) (h : b.hasMark m = true) :
    ((b.step blocking).branch b).hasMark m = true := by
  cases m with
  | applied n =>
    refine any_entry_step (fun e e' hk he => ?_) h
    simp only [Entry.isApplied, hk.isKind_eq, Bool.and_eq_true] at he ⊢
    exact ⟨hk.used he.1, he.2⟩
  | fulfilled n =>
    refine any_entry_step (fun e e' hk he => ?_) h
    simp only [Entry.isFulfilled, hk.isKind_eq, Bool.and_eq_true] at he ⊢
    exact ⟨hk.used he.1, he.2⟩
  | propagated n v =>
    refine any_entry_step (fun e e' hk he => ?_) h
    exact decide_eq_true (hk.reached v (of_decide_eq_true he))

theorem exists_new_mark (hs : b.step blocking ≠ .saturated) :
    ∃ m, b.calledFor m = true ∧ b.hasMark m = false ∧
      ((b.step blocking).branch b).hasMark m = true := by
  obtain ⟨e, e', b', marked, advanced, hkept⟩ := exists_advanced hs
  obtain ⟨n, hn, hn', -⟩ := marked.exists_place
  have hafter := getElem?_extend hkept hn'
  cases advanced with
  | applied unused kind =>
    refine ⟨.applied n, ?_, ?_, ?_⟩
    · simpa [calledFor, hn] using kind
    · simp [hasMark, hn, Entry.isApplied, unused]
    · simpa [hasMark, hafter, Entry.isApplied, Entry.isKind] using kind
  | fulfilled unused kind =>
    refine ⟨.fulfilled n, ?_, ?_, ?_⟩
    · simpa [calledFor, hn] using kind
    · simp [hasMark, hn, Entry.isFulfilled, unused]
    · simpa [hasMark, hafter, Entry.isFulfilled, Entry.isKind] using kind
  | propagated kind waiting =>
    obtain ⟨v, hv⟩ := List.exists_mem_of_ne_nil _ waiting
    obtain ⟨hedge, hnew⟩ := mem_unreached.mp hv
    refine ⟨.propagated n v, ?_, ?_, ?_⟩
    · simp [calledFor, hn, kind, mem_successors.mpr hedge]
    · simp [hasMark, hn, hnew]
    · simp [hasMark, hafter, Ascending.mem_insertMany, hv]

theorem branch_step_eq_iff (b : Branch) (blocking : Bool) :
    (b.step blocking).branch b = b ↔ b.step blocking = .saturated := by
  constructor
  · intro heq
    by_contra hs
    obtain ⟨m, -, hbefore, hafter⟩ := exists_new_mark hs
    rw [heq, hbefore] at hafter
    cases hafter
  · intro hs
    rw [hs, Step.branch]

/-- The test for saturation and the step agree on every branch that can come up, with blocking and
without. A step that finds nothing to do leaves the branch as it is, and no other step does: it
makes a mark that was called for and had not been made, and keeps all marks made before. -/
theorem saturation_exact (h : Built b) (blocking : Bool) :
    (b.isSaturated = true ↔ b.step blocking = .saturated) ∧
    ((b.step blocking).branch b = b ↔ b.step blocking = .saturated) ∧
    (b.step blocking ≠ .saturated → ∃ m, b.calledFor m = true ∧ b.hasMark m = false ∧
      ((b.step blocking).branch b).hasMark m = true) ∧
    ∀ m, b.hasMark m = true → ((b.step blocking).branch b).hasMark m = true :=
  ⟨h.isSaturated_iff blocking, branch_step_eq_iff b blocking, exists_new_mark,
    fun _ => hasMark_step b blocking⟩

def selfSeeing : Branch := ofParts [⟨0, .T, .box (.atom "p")⟩] [⟨0, 0⟩, ⟨0, 2⟩]

def bothReached : Branch := (selfSeeing.step true).branch selfSeeing

def anotherEdge : Branch := bothReached.addEdge ⟨0, 5⟩

/-- After the step that reaches both worlds nothing is left to do, until there is another edge. -/
theorem saturation_exact_selfSeeing :
    bothReached.isSaturated = true ∧ bothReached.step false = .saturated ∧
      anotherEdge.isSaturated = false ∧
      ∃ m, anotherEdge.calledFor m = true ∧ anotherEdge.hasMark m = false ∧
        ((anotherEdge.step false).branch anotherEdge).hasMark m = true := by
  have start : Built selfSeeing := .ofParts _ _
  have built : Built bothReached := start.next (.step true)
  have hsat : bothReached.isSaturated = true := by decide +kernel
  have hunsat : anotherEdge.isSaturated = false := by decide +kernel
  obtain ⟨hiff, -, hnew, -⟩ := saturation_exact (built.next (.addEdge ⟨0, 5⟩)) false
  refine ⟨hsat, (saturation_exact built false).1.mp hsat, hunsat, hnew fun hs => ?_⟩
  rw [show bothReached.addEdge ⟨0, 5⟩ = anotherEdge from rfl, hunsat] at hiff
  exact absurd (hiff.mpr hs) (by decide)

end Branch
end ModalTableau
