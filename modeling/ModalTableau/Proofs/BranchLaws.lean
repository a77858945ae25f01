import ModalTableau.Branch
import ModalTableau.Proofs.General

/-!
# Branches only grow

What every operation on a branch does to its formulas, worlds and edges (`mem_add`, `mem_addEdge`),
and the two facts that hold of a branch whatever was done to it: it has more than it had before
(`Grows`), and its parts fit together (`Tidy`): no formula twice, every world that is mentioned is
listed, and a contradiction is recorded exactly if there is one.
-/

namespace ModalTableau

theorem Signed.conjugate_ne (s : Signed) : s.conjugate ≠ s := by
  intro h
  have hs : s.sign.flip = s.sign := congrArg Signed.sign h
  cases hc : s.sign <;> simp [hc, Sign.flip] at hs

theorem Signed.true_side (s : Signed) :
    { s with sign := .T } = s ∨ { s with sign := .T } = s.conjugate := by
  obtain ⟨w, sign, f⟩ := s
  cases sign <;> simp [conjugate, Sign.flip]

theorem Edge.mem_targets {edges : Ascending Edge} {v w : World} :
    v ∈ (edges.toList.filter (·.source = w)).map (·.target) ↔ ⟨w, v⟩ ∈ edges := by
  simp only [List.mem_map, List.mem_filter, decide_eq_true_eq]
  constructor
  · rintro ⟨⟨_, _⟩, ⟨h, rfl⟩, rfl⟩
    exact h
  · intro h
    exact ⟨_, ⟨h, rfl⟩, rfl⟩

namespace Branch

variable {b b' b'' : Branch} {s x : Signed} {e : Entry} {d : Edge} {w : World}

instance : Membership Signed Branch := ⟨fun b s => s ∈ b.formulas⟩

theorem mem_iff_formulas : s ∈ b ↔ s ∈ b.formulas := Iff.rfl

theorem mem_iff_entry : s ∈ b ↔ ∃ e ∈ b.entries, e.signed = s := List.mem_map

theorem signed_mem (he : e ∈ b.entries) : e.signed ∈ b := mem_iff_entry.mpr ⟨e, he, rfl⟩

@[simp] theorem contains_iff : b.contains s = true ↔ s ∈ b := by
  simp [contains, mem_iff_entry]

-- ---------------------------------------------------------------------------
-- Adding formulas
-- ---------------------------------------------------------------------------

theorem add_of_mem (h : s ∈ b) : b.add s = b := by simp [add, h]

theorem add_of_not_mem (h : s ∉ b) : b.add s =
    { b with
      entries := b.entries ++ [.ofSigned s]
      worlds := b.worlds.insert s.world
      clash := b.clash <|> b.clashWith? s } := by
  simp [add, h]

theorem formulas_add_of_not_mem (h : s ∉ b) : (b.add s).formulas = b.formulas ++ [s] := by
  simp [add_of_not_mem h, formulas, Entry.ofSigned]

theorem mem_add : x ∈ b.add s ↔ x = s ∨ x ∈ b := by
  by_cases h : s ∈ b
  · rw [add_of_mem h]
    exact ⟨.inr, fun hx => hx.elim (fun hx => hx ▸ h) id⟩
  · rw [mem_iff_formulas, formulas_add_of_not_mem h]
    simp [mem_iff_formulas, or_comm]

theorem mem_add_self : s ∈ b.add s := mem_add.mpr (.inl rfl)

theorem entry_of_mem_add (h : e ∈ (b.add s).entries) :
    e ∈ b.entries ∨ s ∉ b ∧ e = .ofSigned s := by
  by_cases hs : s ∈ b
  · rw [add_of_mem hs] at h
    exact .inl h
  · rw [add_of_not_mem hs] at h
    rcases List.mem_append.mp h with h | h
    · exact .inl h
    · exact .inr ⟨hs, List.mem_singleton.mp h⟩

theorem mem_entries_add (h : e ∈ b.entries) : e ∈ (b.add s).entries := by
  by_cases hs : s ∈ b
  · rwa [add_of_mem hs]
  · rw [add_of_not_mem hs]
    exact List.mem_append_left _ h

@[simp] theorem edges_add : (b.add s).edges = b.edges := by unfold add; split <;> rfl

@[simp] theorem reused_add : (b.add s).reused = b.reused := by unfold add; split <;> rfl

theorem mem_worlds_add (h : w ∈ (b.add s).worlds) : w = s.world ∨ w ∈ b.worlds := by
  unfold add at h
  split at h
  · exact .inr h
  · exact Ascending.mem_insert.mp h

theorem addAll_fst (b : Branch) (l : List Signed) : (b.addAll l).1 = l.foldl add b := by
  induction l generalizing b with
  | nil => rfl
  | cons s rest ih => simp [addAll, ih]

theorem mem_addAll_snd {l : List Signed} (h : x ∈ (b.addAll l).2) : x ∈ l ∧ x ∉ b := by
  induction l generalizing b with
  | nil => simp [addAll] at h
  | cons s rest ih =>
    have hrest (h : x ∈ ((b.add s).addAll rest).2) : x ∈ s :: rest ∧ x ∉ b :=
      ⟨List.mem_cons_of_mem _ (ih h).1, fun hx => (ih h).2 (mem_add.mpr (.inr hx))⟩
    simp only [addAll] at h
    split at h
    next => exact hrest h
    next hs =>
      rcases List.mem_cons.mp h with rfl | h
      · exact ⟨List.mem_cons_self, by simpa using hs⟩
      · exact hrest h

theorem formulas_addAll (b : Branch) (l : List Signed) :
    (b.addAll l).1.formulas = b.formulas ++ (b.addAll l).2 := by
  induction l generalizing b with
  | nil => simp [addAll]
  | cons s rest ih =>
    by_cases hs : s ∈ b
    · simp [addAll, ih, hs, add_of_mem]
    · simp [addAll, ih, hs, formulas_add_of_not_mem]

theorem foldl_add_of_mem {l : List Signed} (h : ∀ s ∈ l, s ∈ b) : l.foldl add b = b := by
  induction l with
  | nil => rfl
  | cons s rest ih =>
    rw [List.foldl_cons, add_of_mem (h s (by simp))]
    exact ih fun t ht => h t (by simp [ht])

theorem mem_foldl_add {l : List Signed} : x ∈ l.foldl add b ↔ x ∈ l ∨ x ∈ b := by
  induction l generalizing b with
  | nil => simp
  | cons s rest ih =>
    rw [List.foldl_cons, ih, mem_add, List.mem_cons]
    constructor
    · rintro (h | h | h)
      · exact .inl (.inr h)
      · exact .inl (.inl h)
      · exact .inr h
    · rintro ((h | h) | h)
      · exact .inr (.inl h)
      · exact .inl h
      · exact .inr (.inr h)

theorem entry_of_mem_foldl_add {l : List Signed} (h : e ∈ (l.foldl add b).entries) :
    e ∈ b.entries ∨ ∃ s ∈ l, s ∉ b ∧ e = .ofSigned s := by
  induction l generalizing b with
  | nil => exact .inl h
  | cons s rest ih =>
    rcases ih h with h | ⟨x, hx, hb, rfl⟩
    · rcases entry_of_mem_add h with h | ⟨hs, rfl⟩
      · exact .inl h
      · exact .inr ⟨s, by simp, hs, rfl⟩
    · exact .inr ⟨x, by simp [hx], fun h => hb (mem_add.mpr (.inr h)), rfl⟩

theorem mem_entries_foldl_add {l : List Signed} (h : e ∈ b.entries) :
    e ∈ (l.foldl add b).entries := by
  induction l generalizing b with
  | nil => exact h
  | cons s rest ih => exact ih (mem_entries_add h)

theorem mem_worlds_foldl_add {l : List Signed} (h : w ∈ (l.foldl add b).worlds) :
    w ∈ b.worlds ∨ ∃ s ∈ l, w = s.world := by
  induction l generalizing b with
  | nil => exact .inl h
  | cons s rest ih =>
    rcases ih h with h | ⟨x, hx, rfl⟩
    · rcases mem_worlds_add h with rfl | h
      · exact .inr ⟨s, by simp, rfl⟩
      · exact .inl h
    · exact .inr ⟨x, by simp [hx], rfl⟩

@[simp] theorem edges_foldl_add {l : List Signed} : (l.foldl add b).edges = b.edges := by
  induction l generalizing b with
  | nil => rfl
  | cons s rest ih => simp [ih]

@[simp] theorem reused_foldl_add {l : List Signed} : (l.foldl add b).reused = b.reused := by
  induction l generalizing b with
  | nil => rfl
  | cons s rest ih => simp [ih]

-- ---------------------------------------------------------------------------
-- Adding edges and worlds
-- ---------------------------------------------------------------------------

@[simp] theorem mem_addEdge : s ∈ b.addEdge d ↔ s ∈ b := Iff.rfl

@[simp] theorem mem_edges_addEdge {d' : Edge} :
    d' ∈ (b.addEdge d).edges ↔ d' = d ∨ d' ∈ b.edges := Ascending.mem_insert

theorem mem_worlds_addEdge :
    w ∈ (b.addEdge d).worlds ↔ w = d.target ∨ w = d.source ∨ w ∈ b.worlds := by
  simp [addEdge]

theorem lt_nextWorld (h : w ∈ b.worlds) : w < b.nextWorld :=
  Nat.lt_succ_of_le ((le_foldl_max _ _).2 w h)

theorem nextWorld_not_mem : b.nextWorld ∉ b.worlds := fun h => Nat.lt_irrefl _ (lt_nextWorld h)

theorem exists_nextWorld_eq (h : 0 ∈ b.worlds) : ∃ w ∈ b.worlds, b.nextWorld = w + 1 := by
  rcases foldl_max_mem b.worlds.toList 0 with hmax | hmax
  · exact ⟨0, h, by rw [nextWorld, hmax]⟩
  · exact ⟨_, hmax, rfl⟩

theorem nextWorld_unique {n : World} (below : ∀ w ∈ b.worlds, w < n)
    (top : ∃ w ∈ b.worlds, n = w + 1) : b.nextWorld = n := by
  obtain ⟨w, hw, rfl⟩ := top
  have hle : w ≤ b.worlds.toList.foldl max 0 := (le_foldl_max _ _).2 w hw
  rcases foldl_max_mem b.worlds.toList 0 with hmax | hmax
  · rw [hmax] at hle
    rw [nextWorld, hmax, Nat.eq_zero_of_le_zero hle]
  · exact congrArg (· + 1) (Nat.le_antisymm (Nat.le_of_lt_succ (below _ hmax)) hle)

/-- What holds at the start and survives every addition holds of a branch made from parts. -/
theorem ofParts_induction {P : Branch → Prop} (start : P empty) (addition : ∀ b s, P b → P (b.add s))
    (connection : ∀ b d, P b → P (b.addEdge d)) (formulas : List Signed) (edges : List Edge) :
    P (ofParts formulas edges) := by
  have hf : P (formulas.foldl add empty) :=
    List.foldlRecOn formulas add start fun b hb s _ => addition b s hb
  exact List.foldlRecOn edges addEdge hf fun b hb d _ => connection b d hb

-- ---------------------------------------------------------------------------
-- Growing
-- ---------------------------------------------------------------------------

/-- `b'` has all that `b` has, and new formulas stand behind the old ones. -/
structure Grows (b b' : Branch) : Prop where
  formulas : b.formulas <+: b'.formulas
  worlds : ∀ w ∈ b.worlds, w ∈ b'.worlds
  edges : ∀ d ∈ b.edges, d ∈ b'.edges

theorem Grows.refl (b : Branch) : b.Grows b := ⟨List.prefix_rfl, fun _ h => h, fun _ h => h⟩

theorem Grows.trans (h : b.Grows b') (h' : b'.Grows b'') : b.Grows b'' :=
  ⟨h.formulas.trans h'.formulas, fun w hw => h'.worlds w (h.worlds w hw),
    fun d hd => h'.edges d (h.edges d hd)⟩

theorem Grows.mem (h : b.Grows b') (hs : s ∈ b) : s ∈ b' := h.formulas.subset hs

theorem grows_add (b : Branch) (s : Signed) : b.Grows (b.add s) := by
  by_cases h : s ∈ b
  · rw [add_of_mem h]
    exact .refl b
  · refine ⟨?_, fun w hw => ?_, fun d hd => by simpa using hd⟩
    · rw [formulas_add_of_not_mem h]
      exact List.prefix_append _ _
    · rw [add_of_not_mem h]
      exact Ascending.mem_insert.mpr (.inr hw)

theorem grows_foldl_add (b : Branch) (l : List Signed) : b.Grows (l.foldl add b) := by
  induction l generalizing b with
  | nil => exact .refl b
  | cons s rest ih => exact (grows_add b s).trans (ih (b.add s))

theorem grows_addEdge (b : Branch) (d : Edge) : b.Grows (b.addEdge d) :=
  ⟨List.prefix_rfl, fun _ hw => mem_worlds_addEdge.mpr (.inr (.inr hw)),
    fun _ hd => mem_edges_addEdge.mpr (.inr hd)⟩

theorem grows_addWorld (b : Branch) : b.Grows b.addWorld :=
  ⟨List.prefix_rfl, fun _ hw => Ascending.mem_insert.mpr (.inr hw), fun _ hd => hd⟩

-- ---------------------------------------------------------------------------
-- Tidiness
-- ---------------------------------------------------------------------------

structure Tidy (b : Branch) : Prop where
  nodup : b.formulas.Nodup
  world_mem : ∀ s ∈ b, s.world ∈ b.worlds
  source_mem : ∀ d ∈ b.edges, d.source ∈ b.worlds
  target_mem : ∀ d ∈ b.edges, d.target ∈ b.worlds
  reused_mem : ∀ d ∈ b.reused, d ∈ b.edges
  consistent : b.clash = none → ∀ s ∈ b, s.conjugate ∉ b
  clashing : ∀ c, b.clash = some c → c ∈ b ∧ c.conjugate ∈ b
  clash_sign : ∀ c, b.clash = some c → c.sign = .T

theorem tidy_empty : Tidy empty := by
  constructor <;> simp [empty, formulas, mem_iff_formulas]

theorem Tidy.clash_eq_none_iff (h : b.Tidy) : b.clash = none ↔ ∀ s ∈ b, s.conjugate ∉ b := by
  constructor
  · exact h.consistent
  · intro hcon
    cases hc : b.clash with
    | none => rfl
    | some c =>
      obtain ⟨hmem, hmem'⟩ := h.clashing c hc
      exact absurd hmem' (hcon c hmem)

theorem clash_add_eq_none (hs : s ∉ b) :
    (b.add s).clash = none ↔ b.clash = none ∧ s.conjugate ∉ b := by
  cases hb : b.clash <;> simp [add_of_not_mem hs, hb, clashWith?]

theorem clash_add_eq_some {c : Signed} (hs : s ∉ b) : (b.add s).clash = some c ↔
    b.clash = some c ∨ b.clash = none ∧ s.conjugate ∈ b ∧ { s with sign := .T } = c := by
  cases hb : b.clash <;> simp [add_of_not_mem hs, hb, clashWith?]

theorem Tidy.consistent_add (h : b.Tidy) (hs : s ∉ b) (hc : (b.add s).clash = none) :
    ∀ x ∈ b.add s, x.conjugate ∉ b.add s := by
  obtain ⟨hb, hns⟩ := (clash_add_eq_none hs).mp hc
  intro x hx hx'
  -- A new pair would have `s` on one of its sides.
  rcases mem_add.mp hx with rfl | hx <;> rcases mem_add.mp hx' with hx' | hx'
  · exact x.conjugate_ne hx'
  · exact hns hx'
  · exact hns (by simpa [← hx'] using hx)
  · exact h.consistent hb x hx hx'

theorem Tidy.clashing_add {c : Signed} (h : b.Tidy) (hs : s ∉ b) (hc : (b.add s).clash = some c) :
    c ∈ b.add s ∧ c.conjugate ∈ b.add s := by
  have hg := grows_add b s
  rcases (clash_add_eq_some hs).mp hc with hb | ⟨-, hcon, rfl⟩
  · exact ⟨hg.mem (h.clashing c hb).1, hg.mem (h.clashing c hb).2⟩
  · rcases s.true_side with ht | ht <;> rw [ht]
    · exact ⟨mem_add_self, hg.mem hcon⟩
    · rw [Signed.conjugate_conjugate]
      exact ⟨hg.mem hcon, mem_add_self⟩

theorem Tidy.add (h : b.Tidy) (s : Signed) : (b.add s).Tidy := by
  by_cases hs : s ∈ b
  · rwa [add_of_mem hs]
  have hg := grows_add b s
  refine ⟨?_, fun x hx => ?_, fun d hd => ?_, fun d hd => ?_, fun d hd => ?_, h.consistent_add hs,
    fun c => h.clashing_add hs, fun c hc => ?_⟩
  · rw [formulas_add_of_not_mem hs]
    refine List.nodup_append.mpr ⟨h.nodup, by simp, ?_⟩
    rintro x hx y hy rfl
    exact hs (List.mem_singleton.mp hy ▸ hx)
  · rcases mem_add.mp hx with rfl | hx
    · rw [add_of_not_mem hs]
      exact Ascending.mem_insert.mpr (.inl rfl)
    · exact hg.worlds _ (h.world_mem x hx)
  · exact hg.worlds _ (h.source_mem d (by simpa using hd))
  · exact hg.worlds _ (h.target_mem d (by simpa using hd))
  · exact hg.edges d (h.reused_mem d (by simpa using hd))
  · rcases (clash_add_eq_some hs).mp hc with hb | ⟨-, -, rfl⟩
    · exact h.clash_sign c hb
    · rfl

theorem Tidy.foldl_add (h : b.Tidy) (l : List Signed) : (l.foldl Branch.add b).Tidy := by
  induction l generalizing b with
  | nil => exact h
  | cons s rest ih => exact ih (h.add s)

theorem Tidy.addEdge (h : b.Tidy) (d : Edge) : (b.addEdge d).Tidy := by
  refine ⟨h.nodup, fun s hs => ?_, fun d' hd => ?_, fun d' hd => ?_, fun d' hd => ?_, h.consistent,
    h.clashing, h.clash_sign⟩
  · exact mem_worlds_addEdge.mpr (.inr (.inr (h.world_mem s hs)))
  · rcases mem_edges_addEdge.mp hd with rfl | hd
    · exact mem_worlds_addEdge.mpr (.inr (.inl rfl))
    · exact mem_worlds_addEdge.mpr (.inr (.inr (h.source_mem d' hd)))
  · rcases mem_edges_addEdge.mp hd with rfl | hd
    · exact mem_worlds_addEdge.mpr (.inl rfl)
    · exact mem_worlds_addEdge.mpr (.inr (.inr (h.target_mem d' hd)))
  · exact mem_edges_addEdge.mpr (.inr (h.reused_mem d' hd))

theorem Tidy.addWorld (h : b.Tidy) : b.addWorld.Tidy := by
  have hg := grows_addWorld b
  exact ⟨h.nodup, fun s hs => hg.worlds _ (h.world_mem s hs),
    fun d hd => hg.worlds _ (h.source_mem d hd), fun d hd => hg.worlds _ (h.target_mem d hd),
    h.reused_mem, h.consistent, h.clashing, h.clash_sign⟩

theorem tidy_ofParts (formulas : List Signed) (edges : List Edge) : (ofParts formulas edges).Tidy :=
  ofParts_induction tidy_empty (fun _ s h => h.add s) (fun _ d h => h.addEdge d) formulas edges

end Branch
end ModalTableau
