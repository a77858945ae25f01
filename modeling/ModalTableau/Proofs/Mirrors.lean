import Mathlib.Data.List.Forall2
import Mathlib.Data.List.Perm.Subperm
import Mathlib.Logic.Function.Basic
import ModalTableau.Proofs.Frontier
import ModalTableau.Proofs.WorldTree

/-!
# A branch inside a larger one

`Mirrors` compares a branch `b` with a branch `c` that has more worlds. Every world `w` of `b` has its
original `up w` on `c`, where the same is said in the same order and the same rules have been used;
every world `x` of `c` lies over a world `down x` of `b` and says nothing that is not said there. What
is said at the worlds of `c` that are no originals has been said at an original before.
-/

namespace ModalTableau

namespace Signed

variable {m m' : World → World} {s : Signed}

def moved (m : World → World) (s : Signed) : Signed := { s with world := m s.world }

@[simp] theorem world_moved : (s.moved m).world = m s.world := rfl

@[simp] theorem moved_moved : (s.moved m).moved m' = s.moved (m' ∘ m) := rfl

theorem moved_congr (h : m s.world = m' s.world) : s.moved m = s.moved m' := by
  rw [moved, h, moved]

theorem moved_eq_self (h : m s.world = s.world) : s.moved m = s := by
  rw [moved, h]

end Signed

namespace Expansion

variable {m : World → World} {x : Expansion} {sign : Sign} {f : Formula}

def moved (m : World → World) : Expansion → Expansion
  | alpha cs => alpha (cs.map (·.moved m))
  | beta l r => beta (l.moved m) (r.moved m)
  | someSuccessor sign f => someSuccessor sign f
  | everySuccessor sign f => everySuccessor sign f

@[simp] theorem moved_eq_someSuccessor :
    x.moved m = .someSuccessor sign f ↔ x = .someSuccessor sign f := by
  cases x <;> simp [moved]

@[simp] theorem moved_eq_everySuccessor :
    x.moved m = .everySuccessor sign f ↔ x = .everySuccessor sign f := by
  cases x <;> simp [moved]

end Expansion

namespace Signed

variable {m : World → World} {s left right : Signed} {rule : Rule} {x : Expansion} {sign : Sign}
  {f : Formula}

theorem expand_moved (m : World → World) (s : Signed) :
    (s.moved m).expand = s.expand.map fun x => (x.1, x.2.moved m) := by
  obtain ⟨w, sign, f⟩ := s
  cases f <;> cases sign <;> rfl

theorem expansion?_moved (m : World → World) (s : Signed) :
    (s.moved m).expansion? = s.expansion?.map (·.moved m) := by
  obtain ⟨w, sign, f⟩ := s
  cases f <;> cases sign <;> rfl

theorem expand_moved_eq_some : (s.moved m).expand = some (rule, x) ↔
    ∃ y, s.expand = some (rule, y) ∧ y.moved m = x := by
  simp [expand_moved]

theorem alpha_of_moved {cs : List Signed} (h : (s.moved m).expand = some (rule, .alpha cs)) :
    ∃ cs', s.expand = some (rule, .alpha cs') := by
  obtain ⟨y, hy, heq⟩ := expand_moved_eq_some.mp h
  cases y <;> simp [Expansion.moved] at heq
  exact ⟨_, hy⟩

theorem beta_of_moved (h : (s.moved m).expand = some (rule, .beta left right)) :
    ∃ left' right', s.expand = some (rule, .beta left' right') ∧ left = left'.moved m ∧
      right = right'.moved m := by
  obtain ⟨y, hy, heq⟩ := expand_moved_eq_some.mp h
  cases y <;> simp [Expansion.moved] at heq
  exact ⟨_, _, hy, heq.1.symm, heq.2.symm⟩

theorem someSuccessor_moved : (s.moved m).expand = some (rule, .someSuccessor sign f) ↔
    s.expand = some (rule, .someSuccessor sign f) := by
  simp [expand_moved_eq_some]

theorem everySuccessor_moved : (s.moved m).expand = some (rule, .everySuccessor sign f) ↔
    s.expand = some (rule, .everySuccessor sign f) := by
  simp [expand_moved_eq_some]

end Signed

-- ---------------------------------------------------------------------------
-- Lists
-- ---------------------------------------------------------------------------

section Lists

variable {α β : Type} {R S : α → β → Prop} {l l₁ l₂ : List α} {m m₁ m₂ : List β} {x x' : α} {y y' : β}

theorem exists_right_of_forall₂ (h : List.Forall₂ R l m) (hx : x ∈ l) : ∃ y ∈ m, R x y := by
  induction h with
  | nil => simp at hx
  | @cons a b l m hab _ ih =>
    rcases List.mem_cons.mp hx with rfl | hx
    · exact ⟨b, by simp, hab⟩
    · obtain ⟨y, hy, hxy⟩ := ih hx
      exact ⟨y, by simp [hy], hxy⟩

theorem exists_left_of_forall₂ (h : List.Forall₂ R l m) (hy : y ∈ m) : ∃ x ∈ l, R x y :=
  exists_right_of_forall₂ h.flip hy

theorem forall₂_of_mem (h : List.Forall₂ R l m) (hS : ∀ x ∈ l, ∀ y ∈ m, R x y → S x y) :
    List.Forall₂ S l m := by
  induction h with
  | nil => exact .nil
  | cons hab _ ih =>
    refine .cons (hS _ (by simp) _ (by simp) hab) (ih fun x hx y hy => ?_)
    exact hS x (by simp [hx]) y (by simp [hy])

theorem split_of_forall₂ (h : List.Forall₂ R l (m₁ ++ y :: m₂)) : ∃ l₁ x l₂, l = l₁ ++ x :: l₂ ∧
    List.Forall₂ R l₁ m₁ ∧ R x y ∧ List.Forall₂ R l₂ m₂ := by
  induction m₁ generalizing l with
  | nil =>
    obtain ⟨x, l₂, hxy, h₂, rfl⟩ := List.forall₂_cons_right_iff.mp h
    exact ⟨[], x, l₂, rfl, .nil, hxy, h₂⟩
  | cons z m₁ ih =>
    obtain ⟨a, rest, haz, hrest, rfl⟩ := List.forall₂_cons_right_iff.mp h
    obtain ⟨l₁, x, l₂, rfl, h₁, hxy, h₂⟩ := ih hrest
    exact ⟨a :: l₁, x, l₂, rfl, .cons haz h₁, hxy, h₂⟩

theorem forall₂_append_cons (h₁ : List.Forall₂ R l₁ m₁) (h : R x y) (h₂ : List.Forall₂ R l₂ m₂) :
    List.Forall₂ R (l₁ ++ x :: l₂) (m₁ ++ y :: m₂) :=
  List.rel_append h₁ (.cons h h₂)

theorem replace_right_of_forall₂ (h : List.Forall₂ R l (m₁ ++ y :: m₂))
    (hy : ∀ x ∈ l, R x y → R x y') : List.Forall₂ R l (m₁ ++ y' :: m₂) := by
  obtain ⟨l₁, x, l₂, rfl, h₁, hxy, h₂⟩ := split_of_forall₂ h
  exact forall₂_append_cons h₁ (hy x (by simp) hxy) h₂

theorem replace_left_of_forall₂ (h : List.Forall₂ R (l₁ ++ x :: l₂) m)
    (hx : ∀ y ∈ m, R x y → R x' y) : List.Forall₂ R (l₁ ++ x' :: l₂) m :=
  (replace_right_of_forall₂ h.flip hx).flip

end Lists

namespace Branch

/-- Of every formula in the list, the same at the other world stands before it or is it. -/
def Heralded (m : World → World) (l : List Signed) : Prop :=
  ∀ l₁ s l₂, l = l₁ ++ s :: l₂ → s.moved m ∈ l₁ ++ [s]

theorem Heralded.concat {m : World → World} {l : List Signed} {t : Signed} (h : Heralded m l)
    (ht : t.moved m ∈ l ++ [t]) : Heralded m (l ++ [t]) := by
  intro l₁ s l₂ heq
  rcases List.eq_nil_or_concat l₂ with rfl | ⟨l₂, s', rfl⟩
  · obtain ⟨rfl, rfl⟩ : l = l₁ ∧ t = s := by simpa using heq
    exact ht
  · have hsplit : l ++ [t] = (l₁ ++ s :: l₂) ++ [s'] := by simpa using heq
    exact h l₁ s l₂ (List.append_inj' hsplit rfl).1

theorem Heralded.congr {m m' : World → World} {l : List Signed} (h : Heralded m l)
    (hm : ∀ s ∈ l, m' s.world = m s.world) : Heralded m' l := by
  rintro l₁ s l₂ rfl
  rw [Signed.moved_congr (hm s (by simp))]
  exact h l₁ s l₂ rfl

/-- The two entries record the same about the same formula. Which successors have been reached may
differ, but each on the left has one over it on the right. `W` is what else is said of the two. -/
structure Twin (W : Entry → Entry → Prop) (up down : World → World) (e e' : Entry) : Prop where
  signed : e'.signed = e.signed.moved up
  used : e'.used = e.used
  reached : ∀ v ∈ e.reached, ∃ x ∈ e'.reached, down x = v
  waits : W e e'

def isOriginal (up down : World → World) (e : Entry) : Bool :=
  up (down e.signed.world) = e.signed.world

structure Mirrors (W : Entry → Entry → Prop) (up down : World → World) (b c : Branch) : Prop where
  home : ∀ w ∈ b.worlds, up w ∈ c.worlds ∧ down (up w) = w
  below : ∀ x ∈ c.worlds, down x ∈ b.worlds
  images : ∀ s ∈ c, s.moved down ∈ b
  edges : ∀ d ∈ c.edges, ⟨down d.source, down d.target⟩ ∈ b.edges
  links : ∀ d ∈ b.edges, ∃ x, ⟨up d.source, x⟩ ∈ c.edges ∧ down x = d.target
  entries : List.Forall₂ (Twin W up down) b.entries (c.entries.filter (isOriginal up down))
  heralded : Heralded (up ∘ down) c.formulas

variable {W W' : Entry → Entry → Prop} {up down : World → World} {b b' c c' : Branch} {s : Signed}
  {e e' e₁ e₁' : Entry} {v w x : World} {l : List Signed} {sign : Sign} {f : Formula}

namespace Mirrors

theorem twin_right (h : Mirrors W up down b c) (he : e ∈ b.entries) :
    ∃ e' ∈ c.entries, isOriginal up down e' ∧ Twin W up down e e' := by
  obtain ⟨e', he', ht⟩ := exists_right_of_forall₂ h.entries he
  exact ⟨e', (List.mem_filter.mp he').1, (List.mem_filter.mp he').2, ht⟩

theorem twin_left (h : Mirrors W up down b c) (he : e' ∈ c.entries) (ho : isOriginal up down e') :
    ∃ e ∈ b.entries, Twin W up down e e' :=
  exists_left_of_forall₂ h.entries (List.mem_filter.mpr ⟨he, ho⟩)

theorem moved_mem (h : Mirrors W up down b c) (hs : s ∈ b) : s.moved up ∈ c := by
  obtain ⟨e, he, rfl⟩ := mem_iff_entry.mp hs
  obtain ⟨e', he', -, ht⟩ := h.twin_right he
  exact ht.signed ▸ signed_mem he'

theorem moved_mem_iff (h : Mirrors W up down b c) (hw : s.world ∈ b.worlds) :
    s.moved up ∈ c ↔ s ∈ b := by
  refine ⟨fun hs => ?_, h.moved_mem⟩
  have hdown : (down ∘ up) s.world = s.world := (h.home _ hw).2
  simpa [Signed.moved_eq_self hdown] using h.images _ hs

theorem of_entries (h : Mirrors W up down b c) (hb : b'.formulas = b.formulas)
    (hbw : b'.worlds = b.worlds) (hbe : b'.edges = b.edges) (hc : c'.formulas = c.formulas)
    (hcw : c'.worlds = c.worlds) (hce : c'.edges = c.edges)
    (entries : List.Forall₂ (Twin W' up down) b'.entries
      (c'.entries.filter (isOriginal up down))) : Mirrors W' up down b' c' := by
  refine ⟨hbw ▸ hcw ▸ h.home, hbw ▸ hcw ▸ h.below, fun s hs => ?_, hbe ▸ hce ▸ h.edges,
    hbe ▸ hce ▸ h.links, entries, hc ▸ h.heralded⟩
  rw [mem_iff_formulas, hb]
  exact h.images s (by rwa [mem_iff_formulas, ← hc])

theorem add (h : Mirrors W up down b c) (hw : s.world ∈ b.worlds)
    (hW : W (.ofSigned s) (.ofSigned (s.moved up))) :
    Mirrors W up down (b.add s) (c.add (s.moved up)) := by
  by_cases hs : s ∈ b
  · rwa [add_of_mem hs, add_of_mem (h.moved_mem hs)]
  have hs' : s.moved up ∉ c := fun hm => hs ((h.moved_mem_iff hw).mp hm)
  obtain ⟨hup, hdown⟩ := h.home _ hw
  refine ⟨fun w hw' => ?_, fun x hx => ?_, fun t ht => ?_, ?_, ?_, ?_, ?_⟩
  · have hwb : w ∈ b.worlds := (mem_worlds_add hw').elim (fun heq => heq ▸ hw) id
    exact ⟨(grows_add _ _).worlds _ (h.home w hwb).1, (h.home w hwb).2⟩
  · refine (grows_add _ _).worlds _ ?_
    rcases mem_worlds_add hx with rfl | hx
    · exact hdown.symm ▸ hw
    · exact h.below x hx
  · rcases mem_add.mp ht with rfl | ht
    · exact mem_add.mpr (.inl (Signed.moved_eq_self (m := down ∘ up) hdown))
    · exact mem_add.mpr (.inr (h.images t ht))
  · simpa using h.edges
  · simpa using h.links
  · have ho : isOriginal up down (.ofSigned (s.moved up)) := by
      simp [isOriginal, Entry.ofSigned, hdown]
    rw [add_of_not_mem hs, add_of_not_mem hs', List.filter_append, List.filter_singleton, ho]
    exact List.rel_append h.entries (.cons ⟨rfl, rfl, by simp [Entry.ofSigned], hW⟩ .nil)
  · rw [formulas_add_of_not_mem hs']
    refine h.heralded.concat (List.mem_append_right _ (List.mem_singleton.mpr ?_))
    exact Signed.moved_eq_self (by simp [hdown])

theorem foldl_add (h : Mirrors W up down b c) (hl : ∀ s ∈ l, s.world ∈ b.worlds ∧
    W (.ofSigned s) (.ofSigned (s.moved up))) :
    Mirrors W up down (l.foldl Branch.add b) ((l.map (·.moved up)).foldl Branch.add c) := by
  induction l generalizing b c with
  | nil => exact h
  | cons s rest ih =>
    obtain ⟨hw, hW⟩ := hl s (by simp)
    refine ih (h.add hw hW) fun t ht => ?_
    exact ⟨(grows_add _ _).worlds _ (hl t (by simp [ht])).1, (hl t (by simp [ht])).2⟩

/-- What has been said at a world is repeated over it. -/
theorem add_copy (h : Mirrors W up down b c) (ht : b.Tidy) (hs : s.moved down ∈ b) :
    Mirrors W up down b (c.add s) := by
  by_cases hsc : s ∈ c
  · rwa [add_of_mem hsc]
  have hnew : s.moved (up ∘ down) ∈ c := h.moved_mem hs
  have ho : isOriginal up down (.ofSigned s) = false := by
    refine decide_eq_false fun heq => hsc ?_
    rwa [Signed.moved_eq_self (s := s) heq] at hnew
  refine ⟨fun w hw => ?_, fun x hx => ?_, fun t ht => ?_, by simpa using h.edges,
    by simpa using h.links, ?_, ?_⟩
  · exact ⟨(grows_add _ _).worlds _ (h.home w hw).1, (h.home w hw).2⟩
  · rcases mem_worlds_add hx with rfl | hx
    · exact ht.world_mem _ hs
    · exact h.below x hx
  · rcases mem_add.mp ht with rfl | ht
    · exact hs
    · exact h.images t ht
  · rw [add_of_not_mem hsc, List.filter_append, List.filter_singleton, ho]
    simpa using h.entries
  · rw [formulas_add_of_not_mem hsc]
    exact h.heralded.concat (List.mem_append_left _ hnew)

theorem foldl_add_copy (h : Mirrors W up down b c) (ht : b.Tidy) (hl : ∀ s ∈ l, s.moved down ∈ b) :
    Mirrors W up down b (l.foldl Branch.add c) := by
  induction l generalizing c with
  | nil => exact h
  | cons s rest ih =>
    exact ih (h.add_copy ht (hl s (by simp))) fun t ht => hl t (by simp [ht])

-- ---------------------------------------------------------------------------
-- Records
-- ---------------------------------------------------------------------------

theorem weaken (h : Mirrors W up down b c) : Mirrors (fun _ _ => True) up down b c := by
  refine h.of_entries rfl rfl rfl rfl rfl rfl (h.entries.imp fun e e' ht => ?_)
  exact ⟨ht.signed, ht.used, ht.reached, trivial⟩

theorem mark_left (h : Mirrors W up down b c) (hm : Marked b e e' b')
    (keeps : ∀ y ∈ c.entries, Twin W up down e y → Twin W up down e' y) :
    Mirrors W up down b' c := by
  refine h.of_entries hm.formulas_eq hm.worlds_eq hm.edges_eq rfl rfl rfl ?_
  obtain ⟨l₁, l₂, he, -⟩ := hm
  have hentries := h.entries
  rw [he] at hentries
  exact replace_left_of_forall₂ hentries fun y hy => keeps y (List.mem_filter.mp hy).1

theorem mark_right (h : Mirrors W up down b c) (hm : Marked c e e' c')
    (keeps : ∀ x ∈ b.entries, Twin W up down x e → Twin W up down x e') :
    Mirrors W up down b c' := by
  refine h.of_entries rfl rfl rfl hm.formulas_eq hm.worlds_eq hm.edges_eq ?_
  have hsame : isOriginal up down e' = isOriginal up down e := by
    rw [isOriginal, hm.signed_eq, isOriginal]
  obtain ⟨l₁, l₂, he, -⟩ := hm
  have hentries := h.entries
  rw [he, List.filter_append] at hentries
  rw [List.filter_append]
  cases ho : isOriginal up down e with
  | true =>
    rw [List.filter_cons_of_pos ho] at hentries
    rw [List.filter_cons_of_pos (hsame.trans ho)]
    exact replace_right_of_forall₂ hentries keeps
  | false =>
    rw [List.filter_cons_of_neg (by simp [ho])] at hentries
    rwa [List.filter_cons_of_neg (by simp [hsame, ho])]

/-- An original in its place, with its twin in the same place among the entries on the left. -/
theorem split_original {k₁ k₂ : List Entry} (h : Mirrors W up down b c)
    (hc : c.entries = k₁ ++ e' :: k₂) (ho : isOriginal up down e') :
    ∃ l₁ e l₂, b.entries = l₁ ++ e :: l₂ ∧
      List.Forall₂ (Twin W up down) l₁ (k₁.filter (isOriginal up down)) ∧ Twin W up down e e' ∧
      List.Forall₂ (Twin W up down) l₂ (k₂.filter (isOriginal up down)) := by
  have hentries := h.entries
  rw [hc, List.filter_append, List.filter_cons_of_pos ho] at hentries
  exact split_of_forall₂ hentries

theorem mark_both {l₁ l₂ k₁ k₂ : List Entry} (h : Mirrors W up down b c)
    (hb : b.entries = l₁ ++ e :: l₂) (hc : c.entries = k₁ ++ e' :: k₂)
    (ho : isOriginal up down e')
    (h₁ : List.Forall₂ (Twin W up down) l₁ (k₁.filter (isOriginal up down)))
    (h₂ : List.Forall₂ (Twin W up down) l₂ (k₂.filter (isOriginal up down)))
    (ht : Twin W up down e₁ e₁') (hs : e₁.signed = e.signed) (hs' : e₁'.signed = e'.signed) :
    Mirrors W up down { b with entries := l₁ ++ e₁ :: l₂ }
      { c with entries := k₁ ++ e₁' :: k₂ } := by
  have ho' : isOriginal up down e₁' := by rw [isOriginal, hs', ← isOriginal, ho]
  refine h.of_entries ?_ rfl rfl ?_ rfl rfl ?_
  · simp [formulas, hb, hs]
  · simp [formulas, hc, hs']
  · rw [List.filter_append, List.filter_cons_of_pos ho']
    exact forall₂_append_cons h₁ ht h₂

-- ---------------------------------------------------------------------------
-- New worlds
-- ---------------------------------------------------------------------------

theorem entries_sprout (ht : c.Tidy) : (c.sprout w sign f).entries =
    c.entries ++ [.ofSigned ⟨c.nextWorld, sign, f⟩] := by
  have hnew : ⟨c.nextWorld, sign, f⟩ ∉ c.addEdge ⟨w, c.nextWorld⟩ := fun hm =>
    nextWorld_not_mem (ht.world_mem _ hm)
  rw [Branch.sprout, add_of_not_mem hnew]
  rfl

theorem formulas_sprout (ht : c.Tidy) : (c.sprout w sign f).formulas =
    c.formulas ++ [⟨c.nextWorld, sign, f⟩] := by
  simp [formulas, entries_sprout ht, Entry.ofSigned]

theorem congr {up' down' : World → World} (h : Mirrors W up down b c) (ht : b.Tidy) (ht' : c.Tidy)
    (hreached : c.Confined) (hup : ∀ u ∈ b.worlds, up' u = up u)
    (hdown : ∀ y ∈ c.worlds, down' y = down y)
    (hW : ∀ e ∈ b.entries, ∀ e' ∈ c.entries, Twin W up down e e' → W' e e') :
    Mirrors W' up' down' b c := by
  refine ⟨fun u hu => ?_, fun y hy => ?_, fun s hs => ?_, fun d hd => ?_, fun d hd => ?_, ?_, ?_⟩
  · obtain ⟨hmem, heq⟩ := h.home u hu
    rw [hup u hu, hdown _ hmem]
    exact ⟨hmem, heq⟩
  · rw [hdown y hy]
    exact h.below y hy
  · rw [Signed.moved_congr (hdown _ (ht'.world_mem s hs))]
    exact h.images s hs
  · rw [hdown _ (ht'.source_mem d hd), hdown _ (ht'.target_mem d hd)]
    exact h.edges d hd
  · obtain ⟨x, hx, heq⟩ := h.links d hd
    rw [hup _ (ht.source_mem d hd)]
    exact ⟨x, hx, (hdown _ (ht'.target_mem _ hx)).trans heq⟩
  · have hsame : ∀ e ∈ c.entries, isOriginal up' down' e = isOriginal up down e := fun e he => by
      have hworld := ht'.world_mem _ (signed_mem he)
      rw [isOriginal, hdown _ hworld, hup _ (h.below _ hworld), isOriginal]
    rw [List.filter_congr hsame]
    refine forall₂_of_mem h.entries fun e he e' he' htwin => ?_
    have he' := (List.mem_filter.mp he').1
    refine ⟨?_, htwin.used, fun u hu => ?_, hW e he e' he' htwin⟩
    · rw [Signed.moved_congr (hup _ (ht.world_mem _ (signed_mem he)))]
      exact htwin.signed
    · obtain ⟨y, hy, heq⟩ := htwin.reached u hu
      exact ⟨y, hy, (hdown y (hreached e' he' y hy)).trans heq⟩
  · refine h.heralded.congr fun s hs => ?_
    have hworld := ht'.world_mem s hs
    show up' (down' s.world) = up (down s.world)
    rw [hdown _ hworld, hup _ (h.below _ hworld)]

/-- A new world on the right, over one that is there. On the left there may be a new edge to that. -/
theorem copy (h : Mirrors W up down b c) (ht : b.Tidy) (ht' : c.Tidy)
    (hreached : c.Confined) (hw : w ∈ c.worlds)
    (hv : ⟨v, sign, f⟩ ∈ b) (hlink : ⟨down w, v⟩ ∈ b.edges ∨ up (down w) = w)
    (entries : b'.entries = b.entries) (worlds : ∀ u, u ∈ b'.worlds ↔ u ∈ b.worlds)
    (edges : ∀ d, d ∈ b'.edges ↔ d = ⟨down w, v⟩ ∨ d ∈ b.edges) :
    Mirrors W up (Function.update down c.nextWorld v) b' (c.sprout w sign f) := by
  have hold : ∀ y ∈ c.worlds, Function.update down c.nextWorld v y = down y := fun y hy =>
    Function.update_of_ne (fun heq => nextWorld_not_mem (heq ▸ hy)) _ _
  have hnew : Function.update down c.nextWorld v c.nextWorld = v := Function.update_self _ _ _
  have hmem : ∀ s, s ∈ b' ↔ s ∈ b := fun s => by rw [mem_iff_formulas, formulas, entries]; rfl
  have h' := h.congr ht ht' hreached (fun _ _ => rfl) hold fun _ _ _ _ htwin => htwin.waits
  refine ⟨fun u hu => ?_, fun y hy => ?_, fun s hs => ?_, fun d hd => ?_, fun d hd => ?_, ?_, ?_⟩
  · obtain ⟨hup, hdown⟩ := h'.home u ((worlds u).mp hu)
    exact ⟨(mem_worlds_sprout hw).mpr (.inr hup), hdown⟩
  · rw [worlds]
    rcases (mem_worlds_sprout hw).mp hy with rfl | hy
    · rw [hnew]
      exact ht.world_mem _ hv
    · exact h'.below y hy
  · rw [hmem]
    rcases mem_sprout.mp hs with rfl | hs
    · simpa [Signed.moved, hnew] using hv
    · exact h'.images s hs
  · rw [edges]
    rcases mem_edges_sprout.mp hd with rfl | hd
    · exact .inl (by rw [hold _ hw, hnew])
    · exact .inr (h'.edges d hd)
  · have hlinks : ∀ d ∈ b.edges, ∃ x, ⟨up d.source, x⟩ ∈ (c.sprout w sign f).edges ∧
        Function.update down c.nextWorld v x = d.target := fun d hd =>
      (h'.links d hd).imp fun x hx => ⟨mem_edges_sprout.mpr (.inr hx.1), hx.2⟩
    rcases (edges d).mp hd with rfl | hd
    · rcases hlink with hd | hup
      · exact hlinks _ hd
      · exact ⟨c.nextWorld, mem_edges_sprout.mpr (.inl (by rw [hup])), hnew⟩
    · exact hlinks d hd
  · have hcopy : isOriginal up (Function.update down c.nextWorld v)
        (.ofSigned ⟨c.nextWorld, sign, f⟩) = false := by
      refine decide_eq_false fun heq => nextWorld_not_mem (b := c) ?_
      simp only [Entry.ofSigned, hnew] at heq
      exact heq ▸ (h.home v (ht.world_mem _ hv)).1
    rw [entries, entries_sprout ht', List.filter_append, List.filter_cons_of_neg (by simp [hcopy]),
      List.filter_nil, List.append_nil]
    exact h'.entries
  · rw [formulas_sprout ht']
    refine h'.heralded.concat (List.mem_append_left _ ?_)
    have hup : (⟨v, sign, f⟩ : Signed).moved up ∈ c.formulas := h.moved_mem hv
    simpa [Signed.moved, hnew] using hup

theorem sprout (h : Mirrors W up down b c) (ht : b.Tidy) (ht' : c.Tidy)
    (hreached : c.Confined) (hw : w ∈ b.worlds)
    (old : ∀ e ∈ b.entries, ∀ e' ∈ c.entries, Twin W up down e e' → W' e e')
    (new : W' (.ofSigned ⟨b.nextWorld, sign, f⟩) (.ofSigned ⟨c.nextWorld, sign, f⟩)) :
    Mirrors W' (Function.update up b.nextWorld c.nextWorld)
      (Function.update down c.nextWorld b.nextWorld) (b.sprout w sign f)
      (c.sprout (up w) sign f) := by
  have hup : ∀ u ∈ b.worlds, Function.update up b.nextWorld c.nextWorld u = up u := fun u hu =>
    Function.update_of_ne (fun heq => nextWorld_not_mem (heq ▸ hu)) _ _
  have hdown : ∀ y ∈ c.worlds, Function.update down c.nextWorld b.nextWorld y = down y :=
    fun y hy => Function.update_of_ne (fun heq => nextWorld_not_mem (heq ▸ hy)) _ _
  obtain ⟨hw', hback⟩ := h.home w hw
  have h' := h.congr ht ht' hreached hup hdown old
  refine ⟨fun u hu => ?_, fun y hy => ?_, fun s hs => ?_, fun d hd => ?_, fun d hd => ?_, ?_, ?_⟩
  · rw [mem_worlds_sprout hw']
    rcases (mem_worlds_sprout hw).mp hu with rfl | hu
    · simp
    · exact ⟨.inr (h'.home u hu).1, (h'.home u hu).2⟩
  · rw [mem_worlds_sprout hw]
    rcases (mem_worlds_sprout hw').mp hy with rfl | hy
    · exact .inl (Function.update_self _ _ _)
    · exact .inr (h'.below y hy)
  · rw [mem_sprout]
    rcases mem_sprout.mp hs with rfl | hs
    · exact .inl (by simp [Signed.moved])
    · exact .inr (h'.images s hs)
  · rw [mem_edges_sprout]
    rcases mem_edges_sprout.mp hd with rfl | hd
    · exact .inl (by rw [hdown _ hw', hback, Function.update_self])
    · exact .inr (h'.edges d hd)
  · rcases mem_edges_sprout.mp hd with rfl | hd
    · exact ⟨c.nextWorld, mem_edges_sprout.mpr (.inl (by rw [hup w hw])), Function.update_self _ _ _⟩
    · exact (h'.links d hd).imp fun x hx => ⟨mem_edges_sprout.mpr (.inr hx.1), hx.2⟩
  · have horiginal : isOriginal (Function.update up b.nextWorld c.nextWorld)
        (Function.update down c.nextWorld b.nextWorld) (.ofSigned ⟨c.nextWorld, sign, f⟩) := by
      simp [isOriginal, Entry.ofSigned]
    rw [entries_sprout ht, entries_sprout ht', List.filter_append, List.filter_cons_of_pos horiginal,
      List.filter_nil]
    refine List.rel_append h'.entries (.cons ⟨?_, rfl, by simp [Entry.ofSigned], new⟩ .nil)
    simp [Entry.ofSigned, Signed.moved]
  · rw [formulas_sprout ht']
    exact h'.heralded.concat (List.mem_append_right _ (by simp [Signed.moved]))

-- ---------------------------------------------------------------------------
-- What is larger on the right
-- ---------------------------------------------------------------------------

theorem size_le_of_over {s t : Ascending World} (h : ∀ v ∈ s, ∃ x ∈ t, down x = v) :
    s.size ≤ t.size := by
  have hsub : s.toList ⊆ t.toList.map down := fun v hv => List.mem_map.mpr (h v hv)
  have hle := (List.subperm_of_subset s.nodup hsub).length_le
  rwa [List.length_map] at hle

theorem clash_eq_none (h : Mirrors W up down b c) (ht : b.Tidy) (ht' : c.Tidy)
    (hb : b.clash = none) : c.clash = none := by
  cases hc : c.clash with
  | none => rfl
  | some s =>
    obtain ⟨hs, hs'⟩ := ht'.clashing s hc
    exact absurd (h.images _ hs') (ht.consistent hb _ (h.images _ hs))

theorem worlds_size_le (h : Mirrors W up down b c) : b.worlds.size ≤ c.worlds.size :=
  size_le_of_over fun w hw => ⟨up w, h.home w hw⟩

theorem marks_le_of_twin (h : Twin W up down e e') : e.marks ≤ e'.marks := by
  rw [Entry.marks, Entry.marks, h.used]
  exact Nat.add_le_add_left (size_le_of_over h.reached) _

theorem marksIn_le {l k : List Entry}
    (h : List.Forall₂ (Twin W up down) l (k.filter (isOriginal up down))) :
    Entry.marksIn l ≤ Entry.marksIn k := by
  induction k generalizing l with
  | nil =>
    cases h
    exact Nat.le_refl _
  | cons e' k ih =>
    rw [List.filter_cons] at h
    split at h
    · cases h with
      | cons ht hrest => exact Nat.add_le_add (marks_le_of_twin ht) (ih hrest)
    · exact Nat.le_trans (ih h) (Nat.le_add_left _ _)

theorem marks_le (h : Mirrors W up down b c) : b.marks ≤ c.marks := marksIn_le h.entries

end Mirrors
end Branch
end ModalTableau
