/-!
# Facts used throughout

Results that may fail, and lists.
-/

namespace ModalTableau

-- ---------------------------------------------------------------------------
-- Results that may fail
-- ---------------------------------------------------------------------------

section

variable {ε ε' α β : Type} {x : Except ε α} {e : ε} {a : α} {c : β}

theorem bind_ok {f : α → Except ε β} : x >>= f = .ok c ↔ ∃ a, x = .ok a ∧ f a = .ok c := by
  cases x <;> simp [bind, Except.bind]

theorem bind_error {f : α → Except ε β} :
    x >>= f = .error e ↔ x = .error e ∨ ∃ a, x = .ok a ∧ f a = .error e := by
  cases x <;> simp [bind, Except.bind]

theorem map_ok {f : α → β} : x.map f = .ok c ↔ ∃ a, x = .ok a ∧ f a = c := by
  cases x <;> simp [Except.map]

theorem map_error {f : α → β} : x.map f = .error e ↔ x = .error e := by
  cases x <;> simp [Except.map]

theorem mapError_ok {g : ε → ε'} : x.mapError g = .ok a ↔ x = .ok a := by
  cases x with
  | error e => exact ⟨nofun, nofun⟩
  | ok b =>
    exact ⟨fun h => congrArg Except.ok (Except.ok.inj h), fun h => congrArg Except.ok (Except.ok.inj h)⟩

theorem ok_iff_of_map {y : Except ε β} {f : α → Option β} (h : x.map f = y.map some) :
    y = .ok c ↔ ∃ a, x = .ok a ∧ f a = some c := by
  rw [← map_ok, h, map_ok]
  constructor
  · intro hy
    exact ⟨c, hy, rfl⟩
  · rintro ⟨b, hy, heq⟩
    rw [hy, Option.some.inj heq]

theorem toOption_bind (x : Except ε α) (g : α → Except ε β) :
    (x >>= g).toOption = x.toOption.bind fun a => (g a).toOption := by
  cases x <;> rfl

theorem toOption_map (x : Except ε α) (g : α → β) : (x.map g).toOption = x.toOption.map g := by
  cases x <;> rfl

theorem toOption_eq_some : x.toOption = some a ↔ x = .ok a := by
  cases x <;> simp [Except.toOption]

theorem ok_of_toOption {f : α → β} (h : x.toOption.map f = some c) : ∃ a, x = .ok a ∧ f a = c := by
  cases x with
  | error => simp [Except.toOption] at h
  | ok a => exact ⟨a, rfl, by simpa [Except.toOption] using h⟩

end

-- ---------------------------------------------------------------------------
-- Lists
-- ---------------------------------------------------------------------------

theorem le_foldl_max (l : List Nat) (n : Nat) : n ≤ l.foldl max n ∧ ∀ m ∈ l, m ≤ l.foldl max n := by
  induction l generalizing n with
  | nil => simp
  | cons k rest ih =>
    obtain ⟨hk, hrest⟩ := ih (max n k)
    simp only [List.foldl_cons, List.mem_cons, forall_eq_or_imp]
    exact ⟨by omega, by omega, hrest⟩

theorem foldl_max_mem (l : List Nat) (n : Nat) : l.foldl max n = n ∨ l.foldl max n ∈ l := by
  induction l generalizing n with
  | nil => exact .inl rfl
  | cons k rest ih =>
    rw [List.foldl_cons]
    rcases ih (max n k) with h | h
    · rw [h]
      grind
    · exact .inr (List.mem_cons_of_mem _ h)

section

variable {α : Type} {l : List α} {a b : α} {m : Nat}

theorem all_congr_of_mem {p q : α → Bool} (h : ∀ a ∈ l, p a = q a) : l.all p = l.all q := by
  induction l with
  | nil => rfl
  | cons a l ih =>
    obtain ⟨ha, hl⟩ := List.forall_mem_cons.mp h
    rw [List.all_cons, List.all_cons, ha, ih hl]

theorem getElem?_concat_of_ne (h : m ≠ l.length) : (l ++ [a])[m]? = l[m]? := by
  rcases Nat.lt_or_gt_of_ne h with h | h
  · exact List.getElem?_append_left h
  · have hpast : (l ++ [a]).length ≤ m := List.length_append ▸ h
    rw [List.getElem?_eq_none hpast, List.getElem?_eq_none (Nat.le_of_lt h)]

theorem getElem?_concat_eq_some :
    (l ++ [a])[m]? = some b ↔ l[m]? = some b ∨ m = l.length ∧ a = b := by
  by_cases h : m = l.length
  · simp [h]
  · simp [getElem?_concat_of_ne h, h]

end

end ModalTableau
