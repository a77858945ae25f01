import Mathlib.Order.MinMax
import ModalTableau.Proofs.RoundTrip

/-!
# The canonical text of a formula

The derivation that a formula is written with is nested no deeper than any other derivation of it,
and has no more parentheses (`Formula.written_spares`). So the text of an accepted formula is
accepted again, and it has the fewest parentheses of all texts of the formula.
-/

namespace ModalTableau

namespace Derivation

variable {c c' c'' : Category}

theorem openings_fitted (d : Derivation c) (place : Category) :
    (d.fitted place).tokens.count .opening =
      d.tokens.count .opening + if c.least < place.least then 1 else 0 := by
  rw [tokens_fitted]
  split <;> simp

/-- The first derivation is nested no deeper than the second and has no more parentheses. -/
structure Spares (d : Derivation c) (e : Derivation c') : Prop where
  nesting : d.nesting ≤ e.nesting
  openings : d.tokens.count .opening ≤ e.tokens.count .opening

namespace Spares

theorem refl (d : Derivation c) : d.Spares d := ⟨Nat.le_refl _, Nat.le_refl _⟩

theorem trans {d : Derivation c} {d' : Derivation c'} {d'' : Derivation c''} (h : d.Spares d')
    (h' : d'.Spares d'') : d.Spares d'' :=
  ⟨Nat.le_trans h.nesting h'.nesting, Nat.le_trans h.openings h'.openings⟩

theorem widen {d : Derivation c} {e : Derivation c'} {e' : Derivation c''} (h : d.Spares e)
    (nesting : e.nesting = e'.nesting) (tokens : e.tokens = e'.tokens) : d.Spares e' :=
  ⟨nesting ▸ h.nesting, tokens ▸ h.openings⟩

theorem modified {d e : Derivation .unary} (m : Modifier) (h : d.Spares e) :
    (modified m d).Spares (modified m e) :=
  ⟨Nat.succ_le_succ h.nesting, by simpa using h.openings⟩

theorem paren {d e : Derivation .implication} (h : d.Spares e) : (paren d).Spares (paren e) :=
  ⟨Nat.succ_le_succ h.nesting, by simpa using h.openings⟩

theorem and {d d' : Derivation .conjunction} {e e' : Derivation .unary} (hd : d.Spares d')
    (he : e.Spares e') : (and d e).Spares (and d' e') where
  nesting := max_le_max hd.nesting he.nesting
  openings := by simpa using Nat.add_le_add hd.openings he.openings

theorem or {d d' : Derivation .disjunction} {e e' : Derivation .conjunction} (hd : d.Spares d')
    (he : e.Spares e') : (or d e).Spares (or d' e') where
  nesting := max_le_max hd.nesting he.nesting
  openings := by simpa using Nat.add_le_add hd.openings he.openings

theorem implies {d d' : Derivation .disjunction} {e e' : Derivation .implication} (hd : d.Spares d')
    (he : e.Spares e') : (implies d e).Spares (implies d' e') where
  nesting := max_le_max hd.nesting (Nat.succ_le_succ he.nesting)
  openings := by simpa using Nat.add_le_add hd.openings he.openings

/-- A looser place never asks for more. -/
theorem fitted (d : Derivation c) {place place' : Category} (h : place.least ≤ place'.least) :
    (d.fitted place).Spares (d.fitted place') := by
  constructor
  · rw [nesting_fitted, nesting_fitted]
    split <;> split <;> omega
  · rw [openings_fitted, openings_fitted]
    split <;> split <;> omega

/-- Every place asks for one pair of parentheses at most. -/
theorem fitted_paren (d : Derivation c) :
    (d.fitted .unary).Spares (Derivation.paren (d.fitted .implication)) := by
  constructor
  · rw [Derivation.nesting, nesting_fitted, nesting_fitted]
    split <;> omega
  · have hp : (Derivation.paren (d.fitted .implication)).tokens.count .opening =
        (d.fitted .implication).tokens.count .opening + 1 := by simp
    rw [hp, openings_fitted, openings_fitted]
    split <;> omega

end Spares
end Derivation

namespace Formula

variable {text : String} {f : Formula}

theorem written_eq_fitted (f : Formula) :
    ∃ (c : Category) (d : Derivation c), ∀ place, f.written place = d.fitted place := by
  cases f <;> exact ⟨_, _, fun _ => rfl⟩

theorem written_spares_written (f : Formula) {place place' : Category}
    (h : place.least ≤ place'.least) : (f.written place).Spares (f.written place') := by
  obtain ⟨c, d, hd⟩ := f.written_eq_fitted
  rw [hd, hd]
  exact .fitted d h

theorem written_spares_paren (f : Formula) :
    (f.written .unary).Spares (Derivation.paren (f.written .implication)) := by
  obtain ⟨c, d, hd⟩ := f.written_eq_fitted
  rw [hd, hd]
  exact .fitted_paren d

theorem written_spares {c : Category} (d : Derivation c) : (d.formula.written c).Spares d := by
  induction d with
  | atom name => exact .refl _
  | modified m d ih => cases m <;> exact ih.modified _
  | paren d ih => exact d.formula.written_spares_paren.trans ih.paren
  | unary d ih =>
    exact ((d.formula.written_spares_written (by decide)).trans ih).widen rfl rfl
  | conjunction d ih =>
    exact ((d.formula.written_spares_written (by decide)).trans ih).widen rfl rfl
  | disjunction d ih =>
    exact ((d.formula.written_spares_written (by decide)).trans ih).widen rfl rfl
  | and d e ihd ihe => exact ihd.and ihe
  | or d e ihd ihe => exact ihd.or ihe
  | implies d e ihd ihe => exact ihd.implies ihe

theorem exists_derivation_of_parse (h : parse text = .ok f) :
    ∃ d : Derivation .implication, d.formula = f ∧ d.nesting ≤ nestingLimit ∧
      text.toList.count '(' = d.tokens.count .opening ∧
      ∀ name ∈ f.atoms, Token.isName name.toList := by
  obtain ⟨lexemes, hs, -, hl⟩ := parse_eq_ok.mp h
  obtain ⟨d, tokens, rfl, shallow⟩ := ofLexemes_iff_derivation.mp hl
  have hscan := Lexeme.scans_of_scanFrom hs
  refine ⟨d, rfl, shallow, ?_, fun name hm => ?_⟩
  · rw [tokens]
    exact hscan.count_opening
  · exact hscan.isName_of_mem (tokens ▸ d.mem_atoms.mp hm)

theorem parse_render_of_parse (n : Notation) (h : parse text = .ok f) :
    parse (f.render n) = .ok f := by
  obtain ⟨d, rfl, shallow, -, names⟩ := exists_derivation_of_parse h
  rcases parse_render_cases n names with ⟨-, h⟩ | ⟨deep, -⟩
  · exact h
  · have := (written_spares d).nesting
    omega

theorem count_opening_render (n : Notation) (names : ∀ name ∈ f.atoms, Token.isName name.toList) :
    (f.render n).toList.count '(' = (f.written .implication).tokens.count .opening := by
  obtain ⟨lexemes, hs, hts⟩ := scan_render n names
  rw [tokens_written_implication, ← hts]
  exact (Lexeme.scans_of_scanFrom hs).count_opening

theorem count_opening_render_le (n : Notation) (h : parse text = .ok f) :
    (f.render n).toList.count '(' ≤ text.toList.count '(' := by
  obtain ⟨d, rfl, -, count, names⟩ := exists_derivation_of_parse h
  rw [count, count_opening_render n names]
  exact (written_spares d).openings

/-- The text of an accepted formula is accepted again, with the same text as the result, and no text
of the formula has fewer parentheses. -/
theorem render_canonical (n : Notation) (h : parse text = .ok f) :
    parse (f.render n) = .ok f ∧
    (f.render n).toList.count '(' ≤ text.toList.count '(' ∧
    (parse (f.render n)).map (·.render n) = .ok (f.render n) ∧
    IsLeast {k | ∃ t : String, parse t = .ok f ∧ t.toList.count '(' = k}
      ((f.render n).toList.count '(') := by
  have hr := parse_render_of_parse n h
  refine ⟨hr, count_opening_render_le n h, by rw [hr]; rfl, ⟨_, hr, rfl⟩, ?_⟩
  rintro k ⟨t, ht, rfl⟩
  exact count_opening_render_le n ht

def paddedText : String := "((p)) & ((q | (r)) -> (~(~s)))"

def tight : Formula :=
  .and (.atom "p") (.implies (.or (.atom "q") (.atom "r")) (.not (.not (.atom "s"))))

theorem render_canonical_tight :
    parse paddedText = .ok tight ∧
    parse (tight.render .ascii) = .ok tight ∧
    (tight.render .ascii).toList.count '(' ≤ paddedText.toList.count '(' ∧
    (parse (tight.render .ascii)).map (·.render .ascii) = .ok (tight.render .ascii) ∧
    IsLeast {k | ∃ t : String, parse t = .ok tight ∧ t.toList.count '(' = k}
      ((tight.render .ascii).toList.count '(') := by
  have h : parse paddedText = .ok tight := rfl
  exact ⟨h, render_canonical .ascii h⟩

end Formula
end ModalTableau
