import Mathlib.Order.Bounds.Defs
import ModalTableau.Proofs.Acceptance
import ModalTableau.Proofs.Scanning

/-!
# Reading what was written

The tokens of a formula are those of a derivation, `Formula.written`, which has parentheses where a
formula stands in a place of a stronger category. Spelled in either notation they are scanned one by
one. So reading gives the formula back (`Formula.parse_render`), unless its text is nested too deep.
-/

namespace ModalTableau

namespace Derivation

variable {c : Category} {name : String}

theorem mem_collectAtoms (d : Derivation c) {seen : Ascending String} :
    name ∈ d.formula.collectAtoms seen ↔ .atom name ∈ d.tokens ∨ name ∈ seen := by
  induction d generalizing seen with
  | atom a => simp [formula, Formula.collectAtoms]
  | modified m d ih => cases m <;> simpa [formula, Modifier.apply, Formula.collectAtoms] using ih
  | and d e ihd ihe | or d e ihd ihe | implies d e ihd ihe =>
    simp [formula, Formula.collectAtoms, ihd, ihe, or_left_comm, or_assoc]
  | _ => simp_all [formula]

theorem mem_atoms (d : Derivation c) : name ∈ d.formula.atoms ↔ .atom name ∈ d.tokens := by
  simp [Formula.atoms, mem_collectAtoms]

end Derivation

namespace Formula

/-- The derivation of the formula in a place of the category, with no parentheses that the place
does not ask for. -/
def written : Formula → (place : Category) → Derivation place
  | atom name, place => (Derivation.atom name).fitted place
  | not f, place => (Derivation.modified .not (f.written .unary)).fitted place
  | box f, place => (Derivation.modified .box (f.written .unary)).fitted place
  | diamond f, place => (Derivation.modified .diamond (f.written .unary)).fitted place
  | and f g, place => (Derivation.and (f.written .conjunction) (g.written .unary)).fitted place
  | or f g, place => (Derivation.or (f.written .disjunction) (g.written .conjunction)).fitted place
  | implies f g, place =>
    (Derivation.implies (f.written .disjunction) (g.written .implication)).fitted place

@[simp] theorem formula_written (f : Formula) (place : Category) :
    (f.written place).formula = f := by
  induction f generalizing place <;> simp_all [written, Derivation.formula, Modifier.apply]

theorem tokens_written (f : Formula) (place : Category) :
    (f.written place).tokens = f.tokensAt place.least := by
  induction f generalizing place with
  | atom name => cases place <;> rfl
  | not f ih | box f ih | diamond f ih =>
    have hf : _ = f.tokensAt 4 := ih .unary
    rw [written, Derivation.tokens_fitted, Derivation.tokens_modified, tokensAt, hf]
    cases place <;> rfl
  | and f g ihf ihg =>
    have hf : _ = f.tokensAt 3 := ihf .conjunction
    have hg : _ = g.tokensAt 4 := ihg .unary
    rw [written, Derivation.tokens_fitted, Derivation.tokens_and, tokensAt, hf, hg]
    rfl
  | or f g ihf ihg =>
    have hf : _ = f.tokensAt 2 := ihf .disjunction
    have hg : _ = g.tokensAt 3 := ihg .conjunction
    rw [written, Derivation.tokens_fitted, Derivation.tokens_or, tokensAt, hf, hg]
    rfl
  | implies f g ihf ihg =>
    have hf : _ = f.tokensAt 2 := ihf .disjunction
    have hg : _ = g.tokensAt 1 := ihg .implication
    rw [written, Derivation.tokens_fitted, Derivation.tokens_implies, tokensAt, hf, hg]
    rfl

theorem tokens_written_implication (f : Formula) : (f.written .implication).tokens = f.tokens := by
  rw [tokens_written]
  cases f <;> rfl

end Formula

namespace Lexeme

variable {n : Notation} {t : Token} {cs rest : List Char} {ts : List Token}

/-- Wherever the characters stand, they are scanned as the tokens. -/
def Reads (cs : List Char) (ts : List Token) : Prop :=
  ∀ position, ∃ lexemes, Scans position cs lexemes ∧ lexemes.map (·.token) = ts

namespace Reads

theorem nil : Reads [] [] := fun _ => ⟨[], .done, rfl⟩

theorem blank (h : Reads cs ts) : Reads (' ' :: cs) ts := by
  intro position
  obtain ⟨lexemes, hs, hts⟩ := h (position + 1)
  exact ⟨lexemes, .blank (by decide) hs, hts⟩

theorem token (h : Reads rest ts) (spells : t.Spells cs) (ends : t.EndsBefore rest) :
    Reads (cs ++ rest) (t :: ts) := by
  intro position
  obtain ⟨lexemes, hs, hts⟩ := h (position + cs.length)
  exact ⟨_, .token t spells ends hs, by rw [List.map_cons, hts]⟩

theorem connective (n : Notation) (k : Connective) (h : Reads rest ts) :
    Reads ((n.spell (.connective k)).toList ++ rest) (.connective k :: ts) := by
  have hk : Token.Spells (.connective k) (n.symbol k).toList := by
    cases n <;> cases k <;> simp [Token.Spells, Connective.spellings, Notation.symbol]
  cases hb : k.isBinary with
  | false => simpa [Notation.spell, hb] using h.token hk trivial
  | true => simpa [Notation.spell, hb] using (h.blank.token hk trivial).blank

theorem apart_of_binary {k : Connective} (hk : k.isBinary) :
    ∀ x ∈ ((n.spell (.connective k)).toList ++ rest).head?, Token.isAtomChar x = false := by
  simp [Notation.spell, hk]
  decide

/-- A derivation is read back from its spelling if what follows does not go on with an atom. -/
theorem derivation {c : Category} (d : Derivation c) (n : Notation)
    (names : ∀ name, .atom name ∈ d.tokens → Token.isName name.toList) (h : Reads rest ts)
    (apart : ∀ x ∈ rest.head?, Token.isAtomChar x = false) :
    Reads (d.tokens.flatMap (fun t => (n.spell t).toList) ++ rest) (d.tokens ++ ts) := by
  induction d generalizing rest ts with
  | atom name =>
    have hname : Token.Spells (.atom name) name.toList := ⟨rfl, names name (by simp)⟩
    simpa [Notation.spell] using h.token hname apart
  | modified m d ih =>
    have hd := ih (by simpa using names) h apart
    simpa using hd.connective n m.connective
  | paren d ih =>
    have hopening : Token.Spells .opening ['('] := rfl
    have hclosing : Token.Spells .closing [')'] := rfl
    have hd := ih (by simpa using names) (h.token hclosing trivial) (by simp; decide)
    simpa [Notation.spell] using hd.token hopening trivial
  | unary d ih => exact ih names h apart
  | and d e ihd ihe =>
    simp only [Derivation.tokens_and, List.mem_append, List.mem_cons] at names
    have he := (ihe (fun name hm => names name (by simp [hm])) h apart).connective n .and
    simpa using ihd (fun name hm => names name (.inl hm)) he (apart_of_binary rfl)
  | conjunction d ih => exact ih names h apart
  | or d e ihd ihe =>
    simp only [Derivation.tokens_or, List.mem_append, List.mem_cons] at names
    have he := (ihe (fun name hm => names name (by simp [hm])) h apart).connective n .or
    simpa using ihd (fun name hm => names name (.inl hm)) he (apart_of_binary rfl)
  | disjunction d ih => exact ih names h apart
  | implies d e ihd ihe =>
    simp only [Derivation.tokens_implies, List.mem_append, List.mem_cons] at names
    have he := (ihe (fun name hm => names name (by simp [hm])) h apart).connective n .implies
    simpa using ihd (fun name hm => names name (.inl hm)) he (apart_of_binary rfl)

end Reads
end Lexeme

namespace Formula

variable {text : String} {n : Notation} {f : Formula} {lexemes : List Lexeme}

theorem toList_render (f : Formula) (n : Notation) :
    (f.render n).toList = f.tokens.flatMap fun t => (n.spell t).toList := by
  rw [render, String.toList_join, List.flatMap_map]

theorem scan_render (n : Notation) (names : ∀ name ∈ f.atoms, Token.isName name.toList) :
    ∃ lexemes, Lexeme.scan (f.render n) = .ok lexemes ∧ lexemes.map (·.token) = f.tokens := by
  have hread := Lexeme.Reads.derivation (f.written .implication) n
    (fun name hm => names name (by simpa using (Derivation.mem_atoms _).mpr hm)) .nil (by simp)
  rw [tokens_written_implication, List.append_nil, List.append_nil, ← toList_render] at hread
  obtain ⟨lexemes, hs, hts⟩ := hread 0
  exact ⟨lexemes, hs.scanFrom_eq, hts⟩

theorem parse_of_scan (h : Lexeme.scan text = .ok lexemes) (hne : lexemes ≠ []) :
    parse text = ofLexemes lexemes := by
  unfold parse
  cases lexemes with
  | nil => exact absurd rfl hne
  | cons x rest => rw [h]; rfl

theorem parse_render_cases (n : Notation) (names : ∀ name ∈ f.atoms, Token.isName name.toList) :
    (f.written .implication).nesting ≤ nestingLimit ∧ parse (f.render n) = .ok f ∨
      nestingLimit < (f.written .implication).nesting ∧
        ∃ position, parse (f.render n) = .error (.tooDeep position) := by
  obtain ⟨lexemes, hs, hts⟩ := scan_render n names
  have hd := hts.trans f.tokens_written_implication.symm
  have hne : lexemes ≠ [] := by
    rintro rfl
    exact (f.written .implication).tokens_ne_nil hd.symm
  rw [parse_of_scan hs hne]
  simpa using ofLexemes_of_derivation _ hd

/-- The text of a formula has one derivation, and that is a derivation of the formula. With `c` the
greatest number of levels around an atom, the formula is read back if `c` is within the limit, and
the text is refused as too deep otherwise. -/
theorem parse_render (f : Formula) (n : Notation)
    (names : ∀ name ∈ f.atoms, Token.isName name.toList) :
    ∃ lexemes, Lexeme.scan (f.render n) = .ok lexemes ∧
      ∃ d : Derivation .implication, d.tokens = lexemes.map (·.token) ∧ d.formula = f ∧
        (∀ d' : Derivation .implication, d'.tokens = d.tokens → d' = d) ∧
        ∃ c, IsGreatest {k | ∃ name, (.atom name, k) ∈ d.placed 0} c ∧
          (c ≤ nestingLimit → parse (f.render n) = .ok f) ∧
          (nestingLimit < c → ∃ position, parse (f.render n) = .error (.tooDeep position)) := by
  obtain ⟨lexemes, hs, hts⟩ := scan_render n names
  have hcases := parse_render_cases n names
  refine ⟨lexemes, hs, f.written .implication, ?_, f.formula_written _,
    fun d' => Derivation.tokens_injective, (f.written .implication).nesting, ⟨?_, ?_⟩, ?_, ?_⟩
  · rw [hts, tokens_written_implication]
  · obtain ⟨name, hn⟩ := (f.written .implication).exists_deepest 0
    exact ⟨name, by simpa using hn⟩
  · rintro k ⟨name, hk⟩
    simpa using (f.written .implication).level_le hk
  · intro hc
    rcases hcases with ⟨-, h⟩ | ⟨deep, -⟩
    · exact h
    · omega
  · intro hc
    rcases hcases with ⟨shallow, -⟩ | ⟨-, h⟩
    · omega
    · exact h

def grouped : Formula :=
  .implies (.implies (.atom "p") (.atom "q_1"))
    (.not (.and (.box (.atom "r")) (.or (.atom "p") (.atom "s"))))

theorem parse_render_grouped :
    (∀ name ∈ grouped.atoms, Token.isName name.toList) ∧
    ∃ lexemes, Lexeme.scan (grouped.render .unicode) = .ok lexemes ∧
      ∃ d : Derivation .implication, d.tokens = lexemes.map (·.token) ∧ d.formula = grouped ∧
        (∀ d' : Derivation .implication, d'.tokens = d.tokens → d' = d) ∧
        ∃ c, IsGreatest {k | ∃ name, (.atom name, k) ∈ d.placed 0} c ∧
          (c ≤ nestingLimit → parse (grouped.render .unicode) = .ok grouped) ∧
          (nestingLimit < c →
            ∃ position, parse (grouped.render .unicode) = .error (.tooDeep position)) := by
  have names : ∀ name ∈ grouped.atoms, Token.isName name.toList := by
    show ∀ name ∈ grouped.atoms.toList, _
    decide +kernel
  exact ⟨names, parse_render grouped .unicode names⟩

end Formula
end ModalTableau
