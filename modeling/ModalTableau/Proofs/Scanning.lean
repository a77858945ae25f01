import ModalTableau.Token.Lexeme

/-!
# Texts as spelled tokens

A text is scanned successfully exactly if it consists of blanks and accepted spellings of tokens,
with no atom cut short (`Lexeme.scanFrom_iff`).
-/

namespace ModalTableau

def Connective.spellings : Connective → List (List Char)
  | not => [['~'], ['¬']]
  | and => [['&'], ['∧']]
  | or => [['|'], ['∨']]
  | implies => [['-', '>'], ['→']]
  | box => [['[', ']'], ['□'], ['◻']]
  | diamond => [['<', '>'], ['◇'], ['♢'], ['◊']]

namespace Token

variable {t : Token} {c : Char} {s rest : List Char} {n : Nat}

def isName : List Char → Bool
  | [] => false
  | c :: rest => isAtomStart c && rest.all isAtomChar

/-- The characters are an accepted spelling of the token. -/
def Spells : Token → List Char → Prop
  | atom name, s => name.toList = s ∧ isName s
  | connective k, s => s ∈ k.spellings
  | opening, s => s = ['(']
  | closing, s => s = [')']

/-- The token cannot be read on into what follows it. -/
def EndsBefore : Token → List Char → Prop
  | atom _, rest => ∀ c ∈ rest.head?, isAtomChar c = false
  | _, _ => True

theorem not_isBlank_of_isAtomStart (h : isAtomStart c) : Text.isBlank c = false := by
  have hc : (decide (97 ≤ c.val) && decide (c.val ≤ 122)) = true := h
  simp only [Bool.and_eq_true, decide_eq_true_eq] at hc
  have hl : 97 ≤ c.toNat := hc.1
  have hu : c.toNat ≤ 122 := hc.2
  simp [Text.isBlank, Text.blankRanges]
  omega

theorem ofChars?_of_isAtomStart (h : isAtomStart c) :
    ofChars? c rest = some (.atom (String.ofList (c :: rest.takeWhile isAtomChar)),
      (rest.takeWhile isAtomChar).length) := by
  unfold ofChars?
  split
  case h_18 => rw [if_pos h]
  all_goals exact absurd h (by decide)

theorem takeWhile_append {p : Char → Bool} (hs : ∀ c ∈ s, p c)
    (hr : ∀ c ∈ rest.head?, p c = false) : (s ++ rest).takeWhile p = s := by
  rw [List.takeWhile_append_of_pos hs]
  cases rest <;> simp_all

theorem ofChars?_of_spells (h : t.Spells (c :: s)) (he : t.EndsBefore rest) :
    Text.isBlank c = false ∧ ofChars? c (s ++ rest) = some (t, s.length) := by
  cases t with
  | atom name =>
    obtain ⟨hname, hs⟩ := h
    simp only [isName, Bool.and_eq_true, List.all_eq_true] at hs
    refine ⟨not_isBlank_of_isAtomStart hs.1, ?_⟩
    rw [ofChars?_of_isAtomStart hs.1, takeWhile_append hs.2 he, ← hname, String.ofList_toList]
  | connective k =>
    cases k <;> simp only [Spells, Connective.spellings, List.mem_cons, List.cons.injEq,
      List.not_mem_nil, or_false] at h
    case not | and | or | implies =>
      rcases h with ⟨rfl, rfl⟩ | ⟨rfl, rfl⟩ <;> exact ⟨by decide, rfl⟩
    case box =>
      rcases h with ⟨rfl, rfl⟩ | ⟨rfl, rfl⟩ | ⟨rfl, rfl⟩ <;> exact ⟨by decide, rfl⟩
    case diamond =>
      rcases h with ⟨rfl, rfl⟩ | ⟨rfl, rfl⟩ | ⟨rfl, rfl⟩ | ⟨rfl, rfl⟩ <;> exact ⟨by decide, rfl⟩
  | opening =>
    cases h
    exact ⟨by decide, rfl⟩
  | closing =>
    cases h
    exact ⟨by decide, rfl⟩

theorem exists_spelling (h : ofChars? c rest = some (t, n)) : ∃ s rest', rest = s ++ rest' ∧
    s.length = n ∧ t.Spells (c :: s) ∧ t.EndsBefore rest' := by
  unfold ofChars? at h
  split at h
  -- The spellings with two characters.
  case h_15 | h_16 | h_17 =>
    cases h
    exact ⟨[_], _, rfl, rfl, by simp [Spells, Connective.spellings], trivial⟩
  case h_18 =>
    split at h
    next hc =>
      cases h
      refine ⟨rest.takeWhile isAtomChar, rest.dropWhile isAtomChar,
        List.takeWhile_append_dropWhile.symm, rfl, ⟨by simp, by simp [isName, hc]⟩, fun x hx => ?_⟩
      have hstop := List.head?_dropWhile_not isAtomChar rest
      rwa [Option.mem_def.mp hx] at hstop
    next => simp at h
  all_goals
    cases h
    exact ⟨[], rest, rfl, rfl, by simp [Spells, Connective.spellings], trivial⟩

theorem Spells.ne_nil (h : t.Spells s) : s ≠ [] := by
  rintro rfl
  cases t with
  | atom name => simp [Spells, isName] at h
  | connective k => cases k <;> simp [Spells, Connective.spellings] at h
  | _ => simp [Spells] at h

theorem isAtomChar_of_isName (h : isName s) (hc : c ∈ s) : isAtomChar c := by
  cases s with
  | nil => simp at hc
  | cons x s =>
    simp only [isName, Bool.and_eq_true, List.all_eq_true] at h
    rcases List.mem_cons.mp hc with rfl | hc
    · have hlower : c.isLower := h.1
      simp [isAtomChar, hlower]
    · exact h.2 c hc

theorem Spells.count_opening (h : t.Spells s) : s.count '(' = [t].count .opening := by
  cases t with
  | atom name =>
    have hs : '(' ∉ s := fun hm => absurd (isAtomChar_of_isName h.2 hm) (by decide)
    simp [List.count_eq_zero.mpr hs]
  | connective k =>
    cases k <;>
      simp only [Spells, Connective.spellings, List.mem_cons, List.not_mem_nil, or_false] at h
    case not | and | or | implies => rcases h with rfl | rfl <;> rfl
    case box => rcases h with rfl | rfl | rfl <;> rfl
    case diamond => rcases h with rfl | rfl | rfl | rfl <;> rfl
  | _ =>
    cases h
    rfl

end Token

namespace Lexeme

/-- From the position on, the characters are blanks and the spellings of the lexemes. -/
inductive Scans : Nat → List Char → List Lexeme → Prop
  | done {position} : Scans position [] []
  | blank {position c rest lexemes} (isBlank : Text.isBlank c)
      (next : Scans (position + 1) rest lexemes) : Scans position (c :: rest) lexemes
  | token {position s rest lexemes} (t : Token) (spells : t.Spells s) (ends : t.EndsBefore rest)
      (next : Scans (position + s.length) rest lexemes) :
      Scans position (s ++ rest) (⟨t, position, String.ofList s⟩ :: lexemes)

variable {position skip n : Nat} {c : Char} {t : Token} {s rest cs : List Char}
  {lexemes : List Lexeme}

theorem scanFrom_skip (s rest : List Char) (position : Nat) :
    scanFrom s.length position (s ++ rest) = scanFrom 0 (position + s.length) rest := by
  induction s generalizing position with
  | nil => rfl
  | cons c s ih =>
    rw [List.length_cons, List.cons_append, scanFrom, ih, Nat.add_right_comm]
    rfl

theorem scanFrom_blank (h : Text.isBlank c) :
    scanFrom 0 position (c :: rest) = scanFrom 0 (position + 1) rest := by
  simp [scanFrom, h]

theorem scanFrom_token (hb : Text.isBlank c = false) (ht : Token.ofChars? c rest = some (t, n)) :
    scanFrom 0 position (c :: rest) =
      (⟨t, position, String.ofList (c :: rest.take n)⟩ :: ·) <$>
        scanFrom n (position + 1) rest := by
  simp only [scanFrom, hb, ht]
  rfl

theorem Scans.scanFrom_eq (h : Scans position cs lexemes) :
    scanFrom 0 position cs = .ok lexemes := by
  induction h with
  | done => rfl
  | blank isBlank _ ih => rw [scanFrom_blank isBlank, ih]
  | @token position s rest lexemes t spells ends _ ih =>
    cases s with
    | nil => exact (spells.ne_nil rfl).elim
    | cons c s =>
      obtain ⟨hb, ht⟩ := Token.ofChars?_of_spells spells ends
      rw [List.cons_append, scanFrom_token hb ht, scanFrom_skip, Nat.add_assoc, Nat.add_comm 1,
        ← List.length_cons, ih, List.take_left]
      rfl

/-- If `skip` characters still belong to a token, what is behind them is scanned. -/
theorem scans_of_scanFrom (h : scanFrom skip position cs = .ok lexemes) :
    Scans (position + skip) (cs.drop skip) lexemes := by
  induction cs generalizing skip position lexemes with
  | nil =>
    obtain rfl : [] = lexemes := by simpa [scanFrom] using h
    rw [List.drop_nil]
    exact .done
  | cons c rest ih =>
    cases skip with
    | succ skip =>
      rw [scanFrom] at h
      rw [List.drop_succ_cons, ← Nat.add_assoc, Nat.add_right_comm]
      exact ih h
    | zero =>
      cases hb : Text.isBlank c with
      | true =>
        rw [scanFrom_blank hb] at h
        exact .blank hb (ih h)
      | false =>
        cases ht : Token.ofChars? c rest with
        | none => simp [scanFrom, hb, ht] at h
        | some found =>
          obtain ⟨t, n⟩ := found
          obtain ⟨s, rest', rfl, rfl, spells, ends⟩ := Token.exists_spelling ht
          rw [scanFrom_token hb ht, List.take_left] at h
          cases hrest : scanFrom s.length (position + 1) (s ++ rest') with
          | error e =>
            rw [hrest] at h
            exact nomatch h
          | ok found =>
            rw [hrest] at h
            cases h
            have hnext := ih hrest
            rw [List.drop_left, Nat.add_assoc, Nat.add_comm 1, ← List.length_cons] at hnext
            exact .token t spells ends hnext

theorem scanFrom_iff : scanFrom 0 position cs = .ok lexemes ↔ Scans position cs lexemes :=
  ⟨scans_of_scanFrom, Scans.scanFrom_eq⟩

theorem Scans.count_opening (h : Scans position cs lexemes) :
    cs.count '(' = (lexemes.map (·.token)).count .opening := by
  induction h with
  | done => rfl
  | blank isBlank _ ih =>
    rw [List.count_cons_of_ne, ih]
    rintro rfl
    exact absurd isBlank (by decide)
  | token t spells _ _ ih =>
    rw [List.count_append, spells.count_opening, ih, List.map_cons, ← List.count_append]
    rfl

theorem Scans.isName_of_mem (h : Scans position cs lexemes) {name : String}
    (hm : .atom name ∈ lexemes.map (·.token)) : Token.isName name.toList := by
  induction h with
  | done => simp at hm
  | blank _ _ ih => exact ih hm
  | token t spells _ _ ih =>
    rcases List.mem_cons.mp hm with rfl | hm
    · rw [spells.1]
      exact spells.2
    · exact ih hm

end Lexeme
end ModalTableau
