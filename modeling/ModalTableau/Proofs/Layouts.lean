import Mathlib.Data.List.Chain
import ModalTableau.Proofs.Scanning

/-!
# Laid out tokens

A layout is a list of tokens, each in one of its spellings and behind some blanks, and then some more
blanks. Scanning the text of a layout finds the tokens where they stand, exactly if there are blanks
between any two atoms that follow each other (`scan_text_iff`): all other spellings end by themselves.
Every text that is scanned successfully has a layout (`exists_layout`), so it can be put together
again from what was found and blanks.
-/

namespace ModalTableau

namespace Token

variable {t : Token} {c : Char} {s rest : List Char}

def IsAtom (t : Token) : Prop := ∃ name, t = .atom name

theorem not_isAtomChar_of_isBlank (h : Text.isBlank c) : isAtomChar c = false := by
  by_contra hc
  simp only [isAtomChar, Bool.not_eq_false, Bool.or_eq_true, beq_iff_eq] at hc
  rcases hc with (hc | hc) | rfl
  · simp [not_isBlank_of_isAtomStart hc] at h
  · obtain ⟨hl, hu⟩ : 48 ≤ c.toNat ∧ c.toNat ≤ 57 := Char.isDigit_iff_toNat.mp hc
    simp [Text.isBlank, Text.blankRanges] at h
    omega
  · exact absurd h (by decide)

theorem Spells.isAtomChar_iff (h : t.Spells (c :: s)) : isAtomChar c ↔ t.IsAtom := by
  cases t with
  | atom name => exact iff_of_true (isAtomChar_of_isName h.2 List.mem_cons_self) ⟨name, rfl⟩
  | connective k =>
    refine iff_of_false ?_ (by simp [IsAtom])
    cases k <;> simp only [Spells, Connective.spellings, List.mem_cons, List.cons.injEq,
      List.not_mem_nil, or_false] at h
    case not | and | or | implies => rcases h with ⟨rfl, -⟩ | ⟨rfl, -⟩ <;> decide
    case box => rcases h with ⟨rfl, -⟩ | ⟨rfl, -⟩ | ⟨rfl, -⟩ <;> decide
    case diamond => rcases h with ⟨rfl, -⟩ | ⟨rfl, -⟩ | ⟨rfl, -⟩ | ⟨rfl, -⟩ <;> decide
  | opening | closing =>
    cases h
    exact iff_of_false (by decide) (by simp [IsAtom])

theorem endsBefore_iff : t.EndsBefore rest ↔ (t.IsAtom → ∀ c ∈ rest.head?, isAtomChar c = false) := by
  cases t <;> simp [EndsBefore, IsAtom]

end Token

-- ---------------------------------------------------------------------------
-- Layouts
-- ---------------------------------------------------------------------------

/-- A token in one of its spellings, behind some blanks. -/
structure Word where
  gap : List Char
  token : Token
  spelling : List Char
  blank : ∀ c ∈ gap, Text.isBlank c
  spells : token.Spells spelling

def Word.chars (w : Word) : List Char := w.gap ++ w.spelling

def Word.blanks (w : Word) : List Char := w.gap ++ List.replicate w.spelling.length ' '

def Word.lexemesFrom (position : Nat) : List Word → List Lexeme
  | [] => []
  | w :: words =>
    ⟨w.token, position + w.gap.length, String.ofList w.spelling⟩ ::
      lexemesFrom (position + w.chars.length) words

structure Layout where
  words : List Word
  gap : List Char
  blank : ∀ c ∈ gap, Text.isBlank c

namespace Layout

def chars (l : Layout) : List Char := l.words.flatMap Word.chars ++ l.gap

def text (l : Layout) : String := String.ofList l.chars

def blanks (l : Layout) : List Char := l.words.flatMap Word.blanks ++ l.gap

def lexemes (l : Layout) : List Lexeme := Word.lexemesFrom 0 l.words

/-- There are blanks between atoms that follow each other. -/
def Separated (l : Layout) : Prop :=
  l.words.IsChain fun v w => v.token.IsAtom → w.token.IsAtom → w.gap ≠ []

theorem isBlank_of_mem_blanks (l : Layout) : ∀ c ∈ l.blanks, Text.isBlank c := by
  intro c hc
  rcases List.mem_append.mp hc with hc | hc
  · obtain ⟨w, -, hc⟩ := List.mem_flatMap.mp hc
    rcases List.mem_append.mp hc with hc | hc
    · exact w.blank c hc
    · obtain rfl := List.eq_of_mem_replicate hc
      decide
  · exact l.blank c hc

theorem length_blanks (l : Layout) : l.blanks.length = l.chars.length := by
  simp [blanks, chars, Word.blanks, Word.chars, List.length_flatMap]

end Layout

namespace Lexeme

variable {position : Nat} {t : Token} {s gap rest cs : List Char} {words : List Word}
  {lexemes : List Lexeme} {x : Lexeme}

-- ---------------------------------------------------------------------------
-- Scanning a layout
-- ---------------------------------------------------------------------------

theorem scans_blanks_iff (hgap : ∀ c ∈ gap, Text.isBlank c) :
    Scans position (gap ++ rest) lexemes ↔ Scans (position + gap.length) rest lexemes := by
  induction gap generalizing position with
  | nil => exact Iff.rfl
  | cons c gap ih =>
    obtain ⟨hc, hgap⟩ := List.forall_mem_cons.mp hgap
    rw [List.cons_append, ← scanFrom_iff, scanFrom_blank hc, scanFrom_iff, ih hgap,
      List.length_cons, Nat.add_assoc, Nat.add_comm 1]

theorem scans_token_iff (spells : t.Spells s) :
    Scans position (s ++ rest) (⟨t, position, String.ofList s⟩ :: lexemes) ↔
      t.EndsBefore rest ∧ Scans (position + s.length) rest lexemes := by
  constructor
  · intro h
    generalize hcs : s ++ rest = cs at h
    generalize hfound : (⟨t, position, String.ofList s⟩ :: lexemes : List Lexeme) = found at h
    cases h with
    | done => cases hfound
    | @blank _ c _ _ isBlank _ =>
      cases s with
      | nil => exact (spells.ne_nil rfl).elim
      | cons x s =>
        -- A spelling does not begin with a blank.
        obtain ⟨rfl, -⟩ := List.cons.inj hcs
        have hends : t.EndsBefore [] := Token.endsBefore_iff.mpr (by simp)
        simp [(Token.ofChars?_of_spells spells hends).1] at isBlank
    | @token _ s' rest' _ t' _ ends next =>
      simp only [List.cons.injEq, Lexeme.mk.injEq, String.ofList_inj, true_and] at hfound
      obtain ⟨⟨rfl, rfl⟩, rfl⟩ := hfound
      obtain rfl := List.append_cancel_left hcs
      exact ⟨ends, next⟩
  · rintro ⟨ends, next⟩
    exact .token t spells ends next

theorem endsBefore_words_iff (hgap : ∀ c ∈ gap, Text.isBlank c) :
    t.EndsBefore (words.flatMap Word.chars ++ gap) ↔
      ∀ w ∈ words.head?, t.IsAtom → w.token.IsAtom → w.gap ≠ [] := by
  rw [Token.endsBefore_iff]
  cases words with
  | nil =>
    refine iff_of_true (fun _ c hc => ?_) (by simp)
    exact Token.not_isAtomChar_of_isBlank (hgap c (List.mem_of_mem_head? hc))
  | cons w words =>
    simp only [List.head?_cons, Option.mem_some_iff, forall_eq', List.flatMap_cons, Word.chars]
    obtain ⟨wgap, u, spelling, blank, spells⟩ := w
    cases wgap with
    | cons c wgap => simp [Token.not_isAtomChar_of_isBlank (blank c List.mem_cons_self)]
    | nil =>
      cases spelling with
      | nil => exact (spells.ne_nil rfl).elim
      | cons c spelling => simp [← spells.isAtomChar_iff]

theorem scans_words_iff (position : Nat) (hgap : ∀ c ∈ gap, Text.isBlank c) :
    Scans position (words.flatMap Word.chars ++ gap) (Word.lexemesFrom position words) ↔
      words.IsChain fun v w => v.token.IsAtom → w.token.IsAtom → w.gap ≠ [] := by
  induction words generalizing position with
  | nil =>
    refine iff_of_true ?_ .nil
    rw [List.flatMap_nil, List.nil_append, ← List.append_nil gap, scans_blanks_iff hgap]
    exact .done
  | cons w words ih =>
    rw [List.isChain_cons, ← endsBefore_words_iff hgap, ← ih (position + w.chars.length),
      List.flatMap_cons, Word.chars, List.append_assoc, List.append_assoc, Word.lexemesFrom,
      scans_blanks_iff w.blank, scans_token_iff w.spells, Word.chars, List.length_append,
      Nat.add_assoc]

theorem scan_text_iff (l : Layout) : scan l.text = .ok l.lexemes ↔ l.Separated := by
  rw [scan, scanFrom_iff, Layout.text, String.toList_ofList]
  exact scans_words_iff 0 l.blank

-- ---------------------------------------------------------------------------
-- The layout of a text
-- ---------------------------------------------------------------------------

theorem exists_words (h : Scans position cs lexemes) :
    ∃ words gap, (∀ c ∈ gap, Text.isBlank c) ∧ words.flatMap Word.chars ++ gap = cs ∧
      Word.lexemesFrom position words = lexemes := by
  induction h with
  | done => exact ⟨[], [], by simp, rfl, rfl⟩
  | @blank position c rest lexemes isBlank _ ih =>
    obtain ⟨words, gap, hgap, rfl, rfl⟩ := ih
    cases words with
    | nil => exact ⟨[], c :: gap, List.forall_mem_cons.mpr ⟨isBlank, hgap⟩, rfl, rfl⟩
    | cons w words =>
      -- The blank goes in front of the first word.
      let first : Word := ⟨c :: w.gap, w.token, w.spelling,
        List.forall_mem_cons.mpr ⟨isBlank, w.blank⟩, w.spells⟩
      refine ⟨first :: words, gap, hgap, rfl, ?_⟩
      simp [first, Word.lexemesFrom, Word.chars, Nat.add_assoc, Nat.add_comm 1]
  | @token position s rest lexemes t spells _ _ ih =>
    obtain ⟨words, gap, hgap, rfl, rfl⟩ := ih
    exact ⟨⟨[], t, s, by simp, spells⟩ :: words, gap, hgap, by simp [Word.chars],
      by simp [Word.lexemesFrom, Word.chars]⟩

theorem exists_layout {text : String} (h : scan text = .ok lexemes) :
    ∃ l : Layout, l.text = text ∧ l.lexemes = lexemes := by
  obtain ⟨words, gap, hgap, hchars, hlexemes⟩ := exists_words (scanFrom_iff.mp h)
  refine ⟨⟨words, gap, hgap⟩, ?_, hlexemes⟩
  rw [Layout.text, Layout.chars, hchars, String.ofList_toList]

-- ---------------------------------------------------------------------------
-- Writing lexemes over blanks
-- ---------------------------------------------------------------------------

def write (cs : List Char) (x : Lexeme) : List Char :=
  cs.take x.position ++ x.text.toList ++ cs.drop (x.position + x.text.length)

theorem write_at (t : Token) (before after : List Char) {under : List Char}
    (h : under.length = s.length) :
    write (before ++ (under ++ after)) ⟨t, before.length, String.ofList s⟩ =
      before ++ (s ++ after) := by
  simp only [write, String.toList_ofList, String.length_ofList]
  rw [List.take_left, ← h, List.drop_length_add_append, List.drop_left, List.append_assoc]

/-- Each word falls on blanks that are left for it, behind what has been written already. -/
theorem write_words (written : List Char) (words : List Word) (gap : List Char) :
    (Word.lexemesFrom written.length words).foldl write
        (written ++ (words.flatMap Word.blanks ++ gap)) =
      written ++ (words.flatMap Word.chars ++ gap) := by
  induction words generalizing written with
  | nil => rfl
  | cons w words ih =>
    have hunder : (List.replicate w.spelling.length ' ').length = w.spelling.length :=
      List.length_replicate
    have hword := write_at w.token (written ++ w.gap) (words.flatMap Word.blanks ++ gap) hunder
    have hrest := ih (written ++ w.chars)
    simp only [Word.blanks, Word.chars, List.flatMap_cons, List.append_assoc, List.length_append,
      Word.lexemesFrom, List.foldl_cons] at hword hrest ⊢
    rw [hword, hrest]

theorem position_le (h : x ∈ Word.lexemesFrom position words) : position ≤ x.position := by
  induction words generalizing position with
  | nil => simp [Word.lexemesFrom] at h
  | cons w words ih =>
    rcases List.mem_cons.mp h with rfl | h
    · exact Nat.le_add_right _ _
    · exact Nat.le_trans (Nat.le_add_right _ _) (ih h)

theorem pairwise_words : (Word.lexemesFrom position words).Pairwise fun x y =>
    x.position + x.text.length ≤ y.position := by
  induction words generalizing position with
  | nil => exact .nil
  | cons w words ih =>
    refine List.pairwise_cons.mpr ⟨fun y hy => ?_, ih⟩
    simpa [Word.chars, Nat.add_assoc] using position_le hy

theorem spells_of_mem (h : x ∈ Word.lexemesFrom position words) : x.token.Spells x.text.toList := by
  induction words generalizing position with
  | nil => simp [Word.lexemesFrom] at h
  | cons w words ih =>
    rcases List.mem_cons.mp h with rfl | h
    · simpa using w.spells
    · exact ih h

/-- The text of a layout is scanned as the tokens of the layout, each with its spelling and where it
stands, if and only if no two atoms run together. Whatever is found in a text, no two lexemes overlap,
and written over blanks they give the text back. -/
theorem scan_recovers (l : Layout) (text : String) (found : List Lexeme) :
    (scan l.text = .ok l.lexemes ↔ l.Separated) ∧
    (scan text = .ok found →
      (∀ x ∈ found, x.token.Spells x.text.toList) ∧
      found.Pairwise (fun x y => x.position + x.text.length ≤ y.position) ∧
      ∃ blanks : List Char, (∀ c ∈ blanks, Text.isBlank c) ∧ blanks.length = text.length ∧
        found.foldl write blanks = text.toList) := by
  refine ⟨scan_text_iff l, fun h => ?_⟩
  obtain ⟨l, rfl, rfl⟩ := exists_layout h
  refine ⟨fun x => spells_of_mem, pairwise_words, l.blanks, l.isBlank_of_mem_blanks, ?_, ?_⟩
  · rw [Layout.text, String.length_ofList, l.length_blanks]
  · rw [Layout.text, String.toList_ofList]
    exact write_words [] l.words l.gap

def crowded : Layout where
  words := [
    ⟨['\n'], .connective .not, ['¬'], List.all_eq_true.mp rfl, List.elem_iff.mp rfl⟩,
    ⟨[], .connective .box, ['[', ']'], List.all_eq_true.mp rfl, List.elem_iff.mp rfl⟩,
    ⟨[], .atom "p_1", ['p', '_', '1'], List.all_eq_true.mp rfl, rfl, rfl⟩,
    ⟨[], .connective .implies, ['-', '>'], List.all_eq_true.mp rfl, List.elem_iff.mp rfl⟩,
    ⟨[], .atom "q", ['q'], List.all_eq_true.mp rfl, rfl, rfl⟩,
    ⟨['\t'], .atom "r", ['r'], List.all_eq_true.mp rfl, rfl, rfl⟩,
    ⟨[], .connective .diamond, ['♢'], List.all_eq_true.mp rfl, List.elem_iff.mp rfl⟩,
    ⟨[], .closing, [')'], List.all_eq_true.mp rfl, rfl⟩]
  gap := ['\u3000']
  blank := List.all_eq_true.mp rfl

theorem scan_recovers_crowded :
    crowded.Separated ∧ crowded.text = "\n¬[]p_1->q\tr♢)\u3000" ∧
    scan crowded.text = .ok crowded.lexemes ∧
    crowded.lexemes.map (·.position) = [1, 2, 4, 7, 9, 11, 12, 13] ∧
    crowded.lexemes.Pairwise (fun x y => x.position + x.text.length ≤ y.position) ∧
    ∃ blanks : List Char, (∀ c ∈ blanks, Text.isBlank c) ∧ blanks.length = crowded.text.length ∧
      crowded.lexemes.foldl write blanks = crowded.text.toList := by
  have hseparated : crowded.Separated := by simp [Layout.Separated, crowded, Token.IsAtom]
  obtain ⟨hlayout, hfound⟩ := scan_recovers crowded crowded.text crowded.lexemes
  have hscan := hlayout.mpr hseparated
  exact ⟨hseparated, rfl, hscan, rfl, (hfound hscan).2⟩

end Lexeme
end ModalTableau
