import ModalTableau.Proofs.Scanning
import ModalTableau.Proofs.Viability

/-!
# Where a text goes wrong

A scan fails exactly at a character that starts no token (`Lexeme.scanFrom_error_iff`). The tokens of
any other text that is refused have a first fault (`FirstFault`), and that is the error reported
(`Formula.firstFault_of_ofLexemes`).
-/

namespace ModalTableau

-- ---------------------------------------------------------------------------
-- Unknown characters
-- ---------------------------------------------------------------------------

theorem Token.ofChars?_ne_none {t : Token} {c : Char} {s rest : List Char}
    (h : t.Spells (c :: s)) : ofChars? c (s ++ rest) ≠ none := by
  cases t with
  | atom name =>
    obtain ⟨-, hname⟩ := h
    simp only [isName, Bool.and_eq_true] at hname
    simp [ofChars?_of_isAtomStart hname.1]
  | _ => simp [(ofChars?_of_spells h trivial).2]

namespace Lexeme

/-- From the position on, the characters are blanks and tokens, each as long as possible, up to
`found` at the position `place`, which is neither blank nor the start of a token. -/
inductive Stumbles (found : Char) (place : Nat) : Nat → List Char → Prop
  | here {rest} (notBlank : Text.isBlank found = false)
      (noToken : ∀ (t : Token) (s after : List Char), t.Spells s → found :: rest ≠ s ++ after) :
      Stumbles found place place (found :: rest)
  | blank {position c rest} (isBlank : Text.isBlank c)
      (next : Stumbles found place (position + 1) rest) : Stumbles found place position (c :: rest)
  | token {position s rest} (t : Token) (spells : t.Spells s) (ends : t.EndsBefore rest)
      (next : Stumbles found place (position + s.length) rest) :
      Stumbles found place position (s ++ rest)

variable {position skip place : Nat} {found : Char} {cs : List Char} {lexemes : List Lexeme}
  {e : SyntaxError}

theorem Stumbles.scanFrom_eq (h : Stumbles found place position cs) :
    scanFrom 0 position cs = .error (.unknownToken found place) := by
  induction h with
  | @here rest notBlank noToken =>
    cases ht : Token.ofChars? found rest with
    | none => simp [scanFrom, notBlank, ht]
    | some known =>
      obtain ⟨t, n⟩ := known
      obtain ⟨s, after, rfl, -, spells, -⟩ := Token.exists_spelling ht
      exact (noToken t (found :: s) after spells rfl).elim
  | blank isBlank _ ih => rw [scanFrom_blank isBlank, ih]
  | @token position s rest t spells ends _ ih =>
    cases s with
    | nil => exact (spells.ne_nil rfl).elim
    | cons c s =>
      obtain ⟨hb, ht⟩ := Token.ofChars?_of_spells spells ends
      rw [List.cons_append, scanFrom_token hb ht, scanFrom_skip, Nat.add_assoc, Nat.add_comm 1,
        ← List.length_cons, ih]
      rfl

theorem stumbles_of_scanFrom (h : scanFrom skip position cs = .error e) :
    ∃ found place, e = .unknownToken found place ∧
      Stumbles found place (position + skip) (cs.drop skip) := by
  induction cs generalizing skip position with
  | nil => simp [scanFrom] at h
  | cons c rest ih =>
    cases skip with
    | succ skip =>
      rw [scanFrom] at h
      rw [List.drop_succ_cons, ← Nat.add_assoc, Nat.add_right_comm]
      exact ih h
    | zero =>
      cases hb : Text.isBlank c with
      | true =>
        rw [scanFrom_blank hb] at h
        obtain ⟨found, place, rfl, hs⟩ := ih h
        exact ⟨found, place, rfl, .blank hb hs⟩
      | false =>
        cases ht : Token.ofChars? c rest with
        | none =>
          obtain rfl : _ = e := by simpa [scanFrom, hb, ht] using h
          refine ⟨c, position, rfl, .here hb ?_⟩
          rintro t (_ | ⟨c', s⟩) after spells heq
          · exact spells.ne_nil rfl
          · cases heq
            exact Token.ofChars?_ne_none spells ht
        | some known =>
          obtain ⟨t, n⟩ := known
          obtain ⟨s, after, rfl, rfl, spells, ends⟩ := Token.exists_spelling ht
          rw [scanFrom_token hb ht] at h
          cases hrest : scanFrom s.length (position + 1) (s ++ after) with
          | ok lexemes =>
            rw [hrest] at h
            cases h
          | error e' =>
            rw [hrest] at h
            cases h
            obtain ⟨found, place, rfl, hs⟩ := ih hrest
            rw [List.drop_left, Nat.add_assoc, Nat.add_comm 1, ← List.length_cons] at hs
            exact ⟨found, place, rfl, .token t spells ends hs⟩

theorem scanFrom_error_iff : scanFrom 0 position cs = .error e ↔
    ∃ found place, e = .unknownToken found place ∧ Stumbles found place position cs := by
  constructor
  · exact stumbles_of_scanFrom
  · rintro ⟨found, place, rfl, h⟩
    exact h.scanFrom_eq

theorem scans_nil_iff : Scans position cs [] ↔ ∀ c ∈ cs, Text.isBlank c := by
  constructor
  · intro h
    generalize hn : ([] : List Lexeme) = lexemes at h
    induction h with
    | done => simp
    | blank isBlank _ ih => simpa [isBlank] using ih hn
    | token => simp at hn
  · intro h
    induction cs generalizing position with
    | nil => exact .done
    | cons c rest ih =>
      rw [List.forall_mem_cons] at h
      exact .blank h.1 (ih h.2)

-- ---------------------------------------------------------------------------
-- Positions
-- ---------------------------------------------------------------------------

theorem Stumbles.found_at (h : Stumbles found place position cs) :
    ∃ k, place = position + k ∧ [found] <+: cs.drop k := by
  induction h with
  | here => exact ⟨0, rfl, List.prefix_append [found] _⟩
  | @blank position c rest _ _ ih =>
    obtain ⟨k, hk, hp⟩ := ih
    exact ⟨k + 1, by rw [hk, Nat.add_assoc, Nat.add_comm 1], hp⟩
  | @token position s rest t _ _ _ ih =>
    obtain ⟨k, hk, hp⟩ := ih
    exact ⟨s.length + k, by rw [hk, Nat.add_assoc], by rwa [List.drop_length_add_append]⟩

theorem Scans.text_at (h : Scans position cs lexemes) {x : Lexeme} (hx : x ∈ lexemes) :
    ∃ k, x.position = position + k ∧ x.text.toList <+: cs.drop k ∧ x.text.toList ≠ [] := by
  induction h with
  | done => simp at hx
  | @blank position c rest lexemes _ _ ih =>
    obtain ⟨k, hk, hp⟩ := ih hx
    exact ⟨k + 1, by rw [hk, Nat.add_assoc, Nat.add_comm 1], hp⟩
  | @token position s rest lexemes t spells _ _ ih =>
    rcases List.mem_cons.mp hx with rfl | hx
    · exact ⟨0, rfl, by simp, by simpa using spells.ne_nil⟩
    · obtain ⟨k, hk, hp⟩ := ih hx
      exact ⟨s.length + k, by rw [hk, Nat.add_assoc], by rwa [List.drop_length_add_append]⟩

end Lexeme

-- ---------------------------------------------------------------------------
-- The first fault of a list of tokens
-- ---------------------------------------------------------------------------

/-- The tokens up to the refused one begin no sentence, those before it do. -/
def Breaks (before : List Lexeme) (x : Lexeme) : Prop :=
  Viable (before.map (·.token)) ∧ ¬ Viable (before.map (·.token) ++ [x.token])

/-- In every sentence that begins with these tokens, the last of them is the first that opens a level
inside as many as allowed. -/
def Overflows (before : List Lexeme) (x : Lexeme) : Prop :=
  x.token.opens ∧ ∀ (d : Derivation .implication) (more : List Token),
    d.tokens = before.map (·.token) ++ x.token :: more → ∃ earlier later,
      d.placed 0 = earlier ++ (x.token, nestingLimit) :: later ∧
        earlier.length = before.length ∧ ∀ p ∈ earlier, p.1.opens → p.2 < nestingLimit

/-- The first place where the lexemes go wrong, and how. -/
inductive FirstFault : List Lexeme → SyntaxError → Prop
  | empty : FirstFault [] .empty
  | unexpectedToken {before x after} (breaks : Breaks before x) :
      FirstFault (before ++ x :: after) (.unexpectedToken x.text x.position)
  | trailingInput {before x after} (breaks : Breaks before x) :
      FirstFault (before ++ x :: after) (.trailingInput x.text x.position)
  | unmatched {before x after} (closing : x.token = .closing) (breaks : Breaks before x) :
      FirstFault (before ++ x :: after) (.unbalancedParen x.position)
  | unclosed {before x after} (opening : x.token = .opening)
      (viable : Viable ((before ++ x :: after).map (·.token)))
      -- All parentheses behind the reported one are paired.
      (balanced : Balanced (after.map (·.token))) (guarded : Guarded [] (after.map (·.token))) :
      FirstFault (before ++ x :: after) (.unbalancedParen x.position)
  | unexpectedEnd {lexemes} (viable : Viable (lexemes.map (·.token))) :
      FirstFault lexemes .unexpectedEnd
  | tooDeep {before x after} (viable : Viable ((before ++ [x]).map (·.token)))
      (overflows : Overflows before x) : FirstFault (before ++ x :: after) (.tooDeep x.position)

def SyntaxError.found? : SyntaxError → Option String
  | unknownToken found _ => some (String.singleton found)
  | unexpectedToken found _ | trailingInput found _ => some found
  | _ => none

theorem FirstFault.exists_lexeme {lexemes : List Lexeme} {e : SyntaxError}
    (h : FirstFault lexemes e) {position : Nat} (hp : e.position? = some position) :
    ∃ x ∈ lexemes, x.position = position ∧ ∀ found, e.found? = some found → found = x.text := by
  cases h with
  | empty | unexpectedEnd => simp [SyntaxError.position?] at hp
  | @unexpectedToken _ x | @trailingInput _ x | @unmatched _ x | @unclosed _ x | @tooDeep _ x =>
    cases hp
    exact ⟨x, List.mem_append_right _ List.mem_cons_self, rfl, by simp [SyntaxError.found?, eq_comm]⟩

namespace Reading

variable {r r' : Reading} {x : Lexeme} {before lexemes : List Lexeme} {e : SyntaxError}

theorem foldlM_append_ok {left right : List Lexeme} : (left ++ right).foldlM read r = .ok r' ↔
    ∃ r₁, left.foldlM read r = .ok r₁ ∧ right.foldlM read r₁ = .ok r' := by
  rw [List.foldlM_append]
  cases left.foldlM read r <;> simp [bind, Except.bind]

theorem exists_refused (h : lexemes.foldlM read r = .error e) : ∃ before x after r',
    lexemes = before ++ x :: after ∧ before.foldlM read r = .ok r' ∧ r'.read x = .error e := by
  induction lexemes generalizing r with
  | nil => simp [pure, Except.pure] at h
  | cons x rest ih =>
    rw [List.foldlM_cons] at h
    cases hx : r.read x with
    | error e' =>
      obtain rfl : e' = e := by simpa [hx, bind, Except.bind] using h
      exact ⟨[], x, rest, r, rfl, rfl, hx⟩
    | ok r₁ =>
      obtain ⟨before, y, after, r', rfl, hb, hy⟩ :=
        ih (r := r₁) (by simpa [hx, bind, Except.bind] using h)
      exact ⟨x :: before, y, after, r', rfl, foldlM_cons_ok.mpr ⟨r₁, hx, hb⟩, hy⟩

/-- A token that is refused for its depth has as many levels around it as allowed, whatever the
sentence is that begins with what has been read. -/
theorem overflows (hb : before.foldlM read (.operand []) = .ok r)
    (hx : r.read x = .error e) (opens : x.token.opens) (full : r.around x.token = nestingLimit) :
    Overflows before x := by
  refine ⟨opens, fun d more tokens => ?_⟩
  have hmap : (before ++ x :: unplaced more).map (·.token) = d.tokens := by
    simp [tokens, map_token_unplaced]
  have hd : (operand []).levels _ <+: d.placed 0 :=
    levels_isPrefix d (Category.fits_nil _) (Nat.zero_le _) hmap
  obtain ⟨happ, hlen⟩ := levels_append_ok hb (x :: unplaced more)
  rw [happ, levels_error hx, full] at hd
  obtain ⟨later, hlater⟩ := hd
  exact ⟨_, later, by rw [← hlater, List.append_assoc]; rfl, hlen, fun p => levels_lt hb⟩

theorem firstFault_of_refused (hb : before.foldlM read (.operand []) = .ok r)
    (hx : r.read x = .error e) (after : List Lexeme) : FirstFault (before ++ x :: after) e := by
  have hf := follows hb
  have hresponse := response r x
  rw [hx] at hresponse
  cases hresponse with
  | unexpected => exact .unexpectedToken ⟨hf.viable, not_viable hb hx (by simp)⟩
  | trailing => exact .trailingInput ⟨hf.viable, not_viable hb hx (by simp)⟩
  | unbalanced closing => exact .unmatched closing ⟨hf.viable, not_viable hb hx (by simp)⟩
  | tooDeep opens full =>
    obtain ⟨viable, le⟩ := hf.viable_of_tooDeep hx
    exact .tooDeep (by simpa using viable) (overflows hb hx opens (Nat.le_antisymm le full))

/-- A parenthesis is the innermost open one as long as what follows it is a phrase. -/
theorem finish_of_unclosed {left right : List Lexeme} (d : Derivation .implication)
    (hr : (left ++ x :: right).foldlM read (.operand []) = .ok r) (hx : x.token = .opening)
    (tokens : right.map (·.token) = d.tokens) :
    r.finish = .error (.unbalancedParen x.position) := by
  obtain ⟨r₁, -, hright⟩ := foldlM_append_ok.mp hr
  obtain ⟨r₂, hread, hrest⟩ := foldlM_cons_ok.mp hright
  cases r₁ with
  | operator outer f =>
    simp only [read, readOperator, hx] at hread
    split at hread <;> simp at hread
  | operand outer =>
    rw [read_opening hx] at hread
    obtain ⟨room, rfl⟩ := ok_of_push hread
    have hfits : Category.implication.Fits (.paren x.position :: outer) :=
      Category.fits_cons.mpr (Nat.zero_lt_succ _)
    have h := outcome d hfits (by simpa using Nat.succ_le_of_lt room) tokens
    rw [hrest] at h
    cases h with
    | read shallow strong filled => simp [finish, Frame.close_append strong, Frame.close]

theorem firstFault_of_finish (hr : lexemes.foldlM read (.operand []) = .ok r)
    (h : r.finish = .error e) : FirstFault lexemes e := by
  have hf := follows hr
  cases r with
  | operand outer =>
    obtain rfl : _ = e := by simpa [finish] using h
    exact .unexpectedEnd hf.viable
  | operator outer f =>
    rcases EndsIn.close hf with ⟨g, hclose, -⟩ | ⟨g, p, outer', hclose, opened, d, tokens, -⟩
    · simp [finish, hclose] at h
    · obtain ⟨start, -, rfl⟩ := opened.of_paren
      rw [List.append_assoc] at tokens
      obtain ⟨left, x, right, rfl, -, hx, hright⟩ := exists_joint tokens
      rw [finish_of_unclosed d hr hx hright] at h
      cases h
      refine .unclosed hx hf.viable ?_ ?_ <;> rw [hright]
      · exact d.balanced
      · exact d.guarded

end Reading

namespace Formula

theorem firstFault_of_ofLexemes {lexemes : List Lexeme} {e : SyntaxError}
    (h : ofLexemes lexemes = .error e) : FirstFault lexemes e := by
  unfold ofLexemes at h
  cases hr : lexemes.foldlM Reading.read (.operand []) with
  | error e' =>
    obtain rfl : e' = e := by simpa [hr, bind, Except.bind] using h
    obtain ⟨before, x, after, r, rfl, hb, hx⟩ := Reading.exists_refused hr
    exact Reading.firstFault_of_refused hb hx after
  | ok r => exact Reading.firstFault_of_finish hr (by simpa [hr, bind, Except.bind] using h)

theorem firstFault_of_parse {text : String} {lexemes : List Lexeme} {e : SyntaxError}
    (hs : Lexeme.Scans 0 text.toList lexemes) (h : parse text = .error e) :
    FirstFault lexemes e := by
  unfold parse Lexeme.scan at h
  rw [hs.scanFrom_eq] at h
  cases lexemes with
  | nil =>
    cases h
    exact .empty
  | cons x rest => exact firstFault_of_ofLexemes h

theorem parse_error_cases {text : String} {e : SyntaxError} (h : parse text = .error e) :
    (∃ found place, e = .unknownToken found place ∧ Lexeme.Stumbles found place 0 text.toList) ∨
      ∃ lexemes, Lexeme.Scans 0 text.toList lexemes ∧ FirstFault lexemes e := by
  cases hs : Lexeme.scan text with
  | error e' =>
    obtain rfl : e' = e := by simpa [parse, hs, bind, Except.bind] using h
    exact .inl (Lexeme.scanFrom_error_iff.mp hs)
  | ok lexemes =>
    have scans := Lexeme.scanFrom_iff.mp hs
    exact .inr ⟨lexemes, scans, firstFault_of_parse scans h⟩

theorem parse_unknownToken_iff {text : String} {found : Char} {place : Nat} :
    parse text = .error (.unknownToken found place) ↔
      Lexeme.Stumbles found place 0 text.toList := by
  constructor
  · intro h
    rcases parse_error_cases h with ⟨found', place', heq, stumbles⟩ | ⟨lexemes, -, fault⟩
    · cases heq
      exact stumbles
    · cases fault
  · intro h
    simp [parse, Lexeme.scan, h.scanFrom_eq, bind, Except.bind]

theorem parse_empty_iff {text : String} :
    parse text = .error .empty ↔ ∀ c ∈ text.toList, Text.isBlank c := by
  constructor
  · intro h
    rcases parse_error_cases h with ⟨_, _, heq, -⟩ | ⟨lexemes, scans, fault⟩
    · cases heq
    · cases fault
      exact Lexeme.scans_nil_iff.mp scans
  · intro h
    have scans : Lexeme.Scans 0 text.toList [] := Lexeme.scans_nil_iff.mpr h
    simp [parse, Lexeme.scan, scans.scanFrom_eq, bind, Except.bind]

theorem found_at_position {text : String} {e : SyntaxError} (h : parse text = .error e) {n : Nat}
    (hn : e.position? = some n) : n < text.length ∧
      ∀ found, e.found? = some found → found.toList <+: text.toList.drop n := by
  obtain ⟨s, hs, hne, hfound⟩ : ∃ s : List Char, s <+: text.toList.drop n ∧ s ≠ [] ∧
      ∀ found, e.found? = some found → found.toList = s := by
    rcases parse_error_cases h with ⟨c, place, rfl, stumbles⟩ | ⟨lexemes, scans, fault⟩
    · obtain rfl : place = n := by simpa [SyntaxError.position?] using hn
      obtain ⟨k, hk, hp⟩ := stumbles.found_at
      rw [Nat.zero_add] at hk
      exact ⟨[c], hk ▸ hp, by simp, by simp [SyntaxError.found?, eq_comm]⟩
    · obtain ⟨x, hx, rfl, hfound⟩ := fault.exists_lexeme hn
      obtain ⟨k, hk, hp, hne⟩ := scans.text_at hx
      rw [Nat.zero_add] at hk
      exact ⟨x.text.toList, hk ▸ hp, hne, fun found hf => by rw [hfound found hf]⟩
  refine ⟨?_, fun found hf => hfound found hf ▸ hs⟩
  apply Nat.lt_of_not_le
  intro hle
  rw [List.drop_of_length_le hle] at hs
  exact hne (List.prefix_nil.mp hs)

/-- A text is refused at the first place where it goes wrong. An unknown token is reported exactly
where the scan meets a character that starts none, and an empty formula exactly if all is blank. Any
reported position is inside the text, with what is quoted standing there; and apart from unknown
tokens, the error is the first fault of the tokens of the text. -/
theorem parse_error_at_fault (text : String) :
    (∀ found place, parse text = .error (.unknownToken found place) ↔
      Lexeme.Stumbles found place 0 text.toList) ∧
    (parse text = .error .empty ↔ ∀ c ∈ text.toList, Text.isBlank c) ∧
    ∀ e, parse text = .error e →
      (∀ n, e.position? = some n → n < text.length ∧
        ∀ found, e.found? = some found → found.toList <+: text.toList.drop n) ∧
      ∀ lexemes, Lexeme.Scans 0 text.toList lexemes → FirstFault lexemes e := by
  refine ⟨fun _ _ => parse_unknownToken_iff, parse_empty_iff, fun e h => ⟨?_, ?_⟩⟩
  · intro n hn
    exact found_at_position h hn
  · intro lexemes scans
    exact firstFault_of_parse scans h

/-- The group is still open where its operand ends and another begins. -/
theorem parse_error_at_fault_openGroup :
    parse "(p -> [](q & <>r) s | t)" = .error (.unexpectedToken "s" 18) ∧
      18 < "(p -> [](q & <>r) s | t)".length ∧
      ∃ lexemes, Lexeme.Scans 0 "(p -> [](q & <>r) s | t)".toList lexemes ∧
        FirstFault lexemes (.unexpectedToken "s" 18) := by
  have h : parse "(p -> [](q & <>r) s | t)" = .error (.unexpectedToken "s" 18) := rfl
  obtain ⟨place, fault⟩ := (parse_error_at_fault _).2.2 _ h
  refine ⟨h, (place 18 rfl).1, ?_⟩
  rcases parse_error_cases h with ⟨_, _, heq, -⟩ | ⟨lexemes, scans, -⟩
  · cases heq
  · exact ⟨lexemes, scans, fault lexemes scans⟩

end Formula
end ModalTableau
