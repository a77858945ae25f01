import ModalTableau.Proofs.Acceptance

/-!
# Viable beginnings

Tokens are viable if a whole sentence begins with them. Everything that is read without an error is
viable (`Reading.Follows.viable`), and a token that is refused for another reason than its depth is
not viable where it stands (`Reading.not_viable`). While a sentence is read, the frames around a
token count the levels that the derivation has around it (`Reading.levels_isPrefix`).
-/

namespace ModalTableau

/-- The tokens begin a sentence, however deep that is nested. -/
def Viable (ts : List Token) : Prop :=
  ∃ (d : Derivation .implication) (more : List Token), d.tokens = ts ++ more

def Token.opens : Token → Bool
  | connective .not | connective .box | connective .diamond | connective .implies | opening => true
  | _ => false

theorem Modifier.opens_connective (m : Modifier) : (Token.connective m.connective).opens := by
  cases m <;> rfl

theorem Category.implication_least_le (c : Category) : implication.least ≤ c.least := by
  cases c <;> decide

-- ---------------------------------------------------------------------------
-- Sentences that begin with what has been read
-- ---------------------------------------------------------------------------

theorem Opened.completes {outer : List Frame} {ts : List Token} (h : Opened outer ts) {c : Category}
    (d : Derivation c) (fits : c.Fits outer) : Viable (ts ++ d.tokens) := by
  induction h generalizing c with
  | nil =>
    obtain ⟨e, tokens, -⟩ := d.exists_widened c.implication_least_le
    exact ⟨e, [], by simp [tokens]⟩
  | modifier m opened room ih =>
    have hle := Category.least_operand_le (Category.fits_cons.mp fits)
    rw [m.operand_frame] at hle
    obtain ⟨e, tokens, -⟩ := d.exists_widened hle
    simpa [tokens] using ih (.modified m e) (Category.fits_unary _)
  | paren position opened room ih =>
    obtain ⟨e, tokens, -⟩ := d.exists_widened c.implication_least_le
    obtain ⟨whole, more, hwhole⟩ := ih (.paren e) (Category.fits_unary _)
    exact ⟨whole, .closing :: more, by simp [hwhole, tokens]⟩
  | and left opened fits' shallow ih =>
    have hle := Category.least_operand_le (Category.fits_cons.mp fits)
    obtain ⟨e, tokens, -⟩ := d.exists_widened (show Category.unary.least ≤ c.least from hle)
    simpa [tokens] using ih (.and left e) fits'
  | or left opened fits' shallow ih =>
    have hle := Category.least_operand_le (Category.fits_cons.mp fits)
    obtain ⟨e, tokens, -⟩ := d.exists_widened (show Category.conjunction.least ≤ c.least from hle)
    simpa [tokens] using ih (.or left e) fits'
  | implies left opened fits' shallow room ih =>
    have hle := Category.least_operand_le (Category.fits_cons.mp fits)
    obtain ⟨e, tokens, -⟩ := d.exists_widened (show Category.implication.least ≤ c.least from hle)
    simpa [tokens] using ih (.implies left e) fits'

theorem Viable.of_append {ts us : List Token} (h : Viable (ts ++ us)) : Viable ts := by
  obtain ⟨d, more, tokens⟩ := h
  exact ⟨d, us ++ more, by rw [tokens, List.append_assoc]⟩

theorem EndsIn.viable {c : Category} {outer : List Frame} {ts : List Token} {f : Formula}
    (h : EndsIn c outer ts f) : Viable ts := by
  obtain ⟨opened, d, rfl, -, fits, -⟩ := h
  exact opened.completes d fits

namespace Reading

variable {r r' : Reading} {outer : List Frame} {ts : List Token} {x : Lexeme} {f : Formula}
  {before lexemes : List Lexeme} {e : SyntaxError}

theorem Follows.viable (h : Follows ts r) : Viable ts := by
  cases r with
  | operand outer => exact (Opened.completes h (.atom "p") (Category.fits_unary _)).of_append
  | operator outer f => exact EndsIn.viable h

theorem foldlM_cons_ok {rest : List Lexeme} : (x :: rest).foldlM read r = .ok r' ↔
    ∃ r₁, r.read x = .ok r₁ ∧ rest.foldlM read r₁ = .ok r' := by
  rw [List.foldlM_cons]
  cases r.read x <;> simp [bind, Except.bind]

theorem follows (h : lexemes.foldlM read (.operand []) = .ok r) :
    Follows (lexemes.map (·.token)) r := by
  have hstart : Follows [] (.operand []) := Opened.nil
  exact hstart.foldlM h

-- ---------------------------------------------------------------------------
-- Tokens accepted and refused
-- ---------------------------------------------------------------------------

def around : Reading → Token → Nat
  | operand outer, _ => Frame.level outer
  | operator outer f, .connective .and => Frame.level (Frame.collapse 3 f outer).2
  | operator outer f, .connective .or | operator outer f, .connective .implies =>
    Frame.level (Frame.collapse 2 f outer).2
  | operator outer f, .closing => (Frame.close f outer).2.elim 0 (Frame.level ·.2)
  | operator outer _, _ => Frame.level outer

inductive Response (r : Reading) (x : Lexeme) : Except SyntaxError Reading → Prop
  | ok {r' : Reading} (room : x.token.opens → r.around x.token < nestingLimit) :
      Response r x (.ok r')
  | unexpected : Response r x (.error (.unexpectedToken x.text x.position))
  | trailing : Response r x (.error (.trailingInput x.text x.position))
  | unbalanced (closing : x.token = .closing) : Response r x (.error (.unbalancedParen x.position))
  | tooDeep (opens : x.token.opens) (full : nestingLimit ≤ r.around x.token) :
      Response r x (.error (.tooDeep x.position))

theorem response_push (frame : Frame) (opens : x.token.opens)
    (around : r.around x.token = Frame.level outer) :
    Response r x (operand <$> frame.push x.position outer) := by
  rcases operand_push frame outer x.position with ⟨room, hp⟩ | ⟨full, hp⟩ <;> rw [hp]
  · exact .ok fun _ => by rwa [around]
  · exact .tooDeep opens (by rwa [around])

theorem response_operand (outer : List Frame) (x : Lexeme) :
    Response (.operand outer) x (read (.operand outer) x) := by
  cases hx : x.token with
  | atom name =>
    rw [read_atom hx]
    exact .ok (by simp [hx, Token.opens])
  | connective k =>
    rcases k.eq_modifier_or_isBinary with ⟨m, rfl⟩ | hk
    · rw [read_modifier hx]
      exact response_push m.frame (by rw [hx, m.opens_connective]) rfl
    · have hr : read (.operand outer) x = .error (.unexpectedToken x.text x.position) := by
        cases k <;> simp_all [read, readOperand, Connective.isBinary]
      rw [hr]
      exact .unexpected
  | opening =>
    rw [read_opening hx]
    exact response_push _ (by rw [hx, Token.opens]) rfl
  | closing =>
    simp only [read, readOperand, hx]
    exact .unexpected

theorem response_operator (outer : List Frame) (f : Formula) (x : Lexeme) :
    Response (.operator outer f) x (read (.operator outer f) x) := by
  cases hx : x.token with
  | connective k =>
    cases k with
    | and | or =>
      simp only [read, readOperator, hx]
      exact .ok (by simp [hx, Token.opens])
    | implies =>
      rw [read_implies hx]
      exact response_push _ (by rw [hx, Token.opens]) (by rw [hx, around])
    | _ =>
      simp only [read, readOperator, hx]
      split
      · exact .unexpected
      · exact .trailing
  | closing =>
    simp only [read, readOperator, hx]
    split
    · exact .ok (by simp [hx, Token.opens])
    · exact .unbalanced hx
  | _ =>
    simp only [read, readOperator, hx]
    split
    · exact .unexpected
    · exact .trailing

theorem response (r : Reading) (x : Lexeme) : Response r x (r.read x) := by
  cases r with
  | operand outer => exact response_operand outer x
  | operator outer f => exact response_operator outer f x

/-- A token that would open one level too many begins a phrase all the same. -/
theorem Follows.viable_of_tooDeep {n : Nat} (h : Follows ts r)
    (hx : r.read x = .error (.tooDeep n)) :
    Viable (ts ++ [x.token]) ∧ r.around x.token ≤ nestingLimit := by
  cases r with
  | operand outer =>
    have opened : Opened outer ts := h
    refine ⟨?_, opened.level_le⟩
    cases ht : x.token with
    | connective k =>
      rcases k.eq_modifier_or_isBinary with ⟨m, rfl⟩ | hk
      · have hv := opened.completes (.modified m (.atom "p")) (Category.fits_unary _)
        rw [Derivation.tokens_modified, List.append_cons] at hv
        exact hv.of_append
      · cases k <;> simp_all [Reading.read, readOperand, Connective.isBinary]
    | opening =>
      have hv := opened.completes (.paren (Derivation.atom "p").toImplication)
        (Category.fits_unary _)
      rw [Derivation.tokens_paren, List.append_cons] at hv
      exact hv.of_append
    | _ => simp [Reading.read, readOperand, ht] at hx
  | operator outer f =>
    cases ht : x.token with
    | connective k =>
      cases k with
      | and | or => simp [Reading.read, readOperator, ht] at hx
      | implies =>
        have hleft : EndsIn .disjunction _ ts _ := EndsIn.collapse h rfl (by decide)
        obtain ⟨opened, d, rfl, -, fits, -⟩ := hleft
        have hv := opened.completes (c := .implication)
          (.implies d (Derivation.atom "p").toImplication) fits
        rw [Derivation.tokens_implies, ← List.append_assoc, List.append_cons] at hv
        exact ⟨hv.of_append, opened.level_le⟩
      | _ =>
        simp only [Reading.read, readOperator, ht] at hx
        split at hx <;> simp at hx
    | _ =>
      simp only [Reading.read, readOperator, ht] at hx
      split at hx <;> simp at hx

theorem foldlM_refused (hb : before.foldlM read r = .ok r') (hx : r'.read x = .error e)
    (after : List Lexeme) : (before ++ x :: after).foldlM read r = .error e := by
  rw [List.foldlM_append, hb]
  show (x :: after).foldlM read r' = _
  rw [List.foldlM_cons, hx]
  rfl

def unplaced (ts : List Token) : List Lexeme := ts.map fun t => ⟨t, 0, ""⟩

theorem map_token_unplaced (ts : List Token) : (unplaced ts).map (·.token) = ts := by
  rw [unplaced, List.map_map]
  exact List.map_id ts

theorem not_viable (hb : before.foldlM read (.operand []) = .ok r) (hx : r.read x = .error e)
    (he : ∀ position, e ≠ .tooDeep position) :
    ¬ Viable (before.map (·.token) ++ [x.token]) := by
  rintro ⟨d, more, tokens⟩
  have hmap : (before ++ x :: unplaced more).map (·.token) = d.tokens := by
    simp [tokens, map_token_unplaced]
  have h := outcome d (Category.fits_nil _) (Nat.zero_le _) hmap
  rw [foldlM_refused hb hx] at h
  cases h with
  | tooDeep deep => exact he _ rfl

-- ---------------------------------------------------------------------------
-- Levels
-- ---------------------------------------------------------------------------

/-- The tokens that are read, up to a refused one, each with the levels around it. -/
def levels : Reading → List Lexeme → List (Token × Nat)
  | _, [] => []
  | r, x :: rest => (x.token, r.around x.token) ::
    match r.read x with
    | .ok r' => r'.levels rest
    | .error _ => []

theorem levels_ok (h : r.read x = .ok r') (rest : List Lexeme) :
    r.levels (x :: rest) = (x.token, r.around x.token) :: r'.levels rest := by
  simp only [levels, h]

theorem levels_error (h : r.read x = .error e) (rest : List Lexeme) :
    r.levels (x :: rest) = [(x.token, r.around x.token)] := by
  simp only [levels, h]

theorem levels_append_ok (h : before.foldlM read r = .ok r') (rest : List Lexeme) :
    r.levels (before ++ rest) = r.levels before ++ r'.levels rest ∧
      (r.levels before).length = before.length := by
  induction before generalizing r with
  | nil =>
    obtain rfl : r = r' := by simpa [pure, Except.pure] using h
    exact ⟨rfl, rfl⟩
  | cons x before ih =>
    obtain ⟨r₁, hx, hb⟩ := foldlM_cons_ok.mp h
    obtain ⟨happ, hlen⟩ := ih hb
    rw [List.cons_append, levels_ok hx, levels_ok hx, happ]
    exact ⟨rfl, by simp [hlen]⟩

theorem levels_append_error (h : before.foldlM read r = .error e) (rest : List Lexeme) :
    r.levels (before ++ rest) = r.levels before := by
  induction before generalizing r with
  | nil => simp [pure, Except.pure] at h
  | cons x before ih =>
    rw [List.foldlM_cons] at h
    cases hx : r.read x with
    | error e => rw [List.cons_append, levels_error hx, levels_error hx]
    | ok r₁ =>
      have happ := ih (r := r₁) (by simpa [hx, bind, Except.bind] using h)
      rw [List.cons_append, levels_ok hx, levels_ok hx, happ]

theorem levels_lt (h : before.foldlM read r = .ok r') {p : Token × Nat} (hp : p ∈ r.levels before)
    (opens : p.1.opens) : p.2 < nestingLimit := by
  induction before generalizing r with
  | nil => simp [levels] at hp
  | cons x before ih =>
    obtain ⟨r₁, hx, hb⟩ := foldlM_cons_ok.mp h
    have hresponse := response r x
    rw [levels_ok hx] at hp
    rw [hx] at hresponse
    cases hresponse with
    | ok room =>
      rcases List.mem_cons.mp hp with rfl | hp
      · exact room opens
      · exact ih hb hp

theorem levels_joint {c : Category} (d : Derivation c) {left rest : List Lexeme} {n : Nat}
    {tail : List (Token × Nat)} (fits : c.Fits outer) (shallow : Frame.level outer ≤ nestingLimit)
    (tokens : left.map (·.token) = d.tokens) (ih : (operand outer).levels left <+: d.placed n)
    (next : ∀ inner f, (∀ frame ∈ inner, c.least ≤ frame.strength) →
      Frame.fillAll f inner = d.formula → (operator (inner ++ outer) f).levels rest <+: tail) :
    (operand outer).levels (left ++ rest) <+: d.placed n ++ tail := by
  have h := outcome d fits shallow tokens
  generalize hr : left.foldlM read (operand outer) = result at h
  cases h with
  | @read inner f shallow' strong filled =>
    obtain ⟨happ, hlen⟩ := levels_append_ok hr rest
    have hsame : (d.placed n).length = left.length := by
      rw [← List.length_map (f := Prod.fst), d.map_fst_placed, ← tokens, List.length_map]
    rw [happ, ih.eq_of_length (by rw [hlen, hsame])]
    exact List.prefix_append_right_inj _ |>.mpr (next inner f strong filled)
  | tooDeep deep =>
    rw [levels_append_error hr]
    exact ih.trans (List.prefix_append _ _)

theorem levels_push {frame : Frame} {n : Nat} {rest : List Lexeme} {tail : List (Token × Nat)}
    (around : r.around x.token = n) (hr : r.read x = operand <$> frame.push x.position outer)
    (next : Frame.level outer < nestingLimit → (operand (frame :: outer)).levels rest <+: tail) :
    r.levels (x :: rest) <+: (x.token, n) :: tail := by
  rcases operand_push frame outer x.position with ⟨room, hp⟩ | ⟨-, hp⟩ <;> rw [hp] at hr
  · rw [levels_ok hr, around, List.prefix_cons_inj]
    exact next room
  · rw [levels_error hr, around]
    exact List.prefix_append [_] tail

/-- The frames around a token count the levels that a derivation has around it. -/
theorem levels_isPrefix {c : Category} (d : Derivation c) (fits : c.Fits outer)
    (shallow : Frame.level outer ≤ nestingLimit) (tokens : lexemes.map (·.token) = d.tokens) :
    (operand outer).levels lexemes <+: d.placed (Frame.level outer) := by
  induction d generalizing outer lexemes with
  | atom name =>
    obtain ⟨x, rfl, hx⟩ : ∃ x, lexemes = [x] ∧ x.token = .atom name := by simpa using tokens
    rw [levels_ok (read_atom hx), hx]
    exact List.prefix_refl _
  | modified m d ih =>
    rw [Derivation.tokens_modified] at tokens
    obtain ⟨x, rest, rfl, hx, hrest⟩ := List.map_eq_cons_iff.mp tokens
    rw [Derivation.placed, ← hx]
    refine levels_push rfl (read_modifier hx) fun room => ?_
    rw [← Frame.level_modifier m]
    exact ih (Category.fits_unary _) (by simpa using Nat.succ_le_of_lt room) hrest
  | paren d ih =>
    rw [Derivation.tokens_paren] at tokens
    obtain ⟨x, rest, rfl, hx, hrest⟩ := List.map_eq_cons_iff.mp tokens
    obtain ⟨body, y, last, rfl, hbody, hy, hlast⟩ := exists_joint hrest
    obtain rfl := List.map_eq_nil_iff.mp hlast
    rw [Derivation.placed, List.cons_append, ← hx]
    refine levels_push rfl (read_opening hx) fun room => ?_
    have hfits : Category.implication.Fits (.paren x.position :: outer) :=
      Category.fits_cons.mpr (Nat.zero_lt_succ _)
    have hshallow : Frame.level (.paren x.position :: outer) ≤ nestingLimit := by
      simpa using Nat.succ_le_of_lt room
    have hd := ih hfits hshallow hbody
    rw [Frame.level_paren] at hd
    refine levels_joint d hfits hshallow hbody hd fun inner f strong filled => ?_
    have hclose : Frame.close f (inner ++ .paren x.position :: outer) =
        (d.formula, some (x.position, outer)) := by
      rw [Frame.close_append strong, filled]
      rfl
    rw [levels_ok (read_closing hy hclose), hy, around, hclose]
    exact List.prefix_refl _
  | unary d ih => exact ih (Category.fits_unary _) shallow tokens
  | and d e ihd ihe =>
    rw [Derivation.tokens_and] at tokens
    obtain ⟨left, x, right, rfl, hleft, hx, hright⟩ := exists_joint tokens
    refine levels_joint d fits shallow hleft (ihd fits shallow hleft) fun inner f strong filled => ?_
    have hcollapse := Frame.collapse_append (f := f) 3 strong fits
    rw [levels_ok (read_and hx), hx, around, hcollapse, List.prefix_cons_inj]
    exact ihe (Category.fits_unary _) shallow hright
  | conjunction d ih => exact ih (fits.mono (by decide)) shallow tokens
  | or d e ihd ihe =>
    rw [Derivation.tokens_or] at tokens
    obtain ⟨left, x, right, rfl, hleft, hx, hright⟩ := exists_joint tokens
    refine levels_joint d fits shallow hleft (ihd fits shallow hleft) fun inner f strong filled => ?_
    have hcollapse := Frame.collapse_append (f := f) 2 strong fits
    rw [levels_ok (read_or hx), hx, around, hcollapse, List.prefix_cons_inj]
    exact ihe (Category.fits_cons.mpr (Nat.lt_succ_self _)) shallow hright
  | disjunction d ih => exact ih fits shallow tokens
  | implies d e ihd ihe =>
    rw [Derivation.tokens_implies] at tokens
    obtain ⟨left, x, right, rfl, hleft, hx, hright⟩ := exists_joint tokens
    refine levels_joint d fits shallow hleft (ihd fits shallow hleft) fun inner f strong filled => ?_
    have hcollapse := Frame.collapse_append (f := f) 2 strong fits
    rw [← hx]
    have hread : read (.operator (inner ++ outer) f) x =
        operand <$> (Frame.implies (Frame.fillAll f inner)).push x.position outer := by
      rw [read_implies hx, hcollapse]
    refine levels_push (by rw [hx, around, hcollapse]) hread fun room => ?_
    rw [← Frame.level_implies (f := Frame.fillAll f inner)]
    exact ihe (Category.fits_cons.mpr (Nat.lt_succ_self _))
      (by simpa using Nat.succ_le_of_lt room) hright

end Reading
end ModalTableau
