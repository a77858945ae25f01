import ModalTableau.Proofs.Phrases

/-!
# Reading accepts exactly the grammar

Whatever has been read without an error is a stack of frames that derivations fill on their left
(`Opened`), with a derived operand behind them if one has just been read (`Follows`). At the end of
the text all frames are filled, and that makes a derivation of the whole. Together with
`Formula.ofLexemes_of_derivation` this gives `Formula.parse_iff_derivation`.
-/

namespace ModalTableau

def Frame.operand : Frame → Category
  | not | box | diamond | and _ => .unary
  | or _ => .conjunction
  | implies _ | paren _ => .implication

theorem Modifier.operand_frame (m : Modifier) : m.frame.operand = .unary := by cases m <;> rfl

theorem Category.least_operand_le {c : Category} {frame : Frame} (h : frame.strength < c.joint) :
    frame.operand.least ≤ c.least := by
  cases c <;> cases frame <;> simp_all [joint, least, Frame.strength, Frame.operand]

/-- The frames that are open after these tokens. -/
inductive Opened : List Frame → List Token → Prop
  | nil : Opened [] []
  | modifier {outer ts} (m : Modifier) (opened : Opened outer ts)
      (room : Frame.level outer < nestingLimit) :
      Opened (m.frame :: outer) (ts ++ [.connective m.connective])
  | paren {outer ts} (position : Nat) (opened : Opened outer ts)
      (room : Frame.level outer < nestingLimit) :
      Opened (.paren position :: outer) (ts ++ [.opening])
  | and {outer ts} (d : Derivation .conjunction) (opened : Opened outer ts)
      (fits : Category.conjunction.Fits outer)
      (shallow : Frame.level outer + d.nesting ≤ nestingLimit) :
      Opened (.and d.formula :: outer) (ts ++ d.tokens ++ [.connective .and])
  | or {outer ts} (d : Derivation .disjunction) (opened : Opened outer ts)
      (fits : Category.disjunction.Fits outer)
      (shallow : Frame.level outer + d.nesting ≤ nestingLimit) :
      Opened (.or d.formula :: outer) (ts ++ d.tokens ++ [.connective .or])
  | implies {outer ts} (d : Derivation .disjunction) (opened : Opened outer ts)
      (fits : Category.implication.Fits outer)
      (shallow : Frame.level outer + d.nesting ≤ nestingLimit)
      (room : Frame.level outer < nestingLimit) :
      Opened (.implies d.formula :: outer) (ts ++ d.tokens ++ [.connective .implies])

theorem Opened.level_le {outer : List Frame} {ts : List Token} (h : Opened outer ts) :
    Frame.level outer ≤ nestingLimit := by
  cases h with
  | nil => exact Nat.zero_le _
  | _ =>
    simp
    omega

theorem Opened.of_paren {p : Nat} {outer : List Frame} {ts : List Token}
    (h : Opened (.paren p :: outer) ts) :
    ∃ before, Opened outer before ∧ ts = before ++ [.opening] := by
  generalize hf : Frame.paren p :: outer = frames at h
  cases h with
  | modifier m opened room => cases m <;> simp [Modifier.frame] at hf
  | paren position opened room =>
    obtain ⟨-, rfl⟩ : p = position ∧ outer = _ := by simpa using hf
    exact ⟨_, opened, rfl⟩
  | _ => simp at hf

/-- The tokens open the frames and end in a phrase of the category with the given formula. -/
inductive EndsIn (c : Category) (outer : List Frame) (ts : List Token) (f : Formula) : Prop
  | intro {before} (opened : Opened outer before) (d : Derivation c)
      (tokens : ts = before ++ d.tokens)
      (formula : f = d.formula) (fits : c.Fits outer)
      (shallow : Frame.level outer + d.nesting ≤ nestingLimit)

namespace EndsIn

variable {c c' : Category} {frame : Frame} {outer : List Frame} {ts : List Token} {f : Formula}

theorem widen (h : EndsIn c outer ts f) (least : c'.least ≤ c.least) (fits : c'.Fits outer) :
    EndsIn c' outer ts f := by
  obtain ⟨opened, d, rfl, rfl, -, shallow⟩ := h
  obtain ⟨e, tokens, formula, nesting⟩ := d.exists_widened least
  exact ⟨opened, e, by rw [tokens], formula.symm, fits, by rwa [nesting]⟩

/-- A phrase fills the innermost frame, unless that is a parenthesis. -/
theorem fill (h : EndsIn c (frame :: outer) ts f) (hf : 1 ≤ frame.strength) :
    ∃ c', c'.least = frame.strength ∧ EndsIn c' outer ts (frame.fill f) := by
  obtain ⟨opened, d, rfl, rfl, fits, shallow⟩ := h
  -- Only phrases that the grammar has in the place of the hole fit into the frame.
  have hle := Category.least_operand_le (Category.fits_cons.mp fits)
  cases opened with
  | modifier m opened room =>
    rw [m.operand_frame] at hle
    rw [Frame.level_modifier] at shallow
    obtain ⟨e, tokens, formula, nesting⟩ := d.exists_widened hle
    refine ⟨.unary, m.strength_frame.symm, opened, .modified m e, ?_, ?_, Category.fits_unary _, ?_⟩
    · simp [tokens]
    · simp [Derivation.formula, formula]
    · simp only [Derivation.nesting]
      omega
  | paren position opened room => simp [Frame.strength] at hf
  | and left opened fits' shallow' =>
    rw [Frame.level_and] at shallow
    obtain ⟨e, tokens, formula, nesting⟩ :=
      d.exists_widened (show Category.unary.least ≤ c.least from hle)
    refine ⟨.conjunction, rfl, opened, .and left e, ?_, ?_, fits', ?_⟩
    · simp [tokens]
    · simp [Derivation.formula, Frame.fill, formula]
    · simp only [Derivation.nesting]
      omega
  | or left opened fits' shallow' =>
    rw [Frame.level_or] at shallow
    obtain ⟨e, tokens, formula, nesting⟩ :=
      d.exists_widened (show Category.conjunction.least ≤ c.least from hle)
    refine ⟨.disjunction, rfl, opened, .or left e, ?_, ?_, fits', ?_⟩
    · simp [tokens]
    · simp [Derivation.formula, Frame.fill, formula]
    · simp only [Derivation.nesting]
      omega
  | implies left opened fits' shallow' room =>
    rw [Frame.level_implies] at shallow
    obtain ⟨e, tokens, formula, nesting⟩ :=
      d.exists_widened (show Category.implication.least ≤ c.least from hle)
    refine ⟨.implication, rfl, opened, .implies left e, ?_, ?_, fits', ?_⟩
    · simp [tokens]
    · simp [Derivation.formula, Frame.fill, formula]
    · simp only [Derivation.nesting]
      omega

/-- A connective behind a phrase fills frames until a phrase that it can join is complete. -/
theorem collapse (h : EndsIn c outer ts f) (hj : c'.least = c'.joint) (hc : c'.least ≤ c.least) :
    EndsIn c' (Frame.collapse c'.least f outer).2 ts (Frame.collapse c'.least f outer).1 := by
  have hone : 1 ≤ c'.least := by cases c' <;> decide
  induction outer generalizing c f with
  | nil => exact h.widen hc (Category.fits_nil _)
  | cons frame outer ih =>
    unfold Frame.collapse
    split
    next hs =>
      obtain ⟨c₁, hc₁, h₁⟩ := h.fill (Nat.le_trans hone hs)
      exact ih h₁ (by rwa [hc₁])
    next hs => exact h.widen hc (Category.fits_cons.mpr (by omega))

theorem close (h : EndsIn c outer ts f) :
    (∃ g, Frame.close f outer = (g, none) ∧ EndsIn .implication [] ts g) ∨
      ∃ g p outer', Frame.close f outer = (g, some (p, outer')) ∧
        EndsIn .implication (.paren p :: outer') ts g := by
  have hc : Category.implication.least ≤ c.least := by cases c <;> decide
  induction outer generalizing c f with
  | nil => exact .inl ⟨f, rfl, h.widen hc (Category.fits_nil _)⟩
  | cons frame outer ih =>
    by_cases hs : 1 ≤ frame.strength
    · obtain ⟨c', hc', h'⟩ := h.fill hs
      rw [Frame.close_of_strong hs]
      exact ih h' (by rwa [hc'])
    · cases frame with
      | paren p =>
        exact .inr ⟨f, p, outer, rfl, h.widen hc (Category.fits_cons.mpr (Nat.zero_lt_succ _))⟩
      | _ => simp [Frame.strength] at hs

end EndsIn

-- ---------------------------------------------------------------------------
-- Reading
-- ---------------------------------------------------------------------------

theorem Connective.eq_modifier_or_isBinary (k : Connective) :
    (∃ m : Modifier, k = m.connective) ∨ k.isBinary := by
  cases k with
  | not => exact .inl ⟨.not, rfl⟩
  | box => exact .inl ⟨.box, rfl⟩
  | diamond => exact .inl ⟨.diamond, rfl⟩
  | _ => exact .inr rfl

namespace Reading

variable {r r' : Reading} {outer : List Frame} {ts : List Token} {x : Lexeme} {f : Formula}

def Follows (ts : List Token) : Reading → Prop
  | operand outer => Opened outer ts
  | operator outer f => EndsIn .unary outer ts f

theorem ok_of_push {frame : Frame} {position : Nat}
    (h : operand <$> frame.push position outer = .ok r) :
    Frame.level outer < nestingLimit ∧ r = .operand (frame :: outer) := by
  rcases operand_push frame outer position with ⟨hlt, hp⟩ | ⟨-, hp⟩ <;> rw [hp] at h
  · exact ⟨hlt, by simpa using h.symm⟩
  · simp at h

theorem follows_of_operand (h : Opened outer ts) (hr : read (.operand outer) x = .ok r) :
    Follows (ts ++ [x.token]) r := by
  cases hx : x.token with
  | atom name =>
    obtain rfl : .operator outer (.atom name) = r := by simpa [read_atom hx] using hr
    exact ⟨h, .atom name, rfl, rfl, Category.fits_unary _, h.level_le⟩
  | connective k =>
    rcases k.eq_modifier_or_isBinary with ⟨m, rfl⟩ | hk
    · rw [read_modifier hx] at hr
      obtain ⟨room, rfl⟩ := ok_of_push hr
      exact .modifier m h room
    · cases k <;> simp_all [read, readOperand, Connective.isBinary]
  | opening =>
    rw [read_opening hx] at hr
    obtain ⟨room, rfl⟩ := ok_of_push hr
    exact .paren _ h room
  | closing => simp [read, readOperand, hx] at hr

theorem follows_of_operator (h : EndsIn .unary outer ts f)
    (hr : read (.operator outer f) x = .ok r) : Follows (ts ++ [x.token]) r := by
  cases hx : x.token with
  | connective k =>
    cases k with
    | and =>
      have hleft : EndsIn .conjunction _ ts _ := h.collapse rfl (by decide)
      obtain ⟨opened, d, rfl, hd, fits, shallow⟩ := hleft
      replace hd : (Frame.collapse 3 f outer).1 = d.formula := hd
      obtain rfl : _ = r := by simpa [read_and hx, hd] using hr
      exact .and d opened fits shallow
    | or =>
      have hleft : EndsIn .disjunction _ ts _ := h.collapse rfl (by decide)
      obtain ⟨opened, d, rfl, hd, fits, shallow⟩ := hleft
      replace hd : (Frame.collapse 2 f outer).1 = d.formula := hd
      obtain rfl : _ = r := by simpa [read_or hx, hd] using hr
      exact .or d opened fits shallow
    | implies =>
      have hleft : EndsIn .disjunction _ ts _ := h.collapse rfl (by decide)
      obtain ⟨opened, d, rfl, hd, fits, shallow⟩ := hleft
      replace hd : (Frame.collapse 2 f outer).1 = d.formula := hd
      rw [read_implies hx, hd] at hr
      obtain ⟨room, rfl⟩ := ok_of_push hr
      exact .implies d opened fits shallow room
    | _ =>
      simp only [read, readOperator, hx] at hr
      split at hr <;> simp at hr
  | closing =>
    rcases h.close with ⟨g, hclose, -⟩ | ⟨g, p, outer', hclose, hg⟩
    · simp [read, readOperator, hx, hclose] at hr
    · obtain ⟨opened, d, rfl, rfl, -, shallow⟩ := hg
      obtain rfl : _ = r := by simpa [read_closing hx hclose] using hr
      obtain ⟨before, inside, rfl⟩ := opened.of_paren
      rw [Frame.level_paren] at shallow
      refine ⟨inside, .paren d, by simp, rfl, Category.fits_unary _, ?_⟩
      simp only [Derivation.nesting]
      omega
  | _ =>
    simp only [read, readOperator, hx] at hr
    split at hr <;> simp at hr

theorem Follows.read (h : Follows ts r) (hr : r.read x = .ok r') :
    Follows (ts ++ [x.token]) r' := by
  cases r with
  | operand outer => exact follows_of_operand h hr
  | operator outer f => exact follows_of_operator h hr

theorem Follows.foldlM {lexemes : List Lexeme} (h : Follows ts r)
    (hr : lexemes.foldlM Reading.read r = .ok r') : Follows (ts ++ lexemes.map (·.token)) r' := by
  induction lexemes generalizing ts r with
  | nil =>
    obtain rfl : r = r' := by simpa [pure, Except.pure] using hr
    simpa using h
  | cons x rest ih =>
    rw [List.foldlM_cons] at hr
    cases hx : r.read x with
    | error e => simp [hx, bind, Except.bind] at hr
    | ok r₁ =>
      have h₁ := ih (h.read hx) (by simpa [hx, bind, Except.bind] using hr)
      simpa using h₁

end Reading

namespace Formula

theorem exists_derivation_of_ofLexemes {lexemes : List Lexeme} {f : Formula}
    (h : ofLexemes lexemes = .ok f) : ∃ d : Derivation .implication,
      d.tokens = lexemes.map (·.token) ∧ d.formula = f ∧ d.nesting ≤ nestingLimit := by
  unfold ofLexemes at h
  cases hr : lexemes.foldlM Reading.read (.operand []) with
  | error e => simp [hr, bind, Except.bind] at h
  | ok r =>
    have hstart : Reading.Follows [] (.operand []) := Opened.nil
    have hf := hstart.foldlM hr
    replace h : r.finish = .ok f := by simpa [hr, bind, Except.bind] using h
    cases r with
    | operand outer => simp [Reading.finish] at h
    | operator outer g =>
      rcases EndsIn.close hf with ⟨g', hclose, opened, d, tokens, rfl, -, shallow⟩ |
        ⟨g', p, outer', hclose, -⟩
      · cases opened
        exact ⟨d, by simpa using tokens.symm, by simpa [Reading.finish, hclose] using h,
          by simpa [Frame.level] using shallow⟩
      · simp [Reading.finish, hclose] at h

theorem ofLexemes_iff_derivation {lexemes : List Lexeme} {f : Formula} :
    ofLexemes lexemes = .ok f ↔ ∃ d : Derivation .implication,
      d.tokens = lexemes.map (·.token) ∧ d.formula = f ∧ d.nesting ≤ nestingLimit := by
  constructor
  · exact exists_derivation_of_ofLexemes
  · rintro ⟨d, tokens, rfl, shallow⟩
    rcases ofLexemes_of_derivation d tokens.symm with ⟨-, h⟩ | ⟨deep, -⟩
    · exact h
    · omega

theorem parse_eq_ok {text : String} {f : Formula} : parse text = .ok f ↔
    ∃ lexemes, Lexeme.scan text = .ok lexemes ∧ lexemes ≠ [] ∧ ofLexemes lexemes = .ok f := by
  unfold parse
  cases hs : Lexeme.scan text with
  | error e => simp [bind, Except.bind]
  | ok lexemes => cases lexemes <;> simp [bind, Except.bind]

/-- A text is accepted exactly if its tokens have a derivation in which no token lies under more
levels than allowed; then the formula is that of the derivation. No token list has two
derivations. -/
theorem parse_iff_derivation (text : String) (f : Formula) :
    (parse text = .ok f ↔ ∃ lexemes, Lexeme.scan text = .ok lexemes ∧
      ∃ d : Derivation .implication, d.tokens = lexemes.map (·.token) ∧ d.formula = f ∧
        ∀ p ∈ d.placed 0, p.2 ≤ nestingLimit) ∧
      ∀ d d' : Derivation .implication, d.tokens = d'.tokens → d = d' := by
  refine ⟨?_, fun d d' => Derivation.tokens_injective⟩
  simp only [parse_eq_ok, ofLexemes_iff_derivation, Derivation.levels_le_iff, Nat.zero_add]
  constructor
  · rintro ⟨lexemes, hs, -, h⟩
    exact ⟨lexemes, hs, h⟩
  · rintro ⟨lexemes, hs, d, tokens, h⟩
    refine ⟨lexemes, hs, ?_, d, tokens, h⟩
    rintro rfl
    exact d.tokens_ne_nil tokens

end Formula
end ModalTableau
