import ModalTableau.Formula.Reading
import ModalTableau.Proofs.Grammar

/-!
# Reading a phrase

A phrase is a list of lexemes with a derivation. Reading one leaves some frames unfilled, which the
next token or the end of the text fills: filling them gives the formula of the derivation
(`Reading.outcome`). The one thing that can go wrong inside a phrase is that it is nested too deep.
-/

namespace ModalTableau

namespace Category

variable {c c' : Category} {frame : Frame} {outer : List Frame}

/-- The least strength of the frames that a connective behind a phrase of the category fills. -/
def joint : Category → Nat
  | implication => 2
  | disjunction => 2
  | conjunction => 3
  | unary => 5

/-- Whatever follows a phrase of the category, the innermost of the frames around it is not filled
before the phrase is complete. -/
def Fits (c : Category) (outer : List Frame) : Prop :=
  ∀ frame ∈ outer.head?, frame.strength < c.joint

theorem fits_nil (c : Category) : c.Fits [] := by simp [Fits]

theorem fits_cons : c.Fits (frame :: outer) ↔ frame.strength < c.joint := by simp [Fits]

theorem fits_unary (outer : List Frame) : unary.Fits outer := by
  intro frame _
  cases frame <;> simp [Frame.strength, joint]

theorem Fits.mono (h : c.Fits outer) (hc : c.joint ≤ c'.joint) : c'.Fits outer :=
  fun frame hf => Nat.lt_of_lt_of_le (h frame hf) hc

end Category

namespace Modifier

def frame : Modifier → Frame
  | not => .not
  | box => .box
  | diamond => .diamond

@[simp] theorem strength_frame (m : Modifier) : m.frame.strength = 4 := by cases m <;> rfl

@[simp] theorem fill_frame (m : Modifier) (f : Formula) : m.frame.fill f = m.apply f := by
  cases m <;> rfl

end Modifier

-- ---------------------------------------------------------------------------
-- Frames
-- ---------------------------------------------------------------------------

namespace Frame

variable {p : Nat} {f : Formula} {inner outer : List Frame}

@[simp] theorem level_modifier (m : Modifier) (outer : List Frame) :
    level (m.frame :: outer) = level outer + 1 := by
  cases m <;> simp [level, List.countP_cons, nests, Modifier.frame]

@[simp] theorem level_and : level (and f :: outer) = level outer := by simp [level, nests]

@[simp] theorem level_or : level (or f :: outer) = level outer := by simp [level, nests]

@[simp] theorem level_implies : level (implies f :: outer) = level outer + 1 := by
  simp [level, List.countP_cons, nests]

@[simp] theorem level_paren : level (paren p :: outer) = level outer + 1 := by
  simp [level, List.countP_cons, nests]

def fillAll (f : Formula) (frames : List Frame) : Formula :=
  frames.foldl (fun g frame => frame.fill g) f

theorem fillAll_concat (f : Formula) (inner : List Frame) (frame : Frame) :
    fillAll f (inner ++ [frame]) = frame.fill (fillAll f inner) := by
  simp [fillAll]

theorem collapse_append (least : Nat) (hi : ∀ frame ∈ inner, least ≤ frame.strength)
    (ho : ∀ frame ∈ outer.head?, frame.strength < least) :
    collapse least f (inner ++ outer) = (fillAll f inner, outer) := by
  induction inner generalizing f with
  | nil =>
    cases outer with
    | nil => rfl
    | cons frame outer =>
      have hf : ¬ least ≤ frame.strength := Nat.not_le.mpr (ho frame rfl)
      simp [collapse, hf, fillAll]
  | cons frame inner ih =>
    simp only [List.mem_cons, forall_eq_or_imp] at hi
    simp [collapse, hi.1, ih hi.2, fillAll]

theorem close_of_strong {frame : Frame} (h : 1 ≤ frame.strength) :
    close f (frame :: outer) = close (frame.fill f) outer := by
  cases frame with
  | paren p => simp [strength] at h
  | _ => rfl

theorem close_append (hi : ∀ frame ∈ inner, 1 ≤ frame.strength) :
    close f (inner ++ outer) = close (fillAll f inner) outer := by
  induction inner generalizing f with
  | nil => rfl
  | cons frame inner ih =>
    simp only [List.mem_cons, forall_eq_or_imp] at hi
    rw [List.cons_append, close_of_strong hi.1, ih hi.2]
    rfl

end Frame

namespace Reading

variable {outer : List Frame} {f : Formula} {x : Lexeme}

-- ---------------------------------------------------------------------------
-- Reading a token
-- ---------------------------------------------------------------------------

theorem operand_push (frame : Frame) (outer : List Frame) (position : Nat) :
    Frame.level outer < nestingLimit ∧
        operand <$> frame.push position outer = .ok (.operand (frame :: outer)) ∨
      nestingLimit ≤ Frame.level outer ∧
        operand <$> frame.push position outer = .error (.tooDeep position) := by
  unfold Frame.push
  split
  next h => exact .inl ⟨h, rfl⟩
  next h => exact .inr ⟨Nat.not_lt.mp h, rfl⟩

theorem read_atom {name : String} (hx : x.token = .atom name) :
    read (.operand outer) x = .ok (.operator outer (.atom name)) := by
  simp [read, readOperand, hx]

theorem read_modifier {m : Modifier} (hx : x.token = .connective m.connective) :
    read (.operand outer) x = operand <$> m.frame.push x.position outer := by
  cases m <;> simp_all [read, readOperand, Modifier.connective, Modifier.frame]

theorem read_opening (hx : x.token = .opening) :
    read (.operand outer) x = operand <$> (Frame.paren x.position).push x.position outer := by
  simp [read, readOperand, hx]

theorem read_and (hx : x.token = .connective .and) : read (.operator outer f) x =
    .ok (.operand (.and (Frame.collapse 3 f outer).1 :: (Frame.collapse 3 f outer).2)) := by
  simp [read, readOperator, hx]

theorem read_or (hx : x.token = .connective .or) : read (.operator outer f) x =
    .ok (.operand (.or (Frame.collapse 2 f outer).1 :: (Frame.collapse 2 f outer).2)) := by
  simp [read, readOperator, hx]

theorem read_implies (hx : x.token = .connective .implies) : read (.operator outer f) x =
    operand <$> (Frame.implies (Frame.collapse 2 f outer).1).push x.position
      (Frame.collapse 2 f outer).2 := by
  simp [read, readOperator, hx]

theorem read_closing {p : Nat} {g : Formula} {outer' : List Frame} (hx : x.token = .closing)
    (hc : Frame.close f outer = (g, some (p, outer'))) :
    read (.operator outer f) x = .ok (.operator outer' g) := by
  simp [read, readOperator, hx, hc]

-- ---------------------------------------------------------------------------
-- Reading a phrase
-- ---------------------------------------------------------------------------

/-- What reading a phrase with the given frames around it comes to. -/
inductive Outcome {c : Category} (d : Derivation c) (outer : List Frame) :
    Except SyntaxError Reading → Prop
  | read {inner : List Frame} {f : Formula} (shallow : Frame.level outer + d.nesting ≤ nestingLimit)
      (strong : ∀ frame ∈ inner, c.least ≤ frame.strength)
      (filled : Frame.fillAll f inner = d.formula) :
      Outcome d outer (.ok (.operator (inner ++ outer) f))
  | tooDeep {position : Nat} (deep : nestingLimit < Frame.level outer + d.nesting) :
      Outcome d outer (.error (.tooDeep position))

namespace Outcome

variable {c c' : Category} {d : Derivation c} {e : Derivation c'} {frame : Frame}
  {r : Except SyntaxError Reading} {k : Reading → Except SyntaxError Reading}

theorem whole (shallow : Frame.level outer + d.nesting ≤ nestingLimit) :
    Outcome d outer (.ok (.operator outer d.formula)) :=
  @read _ d outer [] _ shallow (by simp) rfl

theorem widen (h : Outcome d outer r) (least : c'.least ≤ c.least)
    (formula : e.formula = d.formula) (nesting : e.nesting = d.nesting) : Outcome e outer r := by
  cases h with
  | read shallow strong filled =>
    refine .read ?_ (fun frame hf => Nat.le_trans least (strong frame hf)) ?_
    · rwa [nesting]
    · rw [filled, formula]
  | tooDeep deep => exact .tooDeep (by rwa [nesting])

/-- A phrase in the hole of a frame makes a phrase outside of it. -/
theorem within (h : Outcome d (frame :: outer) r) (least : c'.least ≤ c.least)
    (strength : c'.least ≤ frame.strength) (formula : e.formula = frame.fill d.formula)
    (nesting : Frame.level (frame :: outer) + d.nesting ≤ nestingLimit ↔
      Frame.level outer + e.nesting ≤ nestingLimit) : Outcome e outer r := by
  cases h with
  | @read inner f shallow strong filled =>
    rw [List.append_cons]
    refine .read (nesting.mp shallow) (fun x hx => ?_) ?_
    · rcases List.mem_append.mp hx with hx | hx
      · exact Nat.le_trans least (strong x hx)
      · rwa [List.mem_singleton.mp hx]
    · rw [Frame.fillAll_concat, filled, formula]
  | tooDeep deep => exact .tooDeep (by omega)

theorem paren {d : Derivation .implication} {p : Nat} (h : Outcome d (.paren p :: outer) r)
    (hx : x.token = .closing) : Outcome (.paren d) outer (r >>= (Reading.read · x)) := by
  have hn : (Derivation.paren d).nesting = d.nesting + 1 := rfl
  cases h with
  | @read inner f shallow strong filled =>
    rw [Frame.level_paren] at shallow
    have hclose : Frame.close f (inner ++ .paren p :: outer) = (d.formula, some (p, outer)) := by
      rw [Frame.close_append strong, filled]
      rfl
    show Outcome (.paren d) outer (Reading.read (.operator (inner ++ .paren p :: outer) f) x)
    rw [read_closing hx hclose]
    exact whole (d := .paren d) (by omega)
  | tooDeep deep =>
    rw [Frame.level_paren] at deep
    exact .tooDeep (by omega)

theorem andThen (h : Outcome d outer r) (nesting : d.nesting ≤ e.nesting)
    (next : ∀ inner f, Frame.level outer + d.nesting ≤ nestingLimit →
      (∀ frame ∈ inner, c.least ≤ frame.strength) → Frame.fillAll f inner = d.formula →
      Outcome e outer (k (.operator (inner ++ outer) f))) : Outcome e outer (r >>= k) := by
  cases h with
  | read shallow strong filled => exact next _ _ shallow strong filled
  | tooDeep deep => exact .tooDeep (by omega)

end Outcome

theorem exists_joint {lexemes : List Lexeme} {s u : List Token} {t : Token}
    (h : lexemes.map (·.token) = s ++ t :: u) : ∃ left x right, lexemes = left ++ x :: right ∧
      left.map (·.token) = s ∧ x.token = t ∧ right.map (·.token) = u := by
  obtain ⟨left, rest, rfl, hleft, hrest⟩ := List.map_eq_append_iff.mp h
  obtain ⟨x, right, rfl, hx, hright⟩ := List.map_eq_cons_iff.mp hrest
  exact ⟨left, x, right, rfl, hleft, hx, hright⟩

theorem outcome {c : Category} (d : Derivation c) {outer : List Frame} {lexemes : List Lexeme}
    (fits : c.Fits outer) (shallow : Frame.level outer ≤ nestingLimit)
    (tokens : lexemes.map (·.token) = d.tokens) :
    Outcome d outer (lexemes.foldlM read (.operand outer)) := by
  induction d generalizing outer lexemes with
  | atom name =>
    obtain ⟨x, rfl, hx⟩ : ∃ x, lexemes = [x] ∧ x.token = .atom name := by simpa using tokens
    rw [List.foldlM_cons, read_atom hx]
    exact Outcome.whole shallow
  | modified m d ih =>
    rw [Derivation.tokens_modified] at tokens
    obtain ⟨x, rest, rfl, hx, hrest⟩ := List.map_eq_cons_iff.mp tokens
    have hn : (Derivation.modified m d).nesting = d.nesting + 1 := rfl
    have hl := Frame.level_modifier m outer
    rw [List.foldlM_cons, read_modifier hx]
    rcases operand_push m.frame outer x.position with ⟨hlt, hp⟩ | ⟨hge, hp⟩ <;> rw [hp]
    · have hd : Outcome d (m.frame :: outer) _ := ih (Category.fits_unary _) (by omega) hrest
      exact hd.within (Nat.le_refl _) (Nat.le_of_eq m.strength_frame.symm) (m.fill_frame _).symm
        (by omega)
    · exact .tooDeep (by omega)
  | paren d ih =>
    rw [Derivation.tokens_paren] at tokens
    obtain ⟨x, rest, rfl, hx, hrest⟩ := List.map_eq_cons_iff.mp tokens
    obtain ⟨body, y, last, rfl, hbody, hy, hlast⟩ := exists_joint hrest
    obtain rfl := List.map_eq_nil_iff.mp hlast
    have hn : (Derivation.paren d).nesting = d.nesting + 1 := rfl
    rw [List.foldlM_cons, read_opening hx]
    rcases operand_push (.paren x.position) outer x.position with ⟨hlt, hp⟩ | ⟨hge, hp⟩ <;> rw [hp]
    · have hd : Outcome d (.paren x.position :: outer) _ :=
        ih (Category.fits_cons.mpr (Nat.zero_lt_succ _)) (by simpa using Nat.succ_le_of_lt hlt)
          hbody
      show Outcome _ _ ((body ++ [y]).foldlM read _)
      simpa using hd.paren hy
    · exact .tooDeep (by omega)
  | unary d ih => exact (ih (Category.fits_unary _) shallow tokens).widen (by decide) rfl rfl
  | and d e ihd ihe =>
    rw [Derivation.tokens_and] at tokens
    obtain ⟨left, x, right, rfl, hleft, hx, hright⟩ := exists_joint tokens
    have hn : (Derivation.and d e).nesting = max d.nesting e.nesting := rfl
    rw [List.foldlM_append]
    refine (ihd fits shallow hleft).andThen (by omega) fun inner f hd strong filled => ?_
    rw [List.foldlM_cons, read_and hx, Frame.collapse_append 3 strong fits, filled]
    have he : Outcome e (.and d.formula :: outer) _ := ihe (Category.fits_unary _) shallow hright
    exact he.within (by decide) (Nat.le_refl _) rfl (by rw [Frame.level_and]; omega)
  | conjunction d ih =>
    exact (ih (fits.mono (by decide)) shallow tokens).widen (by decide) rfl rfl
  | or d e ihd ihe =>
    rw [Derivation.tokens_or] at tokens
    obtain ⟨left, x, right, rfl, hleft, hx, hright⟩ := exists_joint tokens
    have hn : (Derivation.or d e).nesting = max d.nesting e.nesting := rfl
    rw [List.foldlM_append]
    refine (ihd fits shallow hleft).andThen (by omega) fun inner f hd strong filled => ?_
    rw [List.foldlM_cons, read_or hx, Frame.collapse_append 2 strong fits, filled]
    have he : Outcome e (.or d.formula :: outer) _ :=
      ihe (Category.fits_cons.mpr (Nat.lt_succ_self _)) shallow hright
    exact he.within (by decide) (Nat.le_refl _) rfl (by rw [Frame.level_or]; omega)
  | disjunction d ih => exact (ih fits shallow tokens).widen (by decide) rfl rfl
  | implies d e ihd ihe =>
    rw [Derivation.tokens_implies] at tokens
    obtain ⟨left, x, right, rfl, hleft, hx, hright⟩ := exists_joint tokens
    have hn : (Derivation.implies d e).nesting = max d.nesting (e.nesting + 1) := rfl
    rw [List.foldlM_append]
    refine (ihd fits shallow hleft).andThen (by omega) fun inner f hd strong filled => ?_
    rw [List.foldlM_cons, read_implies hx, Frame.collapse_append 2 strong fits, filled]
    rcases operand_push (.implies d.formula) outer x.position with ⟨hlt, hp⟩ | ⟨hge, hp⟩ <;> rw [hp]
    · have he : Outcome e (.implies d.formula :: outer) _ :=
        ihe (Category.fits_cons.mpr (Nat.lt_succ_self _)) (by simpa using Nat.succ_le_of_lt hlt)
          hright
      exact he.within (Nat.le_refl _) (Nat.le_refl _) rfl (by rw [Frame.level_implies]; omega)
    · exact .tooDeep (by omega)

end Reading

theorem Formula.ofLexemes_of_derivation (d : Derivation .implication) {lexemes : List Lexeme}
    (tokens : lexemes.map (·.token) = d.tokens) :
    d.nesting ≤ nestingLimit ∧ ofLexemes lexemes = .ok d.formula ∨
      nestingLimit < d.nesting ∧ ∃ position, ofLexemes lexemes = .error (.tooDeep position) := by
  have h := Reading.outcome d (Category.fits_nil _) (Nat.zero_le _) tokens
  unfold ofLexemes
  generalize lexemes.foldlM Reading.read (.operand []) = r at h
  cases h with
  | @read inner f shallow strong filled =>
    have hclose : Frame.close f (inner ++ []) = (d.formula, none) := by
      rw [Frame.close_append strong, filled]
      rfl
    refine .inl ⟨by simpa [Frame.level] using shallow, ?_⟩
    show Reading.finish (.operator (inner ++ []) f) = .ok d.formula
    simp only [Reading.finish, hclose]
  | @tooDeep position deep => exact .inr ⟨by simpa [Frame.level] using deep, position, rfl⟩

end ModalTableau
