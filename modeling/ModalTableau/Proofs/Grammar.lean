import ModalTableau.Token

/-!
# The grammar of formulas

    implication ::= disjunction | disjunction '->' implication
    disjunction ::= conjunction | disjunction '|' conjunction
    conjunction ::= unary | conjunction '&' unary
    unary       ::= atom | ('~' | '[]' | '<>') unary | '(' implication ')'

A `Derivation` is a tree of this grammar. It has a formula, and it puts every token under a number
of levels: an operator in front of an operand, a pair of parentheses and the right-hand side of an
implication count one level each. The grammar is unambiguous (`Derivation.tokens_injective`): a
connective that joins the two operands of a derivation is told from those inside parentheses by the
balance of the parentheses before it.
-/

namespace ModalTableau

inductive Category where
  | implication
  | disjunction
  | conjunction
  | unary

/-- The strength of the loosest formulas of the category that are not in parentheses. -/
def Category.least : Category → Nat
  | .implication => 1
  | .disjunction => 2
  | .conjunction => 3
  | .unary => 4

inductive Modifier where
  | not
  | box
  | diamond

namespace Modifier

def connective : Modifier → Connective
  | not => .not
  | box => .box
  | diamond => .diamond

def apply : Modifier → Formula → Formula
  | not => .not
  | box => .box
  | diamond => .diamond

end Modifier

inductive Derivation : Category → Type where
  | atom (name : String) : Derivation .unary
  | modified (m : Modifier) (d : Derivation .unary) : Derivation .unary
  | paren (d : Derivation .implication) : Derivation .unary
  | unary (d : Derivation .unary) : Derivation .conjunction
  | and (d : Derivation .conjunction) (e : Derivation .unary) : Derivation .conjunction
  | conjunction (d : Derivation .conjunction) : Derivation .disjunction
  | or (d : Derivation .disjunction) (e : Derivation .conjunction) : Derivation .disjunction
  | disjunction (d : Derivation .disjunction) : Derivation .implication
  | implies (d : Derivation .disjunction) (e : Derivation .implication) : Derivation .implication

namespace Derivation

variable {c : Category}

def formula : {c : Category} → Derivation c → Formula
  | _, atom name => .atom name
  | _, modified m d => m.apply d.formula
  | _, paren d => d.formula
  | _, unary d => d.formula
  | _, and d e => .and d.formula e.formula
  | _, conjunction d => d.formula
  | _, or d e => .or d.formula e.formula
  | _, disjunction d => d.formula
  | _, implies d e => .implies d.formula e.formula

/-- The tokens in order, each with the number of levels around it; the whole has `n` around it. -/
def placed : {c : Category} → Derivation c → (n : Nat) → List (Token × Nat)
  | _, atom name, n => [(.atom name, n)]
  | _, modified m d, n => (.connective m.connective, n) :: d.placed (n + 1)
  | _, paren d, n => (.opening, n) :: d.placed (n + 1) ++ [(.closing, n)]
  | _, unary d, n => d.placed n
  | _, and d e, n => d.placed n ++ (.connective .and, n) :: e.placed n
  | _, conjunction d, n => d.placed n
  | _, or d e, n => d.placed n ++ (.connective .or, n) :: e.placed n
  | _, disjunction d, n => d.placed n
  | _, implies d e, n => d.placed n ++ (.connective .implies, n) :: e.placed (n + 1)

def tokens (d : Derivation c) : List Token := (d.placed 0).map Prod.fst

/-- The largest number of levels around a token. -/
def nesting : {c : Category} → Derivation c → Nat
  | _, atom _ => 0
  | _, modified _ d => d.nesting + 1
  | _, paren d => d.nesting + 1
  | _, unary d => d.nesting
  | _, and d e => max d.nesting e.nesting
  | _, conjunction d => d.nesting
  | _, or d e => max d.nesting e.nesting
  | _, disjunction d => d.nesting
  | _, implies d e => max d.nesting (e.nesting + 1)

-- ---------------------------------------------------------------------------
-- Tokens and levels
-- ---------------------------------------------------------------------------

theorem map_fst_placed (d : Derivation c) (n : Nat) : (d.placed n).map Prod.fst = d.tokens := by
  suffices h : ∀ k, (d.placed n).map Prod.fst = (d.placed k).map Prod.fst from h 0
  intro k
  induction d generalizing n k with
  | atom name => rfl
  | modified m d ih => simp only [placed, List.map_cons, ih (n + 1) (k + 1)]
  | paren d ih =>
    simp only [placed, List.map_cons, List.map_append, List.cons_append, ih (n + 1) (k + 1)]
  | unary d ih => exact ih n k
  | and d e ihd ihe => simp only [placed, List.map_cons, List.map_append, ihd n k, ihe n k]
  | conjunction d ih => exact ih n k
  | or d e ihd ihe => simp only [placed, List.map_cons, List.map_append, ihd n k, ihe n k]
  | disjunction d ih => exact ih n k
  | implies d e ihd ihe =>
    simp only [placed, List.map_cons, List.map_append, ihd n k, ihe (n + 1) (k + 1)]

@[simp] theorem tokens_atom (name : String) : (atom name).tokens = [.atom name] := rfl

@[simp] theorem tokens_modified (m : Modifier) (d : Derivation .unary) :
    (modified m d).tokens = .connective m.connective :: d.tokens := by
  rw [← map_fst_placed d 1]
  rfl

@[simp] theorem tokens_paren (d : Derivation .implication) :
    (paren d).tokens = .opening :: (d.tokens ++ [.closing]) := by
  rw [← map_fst_placed d 1, tokens, placed, List.map_append]
  rfl

@[simp] theorem tokens_unary (d : Derivation .unary) : (unary d).tokens = d.tokens := rfl

@[simp] theorem tokens_and (d : Derivation .conjunction) (e : Derivation .unary) :
    (and d e).tokens = d.tokens ++ .connective .and :: e.tokens := List.map_append

@[simp] theorem tokens_conjunction (d : Derivation .conjunction) :
    (conjunction d).tokens = d.tokens := rfl

@[simp] theorem tokens_or (d : Derivation .disjunction) (e : Derivation .conjunction) :
    (or d e).tokens = d.tokens ++ .connective .or :: e.tokens := List.map_append

@[simp] theorem tokens_disjunction (d : Derivation .disjunction) :
    (disjunction d).tokens = d.tokens := rfl

@[simp] theorem tokens_implies (d : Derivation .disjunction) (e : Derivation .implication) :
    (implies d e).tokens = d.tokens ++ .connective .implies :: e.tokens := by
  rw [← map_fst_placed e 1]
  exact List.map_append

theorem level_le (d : Derivation c) {n : Nat} {p : Token × Nat} (h : p ∈ d.placed n) :
    p.2 ≤ n + d.nesting := by
  induction d generalizing n with
  | atom name => simp_all [placed]
  | modified m d ih => grind [placed, nesting]
  | paren d ih => grind [placed, nesting]
  | unary d ih => exact ih h
  | and d e ihd ihe => grind [placed, nesting]
  | conjunction d ih => exact ih h
  | or d e ihd ihe => grind [placed, nesting]
  | disjunction d ih => exact ih h
  | implies d e ihd ihe => grind [placed, nesting]

theorem exists_deepest (d : Derivation c) (n : Nat) :
    ∃ name, (.atom name, n + d.nesting) ∈ d.placed n := by
  induction d generalizing n with
  | atom name => exact ⟨name, by simp [placed, nesting]⟩
  | modified m d ih =>
    obtain ⟨name, h⟩ := ih (n + 1)
    exact ⟨name, by grind [placed, nesting]⟩
  | paren d ih =>
    obtain ⟨name, h⟩ := ih (n + 1)
    exact ⟨name, by grind [placed, nesting]⟩
  | unary d ih => exact ih n
  | and d e ihd ihe =>
    obtain ⟨name, h⟩ := ihd n
    obtain ⟨name', h'⟩ := ihe n
    grind [placed, nesting]
  | conjunction d ih => exact ih n
  | or d e ihd ihe =>
    obtain ⟨name, h⟩ := ihd n
    obtain ⟨name', h'⟩ := ihe n
    grind [placed, nesting]
  | disjunction d ih => exact ih n
  | implies d e ihd ihe =>
    obtain ⟨name, h⟩ := ihd n
    obtain ⟨name', h'⟩ := ihe (n + 1)
    grind [placed, nesting]

theorem levels_le_iff (d : Derivation c) {n k : Nat} :
    (∀ p ∈ d.placed n, p.2 ≤ k) ↔ n + d.nesting ≤ k := by
  constructor
  · intro h
    obtain ⟨name, hd⟩ := d.exists_deepest n
    exact h _ hd
  · intro h p hp
    exact Nat.le_trans (d.level_le hp) h

theorem tokens_ne_nil (d : Derivation c) : d.tokens ≠ [] := by
  obtain ⟨name, h⟩ := d.exists_deepest 0
  exact List.ne_nil_of_mem (List.mem_map_of_mem h)

-- ---------------------------------------------------------------------------
-- Derivations in places of another category
-- ---------------------------------------------------------------------------

def toImplication : {c : Category} → Derivation c → Derivation .implication
  | .implication, d => d
  | .disjunction, d => disjunction d
  | .conjunction, d => disjunction (conjunction d)
  | .unary, d => disjunction (conjunction (unary d))

def toUnary : {c : Category} → Derivation c → Derivation .unary
  | .unary, d => d
  | _, d => paren d.toImplication

def toConjunction : {c : Category} → Derivation c → Derivation .conjunction
  | .conjunction, d => d
  | _, d => unary d.toUnary

def toDisjunction : {c : Category} → Derivation c → Derivation .disjunction
  | .disjunction, d => d
  | _, d => conjunction d.toConjunction

/-- The derivation as it stands where the place allows it, and in parentheses elsewhere. -/
def fitted (d : Derivation c) : (place : Category) → Derivation place
  | .implication => d.toImplication
  | .disjunction => d.toDisjunction
  | .conjunction => d.toConjunction
  | .unary => d.toUnary

@[simp] theorem formula_fitted (d : Derivation c) (place : Category) :
    (d.fitted place).formula = d.formula := by
  cases c <;> cases place <;> rfl

theorem tokens_fitted (d : Derivation c) (place : Category) : (d.fitted place).tokens =
    if c.least < place.least then .opening :: (d.tokens ++ [.closing]) else d.tokens := by
  cases c <;> cases place <;>
    simp [fitted, toImplication, toDisjunction, toConjunction, toUnary, Category.least]

theorem nesting_fitted (d : Derivation c) (place : Category) :
    (d.fitted place).nesting = d.nesting + if c.least < place.least then 1 else 0 := by
  cases c <;> cases place <;> rfl

theorem exists_widened (d : Derivation c) {place : Category} (h : place.least ≤ c.least) :
    ∃ e : Derivation place,
      e.tokens = d.tokens ∧ e.formula = d.formula ∧ e.nesting = d.nesting := by
  have hn : ¬ c.least < place.least := Nat.not_lt.mpr h
  exact ⟨d.fitted place, by simp [tokens_fitted, hn], d.formula_fitted place,
    by simp [nesting_fitted, hn]⟩

end Derivation

-- ---------------------------------------------------------------------------
-- Parentheses
-- ---------------------------------------------------------------------------

abbrev Balanced (ts : List Token) : Prop := ts.count .closing = ts.count .opening

/-- No parenthesis is closed before it is opened, and the given connectives stand inside parentheses
only. -/
def Guarded (ks : List Connective) (ts : List Token) : Prop :=
  ∀ l x r, ts = l ++ x :: r → l.count .closing ≤ l.count .opening ∧
    ∀ k ∈ ks, x = .connective k → l.count .closing < l.count .opening

namespace Guarded

variable {ks ks' : List Connective} {k : Connective} {s s' t t' ts : List Token}

theorem mono (h : Guarded ks ts) (hk : ∀ k ∈ ks', k ∈ ks) : Guarded ks' ts := by
  intro l x r hl
  exact ⟨(h l x r hl).1, fun k hk' => (h l x r hl).2 k (hk k hk')⟩

theorem nil : Guarded ks [] := by
  intro l x r hl
  simp at hl

theorem cons {x : Token} (h : Guarded ks ts) (hk : ∀ k ∈ ks, x ≠ .connective k)
    (hx : x ≠ .closing) : Guarded ks (x :: ts) := by
  intro l y r hl
  cases l with
  | nil =>
    obtain ⟨rfl, -⟩ : x = y ∧ ts = r := by simpa using hl
    exact ⟨by simp, fun k hk' hy => absurd hy (hk k hk')⟩
  | cons z l =>
    obtain ⟨rfl, hts⟩ : x = z ∧ ts = l ++ y :: r := by simpa using hl
    have := h l y r hts
    grind

theorem append (hs : Guarded ks s) (hb : Balanced s) (ht : Guarded ks t) : Guarded ks (s ++ t) := by
  intro l x r hl
  rcases List.append_eq_append_iff.mp hl with ⟨m, rfl, hm⟩ | ⟨m, rfl, hm⟩
  · have := ht m x r hm
    simp only [List.count_append, hb]
    grind
  · cases m with
    | nil =>
      have := ht [] x r (by simpa using hm.symm)
      simp only [List.append_nil] at hb
      grind
    | cons y m =>
      obtain ⟨rfl, -⟩ : x = y ∧ r = m ++ t := by simpa using hm
      exact hs l x m rfl

theorem paren (h : Guarded [] ts) (hb : Balanced ts) :
    Guarded ks (.opening :: (ts ++ [.closing])) := by
  have hts : Guarded [] (ts ++ [.closing]) :=
    h.append hb (by intro l x r hl; cases l <;> simp_all)
  intro l x r hl
  cases l with
  | nil =>
    obtain ⟨rfl, -⟩ : .opening = x ∧ ts ++ [.closing] = r := by simpa using hl
    simp
  | cons y l =>
    obtain ⟨rfl, hr⟩ : .opening = y ∧ ts ++ [.closing] = l ++ x :: r := by simpa using hl
    have := (hts l x r hr).1
    grind

/-- Of two token lists that a connective joins, neither reaches over another such joint. -/
theorem no_overlap {m : List Token} (hk : k ∈ ks) (hs : Balanced s) (hs' : Balanced s')
    (hm : s' = s ++ .connective k :: m) (ht : t = m ++ .connective k :: t')
    (hg : Guarded ks s' ∨ Guarded ks t) : False := by
  rcases hg with hg | hg
  · have := (hg _ _ _ hm).2 k hk rfl
    omega
  · have := (hg _ _ _ ht).2 k hk rfl
    simp only [hm, Balanced, List.count_append, List.count_cons] at hs hs'
    grind

/-- The place where a connective joins two token lists is the only one, if it is guarded on one side
of it. -/
theorem joint_unique (hk : k ∈ ks) (hs : Balanced s) (hs' : Balanced s')
    (hg : Guarded ks s ∧ Guarded ks s' ∨ Guarded ks t ∧ Guarded ks t')
    (h : s ++ .connective k :: t = s' ++ .connective k :: t') : s = s' ∧ t = t' := by
  rcases List.append_eq_append_iff.mp h with ⟨m, hm, hr⟩ | ⟨m, hm, hr⟩
  · cases m with
    | nil => exact ⟨by simpa using hm.symm, by simpa using hr⟩
    | cons y m =>
      obtain ⟨rfl, ht⟩ : .connective k = y ∧ t = m ++ .connective k :: t' := by simpa using hr
      exact (no_overlap hk hs hs' hm ht (hg.imp And.right And.left)).elim
  · cases m with
    | nil => exact ⟨by simpa using hm, by simpa using hr.symm⟩
    | cons y m =>
      obtain ⟨rfl, ht⟩ : .connective k = y ∧ t' = m ++ .connective k :: t := by simpa using hr
      exact (no_overlap hk hs' hs hm ht (hg.imp And.left And.right)).elim

theorem not_joint (h : Guarded ks ts) (hk : k ∈ ks) (hs : Balanced s) :
    ts ≠ s ++ .connective k :: t := by
  intro hts
  have := (h _ _ _ hts).2 k hk rfl
  omega

end Guarded

/-- The connectives that a derivation of the category has inside parentheses only. -/
@[simp] def Category.inner : Category → List Connective
  | .implication => []
  | .disjunction => [.implies]
  | .conjunction => [.implies, .or]
  | .unary => [.implies, .or, .and]

namespace Derivation

variable {c : Category}

theorem balanced (d : Derivation c) : Balanced d.tokens := by
  induction d with
  | atom name => rfl
  | _ => simp_all [Balanced]

theorem guarded (d : Derivation c) : Guarded c.inner d.tokens := by
  induction d with
  | atom name =>
    rw [tokens_atom]
    exact Guarded.nil.cons (by simp) (by simp)
  | modified m d ih =>
    rw [tokens_modified]
    exact ih.cons (by cases m <;> simp [Modifier.connective]) (by simp)
  | paren d ih =>
    rw [tokens_paren]
    exact ih.paren d.balanced
  | unary d ih => exact ih.mono (by simp)
  | and d e ihd ihe =>
    rw [tokens_and]
    refine ihd.append d.balanced (.cons (ihe.mono ?_) ?_ ?_) <;> simp
  | conjunction d ih => exact ih.mono (by simp)
  | or d e ihd ihe =>
    rw [tokens_or]
    refine ihd.append d.balanced (.cons (ihe.mono ?_) ?_ ?_) <;> simp
  | disjunction d ih => exact ih.mono (by simp)
  | implies d e ihd ihe =>
    rw [tokens_implies]
    refine (ihd.mono ?_).append d.balanced (ihe.cons ?_ ?_) <;> simp

theorem tokens_injective {d d' : Derivation c} (h : d.tokens = d'.tokens) : d = d' := by
  induction d with
  | atom name => cases d' <;> simp_all
  | modified m d ih =>
    cases d' with
    | modified m' d' =>
      obtain ⟨hm, hd⟩ : m.connective = m'.connective ∧ d.tokens = d'.tokens := by simpa using h
      cases ih hd
      cases m <;> cases m' <;> simp_all [Modifier.connective]
    | _ => simp at h
  | paren d ih =>
    cases d' with
    | paren d' => rw [ih (by simpa using h)]
    | _ => simp at h
  | unary d ih =>
    cases d' with
    | unary d' => rw [ih h]
    | and d' e' =>
      rw [tokens_and] at h
      exact (d.guarded.not_joint (by simp) d'.balanced h).elim
  | and d e ihd ihe =>
    cases d' with
    | unary d' =>
      rw [tokens_and] at h
      exact (d'.guarded.not_joint (by simp) d.balanced h.symm).elim
    | and d' e' =>
      rw [tokens_and, tokens_and] at h
      obtain ⟨hd, he⟩ := Guarded.joint_unique (by simp) d.balanced d'.balanced
        (.inr ⟨e.guarded, e'.guarded⟩) h
      rw [ihd hd, ihe he]
  | conjunction d ih =>
    cases d' with
    | conjunction d' => rw [ih h]
    | or d' e' =>
      rw [tokens_or] at h
      exact (d.guarded.not_joint (by simp) d'.balanced h).elim
  | or d e ihd ihe =>
    cases d' with
    | conjunction d' =>
      rw [tokens_or] at h
      exact (d'.guarded.not_joint (by simp) d.balanced h.symm).elim
    | or d' e' =>
      rw [tokens_or, tokens_or] at h
      obtain ⟨hd, he⟩ := Guarded.joint_unique (by simp) d.balanced d'.balanced
        (.inr ⟨e.guarded, e'.guarded⟩) h
      rw [ihd hd, ihe he]
  | disjunction d ih =>
    cases d' with
    | disjunction d' => rw [ih h]
    | implies d' e' =>
      rw [tokens_implies] at h
      exact (d.guarded.not_joint (by simp) d'.balanced h).elim
  | implies d e ihd ihe =>
    cases d' with
    | disjunction d' =>
      rw [tokens_implies] at h
      exact (d'.guarded.not_joint (by simp) d.balanced h.symm).elim
    | implies d' e' =>
      -- Here the right-hand side may have further implications, the left-hand side has none.
      rw [tokens_implies, tokens_implies] at h
      obtain ⟨hd, he⟩ := Guarded.joint_unique (by simp) d.balanced d'.balanced
        (.inl ⟨d.guarded, d'.guarded⟩) h
      rw [ihd hd, ihe he]

end Derivation
end ModalTableau
