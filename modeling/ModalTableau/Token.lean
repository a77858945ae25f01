import ModalTableau.Formula

/-!
Formulas as sequences of tokens, and the two notations that spell the tokens. A formula is written
with the fewest parentheses: conjunction binds tighter than disjunction, which binds tighter than
implication; the first two group to the left, the last to the right.
-/

namespace ModalTableau

inductive Token where
  | atom (name : String)
  | connective (c : Connective)
  | opening
  | closing
deriving DecidableEq

inductive Notation where
  | ascii
  | unicode
deriving DecidableEq

namespace Notation

def symbol : Notation → Connective → String
  | ascii, .not => "~"
  | ascii, .and => "&"
  | ascii, .or => "|"
  | ascii, .implies => "->"
  | ascii, .box => "[]"
  | ascii, .diamond => "<>"
  | unicode, .not => "¬"
  | unicode, .and => "∧"
  | unicode, .or => "∨"
  | unicode, .implies => "→"
  | unicode, .box => "□"
  | unicode, .diamond => "◇"

/-- A connective between two operands stands between blanks. -/
def spell (n : Notation) : Token → String
  | .atom name => name
  | .connective c => if c.isBinary then " " ++ n.symbol c ++ " " else n.symbol c
  | .opening => "("
  | .closing => ")"

def tag : Notation → String
  | ascii => "ascii"
  | unicode => "unicode"

def ofTag? : String → Option Notation
  | "ascii" => some ascii
  | "unicode" => some unicode
  | _ => none

end Notation

namespace Formula

/-- The tokens of a formula at a place that takes formulas of strength `least` or more as they are
and any other in parentheses. -/
def tokensAt (least : Nat) : Formula → List Token
  | atom name => [.atom name]
  | not f => .connective .not :: f.tokensAt 4
  | box f => .connective .box :: f.tokensAt 4
  | diamond f => .connective .diamond :: f.tokensAt 4
  | and f g => enclose 3 (f.tokensAt 3 ++ .connective .and :: g.tokensAt 4)
  | or f g => enclose 2 (f.tokensAt 2 ++ .connective .or :: g.tokensAt 3)
  | implies f g => enclose 1 (f.tokensAt 2 ++ .connective .implies :: g.tokensAt 1)
where
  enclose (strength : Nat) (tokens : List Token) : List Token :=
    if strength < least then .opening :: tokens ++ [.closing] else tokens

def tokens (f : Formula) : List Token := f.tokensAt 0

def render (f : Formula) (n : Notation) : String :=
  String.join (f.tokens.map n.spell)

end Formula
end ModalTableau
