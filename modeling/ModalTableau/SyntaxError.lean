/-!
The ways in which a text fails to be a formula. Positions count characters from zero.
-/

namespace ModalTableau

/-- How many operators, parentheses and right-hand sides of implications may enclose one another. -/
def nestingLimit : Nat := 256

inductive SyntaxError where
  | empty
  | unknownToken (found : Char) (position : Nat)
  | unbalancedParen (position : Nat)
  | unexpectedToken (found : String) (position : Nat)
  | unexpectedEnd
  | trailingInput (found : String) (position : Nat)
  | tooDeep (position : Nat)
deriving DecidableEq

namespace SyntaxError

def position? : SyntaxError → Option Nat
  | empty | unexpectedEnd => none
  | unknownToken _ n | unbalancedParen n | unexpectedToken _ n | trailingInput _ n | tooDeep n =>
    some n

def message : SyntaxError → String
  | empty => "empty formula"
  | unknownToken found n => s!"unknown token '{found}' at position {n}"
  | unbalancedParen n => s!"unbalanced parenthesis at position {n}"
  | unexpectedToken found n => s!"unexpected '{found}' at position {n}"
  | unexpectedEnd => "unexpected end of formula"
  | trailingInput found n => s!"trailing input '{found}' at position {n}"
  | tooDeep n => s!"formula nested deeper than {nestingLimit} levels at position {n}"

end SyntaxError
end ModalTableau
