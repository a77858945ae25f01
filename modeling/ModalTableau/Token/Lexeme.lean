import ModalTableau.SyntaxError
import ModalTableau.Text
import ModalTableau.Token

/-!
Tokens found in a text. Every connective has an ASCII spelling and one or more glyphs; blanks
separate tokens and mean nothing else.
-/

namespace ModalTableau

namespace Token

def isAtomStart (c : Char) : Bool := c.isLower

def isAtomChar (c : Char) : Bool := c.isLower || c.isDigit || c == '_'

/-- The token that starts with the first character, and how many of the following it takes. -/
def ofChars? : Char → List Char → Option (Token × Nat)
  | '(', _ => some (.opening, 0)
  | ')', _ => some (.closing, 0)
  | '~', _ | '¬', _ => some (.connective .not, 0)
  | '&', _ | '∧', _ => some (.connective .and, 0)
  | '|', _ | '∨', _ => some (.connective .or, 0)
  | '→', _ => some (.connective .implies, 0)
  | '□', _ | '◻', _ => some (.connective .box, 0)
  | '◇', _ | '♢', _ | '◊', _ => some (.connective .diamond, 0)
  | '-', '>' :: _ => some (.connective .implies, 1)
  | '[', ']' :: _ => some (.connective .box, 1)
  | '<', '>' :: _ => some (.connective .diamond, 1)
  | c, rest =>
    if isAtomStart c then
      let tail := rest.takeWhile isAtomChar
      some (.atom (String.ofList (c :: tail)), tail.length)
    else
      none

end Token

structure Lexeme where
  token : Token
  position : Nat
  text : String
deriving DecidableEq

namespace Lexeme

/-- Scans from `position` on, where the next `skip` characters belong to a token already found. -/
def scanFrom : (skip position : Nat) → List Char → Except SyntaxError (List Lexeme)
  | _, _, [] => .ok []
  | skip + 1, position, _ :: rest => scanFrom skip (position + 1) rest
  | 0, position, c :: rest =>
    if Text.isBlank c then
      scanFrom 0 (position + 1) rest
    else
      match Token.ofChars? c rest with
      | none => .error (.unknownToken c position)
      | some (token, more) => do
        let found := ⟨token, position, String.ofList (c :: rest.take more)⟩
        return found :: (← scanFrom more (position + 1) rest)

def scan (text : String) : Except SyntaxError (List Lexeme) :=
  scanFrom 0 0 text.toList

end Lexeme
end ModalTableau
