import ModalTableau.Token.Lexeme

/-!
Reading formulas from text, one token at a time. What stands to the left of the next token is a
stack of frames, each a formula with a hole at its right end; a token that binds no tighter than the
innermost frames fills their holes.
-/

namespace ModalTableau

/-- A formula that lacks its last operand, or a parenthesis that lacks its partner. -/
inductive Frame where
  | not
  | box
  | diamond
  | and (left : Formula)
  | or (left : Formula)
  | implies (left : Formula)
  | paren (position : Nat)
deriving DecidableEq

namespace Frame

def strength : Frame → Nat
  | not | box | diamond => 4
  | and _ => 3
  | or _ => 2
  | implies _ => 1
  | paren _ => 0

def fill : Frame → Formula → Formula
  | not, f => .not f
  | box, f => .box f
  | diamond, f => .diamond f
  | and left, f => .and left f
  | or left, f => .or left f
  | implies left, f => .implies left f
  | paren _, f => f

/-- Whether what is in the hole counts as nested one level deeper. -/
def nests : Frame → Bool
  | and _ | or _ => false
  | _ => true

def isParen : Frame → Bool
  | paren _ => true
  | _ => false

/-- Fills the innermost frames of strength `least` or more. -/
def collapse (least : Nat) (f : Formula) : List Frame → Formula × List Frame
  | [] => (f, [])
  | frame :: outer =>
    if least ≤ frame.strength then collapse least (frame.fill f) outer else (f, frame :: outer)

/-- Fills the frames up to the innermost parenthesis; gives its position and the frames around it. -/
def close (f : Formula) : List Frame → Formula × Option (Nat × List Frame)
  | [] => (f, none)
  | paren position :: outer => (f, some (position, outer))
  | frame :: outer => close (frame.fill f) outer

def level (frames : List Frame) : Nat := frames.countP nests

def push (frame : Frame) (position : Nat) (outer : List Frame) : Except SyntaxError (List Frame) :=
  if level outer < nestingLimit then .ok (frame :: outer) else .error (.tooDeep position)

end Frame

/-- What has been read so far: an operand is due, or one has just been read. -/
inductive Reading where
  | operand (outer : List Frame)
  | operator (outer : List Frame) (f : Formula)
deriving DecidableEq

namespace Reading

def readOperand (outer : List Frame) (next : Lexeme) : Except SyntaxError Reading :=
  match next.token with
  | .atom name => .ok (operator outer (.atom name))
  | .connective .not => operand <$> Frame.not.push next.position outer
  | .connective .box => operand <$> Frame.box.push next.position outer
  | .connective .diamond => operand <$> Frame.diamond.push next.position outer
  | .opening => operand <$> (Frame.paren next.position).push next.position outer
  | .connective .and | .connective .or | .connective .implies | .closing =>
    .error (.unexpectedToken next.text next.position)

def readOperator (outer : List Frame) (f : Formula) (next : Lexeme) : Except SyntaxError Reading :=
  match next.token with
  | .connective .and =>
    let (left, outer) := Frame.collapse 3 f outer
    .ok (operand (.and left :: outer))
  | .connective .or =>
    let (left, outer) := Frame.collapse 2 f outer
    .ok (operand (.or left :: outer))
  | .connective .implies =>
    let (left, outer) := Frame.collapse 2 f outer
    operand <$> (Frame.implies left).push next.position outer
  | .closing =>
    match Frame.close f outer with
    | (inner, some (_, outer)) => .ok (operator outer inner)
    | (_, none) => .error (.unbalancedParen next.position)
  | .atom _ | .connective .not | .connective .box | .connective .diamond | .opening =>
    if outer.any Frame.isParen then
      .error (.unexpectedToken next.text next.position)
    else
      .error (.trailingInput next.text next.position)

def read : Reading → Lexeme → Except SyntaxError Reading
  | operand outer, next => readOperand outer next
  | operator outer f, next => readOperator outer f next

def finish : Reading → Except SyntaxError Formula
  | operand _ => .error .unexpectedEnd
  | operator outer f =>
    match Frame.close f outer with
    | (whole, none) => .ok whole
    | (_, some (position, _)) => .error (.unbalancedParen position)

end Reading

namespace Formula

def ofLexemes (lexemes : List Lexeme) : Except SyntaxError Formula :=
  lexemes.foldlM Reading.read (.operand []) >>= Reading.finish

def parse (text : String) : Except SyntaxError Formula := do
  match ← Lexeme.scan text with
  | [] => .error .empty
  | lexemes => ofLexemes lexemes

end Formula
end ModalTableau
