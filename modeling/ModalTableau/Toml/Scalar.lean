import ModalTableau.Toml

/-!
Scalars in documents: integers, booleans and strings, and the spaces and comments around them.
Floats and dates are refused.
-/

namespace ModalTableau.Toml

/-- A reader takes a value off the front of the text, or refuses. -/
abbrev Reader (α : Type) := List Char → Option (α × List Char)

def isSpace (c : Char) : Bool := c == ' ' || c == '\t'

def isPrintable (c : Char) : Bool := c == '\t' || (0x20 ≤ c.toNat && c.toNat ≠ 0x7F)

def newline? : List Char → Option (List Char)
  | '\n' :: rest | '\r' :: '\n' :: rest => some rest
  | _ => none

def skipComment : List Char → List Char
  | '#' :: rest => rest.dropWhile isPrintable
  | cs => cs

/-- What follows the end of the line, if only spaces and a comment are left on it. -/
def lineEnd? (cs : List Char) : Option (List Char) :=
  match skipComment (cs.dropWhile isSpace) with
  | [] => some []
  | rest => newline? rest

def hexValue? (c : Char) : Option Nat :=
  if c.isDigit then some (c.toNat - 48)
  else if 'a' ≤ c ∧ c ≤ 'f' then some (c.toNat - 87)
  else if 'A' ≤ c ∧ c ≤ 'F' then some (c.toNat - 55)
  else none

def codePoint? (digits : List Char) : Option Char := do
  let n ← digits.foldlM (fun n c => (hexValue? c).map (16 * n + ·)) 0
  if n.isValidChar then some (Char.ofNat n) else none

def prepend (c : Char) (rest : Option (List Char × List Char)) : Option (List Char × List Char) :=
  rest.map fun (s, after) => (c :: s, after)

/-- The rest of a string in double quotes, as it is written. -/
def basicBody : Reader (List Char)
  | [] => none
  | '"' :: rest => some ([], rest)
  | '\\' :: c :: rest => if isPrintable c then prepend '\\' (prepend c (basicBody rest)) else none
  | c :: rest => if isPrintable c then prepend c (basicBody rest) else none

def multilineBody : Reader (List Char)
  | [] => none
  | '"' :: '"' :: '"' :: rest => some ([], rest)
  | '\\' :: '"' :: rest => prepend '\\' (prepend '"' (multilineBody rest))
  | '\\' :: '\\' :: rest => prepend '\\' (prepend '\\' (multilineBody rest))
  | c :: rest =>
    if isPrintable c || (newline? (c :: rest)).isSome then prepend c (multilineBody rest) else none

def literalBody : Reader (List Char)
  | [] => none
  | '\x27' :: rest => some ([], rest)
  | c :: rest => if isPrintable c then prepend c (literalBody rest) else none

def multilineLiteralBody : Reader (List Char)
  | [] => none
  | '\x27' :: '\x27' :: '\x27' :: rest => some ([], rest)
  | c :: rest =>
    if isPrintable c || (newline? (c :: rest)).isSome then
      prepend c (multilineLiteralBody rest)
    else
      none

def isLineBreak (cs : List Char) : Bool := (newline? (cs.dropWhile isSpace)).isSome

def isGap (c : Char) : Bool := isSpace c || c == '\n' || c == '\r'

/-- What a string in double quotes means. A backslash at the end of a line joins the lines: while
`joining`, gaps are left out. -/
def unescape (joining : Bool) : List Char → Option (List Char)
  | [] => some []
  | '\\' :: 'b' :: rest => ('\x08' :: ·) <$> unescape false rest
  | '\\' :: 't' :: rest => ('\t' :: ·) <$> unescape false rest
  | '\\' :: 'n' :: rest => ('\n' :: ·) <$> unescape false rest
  | '\\' :: 'f' :: rest => ('\x0c' :: ·) <$> unescape false rest
  | '\\' :: 'r' :: rest => ('\r' :: ·) <$> unescape false rest
  | '\\' :: '"' :: rest => ('"' :: ·) <$> unescape false rest
  | '\\' :: '\\' :: rest => ('\\' :: ·) <$> unescape false rest
  | '\\' :: 'u' :: a :: b :: c :: d :: rest => do
    return (← codePoint? [a, b, c, d]) :: (← unescape false rest)
  | '\\' :: 'U' :: a :: b :: c :: d :: e :: f :: g :: h :: rest => do
    return (← codePoint? [a, b, c, d, e, f, g, h]) :: (← unescape false rest)
  | '\\' :: rest => if isLineBreak rest then unescape true rest else none
  | c :: rest =>
    if joining && isGap c then unescape true rest else (c :: ·) <$> unescape false rest

/-- A line feed right after the opening quotes is not part of the string. -/
def skipNewline (cs : List Char) : List Char := (newline? cs).getD cs

def quoted? : Reader String
  | '"' :: rest => do
    let (s, rest) ← basicBody rest
    return (String.ofList (← unescape false s), rest)
  | '\x27' :: rest => do
    let (s, rest) ← literalBody rest
    return (String.ofList s, rest)
  | _ => none

def string? : Reader String
  | '"' :: '"' :: '"' :: rest => do
    let (s, rest) ← multilineBody (skipNewline rest)
    return (String.ofList (← unescape false s), rest)
  | '\x27' :: '\x27' :: '\x27' :: rest => do
    let (s, rest) ← multilineLiteralBody (skipNewline rest)
    return (String.ofList s, rest)
  | cs => quoted? cs

/-- The digits of a number in the given base, with single underscores between them. -/
def digitsFrom (base value : Nat) : List Char → Nat × List Char
  | [] => (value, [])
  | '_' :: c :: rest =>
    match (hexValue? c).filter (· < base) with
    | some d => digitsFrom base (base * value + d) rest
    | none => (value, '_' :: c :: rest)
  | c :: rest =>
    match (hexValue? c).filter (· < base) with
    | some d => digitsFrom base (base * value + d) rest
    | none => (value, c :: rest)

def digits? (base : Nat) : Reader Nat
  | [] => none
  | c :: rest => ((hexValue? c).filter (· < base)).map (digitsFrom base · rest)

/-- A decimal number has no leading zero. -/
def decimal? : Reader Nat
  | '0' :: rest => some (0, rest)
  | cs => digits? 10 cs

def unsigned? : Reader Nat
  | '0' :: 'x' :: rest => digits? 16 rest
  | '0' :: 'o' :: rest => digits? 8 rest
  | '0' :: 'b' :: rest => digits? 2 rest
  | cs => decimal? cs

def isInRange (n : Int) : Bool := -9223372036854775808 ≤ n && n ≤ 9223372036854775807

def integer? (cs : List Char) : Option (Value × List Char) := do
  let (n, rest) ← match cs with
    | '+' :: rest => (decimal? rest).map fun (n, rest) => (Int.ofNat n, rest)
    | '-' :: rest => (decimal? rest).map fun (n, rest) => (-Int.ofNat n, rest)
    | cs => (unsigned? cs).map fun (n, rest) => (Int.ofNat n, rest)
  if isInRange n then some (.integer n, rest) else none

def scalar? : Reader Value
  | 't' :: 'r' :: 'u' :: 'e' :: rest => some (.boolean true, rest)
  | 'f' :: 'a' :: 'l' :: 's' :: 'e' :: rest => some (.boolean false, rest)
  | cs => (string? cs).map (fun (s, rest) => (.string s, rest)) <|> integer? cs

end ModalTableau.Toml
