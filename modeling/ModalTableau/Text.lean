/-!
Text: its blanks and lines, columns filled up with spaces, and the text in the contents of files.
-/

namespace ModalTableau

namespace Text

/-- The code points with the Unicode property White_Space. -/
def blankRanges : List (Nat × Nat) :=
  [(0x09, 0x0D), (0x20, 0x20), (0x85, 0x85), (0xA0, 0xA0), (0x1680, 0x1680), (0x2000, 0x200A),
   (0x2028, 0x2029), (0x202F, 0x202F), (0x205F, 0x205F), (0x3000, 0x3000)]

def isBlank (c : Char) : Bool :=
  blankRanges.any fun (low, high) => low ≤ c.toNat && c.toNat ≤ high

def trim (s : String) : String :=
  String.ofList ((s.toList.dropWhile isBlank).reverse.dropWhile isBlank).reverse

def splitLines : List Char → List (List Char)
  | [] => [[]]
  | '\n' :: rest => [] :: splitLines rest
  | c :: rest =>
    match splitLines rest with
    | [] => [[c]]
    | first :: more => (c :: first) :: more

def dropReturn (line : List Char) : List Char :=
  if line.getLast? = some '\r' then line.dropLast else line

-- A carriage return belongs to the end of a line only if a line feed follows it, and nothing behind
-- the last line feed is no line.
def endedLines : List (List Char) → List (List Char)
  | [] | [[]] => []
  | [last] => [last]
  | line :: rest => dropReturn line :: endedLines rest

def lines (s : String) : List String := (endedLines (splitLines s.toList)).map String.ofList

def spaces (n : Nat) : String := String.ofList (List.replicate n ' ')

def padRight (width : Nat) (s : String) : String := s ++ spaces (width - s.length)

def padLeft (width : Nat) (s : String) : String := spaces (width - s.length) ++ s

end Text

inductive ReadFailure where
  | system (reason : String) (code : Nat)
  | notText
deriving DecidableEq

def ReadFailure.message : ReadFailure → String
  | system reason code => s!"{reason} (os error {code})"
  | notText => "stream did not contain valid UTF-8"

abbrev Contents := Except ReadFailure ByteArray

def Contents.text (contents : Contents) : Except ReadFailure String := do
  match String.fromUTF8? (← contents) with
  | some text => .ok text
  | none => .error .notText

end ModalTableau
