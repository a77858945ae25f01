import ModalTableau.Settings.Layers
import ModalTableau.Toml.Document

/-!
Settings in environment variables, and with them the libraries of the program. The setting
`max_worlds` is in `KTAB_MAX_WORLDS`, whatever the case of the letters. A name may also lead on into a
value: two underscores or a dot go to an entry, and a number in brackets to an item. No setting has
entries or items, so such a variable is a mistake.
-/

namespace ModalTableau

namespace Environment

def get? (env : Environment) (name : String) : Option String := List.lookup name env

/-- A character of a name without its case. The kelvin sign is a capital k. -/
def foldCase (c : Char) : Char := if c = '\u212A' then 'k' else c.toLower

def digits? (cs : List Char) : Option Nat :=
  if cs.isEmpty then none else cs.foldlM (fun n c =>
    if c.isDigit then some (10 * n + (c.toNat - 48)) else none) 0

def isNameChar (c : Char) : Bool := c.isAlphanum || c == '_' || c == '-' || c == ' '

/-- An index behind its opening bracket, as far as the closing one. It has 64 bits, with the sign.
There may be spaces around it. -/
def isIndex (cs : List Char) : Bool :=
  match (cs.dropWhile Toml.isSpace).reverse with
  | ']' :: rest =>
    match (rest.dropWhile Toml.isSpace).reverse with
    | '-' :: ds => (digits? ds).any (· ≤ 9223372036854775808)
    | ds => (digits? ds).any (· < 9223372036854775808)
  | _ => false

/-- A part of a name that lies between dots: a key, and whether indices follow it. -/
def part? (cs : List Char) : Option (String × Bool) :=
  match cs.splitOn '[' with
  | [] => none
  | key :: indices =>
    if !key.isEmpty && key.all isNameChar && indices.all isIndex then
      some (String.ofList key, !indices.isEmpty)
    else
      none

def dotted : List Char → List Char
  | [] => []
  | '_' :: '_' :: rest => '.' :: dotted rest
  | c :: rest => c :: dotted rest

inductive Variable where
  | text (value : String)
  /-- The name leads on from the key. -/
  | nested
deriving DecidableEq

/-- What one variable says about a key. -/
def about? (key name value : String) : Option Variable :=
  match name.toList.map foldCase with
  | 'k' :: 't' :: 'a' :: 'b' :: '_' :: path => do
    match ← ((dotted path).splitOn '.').mapM part? with
    | [] => none
    | (first, indexed) :: more =>
      if first ≠ key then none
      else if indexed || !more.isEmpty then some .nested
      else some (.text value)
  | _ => none

/-- Of two variables for one setting the later one counts. -/
def find? (env : Environment) (key : String) : Option Variable :=
  env.reverse.findSome? fun (name, value) => about? key name value

def switch? (s : String) : Option Bool :=
  match lower s with
  | "true" | "on" | "yes" => some true
  | "false" | "off" | "no" => some false
  | _ => none

/-- A switch counts as 1 or 0. Any other text is a number of 64 bits, with or without a plus. -/
def natural? (s : String) : Option Nat :=
  match switch? s with
  | some b => some b.toNat
  | none =>
    let digits := match s.toList with
      | '+' :: rest => rest
      | cs => cs
    (digits? digits).filter (· ≤ 18446744073709551615)

def boolean? : String → Option Bool
  | "1" => some true
  | "0" => some false
  | s => switch? s

def lookup {α : Type} (convert : String → Option α) (env : Environment) (key : String) : Found α :=
  match env.find? key with
  | none => .missing
  | some .nested => .unusable
  | some (.text value) => (convert value).elim .unusable .value

end Environment

def Libraries.own : Libraries where
  readToml? text := (Toml.Document.ofText? text).map (·.root)
  writeToml? := Toml.Table.text?
  natural := Environment.lookup Environment.natural?
  boolean := Environment.lookup Environment.boolean?
  text := Environment.lookup some

end ModalTableau
