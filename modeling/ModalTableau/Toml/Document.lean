import ModalTableau.Toml.Scalar

/-!
TOML documents. A document is a list of lines with a key and its value, or with the header of the
table that the following keys belong to. Arrays of tables, floats and dates are refused.
-/

namespace ModalTableau.Toml

def isBareKeyChar (c : Char) : Bool := c.isAlphanum || c == '_' || c == '-'

def bareKey? (cs : List Char) : Option (String × List Char) :=
  match cs.span isBareKeyChar with
  | ([], _) => none
  | (s, rest) => some (String.ofList s, rest)

/-- Keys joined by dots. Spaces may stand around each of them. -/
def path? (cs : List Char) : Option (List String × List Char) := do
  let cs' := cs.dropWhile isSpace
  let (key, rest) ← quoted? cs' <|> bareKey? cs'
  match rest.dropWhile isSpace with
  | '.' :: rest =>
    if rest.length < cs.length then
      let (path, rest) ← path? rest
      return (key :: path, rest)
    else
      none
  | rest => return ([key], rest)
termination_by cs.length

def pair? (value : Reader Value) (cs : List Char) : Option ((List String × Value) × List Char) := do
  match ← path? cs with
  | (path, '=' :: rest) =>
    let (v, rest) ← value (rest.dropWhile isSpace)
    return ((path, v), rest)
  | _ => none

def skipLines (cs : List Char) : List Char :=
  match lineEnd? cs with
  | some rest => if rest.length < cs.length then skipLines rest else rest
  | none => cs.dropWhile isSpace
termination_by cs.length

/-- The rest of an array. A comma may stand behind the last item. -/
def items? (value : Reader Value) (cs : List Char) : Option (List Value × List Char) :=
  match skipLines cs with
  | ']' :: rest => some ([], rest)
  | start => do
    let (v, rest) ← value start
    match skipLines rest with
    | ']' :: rest => return ([v], rest)
    | ',' :: rest =>
      if rest.length < cs.length then
        let (vs, rest) ← items? value rest
        return (v :: vs, rest)
      else
        none
    | _ => none
termination_by cs.length

def pairs? (value : Reader Value) (t : Table) (cs : List Char) : Option (Table × List Char) := do
  let ((path, v), rest) ← pair? value cs
  let t ← t.insert? path v
  match rest.dropWhile isSpace with
  | '\x7d' :: rest => return (t, rest)
  | ',' :: rest => if rest.length < cs.length then pairs? value t rest else none
  | _ => none
termination_by cs.length

def inlineTable? (value : Reader Value) (cs : List Char) : Option (Table × List Char) :=
  match cs.dropWhile isSpace with
  | '\x7d' :: rest => some ([], rest)
  | cs => pairs? value [] cs

/-- A value, with arrays and tables at most `depth` deep. -/
def value? : (depth : Nat) → Reader Value
  | depth + 1, '[' :: rest => do
    let (items, rest) ← items? (value? depth) rest
    return (.array items, rest)
  | depth + 1, '\x7b' :: rest => do
    let (entries, rest) ← inlineTable? (value? depth) rest
    return (.table .inline entries, rest)
  | _, cs => scalar? cs

def nestingLimit : Nat := 80

inductive Statement where
  | entry (path : List String) (value : Value)
  | header (path : List String)

def header? (cs : List Char) : Option (Statement × List Char) := do
  match ← path? cs with
  | (path, ']' :: rest) => return (.header path, rest)
  | _ => none

/-- One line, or more if it has a value over several lines. -/
def statement? (cs : List Char) : Option (Option Statement × List Char) :=
  match lineEnd? cs with
  | some rest => some (none, rest)
  | none => do
    let (s, rest) ← match cs.dropWhile isSpace with
      | '[' :: rest => header? rest
      | cs => (pair? (value? nestingLimit) cs).map fun ((path, v), rest) => (.entry path v, rest)
    return (some s, ← lineEnd? rest)

def statementsFrom (cs : List Char) : Option (List Statement) :=
  match cs with
  | [] => some []
  | c :: cs => do
    let (s, rest) ← statement? (c :: cs)
    if rest.length ≤ cs.length then
      return s.toList ++ (← statementsFrom rest)
    else
      none
termination_by cs.length

/-- The lines of a document that say something. A byte order mark before them is skipped. -/
def statements? (text : String) : Option (List Statement) :=
  match text.toList with
  | '\uFEFF' :: cs => statementsFrom cs
  | cs => statementsFrom cs

structure Document where
  root : Table := []
  /-- Where the table is that keys belong to. -/
  here : List String := []

namespace Document

def add? (d : Document) : Statement → Option Document
  | .entry path v => do return { d with root := ← d.root.within? (·.insert? path v) d.here }
  | .header path => do return ⟨← d.root.declare? path, path⟩

def ofText? (text : String) : Option Document := do
  (← statements? text).foldlM add? {}

end Document

def isPlain (c : Char) : Bool := isPrintable c && c != '"' && c != '\\'

def Value.text? : Value → Option String
  | integer n => if isInRange n then some (toString n) else none
  | boolean b => some (toString b)
  | string s => if s.toList.all isPlain then some ("\"" ++ s ++ "\"") else none
  | array _ | table _ _ => none

def Table.lineText? : String × Value → Option String
  | (key, v) => do
    if !key.isEmpty && key.toList.all isBareKeyChar then
      return key ++ " = " ++ (← v.text?) ++ "\n"
    else none

/-- A table as a document, if every entry has a line. -/
def Table.text? (t : Table) : Option String := do
  return String.join (← t.mapM lineText?)

end ModalTableau.Toml
