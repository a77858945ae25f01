/-!
Values of TOML documents, and the rules by which a document adds to its tables. A key is given a
value once, and a table is written in one place.
-/

namespace ModalTableau.Toml

/-- How a table came about, which decides what may be added to it. -/
inductive Opening where
  /-- Other headers lead through it. -/
  | implied
  | header
  /-- Dotted keys lead through it. -/
  | dotted
  /-- It is written between braces, all at once. -/
  | inline
deriving DecidableEq

inductive Value where
  | integer (n : Int)
  | boolean (b : Bool)
  | string (s : String)
  | array (items : List Value)
  | table (opening : Opening) (entries : List (String × Value))

abbrev Table := List (String × Value)

namespace Table

/-- Gives a key the value that is made of its present one, or refuses. -/
def update? (t : Table) (key : String) (f : Option Value → Option Value) : Option Table :=
  match t with
  | [] => do return [(key, ← f none)]
  | (k, v) :: rest => do
    if k = key then return (k, ← f (some v)) :: rest else return (k, v) :: (← update? rest key f)

/-- Gives a dotted key its value. The key must be new, and the tables that lead to it must be new or
have come about by dotted keys too. -/
def insert? : Table → List String → Value → Option Table
  | _, [], _ => none
  | t, [key], v => t.update? key fun
    | none => some v
    | some _ => none
  | t, key :: path, v => t.update? key fun
    | none => (insert? [] path v).map (.table .dotted)
    | some (.table .dotted entries) => (insert? entries path v).map (.table .dotted)
    | some _ => none

/-- Makes a table for a header. It must be new or be there only because other headers lead through
it. -/
def declare? : Table → List String → Option Table
  | _, [] => none
  | t, [key] => t.update? key fun
    | none => some (.table .header [])
    | some (.table .implied entries) => some (.table .header entries)
    | some _ => none
  | t, key :: path => t.update? key fun
    | none => (declare? [] path).map (.table .implied)
    | some (.table .inline _) => none
    | some (.table opening entries) => (declare? entries path).map (.table opening)
    | some _ => none

def within? (f : Table → Option Table) : Table → List String → Option Table
  | t, [] => f t
  | t, key :: path => t.update? key fun
    | some (.table opening entries) => (within? f entries path).map (.table opening)
    | _ => none

end Table
end ModalTableau.Toml
