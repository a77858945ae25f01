import ModalTableau.Batch
import ModalTableau.Json
import ModalTableau.Tableau.Draft

/-!
Results as JSON. Formulas are written as ASCII text; the fields of a record keep one fixed order.
-/

namespace ModalTableau

def Formula.toJson (f : Formula) : Json := .str (f.render .ascii)

def Signed.toJson (s : Signed) : Json :=
  .obj [("formula", s.formula.toJson), ("sign", .str s.sign.tag), ("world", .num s.world)]

def Rule.toJson (r : Rule) : Json :=
  .obj [("sign", .str r.sign.tag), ("connective", .str r.connective.tag)]

def Inference.toJson : Inference → Json
  | derived conclusion rule premise =>
    .obj [("kind", .str "derived"), ("conclusion", conclusion.toJson), ("rule", rule.toJson),
      ("premise", premise.toJson)]
  | access edge rule premise reused =>
    .obj [("kind", .str "access"), ("from", .num edge.source), ("to", .num edge.target),
      ("rule", rule.toJson), ("premise", premise.toJson), ("reused", .bool reused)]

def Status.toJson : Status → Json
  | building => .obj [("state", .str "building")]
  | split rule premise =>
    .obj [("state", .str "split"), ("rule", rule.toJson), ("premise", premise.toJson)]
  | closed clash => .obj [("state", .str "closed"), ("clash", clash.toJson)]
  | saturated => .obj [("state", .str "open")]

mutual
def Tableau.toJson : Tableau → Json
  | .node s ts =>
    .obj [("seed", .ofList Signed.toJson s.seed),
      ("inferences", .ofList Inference.toJson s.inferences), ("status", s.status.toJson),
      ("children", .arr (Tableau.toJsonAll ts))]

def Tableau.toJsonAll : List Tableau → List Json
  | [] => []
  | t :: ts => Tableau.toJson t :: Tableau.toJsonAll ts
end

def Draft.toJson (d : Draft) : Json := .ofOption Tableau.toJson d.tableau?

def Edge.toJson (e : Edge) : Json := .arr [.num e.source, .num e.target]

def Model.valuesJson (m : Model) (w : World) : Json :=
  .obj ((m.valuesAt w).map fun (atom, value) => (atom, .bool value))

def Model.toJson (m : Model) : Json :=
  let valued := m.worlds.toList.filter fun w => !(m.valuesAt w).isEmpty
  .obj [("worlds", .ofList .num m.worlds.toList),
    ("relation", .ofList Edge.toJson m.relation.toList),
    ("valuation", .obj (valued.map fun w => (toString w, m.valuesJson w)))]

def Profile.toJson (p : Profile) : Json :=
  .obj [("modal", .bool p.modal),
    ("connectives", .ofList (.str <| Connective.tag ·) p.connectives.toList),
    ("atoms", .ofList .str p.atoms.toList), ("size", .num p.size), ("depth", .num p.depth),
    ("modal_depth", .num p.modalDepth)]

def Outcome.toJson (o : Outcome) : Json :=
  .obj [("verdict", .str o.verdict.text), ("tree", Tableau.toJson o.tableau),
    ("model", .ofOption Model.toJson o.model)]

def Report.toJson (r : Report) : Json :=
  .obj [("formula", r.formula.toJson), ("profile", r.formula.profile.toJson),
    ("validity", r.validity.toJson), ("satisfiability", r.satisfiability.toJson),
    ("classification", .str r.classification.text),
    ("explanation", .str r.classification.explanation)]

def Batch.Entry.toJson (e : Batch.Entry) : Json :=
  .obj [("line", .num e.line.number), ("input", .str e.line.text),
    ("result", match e.result with
      | .ok report => .obj [("report", report.toJson)]
      | .error failure => .obj [("error", .str failure.message)])]

end ModalTableau
