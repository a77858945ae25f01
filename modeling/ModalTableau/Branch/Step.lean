import ModalTableau.Branch

/-!
One step on a branch. Rules that add to the branch come first, then rules that split it, then rules
that ask for a successor; among equals the formula that arrived first. So a successor is asked for
only when nothing more can be said about the worlds that are there.
-/

namespace ModalTableau

inductive Step (β : Type) where
  | extended (inferences : List Inference) (after : β)
  | split (rule : Rule) (premise left right : Signed) (after : β)
  | saturated

namespace Step

variable {β γ : Type}

def branch (before : β) : Step β → β
  | extended _ after | split _ _ _ _ after => after
  | saturated => before

def map (f : β → γ) : Step β → Step γ
  | extended inferences after => extended inferences (f after)
  | split rule premise left right after => split rule premise left right (f after)
  | saturated => saturated

end Step

/-- Replaces the first element that `f` answers, and gives the answer. -/
def updateFirst {α β : Type} (f : α → Option (β × α)) : List α → Option (β × List α)
  | [] => none
  | a :: rest =>
    match f a with
    | some (b, a') => some (b, a' :: rest)
    | none => (updateFirst f rest).map fun (b, rest') => (b, a :: rest')

namespace Branch

/-- The successors that a rule about every successor has yet to reach. -/
def unreached (b : Branch) (e : Entry) : List World :=
  (b.successors e.signed.world).filter (· ∉ e.reached)

/-- What is concluded from an entry without a choice, and the entry afterwards. -/
def linear? (b : Branch) (e : Entry) : Option ((Rule × Signed × List Signed) × Entry) :=
  if e.used then
    none
  else
    match e.signed.expand with
    | some (rule, .alpha conclusions) =>
      some ((rule, e.signed, conclusions), { e with used := true })
    | some (rule, .everySuccessor sign f) =>
      match b.unreached e with
      | [] => none
      | targets =>
        some ((rule, e.signed, targets.map (⟨·, sign, f⟩)),
          { e with reached := e.reached.insertMany targets })
    | _ => none

def alternatives? (e : Entry) : Option ((Rule × Signed × Signed × Signed) × Entry) :=
  if e.used then
    none
  else
    match e.signed.expand with
    | some (rule, .beta left right) => some ((rule, e.signed, left, right), { e with used := true })
    | _ => none

def demand? (e : Entry) : Option ((Rule × Signed × Sign × Formula) × Entry) :=
  if e.used then
    none
  else
    match e.signed.expand with
    | some (rule, .someSuccessor sign f) =>
      some ((rule, e.signed, sign, f), { e with used := true })
    | _ => none

/-- What a rule about every successor says of the successors, if `s` has such a rule. -/
def spread? (s : Signed) : Option (Sign × Formula) :=
  match s.expansion? with
  | some (.everySuccessor sign f) => some (sign, f)
  | _ => none

def holders (b : Branch) (sign : Sign) (f : Formula) : Ascending World :=
  .ofList ((b.formulas.filter fun s => s.sign = sign ∧ s.formula = f).map (·.world))

/-- The first world that has all that a new successor of `source` with the given formula would
receive. -/
def blocker? (b : Branch) (source : World) (sign : Sign) (f : Formula) : Option World :=
  let more := (b.label source).filterMap spread?
  (b.holders sign f).toList.find? fun w => more.all fun (sign, f) => b.contains ⟨w, sign, f⟩

/-- The edge to an existing world; it counts as reused unless it was there before. -/
def reuse (b : Branch) (e : Edge) : Branch :=
  let after := b.addEdge e
  if e ∈ b.edges then after else { after with reused := after.reused.insert e }

def grant (b : Branch) (blocking : Bool) (rule : Rule) (premise : Signed) (sign : Sign)
    (f : Formula) : List Inference × Branch :=
  match if blocking then b.blocker? premise.world sign f else none with
  | some target =>
    let edge := ⟨premise.world, target⟩
    ([.access edge rule premise true], b.reuse edge)
  | none =>
    let edge := ⟨premise.world, b.nextWorld⟩
    let conclusion := ⟨b.nextWorld, sign, f⟩
    ([.access edge rule premise false, .derived conclusion rule premise],
      (b.addEdge edge).add conclusion)

def step (blocking : Bool) (b : Branch) : Step Branch :=
  match updateFirst b.linear? b.entries with
  | some ((rule, premise, conclusions), entries) =>
    let (after, new) := { b with entries }.addAll conclusions
    .extended (new.map (.derived · rule premise)) after
  | none =>
    match updateFirst alternatives? b.entries with
    | some ((rule, premise, left, right), entries) =>
      .split rule premise left right { b with entries }
    | none =>
      match updateFirst demand? b.entries with
      | some ((rule, premise, sign, f), entries) =>
        let (inferences, after) := { b with entries }.grant blocking rule premise sign f
        .extended inferences after
      | none => .saturated

/-- Whether there is nothing left to do about an entry. -/
def isSettled (b : Branch) (e : Entry) : Bool :=
  match e.signed.expansion? with
  | none => true
  | some (.everySuccessor _ _) => (b.successors e.signed.world).all (· ∈ e.reached)
  | some _ => e.used

def isSaturated (b : Branch) : Bool := b.entries.all b.isSettled

end Branch
end ModalTableau
