import ModalTableau.Branch.Ledger
import ModalTableau.Limits
import ModalTableau.Tableau

/-!
Growing a tableau from its root. Every branch is worked on until it closes or nothing is left to do;
where it splits, the left alternative is finished before the right one is begun. A branch that
passes a ceiling ends the whole attempt. Growth is the same for branches and for ledgers.
-/

namespace ModalTableau

/-- What growing a tableau needs of a branch, in whatever form the branch is. -/
class Growable (β : Type) where
  clash? : β → Option Signed
  worldCount : β → Nat
  step : (blocking : Bool) → β → Step β
  add : β → Signed → β
  toBranch : β → Branch

namespace Branch

instance : Growable Branch := ⟨clash, fun b => b.worlds.size, step, add, id⟩

@[simp] theorem growable_clash? (b : Branch) : Growable.clash? b = b.clash := rfl

@[simp] theorem growable_worldCount (b : Branch) : Growable.worldCount b = b.worlds.size := rfl

@[simp] theorem growable_step (blocking : Bool) (b : Branch) :
    Growable.step blocking b = b.step blocking := rfl

@[simp] theorem growable_add (b : Branch) (s : Signed) : Growable.add b s = b.add s := rfl

@[simp] theorem growable_toBranch (b : Branch) : Growable.toBranch b = b := rfl

end Branch

namespace Tableau

def ending (seed : List Signed) (status : Status) (b : Branch) : Tableau :=
  .leaf ⟨seed, [], status, some b⟩

open Growable (clash? worldCount toBranch) in
/-- The tableau below a branch that starts a segment with `seed` and may take `remaining` more
steps. -/
def grow {β : Type} [Growable β] (limits : Limits) (seed : List Signed) (b : β) (remaining : Nat) :
    Except Fault Tableau :=
  match clash? b with
  | some clash => .ok (ending seed (.closed clash) (toBranch b))
  | none =>
    match remaining with
    | 0 => .error ⟨.iterations limits.maxIterations, limits.maxIterations, worldCount b⟩
    | rest + 1 =>
      match Growable.step limits.blocking b with
      | .saturated => .ok (ending seed .saturated (toBranch b))
      | .split rule premise left right after => do
        let leftTree ← grow limits [left] (Growable.add after left) rest
        let rightTree ← grow limits [right] (Growable.add after right) rest
        return .node ⟨seed, [], .split rule premise, none⟩ [leftTree, rightTree]
      | .extended inferences after =>
        if limits.maxWorlds < worldCount after then
          .error ⟨.worlds limits.maxWorlds, limits.maxIterations - rest, worldCount after⟩
        else
          (grow limits seed after rest).map (·.mapLabel (·.prepend inferences))
termination_by structural remaining

def build (limits : Limits) (root : Signed) : Except Fault Tableau :=
  grow limits [root] (Branch.ofRoot root) limits.maxIterations

end Tableau

namespace Ledger

instance : Growable Ledger where
  clash? l := l.clash?.map (·.1)
  worldCount l := l.worlds.size
  step := step
  add l s := (l.add s).2
  toBranch := branch

@[simp] theorem growable_clash? (l : Ledger) : Growable.clash? l = l.branch.clash := rfl

@[simp] theorem growable_worldCount (l : Ledger) : Growable.worldCount l = l.branch.worlds.size := rfl

@[simp] theorem growable_step (blocking : Bool) (l : Ledger) :
    Growable.step blocking l = l.step blocking := rfl

@[simp] theorem growable_add (l : Ledger) (s : Signed) : Growable.add l s = (l.add s).2 := rfl

@[simp] theorem growable_toBranch (l : Ledger) : Growable.toBranch l = l.branch := rfl

def build (limits : Limits) (root : Signed) : Except Fault Tableau :=
  Tableau.grow limits [root] (ofRoot root) limits.maxIterations

end Ledger
end ModalTableau
